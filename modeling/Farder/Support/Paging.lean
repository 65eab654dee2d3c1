import Mathlib.Data.List.Basic
import Mathlib.Tactic.Common

/-! # Paging

A reader asks for the entries of a growing list that come after a cursor, and gets so many of them
at a time. Positions count from one. -/
namespace Paging

variable {α : Type}

/-- The entries that are looked for and come after the cursor, with their positions. -/
def after (keep : α → Bool) (since : ℕ) (l : List α) : List (α × ℕ) :=
  (l.zipIdx 1).filter fun x => keep x.1 && decide (since < x.2)

def nextCursor (since : ℕ) (page : List (α × ℕ)) : ℕ := (page.getLast?.map Prod.snd).getD since

def Ascending (l : List (α × ℕ)) : Prop := l.Pairwise fun x y => x.2 < y.2

variable {keep : α → Bool} {since limit : ℕ} {l : List α} {x : α × ℕ}

theorem ascending_zipIdx (l : List α) (k : ℕ) : Ascending (l.zipIdx k) := by
  induction l generalizing k with
  | nil => exact .nil
  | cons a l ih =>
    rw [List.zipIdx_cons]
    refine List.pairwise_cons.mpr ⟨fun x hx => ?_, ih (k + 1)⟩
    have hle := List.le_snd_of_mem_zipIdx hx
    show k < x.2
    omega

theorem ascending_after : Ascending (after keep since l) := (ascending_zipIdx l 1).filter _

theorem mem_after : x ∈ after keep since l ↔
    x ∈ l.zipIdx 1 ∧ keep x.1 = true ∧ since < x.2 := by
  simp [after]

theorem position_le (h : x ∈ l.zipIdx 1) : x.2 ≤ l.length := by
  have hlt := List.snd_lt_add_of_mem_zipIdx h
  omega

theorem nextCursor_mem (since : ℕ) {page : List (α × ℕ)} (h : page ≠ []) :
    ∃ x ∈ page, nextCursor since page = x.2 := by
  refine ⟨page.getLast h, List.getLast_mem h, ?_⟩
  simp [nextCursor, List.getLast?_eq_some_getLast h]

/-- The next cursor is not before the last one, and not past the end of the list. -/
theorem nextCursor_bounds (keep : α → Bool) (since limit : ℕ) (l : List α) :
    since ≤ nextCursor since ((after keep since l).take limit) ∧
      nextCursor since ((after keep since l).take limit) ≤ max since l.length := by
  by_cases hpage : (after keep since l).take limit = []
  · rw [hpage]
    exact ⟨Nat.le_refl _, Nat.le_max_left _ _⟩
  · obtain ⟨x, hx, hnext⟩ := nextCursor_mem since hpage
    obtain ⟨hmem, -, hlt⟩ := mem_after.mp (List.mem_of_mem_take hx)
    have hle := position_le hmem
    rw [hnext]
    omega

theorem lt_nextCursor (hmore : limit < (after keep since l).length) (hlimit : 0 < limit) :
    since < nextCursor since ((after keep since l).take limit) := by
  have hne : (after keep since l).take limit ≠ [] := by
    intro hnil
    have hlength := congrArg List.length hnil
    rw [List.length_take, List.length_nil] at hlength
    omega
  obtain ⟨x, hx, hnext⟩ := nextCursor_mem since hne
  rw [hnext]
  exact (mem_after.mp (List.mem_of_mem_take hx)).2.2

theorem filter_past_page (since : ℕ) {entries : List (α × ℕ)} (h : Ascending entries) {page rest}
    (hsplit : entries = page ++ rest) (hpage : page ≠ []) :
    entries.filter (fun x => decide (nextCursor since page < x.2)) = rest := by
  obtain ⟨front, last, rfl⟩ := List.eq_nil_or_concat' page |>.resolve_left hpage
  have hnext : nextCursor since (front ++ [last]) = last.2 := by simp [nextCursor]
  subst hsplit
  obtain ⟨hfront, -, hcross⟩ := List.pairwise_append.mp h
  rw [hnext, List.filter_append, List.filter_eq_nil_iff.mpr, List.nil_append,
    List.filter_eq_self.mpr]
  · intro x hx
    simpa using hcross last (by simp) x hx
  · intro x hx
    rcases List.mem_append.mp hx with hx | hx
    · have hlt := (List.pairwise_append.mp hfront).2.2 x hx last (by simp)
      simp only [decide_eq_true_eq]
      omega
    · simp [List.mem_singleton.mp hx]

theorem map_fst_after_zero (keep : α → Bool) (l : List α) :
    (after keep 0 l).map Prod.fst = l.filter keep := by
  have hpos : after keep 0 l = (l.zipIdx 1).filter (keep ∘ Prod.fst) := by
    refine List.filter_congr fun x hx => ?_
    have hle := List.le_snd_of_mem_zipIdx hx
    simp [show 0 < x.2 by omega]
  rw [hpos, ← List.filter_map, List.zipIdx_map_fst]

theorem after_prefix {l' : List α} (h : l <+: l') : after keep since l <+: after keep since l' := by
  obtain ⟨added, rfl⟩ := h
  rw [after, after, List.zipIdx_append]
  exact (List.prefix_append _ _).filter _

theorem append_after {page : List (α × ℕ)} (h : page <+: after keep since l) :
    page ++ after keep (nextCursor since page) l = after keep since l := by
  by_cases hpage : page = []
  · subst hpage
    rfl
  obtain ⟨rest, hsplit⟩ := h
  have hpast := filter_past_page since ascending_after hsplit.symm hpage
  obtain ⟨x, hx, hnext⟩ := nextCursor_mem since hpage
  have hlt : since < x.2 := (mem_after.mp (hsplit ▸ List.mem_append_left rest hx)).2.2
  have hafter : after keep (nextCursor since page) l =
      (after keep since l).filter fun x => decide (nextCursor since page < x.2) := by
    rw [after, after, List.filter_filter]
    refine List.filter_congr fun y _ => ?_
    by_cases hy : nextCursor since page < y.2
    · simp [hy, show since < y.2 by omega]
    · simp [hy]
  rw [hafter, hpast, hsplit]

theorem take_append_after (keep : α → Bool) (since limit : ℕ) (l : List α) :
    (after keep since l).take limit ++
        after keep (nextCursor since ((after keep since l).take limit)) l =
      after keep since l := append_after (List.take_prefix _ _)

/-! ## A page and a filter -/

/-- A page that is filtered afterwards is a page of the filtered list exactly if the filters agree
on it, and nothing was dropped from it while there was more to come. -/
theorem filter_take_eq_take_filter {p q : α → Bool} (l : List α) (n : ℕ) :
    (l.take n).filter p = (l.filter q).take n ↔ (∀ x ∈ l.take n, p x = q x) ∧
      ((∀ x ∈ l.take n, q x = true) ∨ ∀ x ∈ l.drop n, q x = false) := by
  have hshort : ((l.take n).filter q).length ≤ n :=
    Nat.le_trans (List.length_filter_le _ _) (List.length_take_le _ _)
  have hcut : (l.filter q).take n = (l.take n).filter q ++
      ((l.drop n).filter q).take (n - ((l.take n).filter q).length) := by
    have hsplit : l.filter q = (l.take n).filter q ++ (l.drop n).filter q := by
      rw [← List.filter_append, List.take_append_drop]
    rw [hsplit, List.take_append, List.take_of_length_le hshort]
  rw [hcut]
  constructor
  · intro h
    have hagree (x : α) (hx : x ∈ l.take n) : p x = q x := by
      refine Bool.eq_iff_iff.mpr ⟨fun hp => ?_, fun hq => ?_⟩
      · have hmem := List.mem_filter.mpr ⟨hx, hp⟩
        rw [h] at hmem
        rcases List.mem_append.mp hmem with hmem | hmem
        · exact (List.mem_filter.mp hmem).2
        · exact (List.mem_filter.mp (List.mem_of_mem_take hmem)).2
      · have hmem := List.mem_append_left
          (((l.drop n).filter q).take (n - ((l.take n).filter q).length))
          (List.mem_filter.mpr ⟨hx, hq⟩)
        rw [← h] at hmem
        exact (List.mem_filter.mp hmem).2
    refine ⟨hagree, ?_⟩
    rw [List.filter_congr hagree, List.self_eq_append_right, List.take_eq_nil_iff] at h
    rcases h with hfull | hnone
    · refine .inl (List.length_filter_eq_length_iff.mp ?_)
      have hle := List.length_filter_le q (l.take n)
      have hpage := List.length_take_le n l
      omega
    · exact .inr fun x hx => Bool.eq_false_iff.mpr (List.filter_eq_nil_iff.mp hnone x hx)
  · rintro ⟨hagree, hrest⟩
    rw [List.filter_congr hagree, List.self_eq_append_right, List.take_eq_nil_iff]
    rcases hrest with hall | hnone
    · have hpage : (l.take n).filter q = l.take n := List.filter_eq_self.mpr hall
      rw [hpage, List.length_take]
      by_cases hlong : n ≤ l.length
      · exact .inl (by omega)
      · refine .inr ?_
        rw [List.drop_of_length_le (Nat.le_of_not_le hlong)]
        rfl
    · refine .inr (List.filter_eq_nil_iff.mpr fun x hx => ?_)
      rw [hnone x hx]
      exact Bool.false_ne_true

end Paging
