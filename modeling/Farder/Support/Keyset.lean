import Mathlib.Algebra.Order.Ring.Nat
import Mathlib.Tactic.Common

/-! # Keyset paging

A list that descends by a key is read page by page, each page from below the key that the page
before it ended with. -/
namespace Keyset

variable {α κ : Type} [LinearOrder κ] (key : α → κ) (l : List α) (size : ℕ)

/-- The first entries below the cursor. -/
def page (before : κ) : List α := (l.filter (key · < before)).take size

/-- The pages one after the other, until one is empty. -/
def walk (fuel : ℕ) (before : κ) : List α :=
  match fuel with
  | 0 => []
  | fuel + 1 =>
    match (page key l size before).getLast? with
    | none => []
    | some last => page key l size before ++ walk fuel (key last)

def Descending : Prop := l.Pairwise fun a b => key b < key a

variable {key l size} {before : κ} {fuel : ℕ} {a last : α}

theorem below_of_mem_page (h : a ∈ page key l size before) : key a < before :=
  of_decide_eq_true (List.mem_filter.mp (List.mem_of_mem_take h)).2

theorem page_map {β : Type} (f : β → α) (l : List β) :
    page key (l.map f) size before = (page (key ∘ f) l size before).map f := by
  rw [page, page, List.filter_map, List.map_take]
  rfl

theorem filter_after (h : Descending key l)
    (hlast : (page key l size before).getLast? = some last) :
    l.filter (key · < key last) = (l.filter (key · < before)).drop size := by
  have hbelow : key last < before := below_of_mem_page (List.mem_of_getLast? hlast)
  have htwice : l.filter (key · < key last) =
      (l.filter (key · < before)).filter (key · < key last) := by
    rw [List.filter_filter]
    refine List.filter_congr fun a _ => ?_
    by_cases ha : key a < key last
    · simp [ha, ha.trans hbelow]
    · simp [ha]
  have hsorted : Descending key (l.filter (key · < before)) := h.filter _
  rw [htwice]
  generalize hrest : l.filter (key · < before) = rest at hsorted
  rw [page, hrest] at hlast
  conv_lhs => rw [← List.take_append_drop size rest, List.filter_append]
  have hsplit := hsorted
  rw [Descending, ← List.take_append_drop size rest, List.pairwise_append] at hsplit
  obtain ⟨htake, -, hdrop⟩ := hsplit
  have hnone : (rest.take size).filter (key · < key last) = [] := by
    refine List.filter_eq_nil_iff.mpr fun a ha => ?_
    obtain ⟨front, hfront⟩ := List.getLast?_eq_some_iff.mp hlast
    rw [hfront] at ha htake
    rcases List.mem_append.mp ha with ha | ha
    · have hlt := (List.pairwise_append.mp htake).2.2 a ha last (List.mem_singleton_self last)
      simpa using hlt.le
    · simp [List.mem_singleton.mp ha]
  have hall : (rest.drop size).filter (key · < key last) = rest.drop size :=
    List.filter_eq_self.mpr fun a ha =>
      decide_eq_true (hdrop last (List.mem_of_getLast? hlast) a ha)
  rw [hnone, hall, List.nil_append]

theorem walk_eq (h : Descending key l) (hsize : 0 < size)
    (hfuel : (l.filter (key · < before)).length ≤ fuel) :
    walk key l size fuel before = l.filter (key · < before) := by
  induction fuel generalizing before with
  | zero => exact (List.eq_nil_of_length_eq_zero (Nat.le_zero.mp hfuel)).symm
  | succ fuel ih =>
    unfold walk
    cases hlast : (page key l size before).getLast? with
    | none =>
      rw [List.getLast?_eq_none_iff, page, List.take_eq_nil_iff] at hlast
      rcases hlast with hzero | hnil
      · omega
      · exact hnil.symm
    | some last =>
      have hrest := filter_after h hlast
      have hshort : (l.filter (key · < key last)).length ≤ fuel := by
        rw [hrest, List.length_drop]
        omega
      dsimp only
      rw [ih hshort, hrest, page, List.take_append_drop]

theorem walk_one : Descending key (walk key l 1 fuel before) ∧
    ∀ a ∈ walk key l 1 fuel before, key a < before := by
  induction fuel generalizing before with
  | zero => exact ⟨.nil, fun a ha => nomatch ha⟩
  | succ fuel ih =>
    unfold walk
    cases hlast : (page key l 1 before).getLast? with
    | none => exact ⟨.nil, fun a ha => nomatch ha⟩
    | some last =>
      obtain ⟨hdesc, hbelow⟩ : Descending key (walk key l 1 fuel (key last)) ∧
          ∀ a ∈ walk key l 1 fuel (key last), key a < key last := ih
      have hpage : page key l 1 before = [last] := by
        obtain ⟨front, hfront⟩ := List.getLast?_eq_some_iff.mp hlast
        have hlen : (page key l 1 before).length ≤ 1 := List.length_take_le 1 _
        rw [hfront] at hlen ⊢
        have hnil : front = [] := List.eq_nil_of_length_eq_zero (by simpa using hlen)
        rw [hnil, List.nil_append]
      have hfirst : key last < before := below_of_mem_page (List.mem_of_getLast? hlast)
      dsimp only
      rw [hpage]
      refine ⟨List.pairwise_cons.mpr ⟨hbelow, hdesc⟩, fun a ha => ?_⟩
      rcases List.mem_cons.mp ha with rfl | ha
      · exact hfirst
      · exact (hbelow a ha).trans hfirst

end Keyset
