import Mathlib.Data.List.Count
import Mathlib.Data.List.Dedup
import Mathlib.Data.List.Perm.Basic
import Mathlib.Tactic.Common

/-! # Tallies

Users put marks on keys. Whoever does not keep the marks keeps a counter for each key that has some,
with whether one of them is its own, and is told of marks that are put and taken away. -/
namespace Tally

variable {υ κ : Type} [DecidableEq κ]

structure Counter (κ : Type) where
  key : κ
  count : ℕ
  mine : Bool
  deriving DecidableEq

/-- How many marks there are on a key. -/
def total (marks : List (υ × κ)) (k : κ) : ℕ := marks.countP fun m => decide (m.2 = k)

/-- What the counter of a key says. -/
structure Right (own : υ) (marks : List (υ × κ)) (c : Counter κ) : Prop where
  pos : 0 < total marks c.key
  count : c.count = total marks c.key
  mine : c.mine = true ↔ (own, c.key) ∈ marks

/-- The counters of somebody who is told of a new mark. -/
def bump (k : κ) (mine : Bool) (l : List (Counter κ)) : List (Counter κ) :=
  match l.find? fun c => decide (c.key = k) with
  | some c =>
    if mine && c.mine then l
    else l.map fun c => if c.key = k then ⟨c.key, c.count + 1, mine || c.mine⟩ else c
  | none => l ++ [⟨k, 1, mine⟩]

/-- The counters of somebody who is told that a mark has been taken away. -/
def drop (k : κ) (l : List (Counter κ)) : List (Counter κ) :=
  (l.map fun c => if c.key = k then { c with count := c.count - 1 } else c).filter fun c =>
    decide (0 < c.count)

variable {l : List (Counter κ)} {own u : υ} {marks marks' : List (υ × κ)} {k : κ} {c c' : Counter κ}

theorem total_pos_iff : 0 < total marks k ↔ k ∈ marks.map Prod.snd := by
  simp only [total, List.countP_pos_iff, decide_eq_true_eq, List.mem_map]

theorem total_pos_of_mem (h : (u, k) ∈ marks) : 0 < total marks k :=
  total_pos_iff.mpr (List.mem_map_of_mem h)

theorem Right.eq_of_key (h : Right own marks c) (h' : Right own marks c')
    (hkey : c.key = c'.key) : c = c' := by
  obtain ⟨key, count, mine⟩ := c
  obtain ⟨key', count', mine'⟩ := c'
  obtain rfl : key = key' := hkey
  obtain ⟨-, hcount, hmine⟩ := h
  obtain ⟨-, hcount', hmine'⟩ := h'
  simp only at hcount hcount' hmine hmine'
  rw [hcount, hcount', Counter.mk.injEq]
  exact ⟨rfl, rfl, Bool.eq_iff_iff.mpr (hmine.trans hmine'.symm)⟩

theorem right_congr (htotal : total marks' c.key = total marks c.key)
    (hown : (own, c.key) ∈ marks' ↔ (own, c.key) ∈ marks) :
    Right own marks' c ↔ Right own marks c := by
  constructor
  · rintro ⟨hpos, hcount, hmine⟩
    exact ⟨htotal ▸ hpos, hcount.trans htotal, hmine.trans hown⟩
  · rintro ⟨hpos, hcount, hmine⟩
    exact ⟨htotal.symm ▸ hpos, hcount.trans htotal.symm, hmine.trans hown.symm⟩

theorem total_append (k' : κ) : total (marks ++ [(u, k)]) k' =
    total marks k' + if k' = k then 1 else 0 := by
  simp only [total, List.countP_append, List.countP_singleton, decide_eq_true_eq]
  by_cases hk : k' = k
  · simp [hk]
  · simp [hk, Ne.symm hk]

omit [DecidableEq κ] in
theorem mem_append_mark : (own, k') ∈ marks ++ [(u, k)] ↔ (own, k') ∈ marks ∨ own = u ∧ k' = k := by
  simp

theorem right_append (hk : c.key ≠ k) : Right own (marks ++ [(u, k)]) c ↔ Right own marks c := by
  refine right_congr ?_ ?_
  · rw [total_append, if_neg hk, Nat.add_zero]
  · simp [hk]

variable [DecidableEq υ]

def marked (own : υ) (marks : List (υ × κ)) (k : κ) : Bool :=
  marks.any fun m => decide (m.1 = own ∧ m.2 = k)

theorem marked_iff : marked own marks k = true ↔ (own, k) ∈ marks := by
  simp [marked]

theorem right_of_pos (own : υ) (h : 0 < total marks k) :
    Right own marks ⟨k, total marks k, marked own marks k⟩ := ⟨h, rfl, marked_iff⟩

theorem right_bumped (h : Right own marks c) (hk : c.key = k) :
    Right own (marks ++ [(u, k)]) ⟨c.key, c.count + 1, decide (u = own) || c.mine⟩ := by
  have htotal : total (marks ++ [(u, k)]) c.key = total marks c.key + 1 := by
    rw [total_append, if_pos hk]
  refine ⟨?_, ?_, ?_⟩
  · show 0 < total (marks ++ [(u, k)]) c.key
    omega
  · show c.count + 1 = total (marks ++ [(u, k)]) c.key
    rw [htotal, h.count]
  · show (decide (u = own) || c.mine) = true ↔ (own, c.key) ∈ marks ++ [(u, k)]
    rw [mem_append_mark, ← h.mine, Bool.or_eq_true, decide_eq_true_eq, or_comm, eq_comm (a := u)]
    exact or_congr_right (and_iff_left hk).symm

def counters (marks : List (υ × κ)) (own : υ) : List (Counter κ) :=
  (marks.map Prod.snd).dedup.map fun k => ⟨k, total marks k, marked own marks k⟩

/-- The counters are those of the marks, in some order. -/
def Tells (l : List (Counter κ)) (own : υ) (marks : List (υ × κ)) : Prop :=
  l.Perm (counters marks own)

theorem mem_counters : c ∈ counters marks own ↔ Right own marks c := by
  simp only [counters, List.mem_map, List.mem_dedup]
  constructor
  · rintro ⟨k, hk, rfl⟩
    exact right_of_pos own (total_pos_iff.mpr (List.mem_map.mpr hk))
  · intro h
    have hkey := List.mem_map.mp (total_pos_iff.mp h.pos)
    exact ⟨c.key, hkey, (right_of_pos own h.pos).eq_of_key h rfl⟩

theorem nodup_counters : (counters marks own).Nodup := by
  refine (List.nodup_dedup _).map ?_
  intro k k' h
  exact congrArg Counter.key h

theorem tells_iff : Tells l own marks ↔ l.Nodup ∧ ∀ c, c ∈ l ↔ Right own marks c := by
  constructor
  · intro h
    exact ⟨h.nodup_iff.mpr nodup_counters, fun c => h.mem_iff.trans mem_counters⟩
  · rintro ⟨hnodup, hmem⟩
    exact (List.perm_ext_iff_of_nodup hnodup nodup_counters).mpr fun c =>
      (hmem c).trans mem_counters.symm

/-- The same counters tell of other marks only if there are as many on each key, and the same ones of
the viewer's own. -/
theorem Tells.same (h : Tells l own marks) (h' : Tells l own marks') (k : κ) :
    total marks' k = total marks k ∧ ((own, k) ∈ marks' ↔ (own, k) ∈ marks) := by
  have hmem := (tells_iff.mp h).2
  have hmem' := (tells_iff.mp h').2
  by_cases hk : 0 < total marks k
  · obtain ⟨-, hcount, hmine⟩ := (hmem' _).mp ((hmem _).mpr (right_of_pos own hk))
    exact ⟨hcount.symm, hmine.symm.trans marked_iff⟩
  · have hk' : ¬0 < total marks' k := by
      intro hpos
      exact hk ((hmem _).mp ((hmem' _).mpr (right_of_pos own hpos))).pos
    refine ⟨by omega, iff_of_false ?_ ?_⟩
    · exact fun hm => hk' (total_pos_of_mem hm)
    · exact fun hm => hk (total_pos_of_mem hm)

theorem Tells.total_eq_zero (h : Tells l own marks) (habsent : ∀ c ∈ l, c.key ≠ k) :
    total marks k = 0 := by
  by_contra hne
  have hmem := ((tells_iff.mp h).2 _).mpr (right_of_pos own (Nat.pos_of_ne_zero hne))
  exact habsent _ hmem rfl

theorem not_tells_of_mem (hc : c ∈ l) (h : total marks c.key = 0) : ¬Tells l own marks := by
  intro htells
  have hright := ((tells_iff.mp htells).2 c).mp hc
  exact absurd hright.pos (by omega)

/-! ## A new mark -/

theorem tells_bump (h : Tells l own marks) (hnew : (u, k) ∉ marks) :
    Tells (bump k (decide (u = own)) l) own (marks ++ [(u, k)]) := by
  obtain ⟨hnodup, hmem⟩ := tells_iff.mp h
  unfold bump
  split
  next c hfind =>
    have hk : c.key = k := by simpa using List.find?_some hfind
    have hc := List.mem_of_find?_eq_some hfind
    have hnot : ¬(decide (u = own) && c.mine) = true := by
      intro htrue
      obtain ⟨hu, hmine⟩ := Bool.and_eq_true_iff.mp htrue
      have hown := ((hmem c).mp hc).mine.mp hmine
      rw [hk, ← of_decide_eq_true hu] at hown
      exact hnew hown
    rw [if_neg hnot]
    refine tells_iff.mpr ⟨hnodup.map_on ?_, fun c' => ?_⟩
    · intro a ha b hb hab
      have hkeys := congrArg Counter.key hab
      exact ((hmem a).mp ha).eq_of_key ((hmem b).mp hb) (by simpa [apply_ite Counter.key] using hkeys)
    · rw [List.mem_map]
      constructor
      · rintro ⟨a, ha, rfl⟩
        split_ifs with hak
        · exact right_bumped ((hmem a).mp ha) hak
        · exact (right_append hak).mpr ((hmem a).mp ha)
      · intro hc'
        by_cases hk' : c'.key = k
        · refine ⟨c, hc, ?_⟩
          rw [if_pos hk]
          exact (right_bumped ((hmem c).mp hc) hk).eq_of_key hc' (hk.trans hk'.symm)
        · exact ⟨c', (hmem c').mpr ((right_append hk').mp hc'), if_neg hk'⟩
  next hfind =>
    have habsent : ∀ c ∈ l, c.key ≠ k := by simpa using hfind
    have hzero := h.total_eq_zero habsent
    have hlast : Right own (marks ++ [(u, k)]) ⟨k, 1, decide (u = own)⟩ := by
      have htotal : total (marks ++ [(u, k)]) k = 1 := by rw [total_append, hzero, if_pos rfl]
      have hnone : (own, k) ∉ marks := fun hm => absurd (total_pos_of_mem hm) (by omega)
      refine ⟨by rw [htotal]; omega, htotal.symm, ?_⟩
      rw [mem_append_mark, decide_eq_true_eq]
      simp [hnone, eq_comm]
    refine tells_iff.mpr ⟨?_, fun c => ?_⟩
    · refine List.nodup_append.mpr ⟨hnodup, List.nodup_singleton _, ?_⟩
      rintro a ha b hb rfl
      obtain rfl := List.mem_singleton.mp hb
      exact habsent _ ha rfl
    · rw [List.mem_append, List.mem_singleton, hmem c]
      by_cases hk : c.key = k
      · constructor
        · rintro (hc | rfl)
          · exact absurd hk (habsent c ((hmem c).mpr hc))
          · exact hlast
        · intro hc
          exact .inr (hc.eq_of_key hlast hk)
      · rw [right_append hk]
        refine or_iff_left ?_
        rintro rfl
        exact hk rfl

omit [DecidableEq υ] in
theorem exists_mem_bump (k : κ) (mine : Bool) (l : List (Counter κ)) :
    ∃ c ∈ bump k mine l, c.key = k := by
  unfold bump
  split
  next c hfind =>
    have hk : c.key = k := by simpa using List.find?_some hfind
    have hc := List.mem_of_find?_eq_some hfind
    split_ifs
    · exact ⟨c, hc, hk⟩
    · exact ⟨_, List.mem_map_of_mem hc, by rw [if_pos hk]; exact hk⟩
  next => exact ⟨_, List.mem_append_right _ (List.mem_singleton_self _), rfl⟩

/-! ## A mark that is taken away -/

def without (marks : List (υ × κ)) (m : υ × κ) : List (υ × κ) := marks.filter fun x => x != m

theorem mem_without {x m : υ × κ} : x ∈ without marks m ↔ x ∈ marks ∧ x ≠ m := by
  simp [without]

theorem without_of_not_mem {m : υ × κ} (h : m ∉ marks) : without marks m = marks :=
  List.filter_eq_self.mpr fun _ hx => bne_iff_ne.mpr fun hxm => h (hxm ▸ hx)

theorem total_without (hnodup : marks.Nodup) (hm : (u, k) ∈ marks) (k' : κ) :
    total (without marks (u, k)) k' + (if k' = k then 1 else 0) = total marks k' := by
  have herase : without marks (u, k) = marks.erase (u, k) := by
    rw [hnodup.erase_eq_filter]
    rfl
  have hperm := (List.perm_cons_erase hm).countP_eq fun m => decide (m.2 = k')
  rw [List.countP_cons] at hperm
  rw [herase, total, total, hperm]
  by_cases hk : k' = k
  · simp [hk]
  · simp [hk, Ne.symm hk]

theorem drop_of_absent (h : Tells l own marks) (hk : total marks k = 0) : drop k l = l := by
  have hmem := (tells_iff.mp h).2
  have hsame : (l.map fun c => if c.key = k then { c with count := c.count - 1 } else c) = l := by
    refine (List.map_congr_left fun c hc => ?_).trans (List.map_id l)
    have hpos := ((hmem c).mp hc).pos
    have hne : c.key ≠ k := by
      rintro rfl
      omega
    exact if_neg hne
  rw [drop, hsame]
  refine List.filter_eq_self.mpr fun c hc => decide_eq_true ?_
  have hright := (hmem c).mp hc
  have hpos := hright.pos
  have hcount := hright.count
  omega

theorem mem_drop : c ∈ drop k l ↔
    0 < c.count ∧ ∃ a ∈ l, (if a.key = k then { a with count := a.count - 1 } else a) = c := by
  simp only [drop, List.mem_filter, List.mem_map, decide_eq_true_eq, and_comm]

theorem nodup_drop (h : Tells l own marks) : (drop k l).Nodup := by
  obtain ⟨hnodup, hmem⟩ := tells_iff.mp h
  refine (hnodup.map_on fun a ha b hb hab => ?_).filter _
  have hkeys := congrArg Counter.key hab
  exact ((hmem a).mp ha).eq_of_key ((hmem b).mp hb) (by simpa [apply_ite Counter.key] using hkeys)

theorem right_without (hnodup : marks.Nodup) (hm : (u, k) ∈ marks) (hk : c.key ≠ k) :
    Right own (without marks (u, k)) c ↔ Right own marks c := by
  refine right_congr ?_ ?_
  · have htotal := total_without hnodup hm c.key
    rwa [if_neg hk, Nat.add_zero] at htotal
  · rw [mem_without]
    exact and_iff_left fun h => hk (congrArg Prod.snd h)

/-- The counter of the key, if it is not the viewer's own mark that has gone. -/
theorem right_dropped (h : Right own marks c) (hk : c.key = k) (hnodup : marks.Nodup)
    (hm : (u, k) ∈ marks) (hother : u ≠ own) (hmore : 1 < total marks k) :
    Right own (without marks (u, k)) { c with count := c.count - 1 } := by
  obtain rfl := hk
  have htotal := total_without hnodup hm c.key
  rw [if_pos rfl] at htotal
  have hcount := h.count
  refine ⟨?_, ?_, h.mine.trans ?_⟩
  · show 0 < total (without marks (u, c.key)) c.key
    omega
  · show c.count - 1 = total (without marks (u, c.key)) c.key
    omega
  · rw [mem_without]
    exact (and_iff_left fun h => hother (congrArg Prod.fst h).symm).symm

/-- Counters that are told of nothing are right only if nothing was taken away. -/
theorem tells_without_iff (h : Tells l own marks) (hnodup : marks.Nodup) :
    Tells l own (without marks (u, k)) ↔ (u, k) ∉ marks := by
  constructor
  · intro hwithout hm
    have hsame := (h.same hwithout k).1
    have htotal := total_without hnodup hm k
    rw [if_pos rfl] at htotal
    omega
  · intro hm
    rwa [without_of_not_mem hm]

/-- Counters that are told of a removal stay right if a mark was taken away, and not the viewer's own
out of several, or if there was nothing to count. -/
theorem tells_drop_iff (h : Tells l own marks) (hnodup : marks.Nodup) :
    Tells (drop k l) own (without marks (u, k)) ↔
      ((u, k) ∈ marks ∧ (u = own → total marks k = 1)) ∨ total marks k = 0 := by
  have hmem := (tells_iff.mp h).2
  rcases Nat.eq_zero_or_pos (total marks k) with hzero | hpos
  · have hnone : (u, k) ∉ marks := fun hm => absurd (total_pos_of_mem hm) (by omega)
    rw [without_of_not_mem hnone, drop_of_absent h hzero]
    exact iff_of_true h (.inr hzero)
  have hcounter := right_of_pos own hpos
  set c : Counter κ := ⟨k, total marks k, marked own marks k⟩ with hc
  have hcl : c ∈ l := (hmem c).mpr hcounter
  have hunique : ∀ a ∈ l, a.key = k → a = c := fun a ha hak =>
    ((hmem a).mp ha).eq_of_key hcounter hak
  by_cases hm : (u, k) ∈ marks
  · have htotal := total_without hnodup hm k
    rw [if_pos rfl] at htotal
    constructor
    · intro hdrop
      refine .inl ⟨hm, fun hu => ?_⟩
      by_contra hmore
      -- The viewer's own mark is gone, and the counter still says that it is there.
      have hdropped : { c with count := c.count - 1 } ∈ drop k l :=
        mem_drop.mpr ⟨by show 0 < total marks k - 1; omega, c, hcl, if_pos rfl⟩
      have hmine := (((tells_iff.mp hdrop).2 _).mp hdropped).mine
      have hown : (own, k) ∈ without marks (u, k) := hmine.mp (marked_iff.mpr (hu ▸ hm))
      exact (mem_without.mp hown).2 (by rw [hu])
    · rintro (⟨-, hsole⟩ | hzero)
      swap
      · omega
      refine tells_iff.mpr ⟨nodup_drop h, fun x => mem_drop.trans ?_⟩
      constructor
      · rintro ⟨hx, a, ha, rfl⟩
        split_ifs at hx ⊢ with hak
        · obtain rfl := hunique a ha hak
          have hmore : 1 < total marks k := by
            change 0 < total marks k - 1 at hx
            omega
          exact right_dropped hcounter rfl hnodup hm (fun hu => by have := hsole hu; omega) hmore
        · exact (right_without hnodup hm hak).mpr ((hmem a).mp ha)
      · intro hx
        by_cases hxk : x.key = k
        · have hxpos := hx.pos
          rw [hxk] at hxpos
          have hmore : 1 < total marks k := by omega
          have hright := right_dropped hcounter rfl hnodup hm
            (fun hu => by have := hsole hu; omega) hmore
          refine ⟨by rw [hx.count]; exact hx.pos, c, hcl, ?_⟩
          rw [if_pos rfl]
          exact hright.eq_of_key hx hxk.symm
        · refine ⟨by rw [hx.count]; exact hx.pos, x, ?_, if_neg hxk⟩
          exact (hmem x).mpr ((right_without hnodup hm hxk).mp hx)
  · rw [without_of_not_mem hm]
    refine iff_of_false (fun hdrop => ?_) (by rintro (⟨hin, -⟩ | hzero); exacts [hm hin, by omega])
    obtain ⟨-, a, ha, hac⟩ := mem_drop.mp (((tells_iff.mp hdrop).2 c).mpr hcounter)
    have hak : a.key = k := by
      have hkeys := congrArg Counter.key hac
      simpa [apply_ite Counter.key] using hkeys
    rw [if_pos hak, hunique a ha hak] at hac
    have hcounts : c.count - 1 = c.count := congrArg Counter.count hac
    have hcount : c.count = total marks k := rfl
    omega

end Tally
