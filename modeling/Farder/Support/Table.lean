import Mathlib.Data.List.Nodup
import Mathlib.Order.Nat
import Mathlib.Tactic.Common

/-! # Tables with an auto-incremented key

A table keeps its rows in key order, each with the key it got on insertion. Keys grow and
are never given out again, also after their rows are deleted. -/

structure Table (ρ : Type*) where
  rows : List (ℕ × ρ)
  next : ℕ
  sorted : (rows.map Prod.fst).Pairwise (· < ·)
  bounded : ∀ x ∈ rows, x.1 < next

namespace Table

variable {ρ α κ : Type*} {t u : Table ρ} {k : ℕ} {r r' : ρ} {x y : ℕ × ρ}

def empty : Table ρ := ⟨[], 1, by simp, by simp⟩

def insert (t : Table ρ) (r : ρ) : Table ρ where
  rows := t.rows ++ [(t.next, r)]
  next := t.next + 1
  sorted := by
    rw [List.map_append, List.pairwise_append]
    refine ⟨t.sorted, by simp, ?_⟩
    intro a ha b hb
    obtain ⟨x, hx, rfl⟩ := List.mem_map.mp ha
    obtain rfl : b = t.next := by simpa using hb
    exact t.bounded x hx
  bounded := by
    intro x hx
    rcases List.mem_append.mp hx with hx | hx
    · have := t.bounded x hx
      omega
    · obtain rfl := List.mem_singleton.mp hx
      simp

/-- Rewrite every row. -/
def map (t : Table ρ) (f : ℕ → ρ → ρ) : Table ρ where
  rows := t.rows.map fun x => (x.1, f x.1 x.2)
  next := t.next
  sorted := by
    rw [List.map_map]
    exact t.sorted
  bounded := by
    intro x hx
    obtain ⟨y, hy, rfl⟩ := List.mem_map.mp hx
    exact t.bounded y hy

/-- Rewrite the row with a key, if there is one. -/
def modify (t : Table ρ) (k : ℕ) (f : ρ → ρ) : Table ρ :=
  t.map fun i r => if i = k then f r else r

def delete (t : Table ρ) (p : ℕ × ρ → Bool) : Table ρ where
  rows := t.rows.filter fun x => !p x
  next := t.next
  sorted := t.sorted.sublist (List.filter_sublist.map _)
  bounded := fun x hx => t.bounded x (List.mem_filter.mp hx).1

def find? (t : Table ρ) (p : ℕ × ρ → Bool) : Option (ℕ × ρ) := t.rows.find? p

def get? (t : Table ρ) (k : ℕ) : Option ρ := (t.find? fun x => x.1 = k).map Prod.snd

instance : Membership (ℕ × ρ) (Table ρ) := ⟨fun t x => x ∈ t.rows⟩

theorem mem_def : x ∈ t ↔ x ∈ t.rows := Iff.rfl

instance decidableBAll {p : ℕ × ρ → Prop} [DecidablePred p] : Decidable (∀ x ∈ t, p x) :=
  inferInstanceAs (Decidable (∀ x ∈ t.rows, p x))

instance decidableBEx {p : ℕ × ρ → Prop} [DecidablePred p] : Decidable (∃ x ∈ t, p x) :=
  inferInstanceAs (Decidable (∃ x ∈ t.rows, p x))

theorem ext (hrows : t.rows = u.rows) (hnext : t.next = u.next) : t = u := by
  cases t
  cases u
  simp_all

theorem key_lt (h : x ∈ t) : x.1 < t.next := t.bounded x h

theorem eq_of_key_eq (hx : x ∈ t) (hy : y ∈ t) (h : x.1 = y.1) : x = y := by
  have hnodup : (t.rows.map Prod.fst).Nodup := t.sorted.imp fun hlt => Nat.ne_of_lt hlt
  exact List.inj_on_of_nodup_map hnodup hx hy h

theorem row_eq (hr : (k, r) ∈ t) (hr' : (k, r') ∈ t) : r = r' :=
  congrArg Prod.snd (eq_of_key_eq hr hr' rfl)

theorem get?_eq_some : t.get? k = some r ↔ (k, r) ∈ t := by
  constructor
  · intro h
    obtain ⟨x, hx, rfl⟩ := Option.map_eq_some_iff.mp h
    have hk : x.1 = k := by simpa using List.find?_some hx
    exact hk ▸ List.mem_of_find?_eq_some hx
  · intro h
    cases hx : t.find? fun x => x.1 = k with
    | none => exact absurd (List.find?_eq_none.mp hx _ h) (by simp)
    | some x =>
      have hk : x.1 = k := by simpa using List.find?_some hx
      have hmem : x ∈ t := List.mem_of_find?_eq_some hx
      simp [get?, hx, eq_of_key_eq hmem h hk]

theorem get?_eq_none : t.get? k = none ↔ ∀ x ∈ t, x.1 ≠ k := by
  simp [get?, find?, mem_def]

theorem get?_map (f : ℕ → ρ → ρ) : (t.map f).get? k = (t.get? k).map (f k) := by
  cases h : t.get? k with
  | none =>
    rw [get?_eq_none] at h
    refine get?_eq_none.mpr fun x hx => ?_
    obtain ⟨y, hy, rfl⟩ := List.mem_map.mp hx
    exact h y hy
  | some r => exact get?_eq_some.mpr (List.mem_map.mpr ⟨_, get?_eq_some.mp h, rfl⟩)

theorem find?_mem {p : ℕ × ρ → Bool} (h : t.find? p = some x) : x ∈ t ∧ p x = true :=
  ⟨List.mem_of_find?_eq_some h, List.find?_some h⟩

theorem find?_eq_none {p : ℕ × ρ → Bool} : t.find? p = none ↔ ∀ x ∈ t, p x = false := by
  simp [find?, mem_def]

theorem find?_eq_some_of_unique {p : ℕ × ρ → Bool} (hx : x ∈ t) (hp : p x = true)
    (huniq : ∀ y ∈ t, p y = true → y = x) : t.find? p = some x := by
  cases h : t.find? p with
  | none => simp [find?_eq_none.mp h x hx] at hp
  | some y => rw [huniq y (find?_mem h).1 (find?_mem h).2]

@[simp] theorem next_insert : (t.insert r).next = t.next + 1 := rfl
@[simp] theorem next_map (f : ℕ → ρ → ρ) : (t.map f).next = t.next := rfl
@[simp] theorem next_modify (f : ρ → ρ) : (t.modify k f).next = t.next := rfl
@[simp] theorem next_delete (p : ℕ × ρ → Bool) : (t.delete p).next = t.next := rfl
@[simp] theorem not_mem_empty : ¬x ∈ (empty : Table ρ) := by simp [mem_def, empty]

@[simp] theorem mem_insert : x ∈ t.insert r ↔ x ∈ t ∨ x = (t.next, r) := by
  simp [mem_def, insert]

@[simp] theorem mem_map {f : ℕ → ρ → ρ} : x ∈ t.map f ↔ ∃ y ∈ t, (y.1, f y.1 y.2) = x := by
  simp [mem_def, map]

@[simp] theorem mem_delete {p : ℕ × ρ → Bool} : x ∈ t.delete p ↔ x ∈ t ∧ p x = false := by
  simp [mem_def, delete]

theorem mem_map_of_mem {f : ℕ → ρ → ρ} (h : (k, r) ∈ t) : (k, f k r) ∈ t.map f :=
  mem_map.mpr ⟨_, h, rfl⟩

theorem map_eq_self {f : ℕ → ρ → ρ} (h : ∀ x ∈ t, f x.1 x.2 = x.2) : t.map f = t := by
  refine ext ?_ rfl
  refine (List.map_congr_left fun x hx => ?_).trans (List.map_id _)
  rw [h x hx]
  rfl

theorem map_congr {f g : ℕ → ρ → ρ} (h : ∀ x ∈ t, f x.1 x.2 = g x.1 x.2) :
    t.map f = t.map g := by
  refine ext ?_ rfl
  exact List.map_congr_left fun x hx => by rw [h x hx]

theorem map_map (f g : ℕ → ρ → ρ) : (t.map f).map g = t.map fun k r => g k (f k r) := by
  refine ext ?_ rfl
  simp [map]

theorem delete_eq_self {p : ℕ × ρ → Bool} (h : ∀ x ∈ t, p x = false) : t.delete p = t := by
  refine ext (List.filter_eq_self.mpr ?_) rfl
  intro x hx
  simp [h x hx]

theorem delete_delete (p q : ℕ × ρ → Bool) :
    (t.delete p).delete q = t.delete fun x => p x || q x := by
  refine ext ?_ rfl
  simp [delete, List.filter_filter, Bool.and_comm]

theorem get?_insert : (t.insert r).get? k = if k = t.next then some r else t.get? k := by
  split_ifs with h
  · exact get?_eq_some.mpr (mem_insert.mpr (.inr (by rw [h])))
  · refine Option.ext fun r' => ?_
    rw [get?_eq_some, get?_eq_some, mem_insert, or_iff_left fun heq => h (congrArg Prod.fst heq)]

theorem get?_delete (p : ℕ × ρ → Bool) :
    (t.delete p).get? k = (t.get? k).filter fun r => !p (k, r) := by
  refine Option.ext fun r => ?_
  rw [get?_eq_some, mem_delete, Option.filter_eq_some_iff, get?_eq_some, Bool.not_eq_true']

theorem get?_delete_of_kept {p : ℕ × ρ → Bool} (h : ∀ r, p (k, r) = false) :
    (t.delete p).get? k = t.get? k := by
  rw [get?_delete]
  cases t.get? k <;> simp [h]

theorem find?_map (f : ℕ → ρ → ρ) (p : ℕ × ρ → Bool) :
    (t.map f).find? p = (t.find? fun x => p (x.1, f x.1 x.2)).map fun x => (x.1, f x.1 x.2) :=
  List.find?_map

/-! ## Histories of a table -/

/-- Later on a key that was given out before has a row only if it had one, and the two rows are
related: deleted keys do not come back. -/
structure Evolves (R : ρ → ρ → Prop) (t u : Table ρ) : Prop where
  next : t.next ≤ u.next
  rows : ∀ x ∈ u, x.1 < t.next → ∃ r, (x.1, r) ∈ t ∧ R r x.2

variable {R : ρ → ρ → Prop}

theorem Evolves.refl (hR : ∀ r, R r r) : Evolves R t t :=
  ⟨le_rfl, fun x hx _ => ⟨x.2, hx, hR x.2⟩⟩

theorem Evolves.trans {w : Table ρ} (hR : ∀ a b c, R a b → R b c → R a c) (h : Evolves R t u)
    (k : Evolves R u w) : Evolves R t w := by
  refine ⟨h.next.trans k.next, fun x hx hlt => ?_⟩
  obtain ⟨r, hr, hru⟩ := k.rows x hx (hlt.trans_le h.next)
  obtain ⟨r', hr', hrt⟩ := h.rows _ hr hlt
  exact ⟨r', hr', hR _ _ _ hrt hru⟩

theorem Evolves.insert (hR : ∀ r, R r r) : Evolves R t (t.insert r) := by
  refine ⟨Nat.le_succ _, fun x hx hlt => ?_⟩
  rcases mem_insert.mp hx with hx | rfl
  · exact ⟨x.2, hx, hR x.2⟩
  · exact absurd hlt (lt_irrefl _)

theorem Evolves.map {f : ℕ → ρ → ρ} (hf : ∀ x ∈ t, R x.2 (f x.1 x.2)) :
    Evolves R t (t.map f) := by
  refine ⟨le_rfl, fun x hx _ => ?_⟩
  obtain ⟨y, hy, rfl⟩ := mem_map.mp hx
  exact ⟨y.2, hy, hf y hy⟩

theorem Evolves.modify {f : ρ → ρ} (hR : ∀ r, R r r) (hf : ∀ r, R r (f r)) :
    Evolves R t (t.modify k f) := by
  refine .map fun x _ => ?_
  split_ifs
  · exact hf x.2
  · exact hR x.2

theorem Evolves.delete {p : ℕ × ρ → Bool} (hR : ∀ r, R r r) : Evolves R t (t.delete p) :=
  ⟨le_rfl, fun x hx _ => ⟨x.2, (mem_delete.mp hx).1, hR x.2⟩⟩

/-- No row goes away, and a row and what it becomes are related. -/
def Retains (R : ρ → ρ → Prop) (t u : Table ρ) : Prop :=
  ∀ k r, t.get? k = some r → ∃ r', u.get? k = some r' ∧ R r r'

theorem Retains.refl (hR : ∀ r, R r r) : Retains R t t :=
  fun _ r hr => ⟨r, hr, hR r⟩

theorem Retains.trans {w : Table ρ} (hR : ∀ a b c, R a b → R b c → R a c) (h : Retains R t u)
    (h' : Retains R u w) : Retains R t w := by
  intro k r hr
  obtain ⟨r', hr', hrr'⟩ := h k r hr
  obtain ⟨r'', hr'', hrr''⟩ := h' k r' hr'
  exact ⟨r'', hr'', hR _ _ _ hrr' hrr''⟩

theorem Retains.insert (hR : ∀ r, R r r) : Retains R t (t.insert r) := by
  intro k r' hr'
  have hk : k ≠ t.next := (key_lt (get?_eq_some.mp hr')).ne
  exact ⟨r', by rw [get?_insert, if_neg hk, hr'], hR r'⟩

theorem Retains.modify {f : ρ → ρ} (hR : ∀ r, R r r) (hf : ∀ r, R r (f r)) :
    Retains R t (t.modify k f) := by
  intro i r hr
  refine ⟨_, by rw [Table.modify, get?_map, hr, Option.map_some], ?_⟩
  split_ifs
  · exact hf r
  · exact hR r

def UniqueIndex (t : Table ρ) (index : ρ → Option κ) : Prop :=
  ∀ x ∈ t, ∀ y ∈ t, index x.2 ≠ none → index x.2 = index y.2 → x = y

variable {index : ρ → Option κ}

theorem UniqueIndex.insert (h : t.UniqueIndex index)
    (hr : ∀ x ∈ t, index x.2 = index r → index r = none) : (t.insert r).UniqueIndex index := by
  intro x hx y hy hne heq
  rcases mem_insert.mp hx with hx | rfl <;> rcases mem_insert.mp hy with hy | rfl
  · exact h x hx y hy hne heq
  · exact absurd (hr x hx heq) (heq ▸ hne)
  · exact absurd (hr y hy heq.symm) hne
  · rfl

theorem UniqueIndex.map {f : ℕ → ρ → ρ} (h : t.UniqueIndex index)
    (hf : ∀ x ∈ t, index (f x.1 x.2) = index x.2) : (t.map f).UniqueIndex index := by
  intro x hx y hy hne heq
  obtain ⟨a, ha, rfl⟩ := mem_map.mp hx
  obtain ⟨b, hb, rfl⟩ := mem_map.mp hy
  simp only [hf a ha, hf b hb] at hne heq
  obtain rfl := h a ha b hb hne heq
  rfl

theorem UniqueIndex.delete {p : ℕ × ρ → Bool} (h : t.UniqueIndex index) :
    (t.delete p).UniqueIndex index := by
  intro x hx y hy hne heq
  exact h x (mem_delete.mp hx).1 y (mem_delete.mp hy).1 hne heq

theorem UniqueIndex.find? [DecidableEq κ] (h : t.UniqueIndex index) {c : κ} (hx : x ∈ t)
    (hc : index x.2 = some c) : (t.find? fun y => index y.2 = some c) = some x := by
  refine find?_eq_some_of_unique hx (by simp [hc]) fun y hy hp => ?_
  have hy' : index y.2 = some c := by simpa using hp
  exact h y hy x hx (by simp [hy']) (hy'.trans hc.symm)

end Table
