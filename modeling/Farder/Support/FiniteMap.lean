import Mathlib.Data.Finmap
import Mathlib.Data.Finset.Basic

/-! # Finite maps

Non-dependent finite maps over `Finmap`, with the operations an imperative map
offers: in-place update of a present key, insertion of a default at an absent key,
and retention by a predicate. Iteration order is never observable. -/

abbrev FiniteMap (K V : Type*) := Finmap fun _ : K => V

namespace FiniteMap

variable {K V : Type*} [DecidableEq K]

@[simp] theorem lookup_insert_eq (m : FiniteMap K V) (k k' : K) (v : V) :
    (m.insert k v).lookup k' = if k' = k then some v else m.lookup k' := by
  split_ifs with h
  · subst h; exact Finmap.lookup_insert m
  · exact Finmap.lookup_insert_of_ne m h

@[simp] theorem lookup_erase_eq (m : FiniteMap K V) (k k' : K) :
    (m.erase k).lookup k' = if k' = k then none else m.lookup k' := by
  split_ifs with h
  · subst h; exact Finmap.lookup_erase k' m
  · exact Finmap.lookup_erase_ne h

/-- Mutation of the value at a present key; an absent key stays absent. -/
def adjust (m : FiniteMap K V) (k : K) (f : V → V) : FiniteMap K V :=
  match m.lookup k with
  | some v => m.insert k (f v)
  | none => m

@[simp] theorem lookup_adjust (m : FiniteMap K V) (k k' : K) (f : V → V) :
    (adjust m k f).lookup k' = if k' = k then (m.lookup k).map f else m.lookup k' := by
  unfold adjust
  cases h : m.lookup k with
  | some v => simp
  | none =>
    split_ifs with hk
    · subst hk; simp [h]
    · rfl

theorem forall_lookup_insert {P : K → V → Prop} {m : FiniteMap K V} {k : K} {v : V}
    (hm : ∀ k v, m.lookup k = some v → P k v) (hv : P k v) :
    ∀ k' v', (m.insert k v).lookup k' = some v' → P k' v' := by
  intro k' v' h
  rw [lookup_insert_eq] at h
  split_ifs at h with hk
  · obtain rfl := Option.some.inj h
    exact hk ▸ hv
  · exact hm k' v' h

theorem forall_lookup_adjust {P : K → V → Prop} {m : FiniteMap K V} {k : K} {f : V → V}
    (hm : ∀ k v, m.lookup k = some v → P k v) (hf : ∀ v, m.lookup k = some v → P k (f v)) :
    ∀ k' v', (adjust m k f).lookup k' = some v' → P k' v' := by
  intro k' v' h
  rw [lookup_adjust] at h
  split_ifs at h with hk
  · obtain ⟨v, hv, rfl⟩ := Option.map_eq_some_iff.mp h
    exact hk ▸ hf v hv
  · exact hm k' v' h

/-- The value at `k`, or `v` when the key is absent, is present afterwards. -/
def orInsert (m : FiniteMap K V) (k : K) (v : V) : FiniteMap K V :=
  match m.lookup k with
  | some _ => m
  | none => m.insert k v

def retain (m : FiniteMap K V) (p : K → V → Prop) [∀ k v, Decidable (p k v)] : FiniteMap K V :=
  ⟨m.entries.filter fun x => p x.1 x.2,
    Multiset.nodup_keys.mp (Multiset.nodup_of_le
      (Multiset.map_le_map (Multiset.filter_le _ _)) (Multiset.nodup_keys.mpr m.nodupKeys))⟩

theorem lookup_retain_eq_some (m : FiniteMap K V) (p : K → V → Prop)
    [∀ k v, Decidable (p k v)] (k : K) (v : V) :
    (retain m p).lookup k = some v ↔ m.lookup k = some v ∧ p k v := by
  rw [Finmap.lookup_eq_some_iff, Finmap.lookup_eq_some_iff]
  simp [retain]

/-- The values of a map, each key counted once. -/
def values (m : FiniteMap K V) : Multiset V := m.entries.map Sigma.snd

instance (m : FiniteMap K V) (p : V → Prop) [DecidablePred p] : Decidable (∃ v ∈ values m, p v) :=
  Multiset.decidableExistsMultiset

theorem lookup_orInsert (m : FiniteMap K V) (k k' : K) (v : V) :
    (orInsert m k v).lookup k' = if k' = k then some ((m.lookup k).getD v) else m.lookup k' := by
  unfold orInsert
  by_cases hk : k' = k
  · subst hk
    cases h : m.lookup k' <;> simp [h]
  · cases h : m.lookup k <;> simp [hk]

theorem lookup_foldl_orInsert {α : Type*} (f : α → K) (h : α → V) (l : List α)
    {m : FiniteMap K V} {k : K} {v : V} (hv : m.lookup k = some v) :
    (l.foldl (fun m x => orInsert m (f x) (h x)) m).lookup k = some v := by
  induction l generalizing m with
  | nil => exact hv
  | cons x l ih =>
    refine ih ?_
    rw [lookup_orInsert]
    split_ifs with hk
    · subst hk
      simp [hv]
    · exact hv

theorem card_filter_values (m : FiniteMap K V) (p : V → Prop) [DecidablePred p] :
    ((values m).filter p).card = (m.keys.filter fun k => ∃ v ∈ m.lookup k, p v).card := by
  have hkey : ∀ x ∈ m.entries, p x.2 ↔ ∃ v ∈ m.lookup x.1, p v := by
    intro x hx
    simp [Finmap.lookup_eq_some_iff.mpr hx]
  rw [Finset.card_def, Finset.filter_val, values, Multiset.filter_map, Multiset.card_map,
    show m.keys.val = m.entries.map Sigma.fst from rfl, Multiset.filter_map, Multiset.card_map]
  exact congrArg Multiset.card (Multiset.filter_congr hkey)

end FiniteMap

namespace Finset

variable {α β : Type*} [DecidableEq α]

@[simp] theorem mem_foldl_insert (f : β → α) (l : List β) (s : Finset α) (a : α) :
    a ∈ l.foldl (fun t x => insert (f x) t) s ↔ a ∈ s ∨ a ∈ l.map f := by
  induction l generalizing s with
  | nil => simp
  | cons x l ih => simp [ih]; tauto

@[simp] theorem mem_foldl_erase (f : β → α) (l : List β) (s : Finset α) (a : α) :
    a ∈ l.foldl (fun t x => t.erase (f x)) s ↔ a ∈ s ∧ a ∉ l.map f := by
  induction l generalizing s with
  | nil => simp
  | cons x l ih => simp [ih]; tauto

end Finset
