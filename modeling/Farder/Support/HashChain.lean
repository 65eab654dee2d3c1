import Mathlib.Data.List.Induction

/-! # Hash chains

A chain in which each link cites the hash of the one before. Whoever knows the hash of the last
link knows the whole chain, as long as no two links have the same hash. -/
namespace HashChain

variable {α κ : Type*} {hash : α → κ} {prev : α → Option κ} {l l' p p' q q' : List α} {a : α}

inductive Linked (hash : α → κ) (prev : α → Option κ) : List α → Prop
  | nil : Linked hash prev []
  | snoc {l : List α} {a : α} (h : Linked hash prev l) (hprev : prev a = l.getLast?.map hash) :
      Linked hash prev (l ++ [a])

namespace Linked

theorem snoc_iff : Linked hash prev (l ++ [a]) ↔
    Linked hash prev l ∧ prev a = l.getLast?.map hash := by
  refine ⟨fun h => ?_, fun h => .snoc h.1 h.2⟩
  generalize hl : l ++ [a] = l' at h
  cases h with
  | nil => exact absurd hl (by simp)
  | snoc h hprev =>
    obtain ⟨rfl, hlast⟩ := List.append_inj' hl rfl
    obtain rfl := List.singleton_inj.mp hlast
    exact ⟨h, hprev⟩

theorem of_append (h : Linked hash prev (p ++ q)) : Linked hash prev p := by
  induction q using List.reverseRecOn with
  | nil => rwa [List.append_nil] at h
  | append_singleton q a ih =>
    rw [← List.append_assoc] at h
    exact ih (snoc_iff.mp h).1

theorem eq_of_last (h : Linked hash prev l) (h' : Linked hash prev l')
    (hcollision : ∀ a ∈ l, ∀ b ∈ l', hash a = hash b → a = b)
    (hlast : l.getLast?.map hash = l'.getLast?.map hash) : l = l' := by
  induction h generalizing l' with
  | nil =>
    have hnone : l'.getLast? = none := by simpa using hlast.symm
    exact (List.getLast?_eq_none_iff.mp hnone).symm
  | @snoc l a hl hprev ih =>
    cases h' with
    | nil => exact absurd hlast (by simp)
    | @snoc l' b hl' hprev' =>
      have hhash : hash a = hash b := by simpa using hlast
      obtain rfl := hcollision a (by simp) b (by simp) hhash
      rw [ih hl' (fun x hx y hy => hcollision x (by simp [hx]) y (by simp [hy]))
        (hprev.symm.trans hprev')]

theorem eq_before (h : Linked hash prev (p ++ a :: q)) (h' : Linked hash prev (p' ++ a :: q'))
    (hcollision : ∀ x ∈ p, ∀ y ∈ p', hash x = hash y → x = y) : p = p' := by
  rw [List.append_cons] at h h'
  obtain ⟨hp, hprev⟩ := snoc_iff.mp h.of_append
  obtain ⟨hp', hprev'⟩ := snoc_iff.mp h'.of_append
  exact hp.eq_of_last hp' hcollision (hprev.symm.trans hprev')

end Linked
end HashChain
