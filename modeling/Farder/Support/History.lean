import Farder.Support.Execution

/-! # Executions with their history

Rules for statements about a state and the transitions that have led to it. -/

namespace Execution

variable {σ ε : Type*} {step : σ → ε → σ → Prop} {s t : σ} {tr : List (Transition σ ε)}

theorem snoc_eq_append_cons {x y : Transition σ ε} {a b : List (Transition σ ε)}
    (h : tr ++ [y] = a ++ x :: b) : (a = tr ∧ x = y ∧ b = []) ∨ ∃ c, tr = a ++ x :: c := by
  induction b using List.reverseRecOn with
  | nil =>
    obtain ⟨rfl, rfl⟩ := List.append_singleton_inj.mp h
    exact .inl ⟨rfl, rfl, rfl⟩
  | append_singleton b z _ =>
    rw [← List.cons_append, ← List.append_assoc] at h
    exact .inr ⟨b, (List.append_singleton_inj.mp h).1⟩

/-- When a step out of a good state ends in a good state exactly if it meets a condition, a run
that starts well stays good exactly if all its steps meet the condition. Both may depend on what
has happened before. -/
theorem forall_history_iff (h : Execution step s tr t) (Good : List (Transition σ ε) → σ → Prop)
    (Cond : List (Transition σ ε) → Transition σ ε → Prop) (hs : Good [] s)
    (hstep : ∀ a x b, tr = a ++ x :: b → Execution step s a x.pre →
      step x.pre x.event x.post → Good a x.pre → (Good (a ++ [x]) x.post ↔ Cond a x)) :
    (∀ a x b, tr = a ++ x :: b → Good (a ++ [x]) x.post) ↔
      ∀ a x b, tr = a ++ x :: b → Cond a x := by
  induction h with
  | nil => simp
  | @snoc t u e tr htr hlast ih =>
    have ih := ih fun a x b heq => hstep a x (b ++ [⟨t, e, u⟩]) (by simp [heq])
    have hgood (h : ∀ a x b, tr = a ++ x :: b → Good (a ++ [x]) x.post) : Good tr t := by
      cases htr with
      | nil => exact hs
      | @snoc _ _ _ tr _ _ => exact h tr _ [] rfl
    have hiff := fun h => hstep tr ⟨t, e, u⟩ [] rfl htr hlast (hgood h)
    have hsnoc : ∀ {P : List (Transition σ ε) → Transition σ ε → Prop},
        (∀ a x b, tr ++ [⟨t, e, u⟩] = a ++ x :: b → P a x) ↔
          (∀ a x b, tr = a ++ x :: b → P a x) ∧ P tr ⟨t, e, u⟩ := by
      intro P
      constructor
      · exact fun h => ⟨fun a x b heq => h a x (b ++ [⟨t, e, u⟩]) (by simp [heq]),
          h tr _ [] rfl⟩
      · rintro ⟨h, hlast⟩ a x b heq
        rcases snoc_eq_append_cons heq with ⟨rfl, rfl, rfl⟩ | ⟨c, hc⟩
        · exact hlast
        · exact h a x c hc
    rw [hsnoc (P := Cond), hsnoc (P := fun a x => Good (a ++ [x]) x.post)]
    constructor
    · rintro ⟨h, hlast⟩
      exact ⟨ih.mp h, (hiff h).mp hlast⟩
    · rintro ⟨h, hlast⟩
      exact ⟨ih.mpr h, (hiff (ih.mpr h)).mpr hlast⟩

theorem append_cons_cases {a a' b b' : List ε} {x z : ε} (h : a ++ x :: b = a' ++ z :: b') :
    (∃ d, b = d ++ z :: b') ∨ (x = z ∧ b = b') ∨ ∃ d, b' = d ++ x :: b := by
  rcases List.append_eq_append_iff.mp h with ⟨d, -, h⟩ | ⟨d, -, h⟩
  · cases d with
    | nil => exact .inr (.inl (List.cons.inj h))
    | cons y d => exact .inl ⟨d, (List.cons.inj h).2⟩
  · cases d with
    | nil => exact .inr (.inl ⟨(List.cons.inj h).1.symm, (List.cons.inj h).2.symm⟩)
    | cons y d => exact .inr (.inr ⟨d, (List.cons.inj h).2⟩)

theorem exists_last {p : ε → Bool} {l : List ε} (h : ∃ x ∈ l, p x = true) :
    ∃ a x b, l = a ++ x :: b ∧ p x = true ∧ ∀ y ∈ b, p y = false := by
  induction l using List.reverseRecOn with
  | nil => exact absurd h (by simp)
  | append_singleton l y ih =>
    cases hy : p y with
    | true => exact ⟨l, y, [], rfl, hy, by simp⟩
    | false =>
      obtain ⟨x, hx, hp⟩ := h
      have hx : x ∈ l := by
        rcases List.mem_append.mp hx with hx | hx
        · exact hx
        · rw [List.mem_singleton.mp hx, hy] at hp
          exact absurd hp (by simp)
      obtain ⟨a, z, b, rfl, hz, hb⟩ := ih ⟨x, hx, hp⟩
      refine ⟨a, z, b ++ [y], by simp, hz, ?_⟩
      simp only [List.forall_mem_append, List.forall_mem_singleton]
      exact ⟨hb, hy⟩

theorem path_append {g : σ → ε → σ} {l l' : List ε} :
    path g s (l ++ l') = path g s l ++ path g (l.foldl g s) l' := by
  induction l generalizing s with
  | nil => rfl
  | cons e l ih => exact congrArg _ ih

theorem exists_of_mem_path {g : σ → ε → σ} {e : ε} {l : List ε} (h : e ∈ l) :
    ∃ x ∈ path g s l, x.event = e := by
  induction l generalizing s with
  | nil => exact absurd h List.not_mem_nil
  | cons e' l ih =>
    rcases List.mem_cons.mp h with rfl | h
    · exact ⟨_, List.mem_cons_self, rfl⟩
    · obtain ⟨x, hx, hevent⟩ := ih (s := g s e') h
      exact ⟨x, List.mem_cons_of_mem _ hx, hevent⟩

variable {V : Type*} {f : σ → V} {g : Transition σ ε → V → V} {skip : Transition σ ε → Bool}
  {v : V} {l : List (Transition σ ε)}

/-- What the transitions of a list make of a value. -/
def replay (g : Transition σ ε → V → V) (l : List (Transition σ ε)) (v : V) : V :=
  l.foldl (fun v x => g x v) v

theorem replay_cons {x : Transition σ ε} : replay g (x :: l) v = replay g l (g x v) := rfl

theorem replay_append {l' : List (Transition σ ε)} :
    replay g (l ++ l') v = replay g l' (replay g l v) := List.foldl_append ..

theorem replay_keeps {P : V → Prop} (hkeeps : ∀ x ∈ l, ∀ v, P v → P (g x v)) (hv : P v) :
    P (replay g l v) := by
  induction l generalizing v with
  | nil => exact hv
  | cons x l ih =>
    exact ih (fun y hy => hkeeps y (by simp [hy])) (hkeeps x List.mem_cons_self v hv)

/-- A replay that leaves some transitions out agrees with the run if these change nothing that
the agreement is about. -/
theorem replay_agrees {R : V → V → Prop} (h : Execution step s tr t) (hv : R v (f s))
    (hf : ∀ x ∈ tr, f x.post = g x (f x.pre))
    (hcongr : ∀ x ∈ tr, ∀ v v', R v v' → R (g x v) (g x v'))
    (hskip : ∀ x ∈ tr, skip x = true → ∀ v, R v (f x.pre) → R v (g x (f x.pre))) :
    R (replay g (tr.filter fun x => !skip x) v) (f t) := by
  induction h with
  | nil => exact hv
  | @snoc t u e tr _ _ ih =>
    have ih := ih (fun x hx => hf x (by simp [hx])) (fun x hx => hcongr x (by simp [hx]))
      fun x hx => hskip x (by simp [hx])
    have hlast : (⟨t, e, u⟩ : Transition σ ε) ∈ tr ++ [⟨t, e, u⟩] := by simp
    have hu : f u = g ⟨t, e, u⟩ (f t) := hf _ hlast
    rw [List.filter_append, replay_append, hu]
    cases hx : skip ⟨t, e, u⟩ with
    | true =>
      rw [List.filter_cons_of_neg (by simp [hx])]
      exact hskip _ hlast hx _ ih
    | false =>
      rw [List.filter_cons_of_pos (by simp [hx])]
      exact hcongr _ hlast _ _ ih

end Execution
