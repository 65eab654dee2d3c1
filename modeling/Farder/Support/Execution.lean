import Mathlib.Data.List.Induction
import Mathlib.Tactic.Common

/-! # Executions of a transition system

A system is a labelled step relation. An execution carries the list of its transitions,
each with the states before and after it, so that a statement about the history of a run
is a statement about that list. -/

variable {σ ε σ' ε' : Type*}

structure Transition (σ ε : Type*) where
  pre : σ
  event : ε
  post : σ

/-- `Execution step s tr t`: from `s`, the transitions `tr` lead to `t`, oldest first. -/
inductive Execution (step : σ → ε → σ → Prop) : σ → List (Transition σ ε) → σ → Prop where
  | nil (s) : Execution step s [] s
  | snoc {s t u e tr} : Execution step s tr t → step t e u →
      Execution step s (tr ++ [⟨t, e, u⟩]) u

namespace Execution

variable {step : σ → ε → σ → Prop} {s t u : σ} {tr a b : List (Transition σ ε)}

theorem trans (h : Execution step s a t) (k : Execution step t b u) :
    Execution step s (a ++ b) u := by
  induction k with
  | nil => simpa using h
  | snoc _ hstep ih => simpa only [← List.append_assoc] using ih.snoc hstep

theorem single {e : ε} (h : step s e t) : Execution step s [⟨s, e, t⟩] t := by
  simpa using (Execution.nil s).snoc h

theorem nil_eq (h : Execution step s [] t) : t = s := by
  generalize htr : ([] : List (Transition σ ε)) = tr at h
  cases h with
  | nil => rfl
  | snoc _ _ => simp at htr

theorem of_snoc {x : Transition σ ε} (h : Execution step s (tr ++ [x]) t) :
    Execution step s tr x.pre ∧ step x.pre x.event x.post ∧ t = x.post := by
  generalize htr : tr ++ [x] = l at h
  cases h with
  | nil => simp at htr
  | snoc h hstep =>
    obtain ⟨rfl, rfl⟩ := List.append_singleton_inj.mp htr
    exact ⟨h, hstep, rfl⟩

theorem split (h : Execution step s (a ++ b) u) :
    ∃ t, Execution step s a t ∧ Execution step t b u := by
  induction b using List.reverseRecOn generalizing u with
  | nil => exact ⟨u, by simpa using h, .nil u⟩
  | append_singleton b x ih =>
    rw [← List.append_assoc] at h
    obtain ⟨hab, hstep, rfl⟩ := h.of_snoc
    obtain ⟨t, ha, hb⟩ := ih hab
    exact ⟨t, ha, hb.snoc hstep⟩

theorem of_cons {x : Transition σ ε} (h : Execution step s (x :: tr) u) :
    x.pre = s ∧ step s x.event x.post ∧ Execution step x.post tr u := by
  obtain ⟨t, hx, htr⟩ := split (a := [x]) h
  have hx : Execution step s ([] ++ [x]) t := hx
  obtain ⟨hnil, hstep, rfl⟩ := hx.of_snoc
  have := hnil.nil_eq
  subst this
  exact ⟨rfl, hstep, htr⟩

theorem split_at {x : Transition σ ε} (h : Execution step s (a ++ x :: b) u) :
    Execution step s a x.pre ∧ step x.pre x.event x.post ∧ Execution step x.post b u := by
  obtain ⟨t, ha, hb⟩ := h.split
  obtain ⟨rfl, hstep, hb⟩ := hb.of_cons
  exact ⟨ha, hstep, hb⟩

theorem step_of_mem {x : Transition σ ε} (h : Execution step s tr t) (hx : x ∈ tr) :
    step x.pre x.event x.post := by
  obtain ⟨a, b, rfl⟩ := List.append_of_mem hx
  exact h.split_at.2.1

theorem invariant {I : σ → Prop} (h : Execution step s tr t) (hs : I s)
    (hstep : ∀ s e t, I s → step s e t → I t) : I t := by
  induction h with
  | nil => exact hs
  | snoc _ h ih => exact hstep _ _ _ ih h

theorem invariant_of_mem {I : σ → Prop} (h : Execution step s tr t) (hs : I s)
    (hstep : ∀ s e t, I s → step s e t → I t) {x : Transition σ ε} (hx : x ∈ tr) :
    I x.pre ∧ I x.post := by
  obtain ⟨a, b, rfl⟩ := List.append_of_mem hx
  obtain ⟨ha, hx, -⟩ := h.split_at
  have hpre := ha.invariant hs hstep
  exact ⟨hpre, hstep _ _ _ hpre hx⟩

/-- The simulation rule: under an invariant of the concrete run, steps that map to steps
make runs that map to runs. -/
theorem map {step' : σ' → ε' → σ' → Prop} {I : σ → Prop} (view : σ → σ') (act : σ → ε → ε')
    (h : Execution step s tr t) (hs : I s) (hinv : ∀ s e t, I s → step s e t → I t)
    (hsim : ∀ s e t, I s → step s e t → step' (view s) (act s e) (view t)) :
    Execution step' (view s) (tr.map fun x => ⟨view x.pre, act x.pre x.event, view x.post⟩)
      (view t) := by
  induction h with
  | nil => exact .nil _
  | snoc h hstep ih =>
    simpa using ih.snoc (hsim _ _ _ (h.invariant hs hinv) hstep)

/-- The until rule: a property of the first state holds of the last one, or some
transition ends it. -/
theorem persists (Q : σ → Prop) (h : Execution step s tr t) (hs : Q s) :
    Q t ∨ ∃ x ∈ tr, Q x.pre ∧ ¬Q x.post := by
  induction h with
  | nil => exact .inl hs
  | @snoc t u e tr _ _ ih =>
    rcases ih with ht | ⟨x, hx, hend⟩
    · by_cases hu : Q u
      · exact .inl hu
      · exact .inr ⟨⟨t, e, u⟩, by simp, ht, hu⟩
    · exact .inr ⟨x, by simp [hx], hend⟩

/-- The since rule: a property that holds at the end of a run, and did not at its start, was
established by some transition with `P`, and no transition with `Q` came after it. -/
theorem since {P Q : Transition σ ε → Prop} (R : σ → Prop) (h : Execution step s tr t)
    (hs : ¬R s) (hstep : ∀ x ∈ tr, R x.post → P x ∨ R x.pre ∧ ¬Q x) (ht : R t) :
    ∃ a x b, tr = a ++ x :: b ∧ P x ∧ ∀ y ∈ b, ¬Q y := by
  induction h with
  | nil => exact absurd ht hs
  | @snoc t u e tr _ _ ih =>
    rcases hstep ⟨t, e, u⟩ (by simp) ht with hP | ⟨hpre, hQ⟩
    · exact ⟨tr, _, [], rfl, hP, by simp⟩
    · obtain ⟨a, x, b, rfl, hP, hb⟩ := ih (fun x hx => hstep x (by simp [hx])) hpre
      refine ⟨a, x, b ++ [⟨t, e, u⟩], by simp, hP, ?_⟩
      simp only [List.forall_mem_append, List.forall_mem_singleton]
      exact ⟨hb, hQ⟩

theorem good_end {Q : σ → Prop} (h : Execution step s tr t) (hs : Q s)
    (hpost : ∀ x ∈ tr, Q x.post) : Q t := by
  cases h with
  | nil => exact hs
  | snoc _ _ => exact hpost _ (List.mem_append_right _ (List.mem_singleton_self _))

theorem kept {Q : σ → Prop} (h : Execution step s tr t) (hs : Q s)
    (hstep : ∀ x ∈ tr, step x.pre x.event x.post → Q x.pre → Q x.post) :
    ∀ x ∈ tr, Q x.pre ∧ Q x.post := by
  induction h with
  | nil => simp
  | @snoc t u e tr htr hlast ih =>
    have ih := ih fun x hx => hstep x (by simp [hx])
    have ht : Q t := htr.good_end hs fun x hx => (ih x hx).2
    simp only [List.forall_mem_append, List.forall_mem_singleton]
    exact ⟨ih, ht, hstep ⟨t, e, u⟩ (by simp) hlast ht⟩

/-- When a step out of a good state does what it should exactly if it meets a condition, and then
ends in a good state, all steps of a run that starts well do so exactly if all meet the
condition. -/
theorem forall_iff {I : σ → Prop} (h : Execution step s tr t) (Good : σ → Prop)
    (Meets Cond : Transition σ ε → Prop) (hI : I s) (hs : Good s)
    (hinv : ∀ s e t, I s → step s e t → I t)
    (hstep : ∀ x ∈ tr, I x.pre → Good x.pre → step x.pre x.event x.post →
      (Meets x ↔ Cond x) ∧ (Meets x → Good x.post)) :
    (∀ x ∈ tr, Meets x) ↔ ∀ x ∈ tr, Cond x := by
  suffices hboth : ((∀ x ∈ tr, Meets x) → Good t) ∧
      ((∀ x ∈ tr, Meets x) ↔ ∀ x ∈ tr, Cond x) from hboth.2
  induction h with
  | nil => exact ⟨fun _ => hs, by simp⟩
  | @snoc t u e tr htr h ih =>
    obtain ⟨hgood, hiff⟩ := ih fun x hx => hstep x (by simp [hx])
    have hlast (hmeets : ∀ x ∈ tr, Meets x) :
        (Meets ⟨t, e, u⟩ ↔ Cond ⟨t, e, u⟩) ∧ (Meets ⟨t, e, u⟩ → Good u) :=
      hstep ⟨t, e, u⟩ (by simp) (htr.invariant hI hinv) (hgood hmeets) h
    simp only [List.forall_mem_append, List.forall_mem_singleton]
    refine ⟨fun ⟨hmeets, hx⟩ => (hlast hmeets).2 hx, ?_⟩
    constructor
    · rintro ⟨hmeets, hx⟩
      exact ⟨hiff.mp hmeets, (hlast hmeets).1.mp hx⟩
    · rintro ⟨hconds, hx⟩
      exact ⟨hiff.mpr hconds, (hlast (hiff.mpr hconds)).1.mpr hx⟩

/-- When a step out of a good state ends in a good state exactly if it meets a condition,
a run that starts well stays in good states exactly if all its steps meet the condition. -/
theorem forall_post_iff {I : σ → Prop} (h : Execution step s tr t) (Good : σ → Prop)
    (Cond : Transition σ ε → Prop) (hI : I s) (hs : Good s)
    (hinv : ∀ s e t, I s → step s e t → I t)
    (hstep : ∀ x ∈ tr, I x.pre → Good x.pre → step x.pre x.event x.post →
      (Good x.post ↔ Cond x)) :
    (∀ x ∈ tr, Good x.post) ↔ ∀ x ∈ tr, Cond x :=
  h.forall_iff Good (fun x => Good x.post) Cond hI hs hinv fun x hx hpre hgood hx' =>
    ⟨hstep x hx hpre hgood hx', fun hpost => hpost⟩

/-- The budget rule: a counter that every marked step finds below `limit` and advances by
one, and that no other step lowers, bounds the number of marked steps by `limit`. -/
theorem countP_le {I : σ → Prop} {limit : ℕ} {mark : Transition σ ε → Bool}
    (h : Execution step s tr t) (spent : σ → ℕ) (hI : I s)
    (hinv : ∀ s e t, I s → step s e t → I t)
    (hmark : ∀ x ∈ tr, I x.pre → mark x = true →
      spent x.pre < limit ∧ spent x.post = spent x.pre + 1)
    (hother : ∀ x ∈ tr, I x.pre → mark x = false → spent x.post = spent x.pre) :
    spent t = spent s + tr.countP mark ∧ (tr.countP mark ≠ 0 → spent t ≤ limit) := by
  induction h with
  | nil => simp
  | @snoc t u e tr htr h ih =>
    obtain ⟨heq, hle⟩ :=
      ih (fun x hx => hmark x (by simp [hx])) (fun x hx => hother x (by simp [hx]))
    have ht := htr.invariant hI hinv
    cases hx : mark ⟨t, e, u⟩ with
    | true =>
      obtain ⟨hlt, hspent⟩ := hmark _ (by simp) ht hx
      simp only at hlt hspent
      simp [hx]
      omega
    | false =>
      have hspent := hother _ (by simp) ht hx
      simp only at hspent
      simp only [List.countP_append, List.countP_cons, List.countP_nil, hx]
      refine ⟨by simp [hspent, heq], fun hne => ?_⟩
      rw [hspent]
      exact hle (by simpa using hne)

/-! ## Runs of a fallible step function -/

variable {Err : Type*} {f : σ → ε → Except Err σ}

/-- The transitions of a list of events, up to the first one that fails. -/
def transitions (f : σ → ε → Except Err σ) (s : σ) : List ε → List (Transition σ ε)
  | [] => []
  | e :: events =>
    match f s e with
    | .ok t => ⟨s, e, t⟩ :: transitions f t events
    | .error _ => []

def stateAfter (f : σ → ε → Except Err σ) (s : σ) : List ε → σ
  | [] => s
  | e :: events =>
    match f s e with
    | .ok t => stateAfter f t events
    | .error _ => s

theorem of_transitions (events : List ε) :
    Execution (fun s e t => f s e = .ok t) s (transitions f s events) (stateAfter f s events) := by
  induction events generalizing s with
  | nil => exact .nil s
  | cons e events ih =>
    cases h : f s e with
    | ok t =>
      simp only [transitions, stateAfter, h]
      exact (single h).trans ih
    | error _ =>
      simp only [transitions, stateAfter, h]
      exact .nil s

theorem event_mem_of_transitions {events : List ε} {x : Transition σ ε}
    (hx : x ∈ transitions f s events) : x.event ∈ events := by
  induction events generalizing s with
  | nil => simp [transitions] at hx
  | cons e events ih =>
    simp only [transitions] at hx
    split at hx
    · rcases List.mem_cons.mp hx with rfl | hx
      · exact List.mem_cons_self
      · exact List.mem_cons_of_mem _ (ih hx)
    · simp at hx

/-- The transitions of a step function that cannot fail. -/
def path (g : σ → ε → σ) (s : σ) : List ε → List (Transition σ ε)
  | [] => []
  | e :: events => ⟨s, e, g s e⟩ :: path g (g s e) events

theorem of_path (g : σ → ε → σ) (events : List ε) :
    Execution (fun s e t => g s e = t) s (path g s events) (events.foldl g s) := by
  induction events generalizing s with
  | nil => exact .nil s
  | cons e events ih => exact (single rfl).trans ih

theorem of_steps {step' : σ → ε → σ → Prop} (h : Execution step s tr t)
    (hstep : ∀ x ∈ tr, step x.pre x.event x.post → step' x.pre x.event x.post) :
    Execution step' s tr t := by
  induction h with
  | nil => exact .nil _
  | @snoc t u e tr _ hlast ih =>
    exact (ih fun x hx => hstep x (List.mem_append_left _ hx)).snoc
      (hstep _ (List.mem_append_right _ (List.mem_singleton_self _)) hlast)

/-- A step function, with what it refuses left as it is. -/
def attempt (g : σ → ε → Option σ) (s : σ) (e : ε) : σ := (g s e).getD s

theorem of_attempt (g : σ → ε → Option σ) (events : List ε)
    (h : (path (attempt g) s events).all (fun x => (g x.pre x.event).isSome) = true) :
    Execution (fun s e t => g s e = some t) s (path (attempt g) s events)
      (events.foldl (attempt g) s) := by
  refine (of_path (attempt g) events).of_steps fun x hx hstep => ?_
  obtain ⟨u, hu⟩ := Option.isSome_iff_exists.mp (List.all_eq_true.mp h x hx)
  rw [attempt, hu, Option.getD_some] at hstep
  rw [hu, hstep]

theorem foldlM_eq_ok {events : List ε} : events.foldlM f s = .ok t ↔
    ∃ tr, Execution (fun s e t => f s e = .ok t) s tr t ∧ tr.map Transition.event = events := by
  constructor
  · intro h
    induction events generalizing s with
    | nil =>
      obtain rfl : s = t := by simpa [pure, Except.pure] using h
      exact ⟨[], .nil s, rfl⟩
    | cons e events ih =>
      rw [List.foldlM_cons] at h
      cases hstep : f s e with
      | error _ => simp [hstep, bind, Except.bind] at h
      | ok u =>
        obtain ⟨tr, htr, rfl⟩ := ih (s := u) (by simpa [hstep, bind, Except.bind] using h)
        exact ⟨_, (single hstep).trans htr, rfl⟩
  · rintro ⟨tr, h, rfl⟩
    induction h with
    | nil => rfl
    | snoc _ hstep ih =>
      simp [List.foldlM_append, ih, hstep, bind, Except.bind, pure, Except.pure]

end Execution
