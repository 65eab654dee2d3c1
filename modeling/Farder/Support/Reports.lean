import Farder.Support.Execution
import Mathlib.Data.List.Count
import Mathlib.Data.Set.Insert

/-! # Steps that report

A step leaves a new state and a list of reports. What relates the state before, the reports and
the state after, and holds when nothing is done and along two steps, holds along a loop and along
a whole run. A bound on how often something is reported is the main case: every report is paid
for out of an allowance that nothing refills. -/
namespace Reports

variable {σ ν α ε : Type*}

/-- Do a step for each element, and report all that is reported on the way. -/
def forEach (step : α → σ → σ × List ν) : List α → σ → σ × List ν
  | [], s => (s, [])
  | a :: as, s =>
    let first := step a s
    let rest := forEach step as first.1
    (rest.1, first.2 ++ rest.2)

def andThen (f g : σ → σ × List ν) (s : σ) : σ × List ν :=
  let first := f s
  let second := g first.1
  (second.1, first.2 ++ second.2)

structure Chain (R : σ → List ν → σ → Prop) : Prop where
  nil : ∀ s, R s [] s
  append : ∀ s l t l' u, R s l t → R t l' u → R s (l ++ l') u

namespace Chain

variable {R Q : σ → List ν → σ → Prop} {s t : σ}

/-- A step of the loop may rely on what holds from the start of the loop to it. -/
theorem forEach (hR : Chain R) {step : α → σ → σ × List ν} {as : List α}
    (h : ∀ a ∈ as, ∀ l t, R s l t → R t (step a t).2 (step a t).1) :
    R s (forEach step as s).2 (forEach step as s).1 := by
  suffices hfrom : ∀ l t, R s l t → R s (l ++ (Reports.forEach step as t).2)
      (Reports.forEach step as t).1 by
    simpa using hfrom [] s (hR.nil s)
  induction as with
  | nil =>
    intro l t hl
    simpa [Reports.forEach] using hl
  | cons a as ih =>
    intro l t hl
    have hfirst := hR.append _ _ _ _ _ hl (h a List.mem_cons_self l t hl)
    have hrest := ih (fun b hb => h b (List.mem_cons_of_mem a hb)) _ _ hfirst
    simpa [Reports.forEach, List.append_assoc] using hrest

theorem andThen (hR : Chain R) {f g : σ → σ × List ν} (hf : R s (f s).2 (f s).1)
    (hg : R (f s).1 (g (f s).1).2 (g (f s).1).1) :
    R s (andThen f g s).2 (andThen f g s).1 :=
  hR.append _ _ _ _ _ hf hg

/-- The rule for runs; `out` says what a transition reports. -/
theorem run (hR : Chain R) {step : σ → ε → σ → Prop} {tr : List (Transition σ ε)}
    (hrun : Execution step s tr t) (out : Transition σ ε → List ν)
    (h : ∀ x ∈ tr, R x.pre (out x) x.post) : R s (tr.flatMap out) t := by
  induction hrun with
  | nil => exact hR.nil s
  | @snoc pre post e tr _ _ ih =>
    rw [List.flatMap_append, List.flatMap_singleton]
    exact hR.append _ _ _ _ _ (ih fun x hx => h x (List.mem_append_left _ hx))
      (h ⟨pre, e, post⟩ (by simp))

theorem and (hR : Chain R) (hQ : Chain Q) : Chain fun s l t => R s l t ∧ Q s l t where
  nil s := ⟨hR.nil s, hQ.nil s⟩
  append _ _ _ _ _ h h' := ⟨hR.append _ _ _ _ _ h.1 h'.1, hQ.append _ _ _ _ _ h.2 h'.2⟩

theorem pays (allowance : σ → ℕ) (mark : ν → Bool) :
    Chain fun s l t => l.countP mark + allowance t ≤ allowance s where
  nil s := by simp
  append s l t l' u h h' := by
    rw [List.countP_append]
    omega

theorem of_trans {E : σ → σ → Prop} (hrefl : ∀ s, E s s)
    (htrans : ∀ s t u, E s t → E t u → E s u) : Chain fun (s : σ) (_ : List ν) t => E s t where
  nil := hrefl
  append s _ t _ u := htrans s t u

end Chain

theorem countP_add_le_of_refilled {step : σ → ε → σ → Prop} {s t : σ}
    {tr : List (Transition σ ε)} (hrun : Execution step s tr t) (allowance : σ → ℕ)
    (mark : ν → Bool) (refill : Transition σ ε → Bool) (out : Transition σ ε → List ν)
    (h : ∀ x ∈ tr, (out x).countP mark + allowance x.post ≤
      allowance x.pre + if refill x then 1 else 0) :
    (tr.flatMap out).countP mark + allowance t ≤ allowance s + tr.countP refill := by
  induction hrun with
  | nil => simp
  | @snoc pre post e tr _ _ ih =>
    have hbefore := ih fun x hx => h x (List.mem_append_left _ hx)
    have hlast := h ⟨pre, e, post⟩ (by simp)
    rw [List.flatMap_append, List.flatMap_singleton, List.countP_append, List.countP_append,
      List.countP_singleton]
    dsimp only at hlast
    omega

/-- Steps one after the other, with all that they report. -/
inductive Path (step : σ → List ν → σ → Prop) : σ → List ν → σ → Prop
  | nil (s : σ) : Path step s [] s
  | snoc {s t u : σ} {l l' : List ν} (h : Path step s l t) (hstep : step t l' u) :
      Path step s (l ++ l') u

namespace Path

variable {step step' : σ → List ν → σ → Prop} {s t : σ} {l : List ν}

theorem chain : Chain (Path step) where
  nil := .nil
  append s l t l' u h h' := by
    induction h' with
    | nil => simpa using h
    | snoc _ hstep ih =>
      rw [← List.append_assoc]
      exact .snoc ih hstep

theorem single (h : step s l t) : Path step s l t := by
  simpa using Path.snoc (.nil s) h

theorem mono (h : Path step s l t) (hstep : ∀ s l t, step s l t → step' s l t) :
    Path step' s l t := by
  induction h with
  | nil => exact .nil _
  | snoc _ hlast ih => exact .snoc ih (hstep _ _ _ hlast)

theorem along {R : σ → List ν → σ → Prop} (h : Path step s l t) (hR : Chain R)
    (hstep : ∀ s l t, step s l t → R s l t) : R s l t := by
  induction h with
  | nil => exact hR.nil _
  | snoc _ hlast ih => exact hR.append _ _ _ _ _ ih (hstep _ _ _ hlast)

end Path

end Reports

/-! ## Replicas of a set

A set changes by single elements, and each change is announced. A replica starts from a copy and
follows the announcements; it may hear again of changes that the copy has already. -/
namespace Replica

inductive Change (α : Type*) where
  | add (a : α)
  | remove (a : α)

variable {α : Type*} {s t : Set α} {cs cs' : List (Change α)}

def Change.apply (s : Set α) : Change α → Set α
  | .add a => insert a s
  | .remove a => s \ {a}

def replay (s : Set α) (cs : List (Change α)) : Set α := cs.foldl Change.apply s

@[simp] theorem replay_nil : replay s [] = s := rfl

@[simp] theorem replay_cons {c : Change α} : replay s (c :: cs) = replay (c.apply s) cs := rfl

theorem replay_append : replay s (cs ++ cs') = replay (replay s cs) cs' :=
  List.foldl_append

/-- Either the changes settle whether an element is in the set, or they leave it as it is. -/
theorem settled (a : α) (cs : List (Change α)) : (∀ s, a ∈ replay s cs) ∨
    (∀ s, a ∉ replay s cs) ∨ ∀ s, a ∈ replay s cs ↔ a ∈ s := by
  induction cs with
  | nil => exact .inr (.inr fun _ => Iff.rfl)
  | cons c cs ih =>
    rcases ih with hin | hout | hkept
    · exact .inl fun s => hin (c.apply s)
    · exact .inr (.inl fun s => hout (c.apply s))
    · simp only [replay_cons, hkept]
      cases c with
      | add b =>
        by_cases h : a = b
        · exact .inl fun s => .inl h
        · exact .inr (.inr fun s => by simp [Change.apply, h])
      | remove b =>
        by_cases h : a = b
        · exact .inr (.inl fun s hmem => hmem.2 h)
        · exact .inr (.inr fun s => by simp [Change.apply, h])

/-- Changes that were made already make no difference when they are heard of again. -/
theorem replay_replay : replay (replay s cs) cs = replay s cs := by
  ext a
  rcases settled a cs with hin | hout | hkept
  · exact iff_of_true (hin _) (hin _)
  · exact iff_of_false (hout _) (hout _)
  · exact hkept _

/-- A copy that hears of old changes first, and of the later ones then, is up to date. -/
theorem catches_up (h : replay s cs = t) : replay t (cs ++ cs') = replay t cs' := by
  rw [replay_append, ← h, replay_replay]

end Replica
