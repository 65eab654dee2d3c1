import Mathlib.Tactic.Common

/-! # Guarded computations

Fallible code in check-then-mutate style: a computation either succeeds, is rejected
with a message, or panics. Rejection is part of the contract of a check; a panic marks
an assertion of the code that failed. -/
namespace Guarded

inductive Failure where
  | rejected (message : String)
  | panicked (message : String)
  deriving DecidableEq, Repr

abbrev Checked (α : Type) := Except Failure α

def ensure (p : Prop) [Decidable p] (message : String) : Checked Unit :=
  if p then .ok () else .error (.rejected message)

def context {α : Type} (o : Option α) (message : String) : Checked α :=
  match o with
  | some a => .ok a
  | none => .error (.rejected message)

/-- Assert that the optional value is present. -/
def expect {α : Type} (o : Option α) (message : String) : Checked α :=
  match o with
  | some a => .ok a
  | none => .error (.panicked message)

/-- The guard on a value that may be missing: reject unless a present value satisfies `p`. -/
def ensureIfSome {α : Type} (o : Option α) (p : α → Prop) [DecidablePred p] (message : String) :
    Checked Unit :=
  match o with
  | some a => ensure (p a) message
  | none => .ok ()

/-- Replace the message of a rejection by an outer one. -/
def withContext {α : Type} (x : Checked α) (message : String) : Checked α :=
  match x with
  | .error (.rejected _) => .error (.rejected message)
  | x => x

def prefixed {α : Type} (pre : String) (x : Checked α) : Checked α :=
  match x with
  | .error (.rejected message) => .error (.rejected (pre ++ message))
  | x => x

def forAll {α : Type} (l : List α) (check : α → Checked Unit) : Checked Unit :=
  match l with
  | [] => .ok ()
  | a :: l => check a >>= fun _ => forAll l check

variable {α β : Type}

@[simp] theorem ensure_eq_ok {p : Prop} [Decidable p] {message : String} {u : Unit} :
    ensure p message = .ok u ↔ p := by
  unfold ensure
  split <;> simp [*]

@[simp] theorem context_eq_ok {o : Option α} {message : String} {a : α} :
    context o message = .ok a ↔ o = some a := by
  cases o <;> simp [context]

@[simp] theorem expect_eq_ok {o : Option α} {message : String} {a : α} :
    expect o message = .ok a ↔ o = some a := by
  cases o <;> simp [expect]

@[simp] theorem ensureIfSome_eq_ok {o : Option α} {p : α → Prop} [DecidablePred p]
    {message : String} {u : Unit} : ensureIfSome o p message = .ok u ↔ ∀ a ∈ o, p a := by
  cases o <;> simp [ensureIfSome]

@[simp] theorem withContext_eq_ok {x : Checked α} {message : String} {a : α} :
    withContext x message = .ok a ↔ x = .ok a := by
  unfold withContext
  split <;> simp_all

@[simp] theorem prefixed_eq_ok {pre : String} {x : Checked α} {a : α} :
    prefixed pre x = .ok a ↔ x = .ok a := by
  unfold prefixed
  split <;> simp_all

@[simp] theorem pure_eq_ok {a b : α} : (pure a : Checked α) = .ok b ↔ a = b := by
  simp [pure, Except.pure]

@[simp] theorem bind_eq_ok {x : Checked α} {f : α → Checked β} {b : β} :
    x >>= f = .ok b ↔ ∃ a, x = .ok a ∧ f a = .ok b := by
  cases x <;> simp [bind, Except.bind]

@[simp] theorem map_eq_ok {x : Checked α} {f : α → β} {b : β} :
    f <$> x = .ok b ↔ ∃ a, x = .ok a ∧ f a = b := by
  cases x <;> simp [Functor.map, Except.map]

@[simp] theorem forAll_eq_ok {l : List α} {check : α → Checked Unit} {u : Unit} :
    forAll l check = .ok u ↔ ∀ a ∈ l, check a = .ok () := by
  induction l with
  | nil => simp [forAll]
  | cons a l ih =>
    have unit : (∃ v, check a = .ok v) ↔ check a = .ok () := ⟨fun ⟨⟨⟩, h⟩ => h, fun h => ⟨_, h⟩⟩
    simp [forAll, ih, unit]

/-- An assertion of the computation fails. -/
def Panics (x : Checked α) : Prop := ∃ message, x = .error (.panicked message)

@[simp] theorem panics_ok (a : α) : ¬Panics (.ok a : Checked α) := by
  simp [Panics]

@[simp] theorem panics_pure (a : α) : ¬Panics (pure a : Checked α) :=
  panics_ok a

@[simp] theorem panics_rejected (message : String) :
    ¬Panics (.error (.rejected message) : Checked α) := by
  simp [Panics]

instance (x : Checked α) : Decidable (Panics x) :=
  match x with
  | .ok a => isFalse (panics_ok a)
  | .error (.rejected message) => isFalse (panics_rejected message)
  | .error (.panicked message) => isTrue ⟨message, rfl⟩

@[simp] theorem panics_ensure (p : Prop) [Decidable p] (message : String) :
    ¬Panics (ensure p message) := by
  unfold ensure
  split <;> simp

@[simp] theorem panics_ensureIfSome (o : Option α) (p : α → Prop) [DecidablePred p]
    (message : String) : ¬Panics (ensureIfSome o p message) := by
  cases o <;> simp [ensureIfSome]

@[simp] theorem panics_context (o : Option α) (message : String) :
    ¬Panics (context o message) := by
  cases o <;> simp [context]

@[simp] theorem panics_expect {o : Option α} {message : String} :
    Panics (expect o message) ↔ o = none := by
  cases o <;> simp [expect, Panics]

@[simp] theorem panics_withContext {x : Checked α} {message : String} :
    Panics (withContext x message) ↔ Panics x := by
  unfold withContext
  split <;> simp

@[simp] theorem panics_bind {x : Checked α} {f : α → Checked β} :
    Panics (x >>= f) ↔ Panics x ∨ ∃ a, x = .ok a ∧ Panics (f a) := by
  cases x <;> simp [Panics, bind, Except.bind]

@[simp] theorem panics_map {x : Checked α} {f : α → β} : Panics (f <$> x) ↔ Panics x := by
  cases x <;> simp [Panics, Functor.map, Except.map]

theorem not_panics_forAll {l : List α} {check : α → Checked Unit}
    (h : ∀ a ∈ l, ¬Panics (check a)) : ¬Panics (forAll l check) := by
  induction l with
  | nil => simp [forAll]
  | cons a l ih =>
    simp only [forAll, panics_bind, not_or, not_exists, not_and]
    exact ⟨h a (by simp), fun _ _ => ih fun b hb => h b (by simp [hb])⟩

/-! ## What a refusal says -/

/-- The computation is rejected with the message. -/
def Says (message : String) (x : Checked α) : Prop := x = .error (.rejected message)

@[simp] theorem says_ok {message : String} (a : α) : ¬Says message (.ok a : Checked α) := by
  simp [Says]

@[simp] theorem says_pure {message : String} (a : α) : ¬Says message (pure a : Checked α) :=
  says_ok a

@[simp] theorem says_ensure {p : Prop} [Decidable p] {message text : String} :
    Says message (ensure p text) ↔ ¬p ∧ text = message := by
  unfold ensure
  split <;> simp [Says, *]

@[simp] theorem says_context {o : Option α} {message text : String} :
    Says message (context o text) ↔ o = none ∧ text = message := by
  cases o <;> simp [Says, context]

@[simp] theorem says_prefixed {pre message : String} {x : Checked α} :
    Says message (prefixed pre x) ↔ ∃ text, Says text x ∧ pre ++ text = message := by
  unfold prefixed
  split
  · simp [Says]
  · next hother =>
    refine iff_of_false (hother _) ?_
    rintro ⟨text, hsays, -⟩
    exact hother text hsays

@[simp] theorem says_bind {message : String} {x : Checked α} {f : α → Checked β} :
    Says message (x >>= f) ↔ Says message x ∨ ∃ a, x = .ok a ∧ Says message (f a) := by
  cases x <;> simp [Says, bind, Except.bind]

@[simp] theorem says_map {message : String} {x : Checked α} {f : α → β} :
    Says message (f <$> x) ↔ Says message x := by
  cases x <;> simp [Says, Functor.map, Except.map]

@[simp] theorem prefixed_pure {pre : String} {a : α} :
    prefixed pre (pure a) = pure a := rfl

theorem prefixed_map {pre : String} {f : α → β} {x : Checked α} :
    f <$> prefixed pre x = prefixed pre (f <$> x) := by
  unfold prefixed
  cases x with
  | ok a => rfl
  | error failure => cases failure <;> rfl

theorem append_ne {s t u : String} {n : ℕ} (hlength : n < s.toList.length)
    (hletter : s.toList[n]? ≠ u.toList[n]?) : s ++ t ≠ u := by
  rintro rfl
  rw [String.toList_append, List.getElem?_append_left hlength] at hletter
  exact hletter rfl

theorem bind_eq_bind_iff {x : Checked α} {f g : α → Checked β} :
    x >>= f = x >>= g ↔ ∀ a, x = .ok a → f a = g a := by
  cases x with
  | ok a => exact ⟨fun h _ ha => Except.ok.inj ha ▸ h, fun h => h a rfl⟩
  | error failure => exact ⟨fun _ _ ha => absurd ha nofun, fun _ => rfl⟩

theorem then_eq_iff {x y : Checked Unit} {a : α} :
    ((do x; return a) : Checked α) = (do y; return a) ↔ x = y := by
  cases x <;> cases y <;> simp [bind, Except.bind, pure, Except.pure]

theorem forAll_map {f : α → β} {l : List α} {check : β → Checked Unit} :
    forAll (l.map f) check = forAll l fun a => check (f a) := by
  induction l with
  | nil => rfl
  | cons a l ih => simp only [List.map_cons, forAll, ih]

theorem foldlM_invariant {P : α → Prop} {l : List β} {f : α → β → Checked α} {a a' : α}
    (h : l.foldlM f a = .ok a') (ha : P a)
    (hf : ∀ a, P a → ∀ b ∈ l, ∀ a', f a b = .ok a' → P a') : P a' := by
  induction l generalizing a with
  | nil =>
    obtain rfl : a = a' := by simpa using h
    exact ha
  | cons b l ih =>
    rw [List.foldlM_cons, bind_eq_ok] at h
    obtain ⟨c, hc, h⟩ := h
    exact ih h (hf a ha b (by simp) c hc) fun a ha b hb => hf a ha b (by simp [hb])

theorem foldlM_total {P : α → Prop} {l : List β} {f : α → β → Checked α} {a : α} (ha : P a)
    (hf : ∀ a, P a → ∀ b ∈ l, ∃ a', f a b = .ok a' ∧ P a') :
    ∃ a', l.foldlM f a = .ok a' ∧ P a' := by
  induction l generalizing a with
  | nil => exact ⟨a, rfl, ha⟩
  | cons b l ih =>
    obtain ⟨c, hc, hP⟩ := hf a ha b (by simp)
    obtain ⟨a', ha', hP'⟩ := ih hP fun a ha b hb => hf a ha b (by simp [hb])
    exact ⟨a', by rw [List.foldlM_cons, hc]; exact ha', hP'⟩

theorem not_panics_foldlM {l : List β} {f : α → β → Checked α} (h : ∀ a b, ¬Panics (f a b))
    (a : α) : ¬Panics (l.foldlM f a) := by
  induction l generalizing a with
  | nil => simp
  | cons b l ih =>
    simp only [List.foldlM_cons, panics_bind, not_or, not_exists, not_and]
    exact ⟨h a b, fun a' _ => ih a'⟩

/-- What the steps of a loop report, up to the one that fails. -/
def traceM {γ : Type*} (report : α → β → List γ) (step : α → β → Checked α) : α → List β → List γ
  | _, [] => []
  | a, b :: bs => report a b ++ match step a b with
    | .ok a' => traceM report step a' bs
    | .error _ => []

/-! ## Loops that cannot fail -/

variable {step : α → β → α} {P : α → Prop} {D : β → α → Prop}

theorem foldl_invariant {l : List β} {a : α} (ha : P a) (hstep : ∀ a, P a → ∀ b ∈ l, P (step a b)) :
    P (l.foldl step a) := by
  induction l generalizing a with
  | nil => exact ha
  | cons b l ih => exact ih (hstep a ha b (by simp)) fun a ha b hb => hstep a ha b (by simp [hb])

/-- What each item's step achieves, and no later step undoes, the loop achieves for all items. -/
theorem foldl_done {l : List β} {a : α} (hdone : ∀ a b, D b (step a b))
    (hkeep : ∀ a b c, D b a → D b (step a c)) : ∀ b ∈ l, D b (l.foldl step a) := by
  induction l generalizing a with
  | nil => simp
  | cons c l ih =>
    intro b hb
    rcases List.mem_cons.mp hb with rfl | hb
    · rw [List.foldl_cons]
      exact foldl_invariant (P := D b) (hdone a b) fun a ha c _ => hkeep a b c ha
    · exact ih b hb

theorem foldl_eq_self {l : List β} {a : α} (h : ∀ b ∈ l, step a b = a) : l.foldl step a = a := by
  refine foldl_invariant (P := fun c => c = a) rfl fun c hc b hb => ?_
  rw [hc, h b hb]

end Guarded
