import Mathlib.Tactic.Common

/-! # Programs with effects

A program changes a state and then returns or fails. What it has done before it fails stays done:
nothing is rolled back. -/
namespace Effects

variable {S ε ε' α β : Type}

def Prog (S ε α : Type) := S → Except ε α × S

namespace Prog

instance : Monad (Prog S ε) where
  pure a := fun s => (.ok a, s)
  bind x f := fun s =>
    match x s with
    | (.ok a, s') => f a s'
    | (.error e, s') => (.error e, s')

def fail (e : ε) : Prog S ε α := fun s => (.error e, s)

def get : Prog S ε S := fun s => (.ok s, s)

def modify (f : S → S) : Prog S ε Unit := fun s => (.ok (), f s)

def ofExcept (x : Except ε α) : Prog S ε α := fun s => (x, s)

def ofOption (o : Option α) (e : ε) : Prog S ε α :=
  match o with
  | some a => pure a
  | none => fail e

/-- Run a program and look at how it went. -/
def attempt (x : Prog S ε α) : Prog S ε' (Except ε α) := fun s => (.ok (x s).1, (x s).2)

/-- Run a program for each element, and collect what it returns. -/
def collect (l : List α) (f : α → Prog S ε β) : Prog S ε (List β) :=
  match l with
  | [] => pure []
  | a :: l => do
    let b ← f a
    let bs ← collect l f
    return b :: bs

variable {x : Prog S ε α} {f : α → Prog S ε β} {s s' : S}

@[simp] theorem run_pure (a : α) : (pure a : Prog S ε α) s = (.ok a, s) := rfl
@[simp] theorem run_fail (e : ε) : (fail e : Prog S ε α) s = (.error e, s) := rfl
@[simp] theorem run_get : (get : Prog S ε S) s = (.ok s, s) := rfl
@[simp] theorem run_modify (g : S → S) : (modify g : Prog S ε Unit) s = (.ok (), g s) := rfl
@[simp] theorem run_ofExcept (y : Except ε α) : (ofExcept y : Prog S ε α) s = (y, s) := rfl
@[simp] theorem run_attempt :
    (attempt x : Prog S ε' (Except ε α)) s = (.ok (x s).1, (x s).2) := rfl

theorem run_bind : (x >>= f) s =
    match x s with
    | (.ok a, s') => f a s'
    | (.error e, s') => (.error e, s') := rfl

theorem bind_of_ok {a : α} (h : x s = (.ok a, s')) : (x >>= f) s = f a s' := by
  rw [run_bind, h]

theorem bind_of_error {e : ε} (h : x s = (.error e, s')) : (x >>= f) s = (.error e, s') := by
  rw [run_bind, h]

theorem bind_assoc {γ : Type} {g : β → Prog S ε γ} :
    (x >>= f) >>= g = x >>= fun a => f a >>= g := by
  funext s
  rcases hrun : x s with ⟨e | a, s'⟩
  · rw [bind_of_error (bind_of_error hrun), bind_of_error hrun]
  · rw [run_bind, bind_of_ok hrun, ← run_bind, bind_of_ok hrun]

theorem run_bind_pure (x : Prog S ε α) (f : α → β) (s : S) :
    (x >>= fun a => pure (f a)) s = ((x s).1.map f, (x s).2) := by
  rw [run_bind]
  rcases x s with ⟨e | a, s'⟩ <;> rfl

@[simp] theorem pure_bind (a : α) (f : α → Prog S ε β) : (pure a >>= f : Prog S ε β) = f a := rfl

@[simp] theorem run_fail_bind (e : ε) : ((fail e : Prog S ε α) >>= f) s = (.error e, s) := rfl

@[simp] theorem run_get_bind {f : S → Prog S ε β} : (get >>= f) s = f s s := rfl

@[simp] theorem run_modify_bind {g : S → S} {f : Unit → Prog S ε β} :
    (modify g >>= f) s = f () (g s) := rfl

@[simp] theorem run_attempt_bind {f : Except ε α → Prog S ε' β} :
    (attempt x >>= f) s = f (x s).1 (x s).2 := rfl

end Prog

/-! ## What a program keeps -/

/-- Whether the program returns or fails, `P` holds afterwards if it held before. -/
def Keeps (P : S → Prop) (x : Prog S ε α) : Prop := ∀ s, P s → P (x s).2

namespace Keeps

variable {P : S → Prop} {x : Prog S ε α}

theorem pure (a : α) : Keeps P (pure a : Prog S ε α) := fun _ h => h

theorem fail (e : ε) : Keeps P (Prog.fail e : Prog S ε α) := fun _ h => h

theorem get : Keeps P (Prog.get : Prog S ε S) := fun _ h => h

theorem ofExcept (y : Except ε α) : Keeps P (Prog.ofExcept y : Prog S ε α) := fun _ h => h

theorem ofOption (o : Option α) (e : ε) : Keeps P (Prog.ofOption o e : Prog S ε α) := by
  cases o with
  | none => exact fail e
  | some a => exact pure a

theorem bind {f : α → Prog S ε β} (hx : Keeps P x) (hf : ∀ a, Keeps P (f a)) :
    Keeps P (x >>= f) := by
  intro s hs
  have hmid := hx s hs
  rw [Prog.run_bind]
  rcases hrun : x s with ⟨a | a, s'⟩
  · simpa [hrun] using hmid
  · exact hf a s' (by simpa [hrun] using hmid)

theorem attempt (hx : Keeps P x) : Keeps P (Prog.attempt x : Prog S ε' (Except ε α)) := hx

theorem collect {l : List α} {f : α → Prog S ε β} (hf : ∀ a ∈ l, Keeps P (f a)) :
    Keeps P (Prog.collect l f) := by
  induction l with
  | nil => exact Keeps.pure []
  | cons a l ih =>
    have hrest : Keeps P (Prog.collect l f) := ih fun b hb => hf b (List.mem_cons_of_mem a hb)
    exact (hf a List.mem_cons_self).bind fun b => hrest.bind fun bs => Keeps.pure (b :: bs)

end Keeps

/-! ## How a program ends -/

/-- If `P` holds before the program, `Q` holds of its result and of the state afterwards. -/
def Triple (P : S → Prop) (x : Prog S ε α) (Q : Except ε α → S → Prop) : Prop :=
  ∀ s, P s → Q (x s).1 (x s).2

/-- `P` holds if the program has returned, and `E` if it has failed. -/
def Ends (P E : S → Prop) (r : Except ε α) (s : S) : Prop :=
  match r with
  | .ok _ => P s
  | .error _ => E s

namespace Triple

variable {P P' : S → Prop} {x : Prog S ε α} {Q Q' : Except ε α → S → Prop}

theorem of_keeps (h : Keeps P x) : Triple P x fun _ => P := h

theorem pre (hx : Triple P x Q) (h : ∀ s, P' s → P s) : Triple P' x Q := fun s hs =>
  hx s (h s hs)

theorem post (hx : Triple P x Q) (h : ∀ r s, Q r s → Q' r s) : Triple P x Q' := fun s hs =>
  h _ _ (hx s hs)

theorem pure {a : α} (h : ∀ s, P s → Q (.ok a) s) : Triple P (pure a : Prog S ε α) Q := h

theorem fail {e : ε} (h : ∀ s, P s → Q (.error e) s) : Triple P (Prog.fail e : Prog S ε α) Q := h

theorem bind {f : α → Prog S ε β} {R : Except ε α → S → Prop} {Q : Except ε β → S → Prop}
    (hx : Triple P x R) (hf : ∀ a, Triple (R (.ok a)) (f a) Q)
    (herror : ∀ e s, R (.error e) s → Q (.error e) s) : Triple P (x >>= f) Q := by
  intro s hs
  have hmid := hx s hs
  rw [Prog.run_bind]
  rcases hrun : x s with ⟨e | a, s'⟩
  · exact herror e s' (by simpa [hrun] using hmid)
  · exact hf a s' (by simpa [hrun] using hmid)

theorem get_bind {f : S → Prog S ε α} (h : ∀ s, Triple (fun t => P t ∧ t = s) (f s) Q) :
    Triple P (Prog.get >>= f) Q := fun s hs => h s s ⟨hs, rfl⟩

theorem attempt_bind {f : Except ε α → Prog S ε' β} {Q' : Except ε' β → S → Prop}
    (hx : Triple P x Q) (hf : ∀ r, Triple (Q r) (f r) Q') :
    Triple P (Prog.attempt x >>= f) Q' := fun s hs => hf _ _ (hx s hs)

/-- `P` is kept from element to element; `E` holds when one of them fails. -/
theorem collect {l : List α} {f : α → Prog S ε β} {E : S → Prop}
    (hf : ∀ a ∈ l, Triple P (f a) (Ends P E)) : Triple P (Prog.collect l f) (Ends P E) := by
  induction l with
  | nil => exact pure fun _ h => h
  | cons a l ih =>
    refine (hf a List.mem_cons_self).bind (fun b => ?_) fun _ _ h => h
    refine (ih fun c hc => hf c (List.mem_cons_of_mem a hc)).bind (fun bs => ?_) fun _ _ h => h
    exact pure fun _ h => h

end Triple
end Effects
