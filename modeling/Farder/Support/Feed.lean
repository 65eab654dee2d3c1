import Mathlib.Data.List.Induction
import Mathlib.Tactic.Common

/-! # A feed of rows

A source posts rows, changes them and drops them, and tells its readers of it in order. A reader that
takes a copy of the rows is still told of what the copy has already. -/
namespace Feed

/-- Rows and their changes. A change sets some parts of a row, whatever they were before. -/
structure Rows (ρ φ : Type) where
  key : ρ → ℕ
  act : φ → ρ → ρ
  key_act : ∀ p x, key (act p x) = key x
  twice : ∀ p x, act p (act p x) = act p x
  settled : ∀ p q x, act p (act q (act p x)) = act p (act q x)

/-- A row that is posted again to a reader that has it is changed by `again`. -/
inductive Event (ρ φ : Type) where
  | posted (row : ρ) (again : φ)
  | changed (k : ℕ) (how : φ)
  | dropped (k : ℕ)

variable {ρ φ : Type} (R : Rows ρ φ)

def Event.key : Event ρ φ → ℕ
  | .posted row _ => R.key row
  | .changed k _ => k
  | .dropped k => k

def Event.drops (k : ℕ) : Event ρ φ → Bool
  | .dropped k' => k' = k
  | _ => false

/-- What an event makes of a row that stays. -/
def touch (x : ρ) : Event ρ φ → ρ
  | .posted row again => if R.key x = R.key row then R.act again x else x
  | .changed k how => if R.key x = k then R.act how x else x
  | .dropped _ => x

def patch (w : List (Event ρ φ)) (x : ρ) : ρ := w.foldl (touch R) x

/-- What an event makes of the rows that are there. -/
def amend (l : List ρ) : Event ρ φ → List ρ
  | .dropped k => l.filter fun x => R.key x ≠ k
  | e => l.map fun x => touch R x e

/-- The row that comes to the end. -/
def told (l : List ρ) : Event ρ φ → List ρ
  | .posted row _ => if l.any fun x => R.key x = R.key row then [] else [row]
  | _ => []

/-- The reader. -/
def replay (l : List ρ) (e : Event ρ φ) : List ρ := amend R l e ++ told R l e

/-- The source. -/
def record (l : List ρ) (e : Event ρ φ) : List ρ :=
  match e with
  | .posted row _ => l ++ [row]
  | e => amend R l e

def amends (l : List ρ) (w : List (Event ρ φ)) : List ρ := w.foldl (amend R) l

def replays (l : List ρ) (w : List (Event ρ φ)) : List ρ := w.foldl (replay R) l

def history (log : List (Event ρ φ)) : List ρ := log.foldl (record R) []

/-- A new row has a key greater than all before, and is what it is made to be when posted again. -/
def Allowed (log : List (Event ρ φ)) : Event ρ φ → Prop
  | .posted row again => (∀ e ∈ log, e.key R < R.key row) ∧ R.act again row = row
  | _ => True

inductive Log : List (Event ρ φ) → Prop where
  | nil : Log []
  | snoc {a : List (Event ρ φ)} {e : Event ρ φ} : Log a → Allowed R a e → Log (a ++ [e])

variable {R} {a b w : List (Event ρ φ)} {e f : Event ρ φ} {l l' : List ρ} {x y : ρ} {k : ℕ}

@[simp] theorem key_touch : R.key (touch R x e) = R.key x := by
  cases e with
  | posted row again =>
    rw [touch, apply_ite R.key, R.key_act, ite_self]
  | changed k how =>
    rw [touch, apply_ite R.key, R.key_act, ite_self]
  | dropped k => rfl

theorem touch_of_ne (h : e.key R ≠ R.key x) : touch R x e = x := by
  cases e with
  | posted row again => exact if_neg (Ne.symm h)
  | changed k how => exact if_neg (Ne.symm h)
  | dropped k => rfl

theorem touch_cases (e : Event ρ φ) :
    (∃ p, ∀ x, R.key x = e.key R → touch R x e = R.act p x) ∨ ∀ x, touch R x e = x := by
  cases e with
  | posted row again => exact .inl ⟨again, fun x hx => if_pos hx⟩
  | changed k how => exact .inl ⟨how, fun x hx => if_pos hx⟩
  | dropped k => exact .inr fun _ => rfl

theorem touch_settled : touch R (touch R (touch R x e) f) e = touch R (touch R x f) e := by
  by_cases he : R.key x = e.key R
  swap
  · rw [touch_of_ne (x := x) (Ne.symm he)]
  rcases touch_cases (R := R) e with ⟨p, hp⟩ | hid
  swap
  · rw [hid x, hid]
  rw [hp x he, hp _ (by rw [key_touch, R.key_act, he]), hp _ (by rw [key_touch, he])]
  by_cases hf : R.key x = f.key R
  swap
  · rw [touch_of_ne (x := x) (Ne.symm hf), touch_of_ne (by rw [R.key_act]; exact Ne.symm hf),
      R.twice]
  rcases touch_cases (R := R) f with ⟨q, hq⟩ | hid
  · rw [hq x hf, hq _ (by rw [R.key_act, hf]), R.settled]
  · rw [hid, hid, R.twice]

@[simp] theorem key_patch : R.key (patch R w x) = R.key x := by
  induction w generalizing x with
  | nil => rfl
  | cons e w ih => exact ih.trans key_touch

theorem patch_append : patch R (a ++ b) x = patch R b (patch R a x) := List.foldl_append

theorem patch_of_ne (h : ∀ e ∈ w, e.key R ≠ R.key x) : patch R w x = x := by
  induction w with
  | nil => rfl
  | cons e w ih =>
    rw [List.forall_mem_cons] at h
    show patch R w (touch R x e) = x
    rw [touch_of_ne h.1]
    exact ih h.2

theorem patch_settled : touch R (patch R w (touch R x e)) e = touch R (patch R w x) e := by
  induction w using List.reverseRecOn with
  | nil =>
    have h := touch_settled (R := R) (x := x) (e := e) (f := .dropped 0)
    exact h
  | append_singleton w f ih =>
    rw [patch_append, patch_append]
    show touch R (touch R (patch R w (touch R x e)) f) e = touch R (touch R (patch R w x) f) e
    rw [← touch_settled, ih, touch_settled]

theorem history_append : history R (a ++ b) = b.foldl (record R) (history R a) :=
  List.foldl_append

theorem history_snoc : history R (a ++ [e]) = record R (history R a) e := history_append

theorem mem_amend (h : y ∈ amend R l e) : ∃ x ∈ l, touch R x e = y ∧ e.drops (R.key x) = false := by
  cases e with
  | posted row again =>
    obtain ⟨x, hx, rfl⟩ := List.mem_map.mp h
    exact ⟨x, hx, rfl, rfl⟩
  | changed k how =>
    obtain ⟨x, hx, rfl⟩ := List.mem_map.mp h
    exact ⟨x, hx, rfl, rfl⟩
  | dropped k =>
    obtain ⟨hx, hk⟩ := List.mem_filter.mp h
    exact ⟨y, hx, rfl, decide_eq_false (Ne.symm (of_decide_eq_true hk))⟩

theorem Log.of_append (h : Log R (a ++ b)) : Log R a := by
  induction b using List.reverseRecOn with
  | nil => rwa [List.append_nil] at h
  | append_singleton b e ih =>
    rw [← List.append_assoc] at h
    generalize hc : a ++ b ++ [e] = c at h
    cases h with
    | nil => simp at hc
    | snoc h _ =>
      obtain ⟨rfl, -⟩ := List.append_singleton_inj.mp hc
      exact ih h

theorem Log.allowed (h : Log R (a ++ [e])) : Allowed R a e := by
  generalize hc : a ++ [e] = c at h
  cases h with
  | nil => simp at hc
  | snoc _ he =>
    obtain ⟨rfl, rfl⟩ := List.append_singleton_inj.mp hc
    exact he

theorem Log.key_lt {row : ρ} {again : φ} (h : Log R (a ++ .posted row again :: b)) (he : e ∈ a) :
    e.key R < R.key row := by
  rw [List.append_cons] at h
  exact h.of_append.allowed.1 e he

theorem key_of_mem_history (h : x ∈ history R a) : ∃ e ∈ a, e.key R = R.key x := by
  induction a using List.reverseRecOn generalizing x with
  | nil => exact absurd h List.not_mem_nil
  | append_singleton a e ih =>
    rw [history_snoc] at h
    have hold : (∃ y ∈ history R a, R.key y = R.key x) ∨ e.key R = R.key x := by
      cases e with
      | posted row again =>
        rcases List.mem_append.mp h with hx | hx
        · exact .inl ⟨x, hx, rfl⟩
        · exact .inr (by rw [List.mem_singleton.mp hx]; rfl)
      | changed k how =>
        obtain ⟨y, hy, rfl, -⟩ := mem_amend (e := .changed k how) h
        exact .inl ⟨y, hy, key_touch.symm⟩
      | dropped k =>
        obtain ⟨y, hy, rfl, -⟩ := mem_amend (e := .dropped k) h
        exact .inl ⟨y, hy, key_touch.symm⟩
    rcases hold with ⟨y, hy, hyx⟩ | hx
    · obtain ⟨f, hf, hfy⟩ := ih hy
      exact ⟨f, List.mem_append_left _ hf, hfy.trans hyx⟩
    · exact ⟨e, List.mem_append_right _ (List.mem_singleton_self e), hx⟩

theorem Log.sorted (h : Log R a) : (history R a).Pairwise fun x y => R.key x < R.key y := by
  have hmap : ∀ (l : List ρ) e, l.Pairwise (fun x y => R.key x < R.key y) →
      (amend R l e).Pairwise fun x y => R.key x < R.key y := by
    intro l e hl
    cases e with
    | posted row again => exact List.pairwise_map.mpr (hl.imp (by simp))
    | changed k how => exact List.pairwise_map.mpr (hl.imp (by simp))
    | dropped k => exact hl.filter _
  induction h with
  | nil => exact .nil
  | @snoc a e h he ih =>
    rw [history_snoc]
    cases e with
    | posted row again =>
      refine List.pairwise_append.mpr ⟨ih, List.pairwise_singleton _ _, ?_⟩
      intro x hx y hy
      rw [List.mem_singleton.mp hy]
      obtain ⟨f, hf, hfx⟩ := key_of_mem_history hx
      exact hfx ▸ he.1 f hf
    | changed k how => exact hmap _ (.changed k how) ih
    | dropped k => exact hmap _ (.dropped k) ih

/-- What is there has not been dropped, and nothing that was done to it need be done again. -/
theorem Log.stable (h : Log R (a ++ w)) (hx : x ∈ history R (a ++ w)) :
    patch R w x = x ∧ w.any (·.drops (R.key x)) = false := by
  induction w using List.reverseRecOn generalizing x with
  | nil => exact ⟨rfl, rfl⟩
  | append_singleton w e ih =>
    rw [← List.append_assoc] at h hx
    have ih {y : ρ} := ih (x := y) h.of_append
    have hallowed := h.allowed
    rw [history_snoc] at hx
    rw [patch_append, List.any_append, Bool.or_eq_false_iff]
    show touch R (patch R w x) e = x ∧ _
    have hchanged : ∀ y ∈ amend R (history R (a ++ w)) e,
        touch R (patch R w y) e = y ∧ w.any (·.drops (R.key y)) = false ∧
          [e].any (·.drops (R.key y)) = false := by
      intro y hy
      obtain ⟨x, hx, rfl, hkept⟩ := mem_amend hy
      obtain ⟨hpatch, hnot⟩ := ih hx
      rw [patch_settled, hpatch, key_touch]
      exact ⟨rfl, hnot, by rw [List.any_cons, hkept]; rfl⟩
    cases e with
    | posted row again =>
      rcases List.mem_append.mp hx with hx | hx
      · obtain ⟨hpatch, hnot⟩ := ih hx
        obtain ⟨f, hf, hfx⟩ := key_of_mem_history hx
        have hlt := hallowed.1 f hf
        rw [hpatch, touch_of_ne]
        · exact ⟨rfl, hnot, rfl⟩
        · show R.key row ≠ R.key x
          omega
      · obtain rfl := List.mem_singleton.mp hx
        have hne : ∀ f ∈ w, f.key R ≠ R.key x := fun f hf =>
          Nat.ne_of_lt (hallowed.1 f (List.mem_append_right _ hf))
        rw [patch_of_ne hne]
        refine ⟨(if_pos rfl).trans hallowed.2, ?_, rfl⟩
        rw [List.any_eq_false]
        intro f hf hdrop
        refine hne f hf ?_
        cases f with
        | dropped k => exact of_decide_eq_true hdrop
        | posted | changed => exact absurd hdrop Bool.false_ne_true
    | changed k how => exact hchanged x hx
    | dropped k => exact hchanged x hx

section Reader

variable {u v : List ρ} {J : List ρ}

theorem amend_append : amend R (u ++ v) e = amend R u e ++ amend R v e := by
  cases e with
  | posted row again => exact List.map_append
  | changed k how => exact List.map_append
  | dropped k => exact List.filter_append ..

theorem amend_suffix (h : u <:+ v) : amend R u e <:+ amend R v e := by
  cases e with
  | posted row again => exact h.map _
  | changed k how => exact h.map _
  | dropped k => exact h.filter _

theorem amend_of_ne (h : ∀ x ∈ l, e.key R ≠ R.key x) : amend R l e = l := by
  have hmap : (l.map fun x => touch R x e) = l :=
    (List.map_congr_left fun x hx => touch_of_ne (h x hx)).trans (List.map_id l)
  cases e with
  | posted row again => exact hmap
  | changed k how => exact hmap
  | dropped k => exact List.filter_eq_self.mpr fun x hx => decide_eq_true (Ne.symm (h x hx))

theorem amend_of_stable (h : ∀ x ∈ l, touch R x e = x ∧ e.drops (R.key x) = false) :
    amend R l e = l := by
  have hmap : (l.map fun x => touch R x e) = l :=
    (List.map_congr_left fun x hx => (h x hx).1).trans (List.map_id l)
  cases e with
  | posted row again => exact hmap
  | changed k how => exact hmap
  | dropped k =>
    exact List.filter_eq_self.mpr fun x hx =>
      decide_eq_true (Ne.symm (of_decide_eq_false (h x hx).2))

theorem replays_concat : replays R l (w ++ [e]) = replay R (replays R l w) e := List.foldl_append

theorem amends_eq : amends R l w =
    (l.filter fun x => !w.any (·.drops (R.key x))).map (patch R w) := by
  induction w generalizing l with
  | nil =>
    have hall : (l.filter fun x => !([] : List (Event ρ φ)).any (·.drops (R.key x))) = l :=
      List.filter_eq_self.mpr fun _ _ => rfl
    rw [hall]
    exact (List.map_id l).symm
  | cons e w ih =>
    show amends R (amend R l e) w = _
    rw [ih]
    have hmap : (∀ k, e ≠ .dropped k) →
        ((l.map fun x => touch R x e).filter fun x => !w.any (·.drops (R.key x))).map (patch R w) =
          (l.filter fun x => !(e :: w).any (·.drops (R.key x))).map (patch R (e :: w)) := by
      intro he
      rw [List.filter_map, List.map_map]
      have hfilter : l.filter ((fun x => !w.any (·.drops (R.key x))) ∘ fun x => touch R x e) =
          l.filter fun x => !(e :: w).any (·.drops (R.key x)) := by
        refine List.filter_congr fun x _ => ?_
        rw [Function.comp_apply, key_touch, List.any_cons]
        cases e with
        | dropped k => exact absurd rfl (he k)
        | posted | changed => rfl
      rw [hfilter]
      rfl
    cases e with
    | posted row again => exact hmap fun _ h => nomatch h
    | changed k how => exact hmap fun _ h => nomatch h
    | dropped k =>
      show ((l.filter _).filter _).map _ = _
      rw [List.filter_filter]
      refine congrArg (List.map (patch R w)) (List.filter_congr fun x _ => ?_)
      rw [List.any_cons, Event.drops, Bool.not_or, Bool.and_comm]
      simp [eq_comm]

/-- Who has rows of the source loses nothing by what was told before they were copied. -/
theorem amends_of_stable (h : Log R (a ++ w)) (hl : ∀ x ∈ l, x ∈ history R (a ++ w)) :
    amends R l w = l := by
  have hkept : (l.filter fun x => !w.any (·.drops (R.key x))) = l :=
    List.filter_eq_self.mpr fun x hx => by rw [(h.stable (hl x hx)).2]; rfl
  rw [amends_eq, hkept]
  exact (List.map_congr_left fun x hx => (h.stable (hl x hx)).1).trans (List.map_id l)

theorem amends_of_ne (h : ∀ e ∈ w, ∀ x ∈ l, e.key R ≠ R.key x) : amends R l w = l := by
  induction w with
  | nil => rfl
  | cons e w ih =>
    rw [List.forall_mem_cons] at h
    show amends R (amend R l e) w = l
    rw [amend_of_ne h.1]
    exact ih h.2

theorem told_append (h : ∀ row again, e = .posted row again → ∀ x ∈ u, R.key x ≠ R.key row) :
    told R (u ++ v) e = told R v e := by
  cases e with
  | posted row again =>
    have hu : (u.any fun x => R.key x = R.key row) = false :=
      List.any_eq_false.mpr fun x hx heq => h row again rfl x hx (of_decide_eq_true heq)
    rw [told, told, List.any_append, hu, Bool.false_or]
  | changed k how => rfl
  | dropped k => rfl

theorem key_mem_amend (h : k ∈ (amend R l e).map R.key) : k ∈ l.map R.key := by
  obtain ⟨y, hy, rfl⟩ := List.mem_map.mp h
  obtain ⟨x, hx, rfl, -⟩ := mem_amend hy
  exact List.mem_map.mpr ⟨x, hx, key_touch.symm⟩

/-- Rows that are put in front are changed and dropped like the others, if none is still to be posted. -/
theorem replays_append
    (h : ∀ row again, .posted row again ∈ w → R.key row ∉ u.map R.key) :
    replays R (u ++ v) w = amends R u w ++ replays R v w := by
  induction w generalizing u v with
  | nil => rfl
  | cons e w ih =>
    have htold : told R (u ++ v) e = told R v e := by
      refine told_append ?_
      rintro row again rfl x hx heq
      exact h row again List.mem_cons_self (List.mem_map.mpr ⟨x, hx, heq⟩)
    show replays R (amend R (u ++ v) e ++ told R (u ++ v) e) w = _
    rw [amend_append, htold, List.append_assoc]
    exact ih fun row again hrow hmem =>
      h row again (List.mem_cons_of_mem e hrow) (key_mem_amend hmem)

theorem key_lt_of_allowed {row : ρ} {again : φ} (h : Allowed R a (.posted row again))
    (hl : l <:+ history R a) (hx : x ∈ l) : R.key x < R.key row := by
  obtain ⟨e, he, hex⟩ := key_of_mem_history (hl.subset hx)
  exact hex ▸ h.1 e he

theorem replays_suffix (h : Log R (a ++ w)) (hl : l <:+ history R a) :
    replays R l w <:+ history R (a ++ w) := by
  induction w using List.reverseRecOn with
  | nil => rwa [List.append_nil]
  | append_singleton w e ih =>
    rw [← List.append_assoc] at h ⊢
    have ih := ih h.of_append
    have hallowed := h.allowed
    rw [replays_concat, history_snoc]
    generalize replays R l w = l at ih
    cases e with
    | posted row again =>
      have hne : ∀ x ∈ l, R.key x ≠ R.key row := fun x hx =>
        Nat.ne_of_lt (key_lt_of_allowed hallowed ih hx)
      have hnone : (l.any fun x => R.key x = R.key row) = false :=
        List.any_eq_false.mpr fun x hx heq => hne x hx (of_decide_eq_true heq)
      rw [replay, amend_of_ne fun x hx => Ne.symm (hne x hx), told, hnone]
      obtain ⟨t, ht⟩ := ih
      exact ⟨t, by rw [record, ← ht]; simp⟩
    | changed k how =>
      show amend R l (.changed k how) ++ [] <:+ amend R _ (.changed k how)
      rw [List.append_nil]
      exact amend_suffix ih
    | dropped k =>
      show amend R l (.dropped k) ++ [] <:+ amend R _ (.dropped k)
      rw [List.append_nil]
      exact amend_suffix ih

/-! ## A copy that is newer than what is told -/

/-- Every row that is posted has a key of `has`, or is dropped afterwards. -/
def Covered (R : Rows ρ φ) (has : ℕ → Prop) : List (Event ρ φ) → Prop
  | [] => True
  | .posted row _ :: w => (has (R.key row) ∨ w.any (·.drops (R.key row))) ∧ Covered R has w
  | _ :: w => Covered R has w

theorem covered_of_log {has : ℕ → Prop} (h : Log R (a ++ w))
    (hw : ∀ row again, .posted row again ∈ w →
      has (R.key row) ∨ w.any (·.drops (R.key row)) = true) : Covered R has w := by
  induction w generalizing a with
  | nil => trivial
  | cons e w ih =>
    -- What a row's key is dropped by comes after the row.
    have hrest : ∀ row again, .posted row again ∈ w →
        has (R.key row) ∨ w.any (·.drops (R.key row)) = true := by
      intro row again hrow
      refine (hw row again (List.mem_cons_of_mem e hrow)).imp_right fun hdrop => ?_
      rw [List.any_cons, Bool.or_eq_true] at hdrop
      refine hdrop.resolve_left fun he => ?_
      obtain ⟨b, c, rfl⟩ := List.append_of_mem hrow
      have hlog : Log R ((a ++ e :: b) ++ .posted row again :: c) := by simpa using h
      have hlt : e.key R < R.key row := hlog.key_lt (by simp)
      cases e with
      | dropped k =>
        have hk : k = R.key row := of_decide_eq_true he
        exact absurd hlt (by rw [← hk]; exact Nat.lt_irrefl k)
      | posted | changed => exact absurd he Bool.false_ne_true
    have htail : Covered R has w := ih (a := a ++ [e]) (by simpa using h) hrest
    cases e with
    | posted row again =>
      refine ⟨?_, htail⟩
      exact hw row again List.mem_cons_self
    | changed k how => exact htail
    | dropped k => exact htail

theorem covered_append {has : ℕ → Prop} {pending : List (Event ρ φ)}
    (hpending : ∀ e ∈ pending, ∃ row again, e = .posted row again ∧
      (has (R.key row) ∨ w.any (·.drops (R.key row)) = true)) (hw : Covered R has w) :
    Covered R has (pending ++ w) := by
  induction pending with
  | nil => exact hw
  | cons e pending ih =>
    rw [List.forall_mem_cons] at hpending
    obtain ⟨⟨row, again, rfl, hrow⟩, hpending⟩ := hpending
    refine ⟨hrow.imp_right fun hdrop => ?_, ih hpending⟩
    show (pending ++ w).any (·.drops (R.key row)) = true
    rw [List.any_append, Bool.or_eq_true]
    exact .inr hdrop

theorem key_mem_amend_iff (h : e.drops k = false) :
    k ∈ (amend R l e).map R.key ↔ k ∈ l.map R.key := by
  refine ⟨key_mem_amend, fun hk => ?_⟩
  obtain ⟨x, hx, rfl⟩ := List.mem_map.mp hk
  refine List.mem_map.mpr ?_
  cases e with
  | posted row again => exact ⟨_, List.mem_map_of_mem hx, key_touch⟩
  | changed k how => exact ⟨_, List.mem_map_of_mem hx, key_touch⟩
  | dropped k =>
    exact ⟨x, List.mem_filter.mpr ⟨hx, decide_eq_true (Ne.symm (of_decide_eq_false h))⟩, rfl⟩

theorem replays_of_covered (hcovered : Covered R (· ∈ u.map R.key) w)
    (hkept : ∀ x ∈ u, w.any (·.drops (R.key x)) = false)
    (hdoomed : ∀ x ∈ v, w.any (·.drops (R.key x)) = true) :
    replays R (u ++ v) w = amends R u w := by
  induction w generalizing u v with
  | nil =>
    rcases v with _ | ⟨x, v⟩
    · exact List.append_nil u
    · exact absurd (hdoomed x List.mem_cons_self) Bool.false_ne_true
  | cons e w ih =>
    simp only [List.any_cons, Bool.or_eq_false_iff, Bool.or_eq_true] at hkept hdoomed
    have hkeys : ∀ k, k ∈ (amend R u e).map R.key ↔ k ∈ u.map R.key := by
      intro k
      by_cases hk : e.drops k = true
      · refine iff_of_false (fun hmem => ?_) fun hmem => ?_
        · obtain ⟨x, hx, rfl⟩ := List.mem_map.mp (key_mem_amend hmem)
          exact Bool.false_ne_true ((hkept x hx).1.symm.trans hk)
        · obtain ⟨x, hx, rfl⟩ := List.mem_map.mp hmem
          exact Bool.false_ne_true ((hkept x hx).1.symm.trans hk)
      · exact key_mem_amend_iff (eq_false_of_ne_true hk)
    have hrest : Covered R (· ∈ (amend R u e).map R.key) w := by
      simp only [hkeys]
      cases e with
      | posted row again => exact hcovered.2
      | changed k how => exact hcovered
      | dropped k => exact hcovered
    show replays R (amend R (u ++ v) e ++ told R (u ++ v) e) w = amends R (amend R u e) w
    rw [amend_append, List.append_assoc]
    refine ih hrest ?_ ?_
    · intro y hy
      obtain ⟨x, hx, rfl, -⟩ := mem_amend hy
      rw [key_touch]
      exact (hkept x hx).2
    · intro y hy
      rcases List.mem_append.mp hy with hy | hy
      · obtain ⟨x, hx, rfl, hnot⟩ := mem_amend hy
        rw [key_touch]
        exact (hdoomed x hx).resolve_left (by rw [hnot]; exact Bool.false_ne_true)
      · cases e with
        | posted row again =>
          rw [told] at hy
          split_ifs at hy with hany
          · exact absurd hy List.not_mem_nil
          rw [List.mem_singleton.mp hy]
          refine hcovered.1.resolve_left fun hmem => hany ?_
          obtain ⟨x, hx, hkey⟩ := List.mem_map.mp hmem
          exact List.any_eq_true.mpr ⟨x, List.mem_append_left v hx, decide_eq_true hkey⟩
        | changed k how => exact absurd hy List.not_mem_nil
        | dropped k => exact absurd hy List.not_mem_nil

/-- A reader that takes a copy of the last rows, and is then told what was on its way, has the last
rows in the end if the copy covers what was on its way. -/
theorem replays_copy {pending : List (Event ρ φ)} (h : Log R (a ++ w))
    (hl : ∀ x ∈ l, x ∈ history R (a ++ w))
    (hidle : ∀ row again, .posted row again ∈ pending → ∀ x, R.act again x = x)
    (hpending : ∀ e ∈ pending, ∃ row again, e = .posted row again ∧
      (R.key row ∈ l.map R.key ∨ w.any (·.drops (R.key row)) = true))
    (hw : ∀ row again, .posted row again ∈ w →
      R.key row ∈ l.map R.key ∨ w.any (·.drops (R.key row)) = true) :
    replays R l (pending ++ w) = l := by
  have hnone : ∀ k, pending.any (·.drops k) = false := by
    intro k
    refine List.any_eq_false.mpr fun e he => ?_
    obtain ⟨row, again, rfl, -⟩ := hpending e he
    exact Bool.false_ne_true
  have hcovered := covered_append hpending (covered_of_log h hw)
  have hreplays := replays_of_covered (v := []) hcovered (fun x hx => by
    rw [List.any_append, hnone, (h.stable (hl x hx)).2]
    rfl) (by simp)
  rw [List.append_nil] at hreplays
  rw [hreplays, amends, List.foldl_append]
  have hstay : ∀ e ∈ pending, ∀ x ∈ l, touch R x e = x ∧ e.drops (R.key x) = false := by
    intro e he x _
    obtain ⟨row, again, rfl, -⟩ := hpending e he
    refine ⟨?_, rfl⟩
    rw [touch, hidle row again he, ite_self]
  have hidles : pending.foldl (amend R) l = l := by
    clear hnone hcovered hreplays hpending hidle
    induction pending with
    | nil => rfl
    | cons e pending ih =>
      rw [List.forall_mem_cons] at hstay
      rw [List.foldl_cons, amend_of_stable hstay.1]
      exact ih hstay.2
  rw [hidles]
  exact amends_of_stable h hl

theorem amends_older (h : Log R (a ++ w)) (hl : l <:+ (history R a).filter fun x => R.key x < k)
    (hw : ∀ row again, .posted row again ∈ w → k ≤ R.key row) :
    amends R l w <:+ (history R (a ++ w)).filter fun x => R.key x < k := by
  induction w using List.reverseRecOn with
  | nil => rwa [List.append_nil]
  | append_singleton w e ih =>
    rw [← List.append_assoc] at h ⊢
    have ih := ih h.of_append fun row again hrow => hw row again (List.mem_append_left _ hrow)
    have hamend : ∀ l : List ρ, (amend R l e).filter (fun x => R.key x < k) =
        amend R (l.filter fun x => R.key x < k) e := by
      intro l
      have hmap : ((l.map fun x => touch R x e).filter fun x => R.key x < k) =
          (l.filter fun x => R.key x < k).map fun x => touch R x e := by
        rw [List.filter_map]
        simp only [Function.comp_def, key_touch]
      cases e with
      | posted row again => exact hmap
      | changed k how => exact hmap
      | dropped k' =>
        show (l.filter _).filter _ = (l.filter _).filter _
        rw [List.filter_filter, List.filter_filter]
        exact List.filter_congr fun x _ => Bool.and_comm ..
    rw [history_snoc, amends, List.foldl_append]
    show amend R (amends R l w) e <:+ _
    generalize amends R l w = l at ih
    cases e with
    | posted row again =>
      have hk : k ≤ R.key row := hw row again (by simp)
      have hlast : [row].filter (fun x => R.key x < k) = [] := by
        simp [Nat.not_lt.mpr hk]
      rw [record, List.filter_append, hlast, List.append_nil, amend_of_ne]
      · exact ih
      · intro x hx
        have hlt : R.key x < k := of_decide_eq_true (List.mem_filter.mp (ih.subset hx)).2
        show R.key row ≠ R.key x
        omega
    | changed k' how =>
      rw [record, hamend]
      · exact amend_suffix ih
      · exact fun _ _ h => nomatch h
    | dropped k' =>
      rw [record, hamend]
      · exact amend_suffix ih
      · exact fun _ _ h => nomatch h

/-! ## Rows that are put in late -/

theorem replay_of_not_posted (h : ∀ row again, e ≠ .posted row again) :
    replay R l e = amend R l e := by
  cases e with
  | posted row again => exact absurd rfl (h row again)
  | changed | dropped => exact List.append_nil _

theorem any_key_iff {row : ρ} :
    (l.any fun x => R.key x = R.key row) = true ↔ R.key row ∈ l.map R.key := by
  simp [List.any_eq_true]

/-- A row may be put in after a change of another row, or when it is there already. -/
theorem replay_comm {row : ρ} {again : φ} (he : ∀ row again, e ≠ .posted row again)
    (hidle : ∀ x, R.act again x = x)
    (hrow : e.key R = R.key row → e.drops (R.key row) = false ∧ R.key row ∈ l.map R.key) :
    replay R (replay R l (.posted row again)) e = replay R (replay R l e) (.posted row again) := by
  have hstay : ∀ l : List ρ, amend R l (.posted row again) = l := fun l =>
    amend_of_stable fun x _ => ⟨by rw [touch, hidle, ite_self], rfl⟩
  have hput : ∀ l : List ρ, replay R l (.posted row again) =
      l ++ if R.key row ∈ l.map R.key then [] else [row] := by
    intro l
    rw [replay, hstay, told]
    by_cases hmem : R.key row ∈ l.map R.key
    · rw [if_pos hmem, if_pos (any_key_iff.mpr hmem)]
    · rw [if_neg hmem, if_neg (mt any_key_iff.mp hmem)]
  rw [hput, replay_of_not_posted he, replay_of_not_posted he, hput, amend_append]
  by_cases hkey : e.key R = R.key row
  · obtain ⟨hkept, hmem⟩ := hrow hkey
    rw [if_pos hmem, if_pos ((key_mem_amend_iff hkept).mpr hmem)]
    cases e with
    | posted row' again' => exact absurd rfl (he row' again')
    | changed | dropped => rfl
  · have hkept : e.drops (R.key row) = false := by
      cases e with
      | posted row' again' => rfl
      | changed k how => rfl
      | dropped k => exact decide_eq_false hkey
    have hmem : R.key row ∈ (amend R l e).map R.key ↔ R.key row ∈ l.map R.key :=
      key_mem_amend_iff hkept
    by_cases hl : R.key row ∈ l.map R.key
    · rw [if_pos hl, if_pos (hmem.mpr hl)]
      cases e with
      | posted row' again' => exact absurd rfl (he row' again')
      | changed | dropped => rfl
    · rw [if_neg hl, if_neg (mt hmem.mp hl), amend_of_ne (l := [row])]
      intro x hx
      rwa [List.mem_singleton.mp hx]

theorem key_mem_replay (h : k ∈ l.map R.key) (hkept : e.drops k = false) :
    k ∈ (replay R l e).map R.key := by
  rw [replay, List.map_append]
  exact List.mem_append_left _ ((key_mem_amend_iff hkept).mpr h)

theorem replays_comm {pending : List (Event ρ φ)} (he : ∀ row again, e ≠ .posted row again)
    (hpending : ∀ f ∈ pending, ∃ row again, f = .posted row again ∧ (∀ x, R.act again x = x) ∧
      (e.key R = R.key row → e.drops (R.key row) = false ∧ R.key row ∈ l.map R.key)) :
    replay R (replays R l pending) e = replays R (replay R l e) pending := by
  induction pending generalizing l with
  | nil => rfl
  | cons f pending ih =>
    rw [List.forall_mem_cons] at hpending
    obtain ⟨⟨row, again, rfl, hidle, hrow⟩, hpending⟩ := hpending
    show replay R (replays R (replay R l _) pending) e = replays R (replay R (replay R l e) _) pending
    rw [← replay_comm he hidle hrow]
    refine ih fun f hf => ?_
    obtain ⟨row', again', rfl, hidle', hrow'⟩ := hpending f hf
    refine ⟨row', again', rfl, hidle', fun hkey => ?_⟩
    exact ⟨(hrow' hkey).1, key_mem_replay (hrow' hkey).2 rfl⟩

/-- What is there, or is still posted, is there in the end if it is not dropped. -/
theorem key_mem_replays (hkept : w.any (·.drops k) = false)
    (h : k ∈ l.map R.key ∨ ∃ row again, .posted row again ∈ w ∧ R.key row = k) :
    k ∈ (replays R l w).map R.key := by
  induction w generalizing l with
  | nil =>
    rcases h with h | ⟨_, _, hrow, -⟩
    · exact h
    · exact absurd hrow List.not_mem_nil
  | cons e w ih =>
    rw [List.any_cons, Bool.or_eq_false_iff] at hkept
    refine ih (l := replay R l e) hkept.2 ?_
    rcases h with h | ⟨row, again, hrow, rfl⟩
    · exact .inl (key_mem_replay h hkept.1)
    rcases List.mem_cons.mp hrow with rfl | hrow
    · refine .inl ?_
      rw [replay, told, List.map_append]
      split_ifs with hany
      · exact List.mem_append_left _ ((key_mem_amend_iff rfl).mpr (any_key_iff.mp hany))
      · exact List.mem_append_right _ (List.mem_singleton_self _)
    · exact .inr ⟨row, again, hrow, rfl⟩

end Reader

end Feed
