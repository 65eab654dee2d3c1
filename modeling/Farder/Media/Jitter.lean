import Farder.Support.Execution
import Farder.Support.Guarded
import Mathlib.Data.List.Basic
import Mathlib.Data.Nat.Cast.Order.Ring
import Mathlib.Tactic.Common

/-! # The jitter buffer

A receiver of speech holds the packets of a peer in three slots, by their numbers, and takes one
from the first slot at a time. The numbers of the slots follow one another from `headSeq` on. -/
namespace Media

open Guarded

abbrev Packet := List UInt8

def jitterDepth : ℕ := 3

def seqMax : ℕ := 2 ^ 64 - 1

structure JitterBuffer where
  slots : List (Option Packet)
  headSeq : ℕ
  initialized : Bool
  popped : Bool
  deriving DecidableEq

namespace JitterBuffer

def new : JitterBuffer := ⟨[none, none, none], 0, false, false⟩

/-! ## Slots

An index or a difference that is out of range would stop the receiver. -/

def slotAt (slots : List (Option Packet)) (i : ℕ) : Checked (Option Packet) :=
  expect slots[i]? "index out of bounds"

def setSlot (slots : List (Option Packet)) (i : ℕ) (slot : Option Packet) :
    Checked (List (Option Packet)) := do
  let _ ← slotAt slots i
  return slots.set i slot

def minus (a b : ℕ) : Checked ℕ :=
  expect (if b ≤ a then some (a - b) else none) "attempt to subtract with overflow"

/-- `slots[i] = slots[j].take()`. -/
def takeInto (slots : List (Option Packet)) (i j : ℕ) : Checked (List (Option Packet)) := do
  let slot ← slotAt slots j
  let slots ← setSlot slots j none
  setSlot slots i slot

/-- Room at the front: the slots go back by `n`, the last ones first. -/
def slideBack (slots : List (Option Packet)) (n : ℕ) : Checked (List (Option Packet)) := do
  let slots ← (List.range' n (jitterDepth - n)).reverse.foldlM
    (fun slots i => do takeInto slots i (← minus i n)) slots
  (List.range n).foldlM (fun slots i => setSlot slots i none) slots

/-- The slots go on by `n`, the first ones first. -/
def slideOn (slots : List (Option Packet)) (n : ℕ) : Checked (List (Option Packet)) := do
  if n ≥ jitterDepth then return [none, none, none]
  let rest ← minus jitterDepth n
  let slots ← (List.range rest).foldlM (fun slots i => takeInto slots i (i + n)) slots
  (List.range' rest (jitterDepth - rest)).foldlM (fun slots i => setSlot slots i none) slots

def advanceHead (b : JitterBuffer) (n : ℕ) : Checked JitterBuffer := do
  let slots ← slideOn b.slots n
  return { b with slots, headSeq := min (b.headSeq + n) seqMax }

/-- The window goes backward as long as nothing was taken; `none` is too far back. -/
def slideTo (b : JitterBuffer) (seq : ℕ) : Checked (Option JitterBuffer) :=
  if b.popped = false ∧ seq < b.headSeq then do
    let back ← minus b.headSeq seq
    if back < jitterDepth then
      let slots ← slideBack b.slots back
      return some { b with slots, headSeq := seq }
    else return none
  else return some b

/-- `JitterBuffer::insert` once the window has gone backward. -/
def place (b : JitterBuffer) (seq : ℕ) (packet : Packet) : Checked (JitterBuffer × Bool) := do
  if seq < b.headSeq then return (b, false)
  let offset ← minus seq b.headSeq
  if offset < jitterDepth then
    if (← slotAt b.slots offset).isSome then return (b, false)
    return ({ b with slots := ← setSlot b.slots offset (some packet) }, true)
  let advance ← minus offset jitterDepth
  let b ← b.advanceHead (advance + 1)
  return ({ b with slots := ← setSlot b.slots (jitterDepth - 1) (some packet) }, true)

/-- `JitterBuffer::insert`. -/
def insert (b : JitterBuffer) (seq : ℕ) (packet : Packet) : Checked (JitterBuffer × Bool) := do
  let b := if b.initialized then b else { b with headSeq := seq, initialized := true }
  match ← b.slideTo seq with
  | none => return (b, false)
  | some b => b.place seq packet

/-- `JitterBuffer::pop`. -/
def pop (b : JitterBuffer) : Checked (JitterBuffer × Option Packet) := do
  if b.initialized = false then return (b, none)
  let out ← slotAt b.slots 0
  let slots ← setSlot b.slots 0 none
  let b ← advanceHead { b with slots, popped := true } 1
  return (b, out)

/-! ## The numbers of the slots -/

def held (b : JitterBuffer) (n : ℕ) : Option Packet :=
  if b.headSeq ≤ n then b.slots[n - b.headSeq]?.join else none

/-- The buffer between two calls: nothing has been done to it yet, or its slots hold numbers below
a limit. -/
structure Sound (limit : ℕ) (b : JitterBuffer) : Prop where
  slots : b.slots.length = jitterDepth
  limit_le : limit ≤ seqMax + 1
  headSeq : b.headSeq ≤ seqMax
  below : ∀ n packet, b.held n = some packet → n < limit
  fresh : b.initialized = false → b = new

variable {b b' : JitterBuffer} {limit n seq : ℕ} {x y z : Option Packet} {packet : Packet}

theorem held_mk (h : ℕ) (i p : Bool) (n : ℕ) : held ⟨[x, y, z], h, i, p⟩ n =
    if n = h then x else if n = h + 1 then y else if n = h + 2 then z else none := by
  by_cases hle : h ≤ n
  · obtain ⟨k, rfl⟩ := Nat.exists_eq_add_of_le hle
    rw [held, if_pos (by exact hle)]
    dsimp only
    rw [Nat.add_sub_cancel_left]
    match k with
    | 0 => simp
    | 1 => simp
    | 2 => simp
    | k + 3 => simp
  · rw [held, if_neg (by exact hle)]
    rw [if_neg (by omega), if_neg (by omega), if_neg (by omega)]

theorem minus_of_le {a : ℕ} (h : n ≤ a) : minus a n = .ok (a - n) := by
  rw [minus, if_pos h]
  rfl

/-- What moving the window by `n` numbers leaves in it. -/
theorem advanceHead_spec (hb : b.slots.length = jitterDepth) (hn : 0 < n)
    (hhead : b.headSeq + n ≤ seqMax) : ∃ b', b.advanceHead n = .ok b' ∧
      b'.slots.length = jitterDepth ∧ b'.headSeq = b.headSeq + n ∧
      b'.initialized = b.initialized ∧ b'.popped = b.popped ∧
      ∀ m, b'.held m = if b.headSeq + n ≤ m then b.held m else none := by
  obtain ⟨slots, head, i, p⟩ := b
  obtain ⟨x, y, z, rfl⟩ := List.length_eq_three.mp hb
  dsimp only at hhead
  have hmin : min (head + n) seqMax = head + n := Nat.min_eq_left hhead
  have hmove (slots : List (Option Packet)) (hslots : slideOn [x, y, z] n = .ok slots) :
      advanceHead ⟨[x, y, z], head, i, p⟩ n = .ok ⟨slots, head + n, i, p⟩ := by
    rw [advanceHead]
    dsimp only
    rw [hslots, hmin]
    rfl
  match n, hn with
  | 1, _ =>
    refine ⟨_, hmove [y, z, none] rfl, rfl, rfl, rfl, rfl, fun m => ?_⟩
    simp only [held_mk]
    split_ifs <;> first | rfl | omega
  | 2, _ =>
    refine ⟨_, hmove [z, none, none] rfl, rfl, rfl, rfl, rfl, fun m => ?_⟩
    simp only [held_mk]
    split_ifs <;> first | rfl | omega
  | k + 3, _ =>
    refine ⟨_, hmove [none, none, none] ?_, rfl, rfl, rfl, rfl, fun m => ?_⟩
    · rw [slideOn, if_pos (by simp [jitterDepth])]
      rfl
    · simp only [held_mk]
      split_ifs <;> first | rfl | omega

theorem slideBack_spec (hb : b.slots.length = jitterDepth) (hn : 0 < n) (hlt : n < jitterDepth)
    (hhead : n ≤ b.headSeq) : ∃ slots, slideBack b.slots n = .ok slots ∧
      slots.length = jitterDepth ∧ ∀ m, held { b with slots, headSeq := b.headSeq - n } m =
        if m < b.headSeq - n + jitterDepth then b.held m else none := by
  obtain ⟨slots, head, i, p⟩ := b
  obtain ⟨x, y, z, rfl⟩ := List.length_eq_three.mp hb
  dsimp only at hhead ⊢
  match n, hn, hlt with
  | 1, _, _ =>
    refine ⟨[none, x, y], rfl, rfl, fun m => ?_⟩
    simp only [held_mk, jitterDepth]
    split_ifs <;> first | rfl | omega
  | 2, _, _ =>
    refine ⟨[none, none, x], rfl, rfl, fun m => ?_⟩
    simp only [held_mk, jitterDepth]
    split_ifs <;> first | rfl | omega

theorem setSlot_spec (seq : ℕ) (hb : b.slots.length = jitterDepth) (hle : b.headSeq ≤ seq)
    (hlt : seq < b.headSeq + jitterDepth) (slot : Option Packet) :
    slotAt b.slots (seq - b.headSeq) = .ok (b.held seq) ∧
    ∃ slots, setSlot b.slots (seq - b.headSeq) slot = .ok slots ∧ slots.length = jitterDepth ∧
      ∀ m, held { b with slots } m = if m = seq then slot else b.held m := by
  obtain ⟨k, rfl⟩ := Nat.exists_eq_add_of_le hle
  have hk : k < b.slots.length := by
    rw [hb]
    omega
  have hslot : slotAt b.slots k = .ok b.slots[k] := by
    rw [slotAt, List.getElem?_eq_getElem hk]
    rfl
  rw [Nat.add_sub_cancel_left]
  refine ⟨?_, b.slots.set k slot, ?_, by rwa [List.length_set], fun m => ?_⟩
  · rw [hslot, held, if_pos hle, Nat.add_sub_cancel_left, List.getElem?_eq_getElem hk]
    rfl
  · rw [setSlot, hslot]
    rfl
  · unfold held
    dsimp only
    by_cases hm : m = b.headSeq + k
    · subst hm
      rw [if_pos hle, if_pos rfl, Nat.add_sub_cancel_left, List.getElem?_set_self hk]
      rfl
    · rw [if_neg hm]
      by_cases hhead : b.headSeq ≤ m
      · rw [if_pos hhead, if_pos hhead, List.getElem?_set_ne (by omega)]
      · rw [if_neg hhead, if_neg hhead]

theorem held_eq_none (hb : b.slots.length = jitterDepth)
    (h : n < b.headSeq ∨ b.headSeq + jitterDepth ≤ n) : b.held n = none := by
  unfold held
  by_cases hle : b.headSeq ≤ n
  · rw [if_pos hle, List.getElem?_eq_none (by omega)]
    rfl
  · rw [if_neg hle]

theorem headSeq_le_of_held (h : b.held n = some packet) : b.headSeq ≤ n := by
  by_contra hlt
  rw [held, if_neg hlt] at h
  cases h

/-- A packet whose number is not behind the window goes in, unless its slot is taken. -/
theorem place_spec (hb : b.slots.length = jitterDepth) (hle : b.headSeq ≤ seq)
    (hseq : seq ≤ seqMax) (packet : Packet) :
    (b.held seq ≠ none ∧ b.place seq packet = .ok (b, false)) ∨
    (b.held seq = none ∧ ∃ b', b.place seq packet = .ok (b', true) ∧
      b'.slots.length = jitterDepth ∧ b'.headSeq = max b.headSeq (seq + 1 - jitterDepth) ∧
      b'.initialized = b.initialized ∧ b'.popped = b.popped ∧
      ∀ m, b'.held m = if m = seq then some packet
        else if m + jitterDepth ≤ seq then none else b.held m) := by
  have hminus := minus_of_le hle
  have hbegin : b.place seq packet = (do
      let offset ← minus seq b.headSeq
      if offset < jitterDepth then
        if (← slotAt b.slots offset).isSome then return (b, false)
        return ({ b with slots := ← setSlot b.slots offset (some packet) }, true)
      let advance ← minus offset jitterDepth
      let b ← b.advanceHead (advance + 1)
      return ({ b with slots := ← setSlot b.slots (jitterDepth - 1) (some packet) }, true)) := by
    rw [place, if_neg (Nat.not_lt_of_le hle)]
  rw [hbegin, hminus]
  dsimp only [bind, Except.bind]
  by_cases hwindow : seq - b.headSeq < jitterDepth
  · obtain ⟨hslot, slots, hset, hlength, hheld⟩ :=
      setSlot_spec seq hb hle (by omega) (some packet)
    rw [if_pos hwindow, hslot]
    dsimp only
    cases hsome : b.held seq with
    | some old => exact .inl ⟨fun h => (nomatch h), rfl⟩
    | none =>
      refine .inr ⟨rfl, { b with slots }, ?_, hlength, ?_, rfl, rfl, fun m => ?_⟩
      · rw [hset]
        rfl
      · dsimp only
        omega
      · rw [hheld]
        by_cases hm : m = seq
        · rw [if_pos hm, if_pos hm]
        · rw [if_neg hm, if_neg hm]
          by_cases hfar : m + jitterDepth ≤ seq
          · rw [if_pos hfar, held_eq_none hb (.inl (by omega))]
          · rw [if_neg hfar]
  · have hdepth : jitterDepth = 3 := rfl
    have hfar : jitterDepth ≤ seq - b.headSeq := Nat.le_of_not_lt hwindow
    have hnew : b.headSeq + (seq - b.headSeq - jitterDepth + 1) = seq + 1 - jitterDepth := by
      omega
    obtain ⟨b₁, hadvance, hlength, hhead, hinit, hpopped, hheld⟩ :=
      advanceHead_spec hb (Nat.succ_pos (seq - b.headSeq - jitterDepth)) (by omega)
    rw [hnew] at hhead hheld
    obtain ⟨-, slots, hset, hlength', hheld'⟩ :=
      setSlot_spec seq hlength (by omega) (by omega) (some packet)
    have hlast : seq - b₁.headSeq = jitterDepth - 1 := by
      rw [hhead]
      omega
    rw [if_neg hwindow, minus_of_le hfar]
    dsimp only
    rw [hadvance]
    dsimp only
    refine .inr ⟨held_eq_none hb (.inr (by omega)), { b₁ with slots }, ?_, hlength', ?_, hinit,
      hpopped, fun m => ?_⟩
    · rw [← hlast, hset]
      rfl
    · dsimp only
      omega
    · rw [hheld', hheld]
      split_ifs <;> first | rfl | omega

/-- What an insert does: it changes nothing, or the packet goes in and the packets that do not fit
into one window with it go. -/
inductive Inserts (b : JitterBuffer) (seq : ℕ) (packet : Packet) : JitterBuffer → Bool → Prop
  | dropped (hinit : b.initialized = true)
      (hwhy : b.held seq ≠ none ∨
        seq < b.headSeq ∧ (b.popped = true ∨ seq + jitterDepth ≤ b.headSeq)) :
      Inserts b seq packet b false
  | accepted {b' : JitterBuffer} (hfree : b.held seq = none) (hinit : b'.initialized = true)
      (hpopped : b'.popped = b.popped)
      (hhead : b.initialized = false ∧ b'.headSeq = seq ∨
        b.initialized = true ∧ b.popped = false ∧ seq < b.headSeq ∧ b'.headSeq = seq ∨
        b.initialized = true ∧ b.headSeq ≤ seq ∧
          b'.headSeq = max b.headSeq (seq + 1 - jitterDepth))
      (hheld : ∀ m, b'.held m = if m = seq then some packet
        else if m + jitterDepth ≤ seq ∨ seq + jitterDepth ≤ m then none else b.held m) :
      Inserts b seq packet b' true

theorem slideTo_of_not (h : ¬(b.popped = false ∧ seq < b.headSeq)) :
    b.slideTo seq = .ok (some b) := by
  rw [slideTo, if_neg h]
  rfl

theorem Inserts.sound {accepted : Bool} (h : Inserts b seq packet b' accepted) (hb : Sound limit b)
    (hseq : seq < limit) (hlength : b'.slots.length = jitterDepth) : Sound limit b' := by
  cases h with
  | dropped hinit hwhy => exact hb
  | accepted hfree hinit hpopped hhead hheld =>
    refine ⟨hlength, hb.limit_le, ?_, fun m p hm => ?_, fun hfresh => ?_⟩
    · have hdepth : jitterDepth = 3 := rfl
      have hle := hb.headSeq
      have hlimit := hb.limit_le
      omega
    · rw [hheld] at hm
      split_ifs at hm with hsame hfar
      · rwa [hsame]
      · exact hb.below m p hm
    · rw [hinit] at hfresh
      cases hfresh

theorem insert_spec (hb : Sound limit b) (hseq : seq < limit) (packet : Packet) :
    ∃ b' accepted, b.insert seq packet = .ok (b', accepted) ∧ Sound limit b' ∧
      Inserts b seq packet b' accepted := by
  suffices h : ∃ b' accepted, b.insert seq packet = .ok (b', accepted) ∧
      b'.slots.length = jitterDepth ∧ Inserts b seq packet b' accepted by
    obtain ⟨b', accepted, hinsert, hlength, hcases⟩ := h
    exact ⟨b', accepted, hinsert, hcases.sound hb hseq hlength, hcases⟩
  have hdepth : jitterDepth = 3 := rfl
  have hmax : seq ≤ seqMax := by
    have hlimit := hb.limit_le
    omega
  cases hinit : b.initialized with
  | false =>
    obtain rfl := hb.fresh hinit
    have hnone (m : ℕ) : held ⟨[none, none, none], seq, true, false⟩ m = none := by
      simp [held_mk]
    have hbegin : new.insert seq packet = (do
        match ← slideTo ⟨[none, none, none], seq, true, false⟩ seq with
        | none => return (⟨[none, none, none], seq, true, false⟩, false)
        | some b => b.place seq packet) := rfl
    rw [hbegin, slideTo_of_not fun h => Nat.lt_irrefl _ h.2]
    obtain ⟨htaken, -⟩ | ⟨-, b', hplace, hlength, hhead, hinit', hpopped, hheld⟩ :=
      place_spec (b := ⟨[none, none, none], seq, true, false⟩) rfl le_rfl hmax packet
    · exact absurd (hnone seq) htaken
    · refine ⟨b', true, hplace, hlength, .accepted ?_ hinit' hpopped (.inl ⟨rfl, ?_⟩) fun m => ?_⟩
      · simp [new, held_mk]
      · rw [hhead]
        dsimp only
        omega
      · rw [hheld, hnone]
        simp [new, held_mk]
  | true =>
    have hbegin : b.insert seq packet = (do
        match ← b.slideTo seq with
        | none => return (b, false)
        | some b => b.place seq packet) := by
      rw [insert, hinit]
      rfl
    rw [hbegin]
    by_cases hback : b.popped = false ∧ seq < b.headSeq
    · obtain ⟨hpopped, hlt⟩ := hback
      rw [slideTo, if_pos ⟨hpopped, hlt⟩, minus_of_le hlt.le]
      dsimp only [bind, Except.bind]
      by_cases hroom : b.headSeq - seq < jitterDepth
      · obtain ⟨slots, hslide, hlength, hheld⟩ :=
          slideBack_spec hb.slots (Nat.sub_pos_of_lt hlt) hroom (Nat.sub_le _ _)
        rw [Nat.sub_sub_self hlt.le] at hheld
        rw [if_pos hroom, hslide]
        have hfree : held { b with slots, headSeq := seq } seq = none := by
          rw [hheld, held_eq_none hb.slots (.inl hlt), ite_self]
        obtain ⟨htaken, -⟩ | ⟨-, b', hplace, hlength', hhead', hinit', hpopped', hheld'⟩ :=
          place_spec (b := { b with slots, headSeq := seq }) hlength (Nat.le_refl seq) hmax packet
        · exact absurd hfree htaken
        · refine ⟨b', true, hplace, hlength', .accepted (held_eq_none hb.slots (.inl hlt))
            (hinit'.trans hinit) hpopped' (.inr (.inl ⟨hinit, hpopped, hlt, ?_⟩)) fun m => ?_⟩
          · rw [hhead']
            dsimp only
            omega
          · rw [hheld', hheld]
            split_ifs <;> first | rfl | omega
      · rw [if_neg hroom]
        exact ⟨b, false, rfl, hb.slots,
          .dropped hinit (.inr ⟨hlt, .inr (by omega)⟩)⟩
    · rw [slideTo_of_not hback]
      dsimp only [bind, Except.bind]
      by_cases hstale : seq < b.headSeq
      · have hpopped : b.popped = true := by
          cases hp : b.popped with
          | true => rfl
          | false => exact absurd ⟨hp, hstale⟩ hback
        refine ⟨b, false, ?_, hb.slots, .dropped hinit (.inr ⟨hstale, .inl hpopped⟩)⟩
        rw [place, if_pos hstale]
        rfl
      · have hle := Nat.le_of_not_lt hstale
        obtain ⟨htaken, hplace⟩ | ⟨hfree, b', hplace, hlength, hhead, hinit', hpopped, hheld⟩ :=
          place_spec hb.slots hle hmax packet
        · exact ⟨b, false, hplace, hb.slots, .dropped hinit (.inl htaken)⟩
        · refine ⟨b', true, hplace, hlength, .accepted hfree (hinit'.trans hinit) hpopped
            (.inr (.inr ⟨hinit, hle, hhead⟩)) fun m => ?_⟩
          rw [hheld]
          by_cases hfar : seq + jitterDepth ≤ m
          · rw [held_eq_none hb.slots (.inr (by omega))]
            simp
          · simp only [hfar, or_false]

theorem pop_spec (hb : Sound limit b) :
    (b.initialized = false ∧ b.pop = .ok (b, none)) ∨
    (b.initialized = true ∧ ∃ b', b.pop = .ok (b', b.held b.headSeq) ∧ Sound limit b' ∧
      b'.initialized = true ∧ b'.popped = true ∧ b'.headSeq = min (b.headSeq + 1) seqMax ∧
      ∀ m, b'.held m = if m = b.headSeq then none else b.held m) := by
  cases hinit : b.initialized with
  | false =>
    refine .inl ⟨rfl, ?_⟩
    rw [pop, if_pos hinit]
    rfl
  | true =>
    refine .inr ⟨rfl, ?_⟩
    have hdepth : jitterDepth = 3 := rfl
    obtain ⟨hslot, slots, hset, hlength, hheld⟩ :=
      setSlot_spec b.headSeq hb.slots le_rfl (by omega) none
    rw [Nat.sub_self] at hslot hset
    have hbegin : b.pop = (do
        let b' ← advanceHead { b with slots, popped := true } 1
        return (b', b.held b.headSeq)) := by
      rw [pop, if_neg (by simp [hinit]), hslot]
      dsimp only [bind, Except.bind]
      rw [hset]
    have hsmall (b' : JitterBuffer) (hsub : ∀ m, b'.held m =
        if m = b.headSeq then none else b.held m) (m : ℕ) (packet : Packet)
        (h : b'.held m = some packet) : m < limit := by
      rw [hsub] at h
      split_ifs at h
      exact hb.below m packet h
    by_cases hroom : b.headSeq + 1 ≤ seqMax
    · obtain ⟨b', hadvance, hlength', hhead', hinit', hpopped', hheld'⟩ :=
        advanceHead_spec (b := { b with slots, popped := true }) hlength Nat.one_pos hroom
      have hview (m : ℕ) : b'.held m = if m = b.headSeq then none else b.held m := by
        have hsame : held { b with slots, popped := true } m = held { b with slots } m := rfl
        rw [hheld', hsame, hheld]
        dsimp only
        split_ifs with hnext hm hm
        · rfl
        · rfl
        · rfl
        · rw [held_eq_none hb.slots (.inl (by omega))]
      rw [hbegin, hadvance]
      refine ⟨b', rfl, ⟨hlength', hb.limit_le, ?_, hsmall b' hview, ?_⟩, hinit'.trans hinit,
        hpopped', ?_, hview⟩
      · rw [hhead']
        exact hroom
      · intro hfresh
        rw [hinit', hinit] at hfresh
        cases hfresh
      · rw [hhead', Nat.min_eq_left hroom]
    · -- At the end of all numbers the window stays where it is, and nothing is left in it.
      have hend : b.headSeq = seqMax := by
        have hle := hb.headSeq
        omega
      have hempty (m : ℕ) (hm : m ≠ b.headSeq) : b.held m = none := by
        by_contra hsome
        obtain ⟨packet, hpacket⟩ := Option.ne_none_iff_exists'.mp hsome
        have hge := headSeq_le_of_held hpacket
        have hlt := hb.below m packet hpacket
        have hlimit := hb.limit_le
        omega
      have hview (m : ℕ) : (if m = b.headSeq then none else b.held m) = none := by
        by_cases hm : m = b.headSeq
        · rw [if_pos hm]
        · rw [if_neg hm, hempty m hm]
      obtain ⟨x, y, z, rfl⟩ := List.length_eq_three.mp hlength
      have hslots (m : ℕ) : held ⟨[x, y, z], b.headSeq, b.initialized, b.popped⟩ m = none := by
        rw [hheld, hview]
      obtain ⟨rfl, rfl, rfl⟩ : x = none ∧ y = none ∧ z = none := by
        refine ⟨?_, ?_, ?_⟩
        · simpa [held_mk] using hslots b.headSeq
        · simpa [held_mk] using hslots (b.headSeq + 1)
        · simpa [held_mk] using hslots (b.headSeq + 2)
      have hnone (m : ℕ) : held ⟨[none, none, none], seqMax, b.initialized, true⟩ m = none := by
        simp [held_mk]
      refine ⟨⟨[none, none, none], seqMax, b.initialized, true⟩, ?_,
        ⟨rfl, hb.limit_le, le_rfl, fun m packet hm => ?_, fun hfresh => ?_⟩, hinit, rfl, ?_,
        fun m => ?_⟩
      · have hmin : min (b.headSeq + 1) seqMax = seqMax := Nat.min_eq_right (by omega)
        rw [hbegin, advanceHead]
        dsimp only
        rw [hmin]
        rfl
      · rw [hnone] at hm
        cases hm
      · exact absurd (hinit.symm.trans hfresh) (by decide)
      · dsimp only
        omega
      · rw [hnone, hview]

theorem sound_new (hlimit : limit ≤ seqMax + 1) : Sound limit new where
  slots := rfl
  limit_le := hlimit
  headSeq := by decide
  below n packet h := by
    simp [new, held_mk] at h
  fresh _ := rfl

theorem Sound.lt_of_held (hb : Sound limit b) (h : b.held n = some packet) :
    n < b.headSeq + jitterDepth := by
  by_contra hge
  rw [held_eq_none hb.slots (.inr (Nat.le_of_not_lt hge))] at h
  cases h

end JitterBuffer
end Media
