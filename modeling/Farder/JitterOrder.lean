import Farder.Media.Jitter

/-! # The jitter buffer keeps the order

Whatever is inserted and taken in whatever order, the packets that are taken are in the order of
their numbers, and one that went in comes out, unless another one pushes it out of the window. -/
namespace Media
namespace JitterBuffer

open Guarded

variable {b b' : JitterBuffer} {seq n : ℕ} {packet : Packet} {out : Option Packet}

inductive JitterCall where
  | insert (seq : ℕ) (packet : Packet) (accepted : Bool)
  | pop (out : Option Packet)
  deriving DecidableEq

def seqLimit : ℕ := 2 ^ 64 - jitterDepth

def Calls (b : JitterBuffer) (call : JitterCall) (b' : JitterBuffer) : Prop :=
  match call with
  | .insert seq packet accepted => seq < seqLimit ∧ b.insert seq packet = .ok (b', accepted)
  | .pop out => b.pop = .ok (b', out)

abbrev JitterRun := Execution Calls

abbrev JitterCalls := List (Transition JitterBuffer JitterCall)

/-- The packet that a call takes, with the number that its slot stands for. -/
def taken (x : Transition JitterBuffer JitterCall) : Option (ℕ × Packet) :=
  match x.event with
  | .pop (some packet) => some (x.pre.headSeq, packet)
  | _ => none

def Inserted (seq : ℕ) (packet : Packet) (x : Transition JitterBuffer JitterCall) : Prop :=
  x.event = .insert seq packet true

/-- A pop that follows an insert has been called: the head of the window is committed. -/
def Committed (tr : JitterCalls) : Prop :=
  ∃ before x after, tr = before ++ x :: after ∧ (∃ out, x.event = .pop out) ∧
    ∃ y ∈ before, ∃ seq packet accepted, y.event = .insert seq packet accepted

/-- An insert at the depth or more ahead of the head, or, early on, one with which the buffered
numbers would span the depth or more. -/
def Excuses (early : Prop) (x : Transition JitterBuffer JitterCall) : Prop :=
  ∃ seq packet, Inserted seq packet x ∧ (x.pre.headSeq + jitterDepth ≤ seq ∨
    early ∧ ∃ n, x.pre.held n ≠ none ∧ (n + jitterDepth ≤ seq ∨ seq + jitterDepth ≤ n))

/-- What a call does, by its answer. -/
inductive Does (b : JitterBuffer) : JitterCall → JitterBuffer → Prop
  | insert {b' : JitterBuffer} {seq : ℕ} {packet : Packet} {accepted : Bool}
      (hseq : seq < seqLimit) (h : Inserts b seq packet b' accepted) :
      Does b (.insert seq packet accepted) b'
  | idle (hinit : b.initialized = false) : Does b (.pop none) b
  | pop {b' : JitterBuffer} (hinit : b.initialized = true) (hinit' : b'.initialized = true)
      (hpopped : b'.popped = true) (hhead : b'.headSeq = min (b.headSeq + 1) seqMax)
      (hheld : ∀ m, b'.held m = if m = b.headSeq then none else b.held m) :
      Does b (.pop (b.held b.headSeq)) b'

theorem Calls.does {call : JitterCall} (hstep : Calls b call b') (hb : Sound seqLimit b) :
    Sound seqLimit b' ∧ Does b call b' := by
  cases call with
  | insert seq packet accepted =>
    obtain ⟨hseq, hinsert⟩ := hstep
    obtain ⟨b₁, accepted₁, hinsert₁, hsound, hcases⟩ :=
      insert_spec hb hseq packet
    obtain ⟨rfl, rfl⟩ := Prod.mk.inj (Except.ok.inj (hinsert₁.symm.trans hinsert))
    exact ⟨hsound, .insert hseq hcases⟩
  | pop out =>
    have hpop : b.pop = .ok (b', out) := hstep
    obtain ⟨hinit, hidle⟩ | ⟨hinit, b₁, hpop₁, hsound, hinit', hpopped, hhead, hheld⟩ :=
      pop_spec hb
    · obtain ⟨rfl, rfl⟩ := Prod.mk.inj (Except.ok.inj (hidle.symm.trans hpop))
      exact ⟨hb, .idle hinit⟩
    · obtain ⟨rfl, rfl⟩ := Prod.mk.inj (Except.ok.inj (hpop₁.symm.trans hpop))
      exact ⟨hsound, .pop hinit hinit' hpopped hhead hheld⟩

variable {tr : JitterCalls}

theorem sound_of_run (hrun : JitterRun new tr b) : Sound seqLimit b :=
  hrun.invariant (sound_new (by decide)) fun _ _ _ hs hstep => (hstep.does hs).1

theorem does_of_run (hrun : JitterRun new tr b) {x : Transition JitterBuffer JitterCall}
    (hx : x ∈ tr) : Sound seqLimit x.pre ∧ Does x.pre x.event x.post := by
  have hpre := (hrun.invariant_of_mem (sound_new (by decide))
    (fun _ _ _ hs hstep => (hstep.does hs).1) hx).1
  exact ⟨hpre, ((hrun.step_of_mem hx).does hpre).2⟩

theorem Does.held_before {call : JitterCall} (h : Does b call b')
    (hheld : b'.held n = some packet) : b.held n = some packet ∨ call = .insert n packet true := by
  cases h with
  | @insert b' seq p accepted hseq h =>
    cases h with
    | dropped hinit hwhy => exact .inl hheld
    | accepted hfree hinit hpopped hhead hview =>
      rw [hview] at hheld
      split_ifs at hheld with hsame hfar
      · obtain rfl := Option.some.inj hheld
        exact .inr (by rw [hsame])
      · exact .inl hheld
  | idle hinit => exact .inl hheld
  | pop hinit hinit' hpopped hhead hview =>
    rw [hview] at hheld
    split_ifs at hheld
    exact .inl hheld

theorem held_inserted (hrun : JitterRun new tr b) (hheld : b.held n = some packet) :
    ∃ x ∈ tr, Inserted n packet x := by
  have hnone : ¬new.held n = some packet := by simp [new, held_mk]
  obtain ⟨before, x, after, rfl, hx, -⟩ := hrun.since (P := Inserted n packet)
    (Q := fun _ => False) (fun s => s.held n = some packet) hnone
    (fun x hx hpost => ((does_of_run hrun hx).2.held_before hpost).elim
      (fun hpre => .inr ⟨hpre, id⟩) .inl) hheld
  exact ⟨x, List.mem_append_right _ List.mem_cons_self, hx⟩

/-- A packet stays in its slot until it is taken, or until it does not fit into one window with an
insert. -/
theorem Does.held_after {call : JitterCall} (h : Does b call b') (hb : Sound seqLimit b)
    (hheld : b.held n = some packet) :
    b'.held n = some packet ∨ (b.headSeq = n ∧ call = .pop (some packet)) ∨
    ∃ seq p, call = .insert seq p true ∧
      (n + jitterDepth ≤ seq ∨ b.popped = false ∧ seq + jitterDepth ≤ n) := by
  cases h with
  | @insert b' seq p accepted hseq h =>
    cases h with
    | dropped hinit hwhy => exact .inl hheld
    | accepted hfree hinit hpopped hhead hview =>
      rw [hview]
      by_cases hsame : n = seq
      · rw [← hsame, hheld] at hfree
        cases hfree
      · rw [if_neg hsame]
        by_cases hfar : n + jitterDepth ≤ seq ∨ seq + jitterDepth ≤ n
        · refine .inr (.inr ⟨seq, p, rfl, hfar.imp_right fun hback => ⟨?_, hback⟩⟩)
          rcases hhead with ⟨hfresh, -⟩ | ⟨-, hpopped, -⟩ | ⟨-, hle, -⟩
          · rw [hb.fresh hfresh] at hheld
            simp [new, held_mk] at hheld
          · exact hpopped
          · have hlt := hb.lt_of_held hheld
            omega
        · rw [if_neg hfar]
          exact .inl hheld
  | idle hinit => exact .inl hheld
  | pop hinit hinit' hpopped hhead hview =>
    rw [hview]
    by_cases hfirst : n = b.headSeq
    · rw [← hfirst, hheld]
      exact .inr (.inl ⟨rfl, rfl⟩)
    · rw [if_neg hfirst]
      exact .inl hheld

theorem Does.held_of_inserted {call : JitterCall} (h : Does b call b')
    (hcall : call = .insert n packet true) : b'.held n = some packet := by
  cases h with
  | insert hseq h =>
    obtain ⟨rfl, rfl, rfl⟩ := JitterCall.insert.inj hcall
    cases h with
    | accepted hfree hinit hpopped hhead hview =>
      rw [hview, if_pos rfl]
  | idle hinit => cases hcall
  | pop hinit hinit' hpopped hhead hview => cases hcall

theorem Does.headSeq_le {call : JitterCall} (h : Does b call b') (hb : Sound seqLimit b)
    (hpopped : b.popped = true) : b'.popped = true ∧ b.headSeq ≤ b'.headSeq := by
  cases h with
  | @insert b' seq p accepted hseq h =>
    cases h with
    | dropped hinit hwhy => exact ⟨hpopped, le_rfl⟩
    | accepted hfree hinit hsame hhead hview =>
      refine ⟨hsame.trans hpopped, ?_⟩
      rcases hhead with ⟨hfresh, -⟩ | ⟨-, hnot, -⟩ | ⟨-, -, hmax⟩
      · rw [hb.fresh hfresh] at hpopped
        cases hpopped
      · rw [hpopped] at hnot
        cases hnot
      · rw [hmax]
        exact Nat.le_max_left _ _
  | idle hinit => exact ⟨hpopped, le_rfl⟩
  | pop hinit hinit' hpopped' hhead hview =>
    have hle := hb.headSeq
    refine ⟨hpopped', ?_⟩
    omega

theorem taken_eq_some {x : Transition JitterBuffer JitterCall} :
    taken x = some (n, packet) ↔ x.event = .pop (some packet) ∧ x.pre.headSeq = n := by
  rw [taken]
  split <;> simp_all [and_comm]

theorem Does.pop_some {call : JitterCall} (h : Does b call b') (hb : Sound seqLimit b)
    (hcall : call = .pop (some packet)) :
    b.held b.headSeq = some packet ∧ b'.popped = true ∧ b.headSeq < b'.headSeq := by
  cases h with
  | insert hseq h => cases hcall
  | idle hinit => cases hcall
  | pop hinit hinit' hpopped hhead hview =>
    have hout : b.held b.headSeq = some packet := JitterCall.pop.inj hcall
    have hlt := hb.below _ _ hout
    have hlimit : seqLimit < seqMax := by decide
    refine ⟨hout, hpopped, ?_⟩
    omega

theorem Does.initialized {call : JitterCall} (h : Does b call b') (hbegun : b.initialized = true ∨
    ∃ seq packet accepted, call = .insert seq packet accepted) : b'.initialized = true := by
  cases h with
  | insert hseq h =>
    cases h with
    | dropped hinit hwhy => exact hinit
    | accepted hfree hinit hpopped hhead hview => exact hinit
  | idle hnot =>
    rcases hbegun with hinit | ⟨seq, packet, accepted, hcall⟩
    · exact hinit
    · cases hcall
  | pop hinit hinit' hpopped hhead hview => exact hinit'

theorem Does.popped {call : JitterCall} (h : Does b call b') (hinit : b.initialized = true)
    (hcall : call = .pop out) : b'.popped = true := by
  cases h with
  | insert hseq h => cases hcall
  | idle hnot =>
    rw [hinit] at hnot
    cases hnot
  | pop hinit hinit' hpopped hhead hview => exact hpopped

theorem behind_of_run (hrun : JitterRun new tr b) {x : Transition JitterBuffer JitterCall}
    (hx : x ∈ tr) (htaken : taken x = some (n, packet)) : b.popped = true ∧ n < b.headSeq := by
  obtain ⟨before, after, rfl⟩ := List.append_of_mem hx
  obtain ⟨hbefore, hstep, hafter⟩ := hrun.split_at
  obtain ⟨hsound, hdoes⟩ := hstep.does (sound_of_run hbefore)
  obtain ⟨hcall, rfl⟩ := taken_eq_some.mp htaken
  obtain ⟨-, hpopped, hlt⟩ := hdoes.pop_some (sound_of_run hbefore) hcall
  have hkept : Sound seqLimit b ∧ b.popped = true ∧ x.pre.headSeq < b.headSeq := by
    refine hafter.invariant
      (I := fun s => Sound seqLimit s ∧ s.popped = true ∧ x.pre.headSeq < s.headSeq)
      ⟨hsound, hpopped, hlt⟩ ?_
    rintro s call t ⟨hs, hp, hn⟩ hcall
    obtain ⟨ht, hdoes⟩ := hcall.does hs
    obtain ⟨hp', hle⟩ := hdoes.headSeq_le hs hp
    exact ⟨ht, hp', hn.trans_le hle⟩
  exact hkept.2

theorem taken_pairwise (hrun : JitterRun new tr b) :
    (tr.filterMap fun x => (taken x).map Prod.fst).Pairwise (· < ·) := by
  induction tr using List.reverseRecOn generalizing b with
  | nil => exact .nil
  | append_singleton tr x ih =>
    obtain ⟨hbefore, hstep, -⟩ := hrun.of_snoc
    rw [List.filterMap_append, List.pairwise_append]
    refine ⟨ih hbefore, ?_, fun k hk m hlast => ?_⟩
    · cases h : taken x <;> simp [h]
    · obtain ⟨y, hy, hk⟩ := List.mem_filterMap.mp hk
      obtain ⟨z, hz, hm⟩ := List.mem_filterMap.mp hlast
      obtain rfl := List.mem_singleton.mp hz
      obtain ⟨⟨_, p⟩, hty, rfl⟩ := Option.map_eq_some_iff.mp hk
      obtain ⟨⟨_, q⟩, htz, rfl⟩ := Option.map_eq_some_iff.mp hm
      have hlt := (behind_of_run hbefore hy hty).2
      rwa [← (taken_eq_some.mp htz).2]

theorem popped_of_committed (hrun : JitterRun new tr b) (h : Committed tr) : b.popped = true := by
  obtain ⟨before, x, after, rfl, ⟨out, hpop⟩, y, hy, seq, packet, accepted, hinsert⟩ := h
  obtain ⟨hbefore, hstep, hafter⟩ := hrun.split_at
  have hsound := sound_of_run hbefore
  -- An insert initializes the buffer, and no call makes it new again.
  have hinit : x.pre.initialized = true := by
    obtain ⟨a, c, rfl⟩ := List.append_of_mem hy
    obtain ⟨ha, hfirst, hc⟩ := hbefore.split_at
    obtain ⟨hs, hdoes⟩ := hfirst.does (sound_of_run ha)
    have hkept : Sound seqLimit x.pre ∧ x.pre.initialized = true := by
      refine hc.invariant (I := fun s => Sound seqLimit s ∧ s.initialized = true)
        ⟨hs, hdoes.initialized (.inr ⟨seq, packet, accepted, hinsert⟩)⟩ ?_
      rintro s call t ⟨hs, hi⟩ hcall
      obtain ⟨ht, hdoes⟩ := hcall.does hs
      exact ⟨ht, hdoes.initialized (.inl hi)⟩
    exact hkept.2
  obtain ⟨hs, hdoes⟩ := hstep.does hsound
  have hkept : Sound seqLimit b ∧ b.popped = true := by
    refine hafter.invariant (I := fun s => Sound seqLimit s ∧ s.popped = true)
      ⟨hs, hdoes.popped hinit hpop⟩ ?_
    rintro s call t ⟨hs, hp⟩ hcall
    obtain ⟨ht, hdoes⟩ := hcall.does hs
    exact ⟨ht, (hdoes.headSeq_le hs hp).1⟩
  exact hkept.2

/-- A packet that is held comes out under its number, or an insert pushes it out. -/
theorem held_until {mid : JitterBuffer} {before after : JitterCalls}
    (hbefore : JitterRun new before mid) (hafter : JitterRun mid after b)
    (hheld : mid.held n = some packet) :
    b.held n = some packet ∨ (∃ x ∈ after, taken x = some (n, packet)) ∨
    ∃ between x rest, after = between ++ x :: rest ∧ x.pre.held n = some packet ∧
      x.post.held n ≠ some packet ∧ Excuses (¬Committed (before ++ between)) x := by
  rcases hafter.persists (fun s => s.held n = some packet) hheld with hend | ⟨x, hx, hpre, hpost⟩
  · exact .inl hend
  obtain ⟨between, rest, rfl⟩ := List.append_of_mem hx
  obtain ⟨hbetween, hstep, -⟩ := hafter.split_at
  have hall := hbefore.trans hbetween
  have hsound := sound_of_run hall
  obtain ⟨-, hdoes⟩ := hstep.does hsound
  rcases hdoes.held_after hsound hpre with hstill | ⟨hhead, hpop⟩ | ⟨seq, p, hinsert, hfar⟩
  · exact absurd hstill hpost
  · refine .inr (.inl ⟨x, hx, ?_⟩)
    rw [taken, hpop, hhead]
  · refine .inr (.inr ⟨between, x, rest, rfl, hpre, hpost, seq, p, hinsert, ?_⟩)
    rcases hfar with hahead | ⟨hnot, hback⟩
    · have hle := headSeq_le_of_held hpre
      exact .inl (by omega)
    · refine .inr ⟨fun hcommitted => ?_, n, ?_, .inr hback⟩
      · rw [popped_of_committed hall hcommitted] at hnot
        cases hnot
      · rw [hpre]
        exact fun h => nomatch h

def called (b : JitterBuffer) (call : JitterCall) : JitterBuffer :=
  match call with
  | .insert seq packet _ => ((b.insert seq packet).toOption.map Prod.fst).getD b
  | .pop _ => (b.pop.toOption.map Prod.fst).getD b

instance (b : JitterBuffer) (call : JitterCall) (b' : JitterBuffer) : Decidable (Calls b call b') :=
  match call with
  | .insert _ _ _ => inferInstanceAs (Decidable (_ ∧ _))
  | .pop _ => inferInstanceAs (Decidable (_ = _))

theorem run_of_calls (calls : List JitterCall)
    (h : ∀ x ∈ Execution.path called new calls, Calls x.pre x.event x.post) :
    JitterRun new (Execution.path called new calls) (calls.foldl called new) :=
  (Execution.of_path called calls).of_steps fun x hx _ => h x hx

/-- The slots hold what was inserted under their numbers, packets are taken in the order of their
numbers, and each that went in is taken, unless it had to go. -/
theorem jitter_keeps_order (hrun : JitterRun new tr b) :
    (∀ seq < seqLimit, ∀ packet, ∃ b' accepted, b.insert seq packet = .ok (b', accepted)) ∧
    (∃ b' out, b.pop = .ok (b', out)) ∧
    (b.slots.length = jitterDepth ∧ ∀ i packet, b.slots[i]? = some (some packet) →
      ∃ x ∈ tr, Inserted (b.headSeq + i) packet x) ∧
    (tr.filterMap fun x => (taken x).map Prod.fst).Pairwise (· < ·) ∧
    (∀ before x after seq packet, tr = before ++ x :: after → taken x = some (seq, packet) →
      ∃ y ∈ before, Inserted seq packet y) ∧
    ∀ before x after seq packet, tr = before ++ x :: after → Inserted seq packet x →
      b.held seq = some packet ∨ (∃ y ∈ after, taken y = some (seq, packet)) ∨
      ∃ between y rest, after = between ++ y :: rest ∧ y.pre.held seq = some packet ∧
        y.post.held seq ≠ some packet ∧
        Excuses (¬Committed (before ++ x :: between)) y := by
  have hsound := sound_of_run hrun
  refine ⟨fun seq hseq packet => ?_, ?_, ⟨hsound.slots, fun i packet hslot => ?_⟩,
    taken_pairwise hrun, ?_, ?_⟩
  · obtain ⟨b', accepted, hinsert, -⟩ := insert_spec hsound hseq packet
    exact ⟨b', accepted, hinsert⟩
  · obtain ⟨-, hidle⟩ | ⟨-, b', hpop, -⟩ := pop_spec hsound
    · exact ⟨b, none, hidle⟩
    · exact ⟨b', _, hpop⟩
  · refine held_inserted hrun ?_
    rw [held, if_pos (Nat.le_add_right _ _), Nat.add_sub_cancel_left, hslot]
    rfl
  · rintro before x after seq packet rfl htaken
    obtain ⟨hbefore, hstep, -⟩ := hrun.split_at
    obtain ⟨hcall, rfl⟩ := taken_eq_some.mp htaken
    have hbefore_sound := sound_of_run hbefore
    exact held_inserted hbefore ((hstep.does hbefore_sound).2.pop_some hbefore_sound hcall).1
  · rintro before x after seq packet rfl hinsert
    obtain ⟨hbefore, hstep, hafter⟩ := hrun.split_at
    have hdoes := (hstep.does (sound_of_run hbefore)).2
    have hheld : x.post.held seq = some packet := hdoes.held_of_inserted hinsert
    have hfirst : JitterRun new (before ++ [x]) x.post := hbefore.snoc hstep
    have huntil := held_until hfirst hafter hheld
    simp only [List.append_assoc, List.singleton_append] at huntil
    exact huntil

/-- Two packets come in the wrong order, and the one between them never comes. -/
def reordered : List JitterCall :=
  [.insert 12 [12] true, .insert 10 [10] true, .pop (some [10]), .pop none, .pop (some [12])]

theorem jitter_keeps_order_reordered :
    ((Execution.path called new reordered).filterMap fun x => (taken x).map Prod.fst) = [10, 12] ∧
    ((Execution.path called new reordered).filterMap fun x => (taken x).map Prod.fst).Pairwise
      (· < ·) :=
  ⟨by decide, (jitter_keeps_order (run_of_calls reordered (by decide))).2.2.2.1⟩

/-- A pop before anything has come does not commit the head. -/
def poppedEarly : List JitterCall :=
  [.pop none, .insert 10 [10] true, .insert 12 [12] true, .insert 9 [9] true, .pop (some [9]),
    .pop (some [10]), .pop none, .pop none]

/-- Once a pop was called, an insert behind the head may still push a packet out. -/
theorem jitter_slides_after_pop : ¬∀ tr b, JitterRun new tr b →
    ∀ before x after seq packet, tr = before ++ x :: after → Inserted seq packet x →
      seq < b.headSeq → (∃ y ∈ after, taken y = some (seq, packet)) ∨
      ∃ between y rest, after = between ++ y :: rest ∧
        Excuses (∀ z ∈ before ++ x :: between, ∀ out, z.event ≠ .pop out) y := by
  intro h
  have hrun := run_of_calls poppedEarly (by decide)
  have hsplit : Execution.path called new poppedEarly =
      Execution.path called new (poppedEarly.take 2) ++
        ⟨(poppedEarly.take 2).foldl called new, .insert 12 [12] true,
          (poppedEarly.take 3).foldl called new⟩ ::
        Execution.path called ((poppedEarly.take 3).foldl called new) (poppedEarly.drop 3) := rfl
  rcases h _ _ hrun _ _ _ 12 [12] hsplit rfl (by decide) with htaken | hexcused
  · exact absurd htaken (by decide)
  · obtain ⟨between, y, rest, hafter, seq, packet, hinsert, hwhy⟩ := hexcused
    have hnear : ∀ y ∈ Execution.path called ((poppedEarly.take 3).foldl called new)
        (poppedEarly.drop 3), ∀ seq ∈ (match y.event with
          | .insert seq _ _ => some seq
          | .pop _ => none), seq < y.pre.headSeq + jitterDepth := by decide
    rcases hwhy with hahead | ⟨hearly, -⟩
    · have hmem : y ∈ Execution.path called ((poppedEarly.take 3).foldl called new)
          (poppedEarly.drop 3) := by
        rw [hafter]
        exact List.mem_append_right _ List.mem_cons_self
      refine absurd (hnear y hmem seq ?_) (Nat.not_lt_of_le hahead)
      rw [Inserted] at hinsert
      rw [hinsert]
      rfl
    · exact hearly ⟨new, .pop none, new⟩ (List.mem_append_left _ List.mem_cons_self) none rfl

end JitterBuffer
end Media
