import Farder.Media.Receive

/-! # The voice of a peer comes back

Frames are lost, doubled and late for a while, and then come one after another again. As the
receive loop takes one slot for each frame that comes, whatever frame it is, frames that come too
often drive its window ahead of the sender. -/
namespace Media
namespace Receiver

open Guarded JitterBuffer

variable {openMediaFrame : FrameCipher} {sent : ℕ → Packet} {b b' : JitterBuffer}
  {s first count lag n : ℕ} {before : List ℕ} {ds : List Datagram}

/-- The frames that arrive are those of the sender with these numbers, in this order. -/
def Arrive (openMediaFrame : FrameCipher) (sent : ℕ → Packet) (ds : List Datagram)
    (seqs : List ℕ) : Prop :=
  ∃ reassembler, framesOf openMediaFrame new.reassembler ds =
    .ok (reassembler, seqs.map fun s => (s, sent s))

/-- From at most the depth into the later frames on, the decoder gets frame after frame; `skip`
calls came before them. -/
def Recovers (sent : ℕ → Packet) (calls : List DecoderCall) (skip first count : ℕ) : Prop :=
  ∃ lag ≤ jitterDepth, ∀ k, jitterDepth ≤ k → k < count →
    calls[skip + k]? = some (.decode (sent (first + k - lag)))

/-- The sender has gone on by at least as many numbers as frames have arrived: since the first
frame, and, but for the room of the window, since each of them. -/
def KeepsUp (before : List ℕ) (first : ℕ) : Prop :=
  (∀ seq ∈ before.head?, seq + before.length ≤ first) ∧
  ∀ a seq c, before = a ++ seq :: c → seq + c.length ≤ first + 1

/-- The buffer between two frames: its head is committed once a frame has come, and what it holds
is of the sender. -/
structure Steady (sent : ℕ → Packet) (b : JitterBuffer) : Prop where
  sound : Sound (seqMax + 1) b
  popped : b.initialized = true → b.popped = true
  authentic : ∀ n packet, b.held n = some packet → packet = sent n

def headFor (b : JitterBuffer) (s : ℕ) : ℕ :=
  if b.initialized then max b.headSeq (s + 1 - jitterDepth) else s

theorem headFor_of_initialized (hinit : b.initialized = true) (s : ℕ) :
    headFor b s = max b.headSeq (s + 1 - jitterDepth) := by
  rw [headFor, if_pos hinit]

theorem insert_on_time (hb : Steady sent b) (hs : s ≤ seqMax)
    (hle : b.initialized = true → b.headSeq ≤ s) : ∃ b' accepted,
      b.insert s (sent s) = .ok (b', accepted) ∧ Sound (seqMax + 1) b' ∧ b'.initialized = true ∧
      b'.headSeq = headFor b s ∧ (∀ n packet, b'.held n = some packet → packet = sent n) ∧
      ∀ m, headFor b s ≤ m → b'.held m = if m = s then some (sent s) else b.held m := by
  have hdepth : jitterDepth = 3 := rfl
  obtain ⟨b', accepted, hinsert, hsound, hcases⟩ :=
    insert_spec hb.sound (Nat.lt_succ_of_le hs) (sent s)
  refine ⟨b', accepted, hinsert, hsound, ?_⟩
  cases hcases with
  | dropped hinit hwhy =>
    have hmax := headFor_of_initialized hinit s
    rcases hwhy with htaken | ⟨hlt, -⟩
    · obtain ⟨packet, hpacket⟩ := Option.ne_none_iff_exists'.mp htaken
      have hlt := hb.sound.lt_of_held hpacket
      have hge := headSeq_le_of_held hpacket
      refine ⟨hinit, by omega, hb.authentic, fun m hm => ?_⟩
      by_cases hsame : m = s
      · rw [if_pos hsame, hsame, hpacket, hb.authentic s packet hpacket]
      · rw [if_neg hsame]
    · exact absurd (hle hinit) (Nat.not_le_of_lt hlt)
  | accepted hfree hinit hpopped hhead hheld =>
    have hnew : b'.headSeq = headFor b s ∧ ∀ m, s + jitterDepth ≤ m → b.held m = none := by
      rcases hhead with ⟨hfresh, hhead⟩ | ⟨hinit, hnot, -⟩ | ⟨hinit, hle, hhead⟩
      · refine ⟨by rw [hhead, headFor, hfresh]; rfl, fun m _ => ?_⟩
        rw [hb.sound.fresh hfresh]
        simp [JitterBuffer.new, held_mk]
      · exact absurd ((hb.popped hinit).symm.trans hnot) (by decide)
      · refine ⟨by rw [hhead, headFor_of_initialized hinit], fun m hm => ?_⟩
        exact held_eq_none hb.sound.slots (.inr (by omega))
    refine ⟨hinit, hnew.1, fun m packet hm => ?_, fun m hm => ?_⟩
    · rw [hheld] at hm
      split_ifs at hm with hsame hfar
      · rw [hsame]
        exact (Option.some.inj hm).symm
      · exact hb.authentic m packet hm
    · have hroom : s + 1 - jitterDepth ≤ m := by
        rw [headFor] at hm
        split_ifs at hm <;> omega
      rw [hheld]
      by_cases hsame : m = s
      · rw [if_pos hsame, if_pos hsame]
      · rw [if_neg hsame, if_neg hsame]
        by_cases hfar : m + jitterDepth ≤ s ∨ s + jitterDepth ≤ m
        · rw [if_pos hfar, hnew.2 m (by omega)]
        · rw [if_neg hfar]

theorem pop_steady (hsound : Sound (seqMax + 1) b) (hinit : b.initialized = true)
    (hauthentic : ∀ n packet, b.held n = some packet → packet = sent n) :
    ∃ b', b.pop = .ok (b', b.held b.headSeq) ∧ Steady sent b' ∧ b'.initialized = true ∧
      b'.headSeq = min (b.headSeq + 1) seqMax ∧
      ∀ m, b'.held m = if m = b.headSeq then none else b.held m := by
  obtain ⟨hnot, -⟩ | ⟨-, b', hpop, hsound', hinit', hpopped', hhead, hheld⟩ := pop_spec hsound
  · exact absurd (hinit.symm.trans hnot) (by decide)
  · refine ⟨b', hpop, ⟨hsound', fun _ => hpopped', fun m packet hm => ?_⟩, hinit', hhead, hheld⟩
    rw [hheld] at hm
    split_ifs at hm
    exact hauthentic m packet hm

theorem play_on_time (hb : Steady sent b) (hs : s ≤ seqMax)
    (hle : b.initialized = true → b.headSeq ≤ s) : ∃ b' call,
      play b (s, sent s) = .ok (b', call) ∧ Steady sent b' ∧ b'.initialized = true ∧
      b'.headSeq = min (headFor b s + 1) seqMax ∧
      call = callFor (if headFor b s = s then some (sent s) else b.held (headFor b s)) ∧
      ∀ m, headFor b s < m → b'.held m = if m = s then some (sent s) else b.held m := by
  obtain ⟨b₁, accepted, hinsert, hsound, hinit, hhead, hauthentic, hview⟩ :=
    insert_on_time hb hs hle
  obtain ⟨b', hpop, hsteady, hinit', hhead', hheld⟩ := pop_steady hsound hinit hauthentic
  rw [hhead] at hpop hhead' hheld
  refine ⟨b', _, ?_, hsteady, hinit', hhead', rfl, fun m hm => ?_⟩
  · rw [play, hinsert]
    dsimp only [bind, Except.bind]
    rw [hpop, hview _ le_rfl]
    rfl
  · rw [hheld, if_neg (Nat.ne_of_gt hm), hview m hm.le]

/-- A frame that is behind the window is not heard, and the window goes on nevertheless. -/
theorem play_late (hb : Steady sent b) (hs : s ≤ seqMax) (hinit : b.initialized = true)
    (hlt : s < b.headSeq) : ∃ b', play b (s, sent s) = .ok (b', callFor (b.held b.headSeq)) ∧
      Steady sent b' ∧ b'.initialized = true ∧ b'.headSeq = min (b.headSeq + 1) seqMax ∧
      ∀ m, b'.held m = if m = b.headSeq then none else b.held m := by
  obtain ⟨b₁, accepted, hinsert, -, hcases⟩ :=
    insert_spec hb.sound (Nat.lt_succ_of_le hs) (sent s)
  have hsame : b₁ = b := by
    cases hcases with
    | dropped hinit hwhy => rfl
    | accepted hfree hinit' hpopped hhead hheld =>
      rcases hhead with ⟨hfresh, -⟩ | ⟨-, hnot, -⟩ | ⟨-, hle, -⟩
      · exact absurd (hinit.symm.trans hfresh) (by decide)
      · exact absurd ((hb.popped hinit).symm.trans hnot) (by decide)
      · omega
  rw [hsame] at hinsert
  obtain ⟨b', hpop, hsteady, hinit', hhead, hheld⟩ := pop_steady hb.sound hinit hb.authentic
  refine ⟨b', ?_, hsteady, hinit', hhead, hheld⟩
  rw [play, hinsert]
  dsimp only [bind, Except.bind]
  rw [hpop]
  rfl

/-! ## The frames before -/

theorem forall_split_cons {P : ℕ → ℕ → Prop} {x : ℕ} {l : List ℕ} :
    (∀ a seq c, x :: l = a ++ seq :: c → P seq c.length) ↔
      P x l.length ∧ ∀ a seq c, l = a ++ seq :: c → P seq c.length := by
  constructor
  · intro h
    exact ⟨h [] x l rfl, fun a seq c hl => h (x :: a) seq c (by rw [hl, List.cons_append])⟩
  · rintro ⟨hx, hl⟩ a seq c h
    rcases List.cons_eq_append_iff.mp h with ⟨-, h⟩ | ⟨a', -, h⟩
    · obtain ⟨rfl, rfl⟩ := List.cons.inj h
      exact hx
    · exact hl a' seq c h

/-- Frames that come to a window that is committed: whether it is ahead of a number in the end. -/
theorem playAll_initialized (hb : Steady sent b) (hinit : b.initialized = true)
    (hseqs : ∀ seq ∈ before, seq ≤ seqMax) (hfirst : first < seqMax) : ∃ b' calls,
      playAll b (before.map fun s => (s, sent s)) = .ok (b', calls) ∧
      calls.length = before.length ∧ Steady sent b' ∧ b'.initialized = true ∧
      (b'.headSeq ≤ first ↔ b.headSeq + before.length ≤ first ∧
        ∀ a seq c, before = a ++ seq :: c → seq + c.length ≤ first + 1) := by
  induction before generalizing b with
  | nil =>
    refine ⟨b, [], rfl, rfl, hb, hinit, ⟨fun h => ⟨h, fun a seq c h => ?_⟩, fun h => h.1⟩⟩
    simp at h
  | cons seq before ih =>
    have hdepth : jitterDepth = 3 := rfl
    have hseq := hseqs seq List.mem_cons_self
    obtain ⟨b₁, call, hplay, hb₁, hinit₁, hhead⟩ : ∃ b₁ call,
        play b (seq, sent seq) = .ok (b₁, call) ∧ Steady sent b₁ ∧ b₁.initialized = true ∧
        b₁.headSeq = min (max b.headSeq (seq + 1 - jitterDepth) + 1) seqMax := by
      by_cases hlate : seq < b.headSeq
      · obtain ⟨b₁, hplay, hb₁, hinit₁, hhead, -⟩ := play_late hb hseq hinit hlate
        exact ⟨b₁, _, hplay, hb₁, hinit₁, by omega⟩
      · obtain ⟨b₁, call, hplay, hb₁, hinit₁, hhead, -⟩ :=
          play_on_time hb hseq fun _ => Nat.le_of_not_lt hlate
        rw [headFor_of_initialized hinit] at hhead
        exact ⟨b₁, call, hplay, hb₁, hinit₁, hhead⟩
    obtain ⟨b', calls, hrest, hlength, hb', hinit', hiff⟩ :=
      ih hb₁ hinit₁ fun s hs => hseqs s (List.mem_cons_of_mem _ hs)
    refine ⟨b', call :: calls, ?_, ?_, hb', hinit', ?_⟩
    · rw [List.map_cons, playAll, hplay]
      dsimp only [bind, Except.bind]
      rw [hrest]
      rfl
    · rw [List.length_cons, List.length_cons, hlength]
    · rw [hiff, forall_split_cons (P := fun seq len => seq + len ≤ first + 1), ← and_assoc,
        List.length_cons]
      refine and_congr_left fun _ => ?_
      omega

variable (sent first) in
theorem playAll_before (hseqs : ∀ seq ∈ before, seq ≤ seqMax) (hfirst : first < seqMax) :
    ∃ b calls, playAll .new (before.map fun s => (s, sent s)) = .ok (b, calls) ∧
      calls.length = before.length ∧ Steady sent b ∧
      ((b.initialized = true → b.headSeq ≤ first) ↔ KeepsUp before first) := by
  have hnew : Steady sent .new := by
    refine ⟨sound_new le_rfl, fun h => absurd h Bool.false_ne_true, fun n packet h => ?_⟩
    simp [JitterBuffer.new, held_mk] at h
  cases before with
  | nil =>
    refine ⟨.new, [], rfl, rfl, hnew, ⟨fun _ => ⟨fun seq h => (by cases h), ?_⟩, fun _ h => ?_⟩⟩
    · intro a seq c h
      simp at h
    · cases h
  | cons seq before =>
    have hseq := hseqs seq List.mem_cons_self
    obtain ⟨b₁, call, hplay, hb₁, hinit₁, hhead, -⟩ :=
      play_on_time hnew hseq fun h => absurd h Bool.false_ne_true
    obtain ⟨b', calls, hrest, hlength, hb', hinit', hiff⟩ :=
      playAll_initialized hb₁ hinit₁ (fun s hs => hseqs s (List.mem_cons_of_mem _ hs)) hfirst
    refine ⟨b', call :: calls, ?_, ?_, hb', ?_⟩
    · rw [List.map_cons, playAll, hplay]
      dsimp only [bind, Except.bind]
      rw [hrest]
      rfl
    · rw [List.length_cons, List.length_cons, hlength]
    · have hfor : headFor .new seq = seq := rfl
      rw [hfor] at hhead
      rw [KeepsUp, forall_split_cons (P := fun seq len => seq + len ≤ first + 1)]
      simp only [hinit', true_imp_iff, List.head?_cons, Option.mem_some_iff, forall_eq', hiff,
        List.length_cons, ← and_assoc]
      refine and_congr_left fun _ => ?_
      omega

/-! ## The frames after -/

variable (first count) in
/-- Frames that come one after another are heard one after another, at most two late. -/
theorem playAll_on_time (hb : Steady sent b) (hle : b.initialized = true → b.headSeq ≤ s)
    (hlag : headFor b s + lag = s) (hheld : ∀ m, first ≤ m → headFor b s ≤ m → m < s →
      b.held m = some (sent m)) (hend : s + count ≤ seqMax) : ∃ b' calls,
      playAll b ((List.range' s count).map fun s => (s, sent s)) = .ok (b', calls) ∧
      ∀ k < count, first + lag ≤ s + k → calls[k]? = some (.decode (sent (s + k - lag))) := by
  induction count generalizing b s with
  | zero => exact ⟨b, [], rfl, fun k hk => absurd hk (Nat.not_lt_zero k)⟩
  | succ count ih =>
    have hdepth : jitterDepth = 3 := rfl
    obtain ⟨b₁, call, hplay, hb₁, hinit₁, hhead, hcall, hview⟩ := play_on_time hb (by omega) hle
    have hroom : s + 1 - jitterDepth ≤ headFor b s := by
      rw [headFor]
      split_ifs <;> omega
    have hhead₁ : b₁.headSeq = headFor b s + 1 := by omega
    have hfor : headFor b₁ (s + 1) = headFor b s + 1 := by
      rw [headFor_of_initialized hinit₁]
      omega
    obtain ⟨b', calls, hrest, hcalls⟩ := ih (b := b₁) (s := s + 1) hb₁ (fun _ => by omega)
      (by omega) (fun m hm hge hlt => by
        rw [hfor] at hge
        rw [hview m hge]
        by_cases hsame : m = s
        · rw [if_pos hsame, hsame]
        · rw [if_neg hsame]
          exact hheld m hm (by omega) (by omega)) (by omega)
    refine ⟨b', call :: calls, ?_, fun k hk hge => ?_⟩
    · rw [List.range'_succ, List.map_cons, playAll, hplay]
      dsimp only [bind, Except.bind]
      rw [hrest]
      rfl
    · cases k with
      | zero =>
        have hslot : (if headFor b s = s then some (sent s) else b.held (headFor b s)) =
            some (sent (s - lag)) := by
          have hback : s - lag = headFor b s := by omega
          rw [hback]
          by_cases hsame : headFor b s = s
          · rw [if_pos hsame, hsame]
          · rw [if_neg hsame]
            exact hheld _ (by omega) le_rfl (by omega)
        rw [List.getElem?_cons_zero, hcall, hslot]
        rfl
      | succ k =>
        rw [List.getElem?_cons_succ, hcalls k (by omega) (by omega)]
        have hnumber : s + 1 + k - lag = s + (k + 1) - lag := by omega
        rw [hnumber]

variable (count) in
/-- Once the window is ahead, no later frame is heard. So many slots were taken since it was
full. -/
theorem playAll_late (taken : ℕ) (hb : Steady sent b) (hinit : b.initialized = true)
    (hlt : 0 < count → s < b.headSeq)
    (hfading : ∀ m, b.held m ≠ none → m + taken < b.headSeq + jitterDepth)
    (hend : s + count ≤ seqMax) : ∃ b' calls,
      playAll b ((List.range' s count).map fun s => (s, sent s)) = .ok (b', calls) ∧
      ∀ k < count, jitterDepth ≤ taken + k → calls[k]? = some .decodePlc := by
  induction count generalizing b s taken with
  | zero => exact ⟨b, [], rfl, fun k hk => absurd hk (Nat.not_lt_zero k)⟩
  | succ count ih =>
    have hahead := hlt (Nat.succ_pos count)
    obtain ⟨b₁, hplay, hb₁, hinit₁, hhead, hheld⟩ := play_late hb (by omega) hinit hahead
    have hle := hb.sound.headSeq
    have hfading₁ (m : ℕ) (hm : b₁.held m ≠ none) :
        m + (taken + 1) < b₁.headSeq + jitterDepth := by
      rw [hheld] at hm
      split_ifs at hm with hsame
      · exact absurd rfl hm
      · obtain ⟨packet, hpacket⟩ := Option.ne_none_iff_exists'.mp hm
        have hge := headSeq_le_of_held hpacket
        have hbelow := hb.sound.below m packet hpacket
        have hold := hfading m hm
        omega
    obtain ⟨b', calls, hrest, hcalls⟩ :=
      ih (b := b₁) (s := s + 1) (taken + 1) hb₁ hinit₁ (fun hmore => by omega) hfading₁ (by omega)
    refine ⟨b', callFor (b.held b.headSeq) :: calls, ?_, fun k hk hge => ?_⟩
    · rw [List.range'_succ, List.map_cons, playAll, hplay]
      dsimp only [bind, Except.bind]
      rw [hrest]
      rfl
    · cases k with
      | zero =>
        have hnone : b.held b.headSeq = none := by
          by_contra hsome
          have hlast := hfading _ hsome
          omega
        rw [List.getElem?_cons_zero, hnone]
        rfl
      | succ k =>
        rw [List.getElem?_cons_succ]
        exact hcalls k (by omega) (by omega)

theorem recovers_of_on_time {calls later : List DecoderCall} {skip : ℕ}
    (hskip : calls.length = skip) (hlag : lag < jitterDepth)
    (h : ∀ k < count, first + lag ≤ first + k →
      later[k]? = some (.decode (sent (first + k - lag)))) :
    Recovers sent (calls ++ later) skip first count := by
  refine ⟨lag, hlag.le, fun k hk hlt => ?_⟩
  rw [← hskip, List.getElem?_append_right (Nat.le_add_right _ _), Nat.add_sub_cancel_left]
  exact h k hlt (by omega)

/-- The decoder gets the later frames one after another again exactly if the sender has kept up
with the frames that arrived before; else it gets none of them. -/
theorem voice_recovers (harrive : Arrive openMediaFrame sent ds (before ++ List.range' first count))
    (hend : first + count ≤ seqMax) : ∃ r calls,
      run openMediaFrame new ds = .ok (r, calls) ∧
      (Recovers sent calls before.length first count ↔
        KeepsUp before first ∨ count ≤ jitterDepth) ∧
      (¬KeepsUp before first → ∀ k < count, jitterDepth ≤ k →
        calls[before.length + k]? = some .decodePlc) := by
  obtain ⟨reassembler, hframes⟩ := harrive
  have hseqs (s : ℕ) (hs : s ∈ before) : s ≤ seqMax := by
    obtain ⟨_, _, hsame, hbound⟩ :=
      framesOf_total (Reassembler.sound_withCapacity 4) openMediaFrame ds
    obtain ⟨-, rfl⟩ := Prod.mk.inj (Except.ok.inj (hframes.symm.trans hsame))
    exact hbound (s, sent s) (List.mem_map_of_mem (List.mem_append_left _ hs))
  rw [List.map_append] at hframes
  have hrun {b b' : JitterBuffer} {calls later : List DecoderCall}
      (hbefore : playAll .new (before.map fun s => (s, sent s)) = .ok (b, calls))
      (hafter : playAll b ((List.range' first count).map fun s => (s, sent s)) = .ok (b', later)) :
      run openMediaFrame new ds = .ok (⟨reassembler, b'⟩, calls ++ later) :=
    run_of_framesOf hframes (playAll_append hbefore hafter)
  by_cases hnone : count = 0
  · obtain ⟨b, calls, hbefore, -⟩ := playAll_before sent 0 hseqs (by decide)
    subst hnone
    refine ⟨_, _, hrun hbefore rfl, ⟨fun _ => .inr (Nat.zero_le _), fun _ => ?_⟩,
      fun _ k hk => absurd hk (Nat.not_lt_zero k)⟩
    exact ⟨0, Nat.zero_le _, fun k _ hk => absurd hk (Nat.not_lt_zero k)⟩
  obtain ⟨b, calls, hbefore, hlength, hb, hiff⟩ :=
    playAll_before sent first hseqs (by omega)
  by_cases hkeeps : KeepsUp before first
  · have hle := hiff.mpr hkeeps
    have hdepth : jitterDepth = 3 := rfl
    have hfor : headFor b first ≤ first ∧ first < headFor b first + jitterDepth := by
      rw [headFor]
      split_ifs with hinit
      · have hle := hle hinit
        omega
      · omega
    obtain ⟨b', later, hafter, hlater⟩ := playAll_on_time first count hb hle
      (Nat.add_sub_cancel' hfor.1) (fun m hm _ hlt => absurd hm (Nat.not_le_of_lt hlt)) hend
    refine ⟨_, _, hrun hbefore hafter, ⟨fun _ => .inl hkeeps, fun _ => ?_⟩,
      fun hnot => absurd hkeeps hnot⟩
    exact recovers_of_on_time hlength (by omega) hlater
  · obtain ⟨hinit, hahead⟩ : b.initialized = true ∧ first < b.headSeq := by
      by_contra hnot
      refine hkeeps (hiff.mp fun hinit => ?_)
      by_contra hlt
      exact hnot ⟨hinit, Nat.lt_of_not_le hlt⟩
    obtain ⟨b', later, hafter, hlater⟩ := playAll_late count 0 hb hinit (fun _ => hahead)
      (fun m hm => by
        obtain ⟨packet, hpacket⟩ := Option.ne_none_iff_exists'.mp hm
        exact hb.sound.lt_of_held hpacket) hend
    have hplc (k : ℕ) (hk : k < count) (hge : jitterDepth ≤ k) :
        (calls ++ later)[before.length + k]? = some .decodePlc := by
      rw [← hlength, List.getElem?_append_right (Nat.le_add_right _ _), Nat.add_sub_cancel_left]
      exact hlater k hk (by omega)
    refine ⟨_, _, hrun hbefore hafter, ⟨?_, ?_⟩, fun _ => hplc⟩
    · rintro ⟨lag, -, hdecode⟩
      by_contra hlong
      have hlt : jitterDepth < count := by
        by_contra hle
        exact hlong (.inr (Nat.le_of_not_lt hle))
      have hsame := (hdecode jitterDepth le_rfl hlt).symm.trans (hplc jitterDepth hlt le_rfl)
      exact absurd (Option.some.inj hsame) (fun h => nomatch h)
    · rintro (hkeeps' | hshort)
      · exact absurd hkeeps' hkeeps
      · exact ⟨0, Nat.zero_le _, fun k hk hlt => by omega⟩

def sampleCipher : FrameCipher := fun _ _ _ ciphertext =>
  if ciphertext.getLast? = some 0x16 ∧ 33 ≤ ciphertext.length then
    some (ciphertext.take 32, (ciphertext.drop 32).dropLast)
  else none

def sampleSent (s : ℕ) : Packet := [.ofNat s, 7]

def sampleDatagram (s : ℕ) : Datagram where
  bytes := write ⟨.audio, List.replicate 16 0x22, s, 0, 1⟩ ++
    ([mediaFrameVersion, mediaFrameTypeAudio, 0, 0] ++ Bytes.toBigEndian 8 s ++
      List.replicate 16 0x22 ++ (List.replicate 32 0xCC ++ sampleSent s ++ [0x16]))
  deafened := false

/-- One frame is lost and the later ones come: they are heard one turn late. -/
theorem voice_recovers_lost :
    (∃ r, run sampleCipher new ([0, 2, 3, 4, 5, 6].map sampleDatagram) = .ok (r,
      [.decode (sampleSent 0), .decodePlc, .decode (sampleSent 2), .decode (sampleSent 3),
        .decode (sampleSent 4), .decode (sampleSent 5)])) ∧
    ∃ r calls, run sampleCipher new ([0, 2, 3, 4, 5, 6].map sampleDatagram) = .ok (r, calls) ∧
      (Recovers sampleSent calls [0, 2].length 3 4 ↔ KeepsUp [0, 2] 3 ∨ 4 ≤ jitterDepth) ∧
      (¬KeepsUp [0, 2] 3 → ∀ k < 4, jitterDepth ≤ k →
        calls[[0, 2].length + k]? = some .decodePlc) :=
  ⟨⟨_, rfl⟩, voice_recovers ⟨_, rfl⟩ (by decide)⟩

/-- The first frame comes twice, and nothing that follows is heard. -/
theorem voice_lost_after_duplicate : ¬∀ (openMediaFrame : FrameCipher) (sent : ℕ → Packet)
    (ds : List Datagram) (before : List ℕ) (first count : ℕ),
    Arrive openMediaFrame sent ds (before ++ List.range' first count) → first + count ≤ seqMax →
      ∃ r calls, run openMediaFrame new ds = .ok (r, calls) ∧
        Recovers sent calls before.length first count := by
  intro h
  obtain ⟨r, calls, hrun, lag, -, hcalls⟩ := h sampleCipher sampleSent
    ([0, 0, 1, 2, 3, 4].map sampleDatagram) [0, 0] 1 4 ⟨_, rfl⟩ (by decide)
  have hheard : ∃ r, run sampleCipher new ([0, 0, 1, 2, 3, 4].map sampleDatagram) = .ok (r,
      [.decode (sampleSent 0), .decodePlc, .decodePlc, .decodePlc, .decodePlc, .decodePlc]) :=
    ⟨_, rfl⟩
  obtain ⟨r', hheard⟩ := hheard
  obtain ⟨-, rfl⟩ := Prod.mk.inj (Except.ok.inj (hrun.symm.trans hheard))
  have hlast := hcalls 3 (by decide) (by decide)
  exact absurd (Option.some.inj hlast) (fun h => nomatch h)

end Receiver
end Media
