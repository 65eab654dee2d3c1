import Farder.Media.Jitter
import Farder.Media.Reassembler

/-! # The receive loop

One task for each peer in a call: a datagram comes, the frame that it completes is opened, its
packet goes into the jitter buffer, and one slot of the buffer goes to the decoder. -/
namespace Media

open Guarded Server Bytes

def mediaFrameVersion : UInt8 := 0x02

def mediaFrameTypeAudio : UInt8 := 0x01

def mediaFrameHeaderLen : ℕ := 28

/-- `open_media_frame` under the key of the stream: from the number, the session, the header and
the ciphertext, the speaker and the payload. -/
abbrev FrameCipher := ℕ → SessionId → List UInt8 → List UInt8 → Option (List UInt8 × Packet)

def openAudioWireFrame (openMediaFrame : FrameCipher) (wire : List UInt8) :
    Option (ℕ × List UInt8 × Packet) :=
  if wire.length < mediaFrameHeaderLen then none
  else if wire[0]?.getD 0 ≠ mediaFrameVersion then none
  else if wire[1]?.getD 0 ≠ mediaFrameTypeAudio then none
  else
    let seq := ofBigEndian ((wire.drop 4).take 8)
    let sessionId := (wire.drop 12).take 16
    (openMediaFrame seq sessionId (wire.take mediaFrameHeaderLen)
      (wire.drop mediaFrameHeaderLen)).map fun opened => (seq, opened)

theorem openAudioWireFrame_le {openMediaFrame : FrameCipher} {wire : List UInt8} {seq : ℕ}
    {opened : List UInt8 × Packet}
    (h : openAudioWireFrame openMediaFrame wire = some (seq, opened)) : seq ≤ seqMax := by
  unfold openAudioWireFrame at h
  split_ifs at h
  obtain ⟨_, -, hsame⟩ := Option.map_eq_some_iff.mp h
  obtain ⟨rfl, -⟩ := Prod.mk.inj hsame
  exact Nat.le_of_lt_succ (ofBigEndian_take_lt _ 8)

inductive DecoderCall where
  | decode (packet : Packet)
  | decodePlc
  deriving DecidableEq

structure Receiver where
  reassembler : Reassembler
  jitter : JitterBuffer

namespace Receiver

def new : Receiver := ⟨.withCapacity 4, .new⟩

/-- What comes over the channel, and whether the user is deafened then. -/
structure Datagram where
  bytes : List UInt8
  deafened : Bool
  deriving DecidableEq

/-- The first half of a turn: the frame that the datagram completes, with its number. -/
def takeFrame (openMediaFrame : FrameCipher) (reassembler : Reassembler) (d : Datagram) :
    Checked (Reassembler × Option (ℕ × Packet)) :=
  if d.deafened then return (reassembler, none)
  else match parse d.bytes with
    | .error _ => return (reassembler, none)
    | .ok (header, payload) => do
      let (reassembler, wire) ← reassembler.accept header payload
      let opened := wire.bind (openAudioWireFrame openMediaFrame)
      return (reassembler, opened.map fun frame => (frame.1, frame.2.2))

/-- A slot that is empty is made up for. -/
def callFor : Option Packet → DecoderCall
  | some packet => .decode packet
  | none => .decodePlc

/-- The second half: the packet goes in, and one slot goes out. -/
def play (jitter : JitterBuffer) (frame : ℕ × Packet) : Checked (JitterBuffer × DecoderCall) := do
  let (jitter, _) ← jitter.insert frame.1 frame.2
  let (jitter, slot) ← jitter.pop
  return (jitter, callFor slot)

/-- A turn of the loop. -/
def receive (openMediaFrame : FrameCipher) (r : Receiver) (d : Datagram) :
    Checked (Receiver × Option DecoderCall) := do
  let (reassembler, frame) ← takeFrame openMediaFrame r.reassembler d
  match frame with
  | none => return ({ r with reassembler }, none)
  | some frame =>
    let (jitter, call) ← play r.jitter frame
    return (⟨reassembler, jitter⟩, some call)

/-- `recv::run`, with the calls of the decoder in their order. -/
def run (openMediaFrame : FrameCipher) (r : Receiver) : List Datagram →
    Checked (Receiver × List DecoderCall)
  | [] => return (r, [])
  | d :: ds => do
    let (r, call) ← receive openMediaFrame r d
    let (r, calls) ← run openMediaFrame r ds
    return (r, call.toList ++ calls)

/-! ## The frames that arrive

What the reassembler and the cipher let through does not depend on the jitter buffer. -/

def framesOf (openMediaFrame : FrameCipher) (reassembler : Reassembler) : List Datagram →
    Checked (Reassembler × List (ℕ × Packet))
  | [] => return (reassembler, [])
  | d :: ds => do
    let (reassembler, frame) ← takeFrame openMediaFrame reassembler d
    let (reassembler, frames) ← framesOf openMediaFrame reassembler ds
    return (reassembler, frame.toList ++ frames)

def playAll (jitter : JitterBuffer) : List (ℕ × Packet) →
    Checked (JitterBuffer × List DecoderCall)
  | [] => return (jitter, [])
  | frame :: frames => do
    let (jitter, call) ← play jitter frame
    let (jitter, calls) ← playAll jitter frames
    return (jitter, call :: calls)

variable {openMediaFrame : FrameCipher} {reassembler reassembler' : Reassembler}
  {jitter jitter' mid : JitterBuffer} {frames later : List (ℕ × Packet)}
  {calls callsLater : List DecoderCall} {ds : List Datagram} {d : Datagram}

theorem playAll_append (hfirst : playAll jitter frames = .ok (mid, calls))
    (hlater : playAll mid later = .ok (jitter', callsLater)) :
    playAll jitter (frames ++ later) = .ok (jitter', calls ++ callsLater) := by
  induction frames generalizing jitter calls with
  | nil =>
    obtain ⟨rfl, rfl⟩ := Prod.mk.inj (Except.ok.inj hfirst)
    exact hlater
  | cons frame frames ih =>
    rw [playAll] at hfirst
    obtain ⟨⟨j, call⟩, hplay, hfirst⟩ := bind_eq_ok.mp hfirst
    obtain ⟨⟨j', rest⟩, hrest, hfirst⟩ := bind_eq_ok.mp hfirst
    obtain ⟨rfl, rfl⟩ := Prod.mk.inj (Except.ok.inj hfirst)
    rw [List.cons_append, playAll, hplay]
    dsimp only [bind, Except.bind]
    rw [ih hrest]
    rfl

theorem run_of_framesOf
    (hframes : framesOf openMediaFrame reassembler ds = .ok (reassembler', frames))
    (hplay : playAll jitter frames = .ok (jitter', calls)) :
    run openMediaFrame ⟨reassembler, jitter⟩ ds = .ok (⟨reassembler', jitter'⟩, calls) := by
  induction ds generalizing reassembler jitter frames calls with
  | nil =>
    obtain ⟨rfl, rfl⟩ := Prod.mk.inj (Except.ok.inj hframes)
    obtain ⟨rfl, rfl⟩ := Prod.mk.inj (Except.ok.inj hplay)
    rfl
  | cons d ds ih =>
    rw [framesOf] at hframes
    obtain ⟨⟨mid, frame⟩, htake, hframes⟩ := bind_eq_ok.mp hframes
    obtain ⟨⟨last, rest⟩, hrest, hframes⟩ := bind_eq_ok.mp hframes
    obtain ⟨rfl, rfl⟩ := Prod.mk.inj (Except.ok.inj hframes)
    rw [run, receive, htake]
    dsimp only [bind, Except.bind]
    cases frame with
    | none =>
      have hlater := ih hrest hplay
      dsimp only [pure, Except.pure]
      rw [hlater]
      rfl
    | some frame =>
      rw [Option.toList_some, List.singleton_append, playAll] at hplay
      obtain ⟨⟨next, call⟩, hfirst, hplay⟩ := bind_eq_ok.mp hplay
      obtain ⟨⟨end', callsLater⟩, hlater, hplay⟩ := bind_eq_ok.mp hplay
      obtain ⟨rfl, rfl⟩ := Prod.mk.inj (Except.ok.inj hplay)
      have hlater := ih hrest hlater
      dsimp only
      rw [hfirst]
      dsimp only [pure, Except.pure]
      rw [hlater]
      rfl

theorem takeFrame_total (hr : Reassembler.Sound reassembler) (openMediaFrame : FrameCipher)
    (d : Datagram) : ∃ reassembler' frame,
      takeFrame openMediaFrame reassembler d = .ok (reassembler', frame) ∧
      Reassembler.Sound reassembler' ∧ ∀ x ∈ frame, x.1 ≤ seqMax := by
  by_cases hdeaf : d.deafened = true
  · exact ⟨reassembler, none, by rw [takeFrame, if_pos hdeaf]; rfl, hr, fun _ h => nomatch h⟩
  rw [takeFrame, if_neg hdeaf]
  cases hparse : parse d.bytes with
  | error e => exact ⟨reassembler, none, rfl, hr, fun _ h => nomatch h⟩
  | ok parsed =>
    obtain ⟨header, payload⟩ := parsed
    obtain ⟨reassembler', wire, haccept, hcases⟩ :=
      Reassembler.accept_total hr (parse_eq_ok hparse).1 payload
    dsimp only
    rw [haccept]
    refine ⟨reassembler', _, rfl, hcases.sound hr, fun x hx => ?_⟩
    obtain ⟨⟨seq, speaker, packet⟩, hopened, rfl⟩ := Option.map_eq_some_iff.mp hx
    obtain ⟨bytes, -, hopened⟩ := Option.bind_eq_some_iff.mp hopened
    exact openAudioWireFrame_le hopened

theorem framesOf_total (hr : Reassembler.Sound reassembler) (openMediaFrame : FrameCipher)
    (ds : List Datagram) : ∃ reassembler' frames,
      framesOf openMediaFrame reassembler ds = .ok (reassembler', frames) ∧
      ∀ x ∈ frames, x.1 ≤ seqMax := by
  induction ds generalizing reassembler with
  | nil => exact ⟨reassembler, [], rfl, fun _ h => nomatch h⟩
  | cons d ds ih =>
    obtain ⟨mid, frame, htake, hmid, hframe⟩ := takeFrame_total hr openMediaFrame d
    obtain ⟨last, frames, hrest, hframes⟩ := ih hmid
    refine ⟨last, frame.toList ++ frames, ?_, fun x hx => ?_⟩
    · rw [framesOf, htake]
      dsimp only [bind, Except.bind]
      rw [hrest]
      rfl
    · rcases List.mem_append.mp hx with hx | hx
      · exact hframe x (Option.mem_toList.mp hx)
      · exact hframes x hx

end Receiver
end Media
