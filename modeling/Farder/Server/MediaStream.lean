import Mathlib.Data.Finset.Basic
import Farder.Server.Answer
import Farder.Support.Bytes

/-! # Media streams

The registry of media sessions: who streams into which channel, and to whom a datagram is
forwarded. A datagram is routed by its outer header alone; whether the bandwidth of its track
admits it is decided outside. -/
namespace Server

open EventLog Bytes

inductive TrackKind where
  | audio
  | video
  | screenAudio
  deriving DecidableEq

abbrev SessionId := List UInt8

structure OuterHeader where
  trackKind : TrackKind
  sessionId : SessionId
  frameId : ℕ
  fragIndex : ℕ
  fragCount : ℕ
  deriving DecidableEq

def mediaDgramVersion : UInt8 := 0x03
def mediaDgramHeaderLen : ℕ := 26

def byteToTrackKind (b : UInt8) : Option TrackKind :=
  if b = 0x01 then some .audio
  else if b = 0x02 then some .video
  else if b = 0x03 then some .screenAudio
  else none

/-- `OuterHeader::parse`; all its errors are one to the caller. -/
def OuterHeader.parse (buf : List UInt8) : Option OuterHeader :=
  if buf.length < mediaDgramHeaderLen then none
  else if buf[0]? ≠ some mediaDgramVersion then none
  else do
    let trackKind ← buf[1]? >>= byteToTrackKind
    let field := fun start len => (buf.drop start).take len
    let fragIndex := ofBigEndian (field 22 2)
    let fragCount := ofBigEndian (field 24 2)
    if fragCount = 0 ∨ fragIndex ≥ fragCount then none
    else some ⟨trackKind, field 2 16, ofBigEndian (field 18 4), fragIndex, fragCount⟩

structure ServerSession where
  connectionPk : PublicKey
  channelId : ℕ
  publicKey : PublicKey
  displayName : String
  activeTracks : Finset TrackKind
  lastFrameMs : TrackKind → Option ℕ

/-- The sessions of one channel, each id once, those that hear nothing and those that are
muted. -/
structure StreamState where
  sessions : List (SessionId × ServerSession)
  deafened : Finset SessionId
  muted : Finset SessionId

/-- The registry: the state of every channel that anybody has streamed into. -/
abbrev MediaStateMap := List (ℕ × StreamState)

inductive DropReason where
  | unknownSession
  | sessionConnectionMismatch
  | trackNotEnabled
  | bandwidthCap
  | parseError
  deriving DecidableEq

inductive IngressDecision where
  | forward (recipients : List SessionId)
  | drop (reason : DropReason)
  deriving DecidableEq

namespace StreamState

def empty : StreamState := ⟨[], ∅, ∅⟩

variable (st : StreamState) (pk : PublicKey)

def session (sid : SessionId) : Option ServerSession :=
  (st.sessions.find? fun x => x.1 = sid).map Prod.snd

/-- Rewrite the sessions that a condition picks. -/
def modify (p : SessionId × ServerSession → Prop) [DecidablePred p]
    (f : ServerSession → ServerSession) : StreamState :=
  { st with sessions := st.sessions.map fun x => if p x then (x.1, f x.2) else x }

def sessionsOf : List SessionId :=
  (st.sessions.filter fun x => x.2.connectionPk = pk).map Prod.fst

/-- `media_stream::on_frame_ingress`. -/
def onFrameIngress (raw : List UInt8) (nowMs : ℕ) (admitted : Bool) :
    StreamState × IngressDecision :=
  match OuterHeader.parse raw with
  | none => (st, .drop .parseError)
  | some header =>
    match st.session header.sessionId with
    | none => (st, .drop .unknownSession)
    | some session =>
      if session.connectionPk ≠ pk then (st, .drop .sessionConnectionMismatch)
      else if header.trackKind ∉ session.activeTracks then (st, .drop .trackNotEnabled)
      else if admitted = false then (st, .drop .bandwidthCap)
      else
        let noted := st.modify (fun x => x.1 = header.sessionId) fun session => { session with
          lastFrameMs := Function.update session.lastFrameMs header.trackKind (some nowMs) }
        (noted, .forward ((noted.sessions.filter fun x => x.1 ≠ header.sessionId ∧
          x.2.channelId = session.channelId ∧ x.1 ∉ noted.deafened).map Prod.fst))

/-! ## Requests, in one channel -/

def join (channelId : ℕ) (sessionId : SessionId) (displayName : String) : StreamState :=
  { st with sessions := st.sessions ++
      [(sessionId, ⟨pk, channelId, pk, displayName, ∅, fun _ => none⟩)] }

def leave : StreamState where
  sessions := st.sessions.filter fun x => x.2.connectionPk ≠ pk
  deafened := st.deafened \ (st.sessionsOf pk).toFinset
  muted := st.muted \ (st.sessionsOf pk).toFinset

/-- `EnableTrack` and `DisableTrack`. -/
def setTrack (kind : TrackKind) (enabled : Bool) : StreamState :=
  st.modify (fun x => x.2.connectionPk = pk) fun session => { session with
    activeTracks :=
      if enabled then insert kind session.activeTracks else session.activeTracks.erase kind }

def setDeafen (deafened : Bool) : StreamState :=
  { st with deafened :=
      if deafened then st.deafened ∪ (st.sessionsOf pk).toFinset
      else st.deafened \ (st.sessionsOf pk).toFinset }

def setMute (muted : Bool) : StreamState :=
  { st with muted :=
      if muted then st.muted ∪ (st.sessionsOf pk).toFinset
      else st.muted \ (st.sessionsOf pk).toFinset }

end StreamState

namespace MediaStateMap

variable (media : MediaStateMap)

/-- The state of a channel, empty where nobody has streamed. -/
def channel (channelId : ℕ) : StreamState :=
  ((media.find? fun x => x.1 = channelId).map Prod.snd).getD .empty

/-- Write the state of a channel. -/
def set (channelId : ℕ) (st : StreamState) : MediaStateMap :=
  if media.any fun x => x.1 = channelId then
    media.map fun x => if x.1 = channelId then (x.1, st) else x
  else media ++ [(channelId, st)]

/-- A write to every channel. -/
def update (f : StreamState → StreamState) : MediaStateMap := media.map fun x => (x.1, f x.2)

def channelOf (sid : SessionId) : Option ℕ :=
  (media.find? fun x => (x.2.session sid).isSome).map Prod.fst

def sessionsOf (pk : PublicKey) : List (ℕ × SessionId) :=
  media.flatMap fun x => (x.2.sessionsOf pk).map fun sid => (x.1, sid)

end MediaStateMap

end Server
