import Farder.Server.Hub

/-! # Mute and deafen

The voice controller of a client: the flags that the audio threads read, the state that the user
interface is shown, and the mute choice that a deafening puts aside. Each of its calls tells the
server, where a call is in progress. -/
namespace Voice

open EventLog Server

/-- What the user interface is shown. -/
structure VoiceState where
  channelId : Option ℕ
  muted : Bool
  deafened : Bool
  deriving DecidableEq

structure ActiveCall where
  mySessionId : SessionId
  channelId : ℕ
  deriving DecidableEq

structure Inner where
  state : VoiceState
  active : Option ActiveCall
  muted : Bool
  deafened : Bool
  preDeafenMuted : Bool
  deriving DecidableEq

namespace Inner

/-- A controller that has just been made, and one that has left. -/
def idle : Inner := ⟨⟨none, false, false⟩, none, false, false, false⟩

variable (v : Inner)

def join (channelId : ℕ) (sessionId : SessionId) : Inner :=
  { v with
    state := { v.state with channelId := some channelId }
    active := some ⟨sessionId, channelId⟩ }

def setMute (muted : Bool) : Inner := { v with muted, state := { v.state with muted } }

def setDeafen (deafened : Bool) : Inner :=
  if deafened then
    { v with
      preDeafenMuted := v.muted
      muted := true
      deafened := true
      state := { v.state with muted := true, deafened } }
  else
    { v with
      muted := v.preDeafenMuted
      deafened := false
      state := { v.state with muted := v.preDeafenMuted, deafened } }

end Inner

/-- What a peer knows of the sessions: muted and deafened. -/
abbrev PeerStatus := SessionId → Option (Bool × Bool)

def hear (status : PeerStatus) : Duty → PeerStatus
  | .announce ⟨_, .streamJoined _ _ _ sessionId⟩ =>
    Function.update status sessionId (some (false, false))
  | .announce ⟨_, .streamStateChanged _ sessionId muted deafened⟩ =>
    Function.update status sessionId (some (muted, deafened))
  | .announce ⟨_, .streamLeft _ sessionId⟩ => Function.update status sessionId none
  | _ => status

/-- A client, its server, and what peers have been told. What else is kept is there for the
statements: the session ids that have been drawn, the mute choice at the last deafening out of
hearing, and whether the client has been deafened again since. -/
structure Scene where
  client : Inner
  hub : Hub
  told : PeerStatus
  drawn : Finset SessionId
  choice : Bool
  again : Bool

inductive VoiceOp where
  | join (channelId : ℕ) (sessionId : SessionId)
  | leave
  | setMute (muted : Bool)
  | setDeafen (deafened : Bool)
  | other (member : PublicKey) (isOwner : Bool) (request : SessionRequest)

namespace Scene

def start (host : Host) : Scene := ⟨.idle, .start host, fun _ => none, ∅, false, false⟩

variable (own : PublicKey) (isOwner : Bool) (s : Scene)

def drawnId : SessionRequest → Finset SessionId
  | .joinStream _ sessionId => {sessionId}
  | _ => ∅

def request (member : PublicKey) (isOwner : Bool) (request : SessionRequest) : Scene :=
  let x := s.hub.handleStream member isOwner request
  { s with
    hub := x.1
    told := x.2.foldl hear s.told
    drawn := s.drawn ∪ drawnId request }

def inCall (request : SessionRequest) : Scene :=
  if s.client.active.isSome then s.request own isOwner request else s

def leave : Scene :=
  { (s.inCall own isOwner (.setTrack .audio false)).inCall own isOwner .leaveStream with
    client := .idle
    choice := false
    again := false }

def next : VoiceOp → Scene
  | .join channelId sessionId =>
    let left := if s.client.active.isSome then s.leave own isOwner else s
    { (left.request own isOwner (.joinStream channelId sessionId)).request own isOwner
        (.setTrack .audio true) with
      client := left.client.join channelId sessionId }
  | .leave => s.leave own isOwner
  | .setMute muted =>
    { s.inCall own isOwner (.setMute muted) with client := s.client.setMute muted }
  | .setDeafen deafened =>
    { s.inCall own isOwner (.setDeafen deafened) with
      client := s.client.setDeafen deafened
      choice := if deafened ∧ s.client.deafened = false then s.client.muted else s.choice
      again := deafened ∧ s.client.deafened }
  | .other member isOwner request => s.request member isOwner request

/-- Session ids are random and new, and the others are other members. -/
def Enabled : VoiceOp → Prop
  | .join _ sessionId => sessionId ∉ s.drawn
  | .other member _ request => member ≠ own ∧ Disjoint (drawnId request) s.drawn
  | _ => True

def Step (s : Scene) (op : VoiceOp) (s' : Scene) : Prop :=
  s.Enabled own op ∧ s' = s.next own isOwner op

abbrev Run (host : Host) (tr : List (Transition Scene VoiceOp)) (s : Scene) : Prop :=
  Execution (Step own isOwner) (start host) tr s

end Scene

end Voice
