import Farder.Server.HostFrame
import Farder.Server.StoreOps

/-! # The voice roster

Who is in which voice channel: a table that is written by the requests to join and to leave, next
to the connections of the members. A client fetches the list of a channel, and follows the
announcements. -/
namespace Server

open EventLog Guarded Permissions

structure VoiceRow where
  channelId : ℕ
  member : PublicKey
  joinedAt : ℕ
  deriving DecidableEq

inductive MediaEvent where
  | mediaJoined (channelId : ℕ) (member : PublicKey) (displayName : String)
  | mediaLeft (channelId : ℕ) (member : PublicKey)
  | streamCallEnded (channelId : ℕ)
  deriving DecidableEq

structure MediaBroadcast where
  target : EventTarget
  event : MediaEvent
  deriving DecidableEq

structure VoiceMember where
  member : PublicKey
  displayName : String
  joinedAt : ℕ
  deriving DecidableEq

/-- A server with its roster. A connection belongs to a member, and knows whether that is the
owner; the entry of a member in `clients` is its newest connection. -/
structure Lobby where
  host : Host
  voiceState : List VoiceRow
  connections : FiniteMap ℕ (PublicKey × Bool)
  clients : FiniteMap PublicKey ℕ

section

variable (rows : List VoiceRow) (channelId : ℕ) (member : PublicKey)

/-- `leave_all_voice`, with the channels that the member was in. -/
def leaveAllVoice : List VoiceRow × List ℕ :=
  (rows.filter fun row => row.member ≠ member,
    (rows.filter fun row => row.member = member).map VoiceRow.channelId)

def joinVoice (now : ℕ) : List VoiceRow :=
  (leaveAllVoice rows member).1 ++ [⟨channelId, member, now⟩]

def leaveVoice : List VoiceRow :=
  rows.filter fun row => ¬(row.channelId = channelId ∧ row.member = member)

def getVoiceParticipants : List VoiceRow :=
  (rows.filter fun row => row.channelId = channelId).insertionSort
    fun row row' => row.joinedAt ≤ row'.joinedAt

end

namespace Lobby

variable (K : Crypto) (lobby : Lobby) (moment : Moment)

/-- What a member who wants to join is asked for. It need not see the channel. -/
def checkJoin (member : PublicKey) (isOwner : Bool) (channelId : ℕ) : Checked Unit := do
  lobby.host.requireNotTimedOut member moment.nowMs
  let channel ← context (lobby.host.db.getChannel channelId) "channel not found"
  ensure (channel.channelType = .voice) "not a voice channel"
  lobby.host.requirePerm member isOwner channelId connect "CONNECT"

def displayName (member : PublicKey) : String :=
  ((lobby.host.community.getMember member).map MemberRow.displayName).getD ""

def expireTimeout (member : PublicKey) : Lobby :=
  { lobby with host := lobby.host.expireTimeout member moment.nowMs }

def joinChannelMedia (member : PublicKey) (isOwner : Bool) (channelId : ℕ) :
    Lobby × Checked (List MediaBroadcast) :=
  let lobby := lobby.expireTimeout moment member
  match lobby.checkJoin moment member isOwner channelId with
  | .error failure => (lobby, .error failure)
  | .ok _ =>
    let left := (leaveAllVoice lobby.voiceState member).2.map fun id =>
      (⟨.all, .mediaLeft id member⟩ : MediaBroadcast)
    ({ lobby with voiceState := joinVoice lobby.voiceState channelId member moment.now },
      .ok (left ++ [⟨.all, .mediaJoined channelId member (lobby.displayName member)⟩]))

/-- Leaving a channel that one is not in is answered and announced too. The last one in a direct
message ends the call of the other. -/
def leaveChannelMedia (member : PublicKey) (channelId : ℕ) :
    Lobby × Checked (List MediaBroadcast) :=
  let rows := leaveVoice lobby.voiceState channelId member
  let ended := (lobby.host.db.getChannel channelId).any fun ch =>
    ch.channelType = .dm ∧ getVoiceParticipants rows channelId = []
  let partner := ((lobby.host.listDmChannels member).find? fun x => x.1.id = channelId).map Prod.snd
  ({ lobby with voiceState := rows },
    .ok (⟨.all, .mediaLeft channelId member⟩ ::
      (if ended then partner.toList.map fun other => ⟨.members [other], .streamCallEnded channelId⟩
        else [])))

def getMediaState (channelId : ℕ) : List VoiceMember :=
  (getVoiceParticipants lobby.voiceState channelId).map fun row =>
    ⟨row.member, lobby.displayName row.member, row.joinedAt⟩

/-- The end of a connection, as far as it touches what is modelled here: nothing is done about the
roster. -/
def cleanupSession (connection : ℕ) (member : PublicKey) : Lobby :=
  let closed : Lobby := { lobby with connections := lobby.connections.erase connection }
  if lobby.clients.lookup member = some connection then
    { closed with
      clients := lobby.clients.erase member
      host := { lobby.host with clientProtocol := lobby.host.clientProtocol.erase member } }
  else closed

def enter (connection : ℕ) (member : PublicKey) : Lobby :=
  { lobby with
    connections := lobby.connections.insert connection (member, lobby.host.owner = some member)
    clients := lobby.clients.insert member connection }

/-- A server that starts again has its tables, and no connections. -/
def restart : Lobby :=
  let started := match lobby.host.performStore K moment .reconcile with
    | .ok host => host
    | .error _ => lobby.host
  { lobby with
    host := { started with clientProtocol := ∅, running := [] }
    connections := ∅
    clients := ∅ }

end Lobby

/-- What happens to a server with a roster. Whatever else a member asks for is among the operations
of a host. -/
inductive LobbyOp where
  | connect (connection : ℕ) (member : PublicKey) (displayName : String)
      (credentials : Credentials) (genesis : Genesis)
  | disconnect (connection : ℕ)
  | joinChannelMedia (connection channelId : ℕ)
  | leaveChannelMedia (connection channelId : ℕ)
  | other (op : HostOp)
  | restart

namespace Lobby

variable (K : Crypto) (lobby : Lobby) (moment : Moment)

/-- A request comes on a connection, and from a member that the content gate lets pass. -/
def onConnection (connection : ℕ)
    (handle : PublicKey → Bool → Lobby × Checked (List MediaBroadcast)) :
    Lobby × Checked (List MediaBroadcast) :=
  match lobby.connections.lookup connection with
  | none => (lobby, .error (.rejected "no connection"))
  | some (member, isOwner) =>
    match lobby.host.contentBlockReason member with
    | some reason => (lobby, .error (.rejected reason))
    | none => handle member isOwner

def perform (op : LobbyOp) : Lobby × Checked (List MediaBroadcast) :=
  match op with
  | .connect connection member displayName credentials genesis =>
    match lobby.connections.lookup connection with
    | some _ => (lobby, .error (.rejected "connection in use"))
    | none =>
      let (host, answer) := lobby.host.handshake K member moment displayName credentials genesis
      match answer with
      | .ok _ => ({ lobby with host }.enter connection member, .ok [])
      | .error failure => ({ lobby with host }, .error failure)
  | .disconnect connection =>
    match lobby.connections.lookup connection with
    | none => (lobby, .ok [])
    | some (member, _) => (lobby.cleanupSession connection member, .ok [])
  | .joinChannelMedia connection channelId =>
    lobby.onConnection connection fun member isOwner =>
      lobby.joinChannelMedia moment member isOwner channelId
  | .leaveChannelMedia connection channelId =>
    lobby.onConnection connection fun member _ => lobby.leaveChannelMedia member channelId
  | .other op => ({ lobby with host := (lobby.host.perform K moment op).1 }, .ok [])
  | .restart => (lobby.restart K moment, .ok [])

def announced (e : Moment × LobbyOp) : List MediaEvent :=
  match (lobby.perform K e.1 e.2).2 with
  | .ok broadcasts => (broadcasts.filter fun b => b.target = .all).map MediaBroadcast.event
  | .error _ => []

def firstRun (setup : Setup) : Lobby := ⟨.firstRun setup, [], ∅, ∅⟩

end Lobby

def LobbyStep (K : Crypto) (lobby : Lobby) (e : Moment × LobbyOp) (lobby' : Lobby) : Prop :=
  (lobby.perform K e.1 e.2).1 = lobby'

abbrev LobbyRun (K : Crypto) := Execution (LobbyStep K)

/-- The participants that a client shows, by channel. -/
abbrev VoiceStates := ℕ → List (PublicKey × String)

namespace VoiceStates

variable (states : VoiceStates)

/-- `SET_VOICE_STATE`, with the answer to `GetMediaState`; a member without a name is `Unknown`. -/
def setVoiceState (channelId : ℕ) (participants : List VoiceMember) : VoiceStates :=
  Function.update states channelId <| participants.map fun v =>
    (v.member, if v.displayName = "" then "Unknown" else v.displayName)

/-- `VOICE_JOINED` and `VOICE_LEFT`. The end of a call is not shown. -/
def receive : MediaEvent → VoiceStates
  | .mediaJoined channelId member displayName =>
    if (states channelId).any (fun v => v.1 = member) then states
    else Function.update states channelId (states channelId ++ [(member, displayName)])
  | .mediaLeft channelId member =>
    Function.update states channelId ((states channelId).filter fun v => v.1 ≠ member)
  | .streamCallEnded _ => states

def receiveAll (events : List MediaEvent) : VoiceStates := events.foldl receive states

end VoiceStates

end Server
