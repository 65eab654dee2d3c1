import Farder.Server.HostRun
import Farder.Server.MediaStream

/-! # Connections

The tasks of a server's connections, and the maps that they share. A task has a list of duties,
each of them one critical section of the source; between two of them anything may happen to the
other tasks and to the server. -/
namespace Server

open EventLog Guarded Permissions

inductive PresenceKind where
  | music
  | game
  | ticker
  deriving DecidableEq

structure Presence where
  kind : PresenceKind
  details : String
  state : Option String
  deriving DecidableEq

/-- Where a member's voice datagrams are sent: over its own connection, or over the relay's,
under the handle that the relay has given to it. -/
inductive VoiceSink where
  | direct (connection : ℕ)
  | relayed (handle : ℕ)
  deriving DecidableEq

/-- The events of requests, and those of connections and streams. -/
inductive Notice where
  | server (event : ServerEvent)
  | memberPresenceUpdated (member : PublicKey) (presence : Option Presence)
  | memberDataDeleted (member : PublicKey)
  | streamJoined (channelId : ℕ) (member : PublicKey) (displayName : String)
      (sessionId : SessionId)
  | streamLeft (channelId : ℕ) (sessionId : SessionId)
  | trackSet (channelId : ℕ) (sessionId : SessionId) (kind : TrackKind) (enabled : Bool)
  | streamStateChanged (channelId : ℕ) (sessionId : SessionId) (muted deafened : Bool)
  deriving DecidableEq

/-- Does a first-version client not know the event? A channel is announced by its class. -/
def ServerEvent.requiresV2 : ServerEvent → Bool
  | .sealedMessage .. => true
  | .sealedMessageEdited .. => true
  | .messageTombstoned .. => true
  | .mlsControlEvent .. => true
  | .reportCreated _ => true
  | .channelCreated channel => channel.row.contentClass = some .e2ee
  | _ => false

/-- `subscriptions::event_changes_access`. -/
def ServerEvent.changesAccess : ServerEvent → Bool
  | .permissionsChanged => true
  | .roleUpdated .. => true
  | .roleDeleted _ => true
  | .channelUpdated _ => true
  | .channelDeleted _ => true
  | .memberLeft _ => true
  | .memberBanned .. => true
  | .membershipChanged _ => true
  | .youWereKicked => true
  | .youWereBanned _ => true
  | _ => false

def Notice.requiresV2 : Notice → Bool
  | .server event => event.requiresV2
  | .memberDataDeleted _ => true
  | _ => false

def Notice.changesAccess : Notice → Bool
  | .server event => event.changesAccess
  | _ => false

/-- An event, and to whom it goes. -/
structure Broadcast where
  target : EventTarget
  notice : Notice
  deriving DecidableEq

def BroadcastEvent.broadcast (b : BroadcastEvent) : Broadcast := ⟨b.target, .server b.event⟩

/-- What a task still has to do. -/
inductive Duty where
  | readOwner (member : PublicKey)
  | register (member : PublicKey)
  | openSession (member : PublicKey)
  | bindVoice (member : PublicKey) (sink : VoiceSink)
  | bindHandle (handle : ℕ) (member : PublicKey)
  | continueCommand (command : RunningCommand)
  | respond
  | announce (b : Broadcast)
  | revalidate (owner : Option PublicKey)
  | deliver (b : Broadcast)
  | cleanupOrphanedFile (fileId : ℕ)
  | insertSubscriptions (member : PublicKey) (channelIds : List ℕ)
  | dropVoice (member : PublicKey)
  | dropHandle (handle : ℕ)
  | endSession
  | dropClient (member : PublicKey)
  | dropSubscriptions (member : PublicKey)
  | dropPresence (member : PublicKey)
  | finish
  deriving DecidableEq

def Duty.command : Duty → Option RunningCommand
  | .continueCommand command => some command
  | _ => none

/-- A connection that has been authenticated, with the handle that a relay has given to it. It
takes events as long as it is served. -/
structure Connection where
  member : PublicKey
  isOwner : Bool
  handle : Option ℕ
  receiving : Bool
  deriving DecidableEq

inductive SessionRequest where
  | server (request : Request)
  | subscribe (channelIds : List ℕ)
  | updatePresence (presence : Option Presence) (limited : Bool)
  | joinStream (channelId : ℕ) (sessionId : SessionId)
  | leaveStream
  | setTrack (kind : TrackKind) (enabled : Bool)
  | setDeafen (deafened : Bool)
  | setMute (muted : Bool)

/-- The state of a server with its connections. -/
structure Hub where
  host : Host
  clients : FiniteMap PublicKey ℕ
  sessions : FiniteMap ℕ (PublicKey × Bool)
  subscriptions : Finset (ℕ × PublicKey)
  presences : FiniteMap PublicKey Presence
  voiceConnections : FiniteMap PublicKey VoiceSink
  relayVoiceHandles : FiniteMap ℕ PublicKey
  media : MediaStateMap
  connections : ℕ → Option Connection
  queues : ℕ → List Notice
  duties : ℕ → List Duty

/-- What happens to a server with connections: tasks run, fail and are started, and everything
else that operates on the server. -/
inductive HubOp where
  | connect (task : ℕ) (moment : Moment) (member : PublicKey) (displayName : String)
      (credentials : Credentials) (genesis : Genesis) (handle : Option ℕ)
  | request (task : ℕ) (moment : Moment) (request : SessionRequest)
  | act (task : ℕ)
  /-- A command of the task makes its next step. -/
  | continueCommand (task : ℕ) (moment : Moment) (outcome : Except String CommandOutcome)
  | fail (task : ℕ)
  | receive (task : ℕ)
  | datagram (source : VoiceSink) (raw : List UInt8) (nowMs : ℕ) (admitted : Bool)
  | background (task : ℕ) (b : Broadcast)
  | other (moment : Moment) (op : HostOp)

/-- How many events the queue of a connection holds. -/
def queueCapacity : ℕ := 64

/-- The end of a session, as `cleanup_session` brings it about. -/
def cleanupSession (member : PublicKey) : List Duty :=
  [.endSession, .dropClient member, .dropSubscriptions member, .dropPresence member,
   .announce ⟨.all, .memberPresenceUpdated member none⟩,
   .announce ⟨.all, .server (.memberLeft member)⟩]

def Connection.teardown (c : Connection) : List Duty :=
  .dropVoice c.member :: (c.handle.toList.map .dropHandle ++ cleanupSession c.member)

/-- What follows an accepted handshake. The handle 0 is the relay's own, and is not served. -/
def enter (task : ℕ) (member : PublicKey) (displayName : String) (handle : Option ℕ) :
    List Duty :=
  [.readOwner member, .register member, .openSession member,
   .announce ⟨.all, .server (.memberJoined member displayName)⟩] ++
  match handle with
  | none => [.bindVoice member (.direct task)]
  | some 0 => cleanupSession member ++ [.finish]
  | some handle => [.bindVoice member (.relayed handle), .bindHandle handle member]

namespace Hub

variable (K : Crypto) (hub : Hub)

/-! ## Who sees a channel, and who gets an event -/

/-- `subscriptions::visible`. -/
def visible (member : PublicKey) (isOwner : Bool) (channelId : ℕ) : Bool :=
  hub.host.contentBlockReason member = none ∧
    ((hub.host.community.getMember member).any fun row =>
      row.banned = false ∧ row.revoked = false) ∧
    hub.host.channelVisible member isOwner channelId

def mayReceive (member : PublicKey) (notice : Notice) : Bool :=
  notice.requiresV2 = false ∨ hub.host.connectionSpeaksV2 member

/-- Is the event for the member? -/
def addressed (target : EventTarget) (member : PublicKey) : Bool :=
  match target with
  | .all => true
  | .subscribers channelId => (channelId, member) ∈ hub.subscriptions
  | .members keys => member ∈ keys
  | .permissionHolders perm =>
    has (hub.host.resolveMemberServerPerms member (hub.host.owner = some member)) perm

/-- The connection that holds the entry of its member, if the event is for the member. -/
def recipient (b : Broadcast) (task : ℕ) : Option Connection :=
  (hub.connections task).filter fun c =>
    hub.clients.lookup c.member = some task ∧ c.receiving = true ∧
      hub.addressed b.target c.member ∧ hub.mayReceive c.member b.notice

/-- An event is put on the queue of each recipient, where there is room. -/
def deliver (b : Broadcast) : Hub :=
  { hub with queues := fun task =>
      if (hub.recipient b task).isSome ∧ (hub.queues task).length < queueCapacity then
        hub.queues task ++ [b.notice]
      else hub.queues task }

/-- The subscriptions that still show what may be seen. -/
def revalidate (owner : Option PublicKey) : Hub :=
  { hub with subscriptions := hub.subscriptions.filter fun x =>
      hub.visible x.2 (owner = some x.2) x.1 }

def setOwnerFlag (task : ℕ) (member : PublicKey) : Hub :=
  { hub with
    connections := Function.update hub.connections task
      ((hub.connections task).map fun c => { c with isOwner := hub.host.owner = some member }) }

/-- `cleanup_session` removes the entry, and the version that was negotiated, only if the entry
is still its own. -/
def dropClient (task : ℕ) (member : PublicKey) : Hub :=
  if hub.clients.lookup member = some task then
    { hub with
      clients := hub.clients.erase member
      host := { hub.host with clientProtocol := hub.host.clientProtocol.erase member } }
  else hub

/-- The duties of a task are set. -/
def assign (task : ℕ) (duties : List Duty) : Hub :=
  { hub with duties := Function.update hub.duties task duties }

/-- The task takes no more events. -/
def close (task : ℕ) : Hub :=
  { hub with
    connections := Function.update hub.connections task
      ((hub.connections task).map fun c => { c with receiving := false }) }

/-- One duty of a task, and what it adds to the others. -/
def carryOut (task : ℕ) : Duty → Hub × List Duty
  | .readOwner member => (hub.setOwnerFlag task member, [])
  | .register member => ({ hub with clients := hub.clients.insert member task }, [])
  | .openSession member =>
    ({ hub with
        sessions := hub.sessions.insert task
          (member, (hub.connections task).any Connection.isOwner) }, [])
  | .bindVoice member sink =>
    ({ hub with voiceConnections := hub.voiceConnections.insert member sink }, [])
  | .bindHandle handle member =>
    ({ hub with relayVoiceHandles := hub.relayVoiceHandles.insert handle member }, [])
  | .continueCommand _ => (hub, [])
  | .respond => (hub, [])
  | .announce b =>
    (hub, if b.notice.changesAccess then [.revalidate hub.host.owner, .deliver b]
      else [.deliver b])
  | .revalidate owner => (hub.revalidate owner, [])
  | .deliver b => (hub.deliver b, [])
  | .cleanupOrphanedFile fileId =>
    ({ hub with host := hub.host.withDb (hub.host.db.cleanupOrphanedFile fileId) }, [])
  | .insertSubscriptions member channelIds =>
    ({ hub with
        subscriptions := (hub.subscriptions.filter fun x => x.2 ≠ member) ∪
          (channelIds.map fun id => (id, member)).toFinset }, [])
  | .dropVoice member =>
    ({ hub with voiceConnections := hub.voiceConnections.erase member }, [])
  | .dropHandle handle =>
    ({ hub with relayVoiceHandles := hub.relayVoiceHandles.erase handle }, [])
  | .endSession => ({ hub with sessions := hub.sessions.erase task }, [])
  | .dropClient member => (hub.dropClient task member, [])
  | .dropSubscriptions member =>
    ({ hub with subscriptions := hub.subscriptions.filter fun x => x.2 ≠ member }, [])
  | .dropPresence member => ({ hub with presences := hub.presences.erase member }, [])
  | .finish => (hub.close task, [])

def announcements (answer : Answer) : List Duty :=
  answer.events.map fun b => .announce b.broadcast

/-- The answer goes out before the events do. A command that has been let in goes on. -/
def afterRequest (member : PublicKey) (isOwner : Bool) (request : Request) (answer : Answer) :
    List Duty :=
  match request with
  | .runCommand channelId trigger =>
    [.continueCommand ⟨member, isOwner, channelId, trigger, .admitted⟩]
  | _ => .respond :: (announcements answer ++ answer.orphans.map .cleanupOrphanedFile)

def afterCommand (step : Checked CommandStep) : List Duty :=
  match step with
  | .ok (.next command) => [.continueCommand command]
  | .ok (.answer answer) => announcements answer ++ [.respond]
  | .error _ => [.respond]

def continueCommand (moment : Moment) (command : RunningCommand)
    (outcome : Except String CommandOutcome) : Hub × List Duty :=
  ({ hub with host := (hub.host.perform K moment (.continueCommand command outcome)).1 },
    afterCommand (hub.host.continueCommand moment command outcome).2)

def setPresence (member : PublicKey) (presence : Option Presence) : Hub :=
  { hub with presences :=
      match presence with
      | some presence => hub.presences.insert member presence
      | none => hub.presences.erase member }

def presenceTooLong (presence : Presence) : Bool :=
  128 < presence.details.length ∨ presence.state.any fun state => 128 < state.length

/-- A request that the gate lets pass, other than one for the handlers of the database. -/
def handleStream (member : PublicKey) (isOwner : Bool) : SessionRequest → Hub × List Duty
  | .server _ => (hub, [])
  | .subscribe channelIds =>
    (hub, [.insertSubscriptions member (channelIds.filter (hub.visible member isOwner)), .respond])
  | .updatePresence presence limited =>
    if limited ∨ presence.any presenceTooLong then (hub, [.respond])
    else (hub.setPresence member presence,
      [.respond, .announce ⟨.all, .memberPresenceUpdated member presence⟩])
  | .joinStream channelId sessionId =>
    let name := ((hub.host.community.getMember member).map MemberRow.displayName).getD ""
    let st := (hub.media.channel channelId).join member channelId sessionId name
    ({ hub with media := hub.media.set channelId st },
      [.respond, .announce ⟨.all, .streamJoined channelId member name sessionId⟩])
  | .leaveStream =>
    ({ hub with media := hub.media.update fun st => st.leave member },
      .respond :: (hub.media.sessionsOf member).map fun x =>
        .announce ⟨.all, .streamLeft x.1 x.2⟩)
  | .setTrack kind enabled =>
    ({ hub with media := hub.media.update fun st => st.setTrack member kind enabled },
      .respond :: (hub.media.sessionsOf member).map fun x =>
        .announce ⟨.all, .trackSet x.1 x.2 kind enabled⟩)
  | .setDeafen deafened =>
    ({ hub with media := hub.media.update fun st => st.setDeafen member deafened },
      .respond :: (hub.media.sessionsOf member).map fun x => .announce
        ⟨.all, .streamStateChanged x.1 x.2 (x.2 ∈ (hub.media.channel x.1).muted) deafened⟩)
  | .setMute muted =>
    ({ hub with media := hub.media.update fun st => st.setMute member muted },
      .respond :: (hub.media.sessionsOf member).map fun x => .announce
        ⟨.all, .streamStateChanged x.1 x.2 muted (x.2 ∈ (hub.media.channel x.1).deafened)⟩)

/-- One request of the main loop, and what the task has to do after it. -/
def handle (member : PublicKey) (isOwner : Bool) (moment : Moment) :
    SessionRequest → Hub × List Duty
  | .server request =>
    let (host, answer) := hub.host.perform K moment (.request member isOwner request)
    ({ hub with host },
      match answer with
      | .ok answer => afterRequest member isOwner request answer
      | .error _ => [.respond])
  | request =>
    match hub.host.contentBlockReason member with
    | some _ => (hub, [.respond])
    | none => hub.handleStream member isOwner request

/-- Whose datagram it is: the connection's, or that of the member that is bound to a handle. -/
def sender : VoiceSink → Option PublicKey
  | .direct task =>
    ((hub.connections task).filter fun c => c.receiving ∧ c.handle = none).map Connection.member
  | .relayed handle => hub.relayVoiceHandles.lookup handle

/-- The registry decides about a datagram in the channel where its session is found. -/
def ingress (pk : PublicKey) (raw : List UInt8) (nowMs : ℕ) (admitted : Bool) :
    Option (ℕ × StreamState × IngressDecision) :=
  (OuterHeader.parse raw).bind fun header =>
    (hub.media.channelOf header.sessionId).map fun channelId =>
      (channelId, (hub.media.channel channelId).onFrameIngress pk raw nowMs admitted)

def processInboundVoiceFrame (pk : PublicKey) (raw : List UInt8) (nowMs : ℕ) (admitted : Bool) :
    Hub :=
  match hub.ingress pk raw nowMs admitted with
  | some (channelId, st, _) => { hub with media := hub.media.set channelId st }
  | none => hub

def Enabled : HubOp → Prop
  | .connect task moment member displayName credentials genesis _ =>
    hub.connections task = none ∧ hub.duties task = [] ∧ hub.queues task = [] ∧
      hub.host.Accepts K (moment, .handshake member displayName credentials genesis)
  | .request task _ request =>
    (hub.connections task).any Connection.receiving = true ∧ hub.duties task = [] ∧
      match request with
      | .joinStream channelId sessionId => (hub.media.channel channelId).session sessionId = none
      | _ => True
  | .act task => (hub.duties task).head?.any (fun duty => duty.command = none) = true
  | .continueCommand task _ _ => (hub.duties task).head?.any (·.command.isSome) = true
  | .fail task =>
    (hub.connections task).any (fun c => c.receiving ∧ c.handle ≠ some 0) = true ∧
      (hub.duties task = [] ∨ (hub.duties task).head? = some .respond)
  | .receive task =>
    (hub.connections task).any Connection.receiving = true ∧ hub.duties task = [] ∧
      hub.queues task ≠ []
  | .datagram source _ _ _ => (hub.sender source).isSome = true
  | .background task _ => hub.connections task = none ∧ hub.duties task = []
  | .other _ op => match op with
    | .request .. => False
    | .continueCommand .. => False
    | _ => True

instance (op : HubOp) : Decidable (hub.Enabled K op) := by
  unfold Enabled
  split <;> (try split) <;> infer_instance

def next : HubOp → Hub
  | .connect task moment member displayName credentials genesis handle =>
    let host := (hub.host.perform K moment
      (.handshake member displayName credentials genesis)).1
    let name := ((host.community.getMember member).map MemberRow.displayName).getD displayName
    { hub with
      host
      connections := Function.update hub.connections task (some ⟨member, false, handle, true⟩)
    }.assign task (enter task member name handle)
  | .request task moment request =>
    match hub.connections task with
    | none => hub
    | some c =>
      let (hub', added) := hub.handle K c.member c.isOwner moment request
      hub'.assign task added
  | .act task =>
    match hub.duties task with
    | [] => hub
    | duty :: rest =>
      let (hub', added) := hub.carryOut task duty
      hub'.assign task (added ++ rest)
  | .continueCommand task moment outcome =>
    match hub.duties task with
    | .continueCommand command :: rest =>
      let (hub', added) := hub.continueCommand K moment command outcome
      hub'.assign task (added ++ rest)
    | _ => hub
  | .fail task =>
    match hub.connections task with
    | none => hub
    | some c =>
      (hub.close task).assign task c.teardown
  | .receive task =>
    { hub with queues := Function.update hub.queues task (hub.queues task).tail }
  | .datagram source raw nowMs admitted =>
    match hub.sender source with
    | none => hub
    | some pk => hub.processInboundVoiceFrame pk raw nowMs admitted
  | .background task b =>
    hub.assign task [.announce b]
  | .other moment op => { hub with host := (hub.host.perform K moment op).1 }

def start (host : Host) : Hub where
  host := host
  clients := ∅
  sessions := ∅
  subscriptions := ∅
  presences := ∅
  voiceConnections := ∅
  relayVoiceHandles := ∅
  media := []
  connections := fun _ => none
  queues := fun _ => []
  duties := fun _ => []

end Hub

def HubStep (K : Crypto) (hub : Hub) (op : HubOp) (hub' : Hub) : Prop :=
  hub.Enabled K op ∧ hub' = hub.next K op

abbrev HubRun (K : Crypto) := Execution (HubStep K)

end Server
