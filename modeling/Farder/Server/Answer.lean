import Farder.Server.Community

/-! # Who may do what

A host is a server with its community. A request comes from a connection that has been
authenticated as a member; whether the member owns the server was looked up then, and comes
with each request as `isOwner`. -/
namespace Server

open EventLog Guarded Permissions

/-- How far a command has come: it was let in, it was looked up, and it may start what it posts. -/
inductive CommandStage where
  | admitted
  | found (command : CommandRow)
  | cleared (command : CommandRow)
  deriving DecidableEq

structure RunningCommand where
  member : PublicKey
  isOwner : Bool
  channelId : ℕ
  trigger : String
  stage : CommandStage
  deriving DecidableEq

structure Host where
  server : ServerState
  community : Community
  owner : Option PublicKey
  setupToken : Option String
  clientProtocol : FiniteMap PublicKey ℕ
  maxFileSize : ℕ
  running : List RunningCommand

namespace Host

variable (host : Host) (member : PublicKey) (isOwner : Bool)

abbrev db : Db := host.server.db

def withDb (db : Db) : Host := { host with server := { host.server with db } }

def withCommunity (community : Community) : Host := { host with community }

/-- The permissions of a member outside any channel. -/
def serverContext : ResolutionContext where
  everyonePermissions := host.community.everyonePermissions
  rolePermissions := host.community.getMemberRolePermissions member
  categoryOverrides := []
  channelOverrides := []
  isOwner := isOwner

def channelContext (channelId : ℕ) : ResolutionContext :=
  let roleIds := host.community.getMemberRoleIds member
  let categoryId := (host.db.getChannel channelId).bind fun _ =>
    (host.community.channelInfo channelId).categoryId
  { host.serverContext member isOwner with
    categoryOverrides := (categoryId.map fun id =>
      host.community.getCategoryOverridesForRoles id roleIds).getD []
    channelOverrides := host.community.getChannelOverridesForRoles channelId roleIds }

def resolveMemberServerPerms : Bits := resolve (host.serverContext member isOwner)

def resolveMemberPerms (channelId : ℕ) : Bits :=
  resolve (host.channelContext member isOwner channelId)

/-- The permissions that management requests ask for; `ADMIN` gives itself only. -/
def resolveBasePerms : Bits :=
  if isOwner then allPermissions else (host.serverContext member isOwner).base

def requireBasePerm (perm : Bits) (permName : String) : Checked Unit :=
  ensure (has (host.resolveBasePerms member isOwner) perm) s!"missing {permName} permission"

def requirePerm (channelId : ℕ) (perm : Bits) (permName : String) : Checked Unit :=
  ensure (has (host.resolveMemberPerms member isOwner channelId) perm)
    s!"missing {permName} permission"

def requireRoleHierarchy (targetPosition : ℕ) : Checked Unit :=
  ensure (isOwner = true ∨ targetPosition < host.community.getHighestRolePosition member)
    "cannot manage roles at or above your own position"

def requireMemberHierarchy (target : PublicKey) : Checked Unit :=
  ensure (isOwner = true ∨
      host.community.getHighestRolePosition target < host.community.getHighestRolePosition member)
    "cannot manage members at or above your own role level"

/-! ## Timeouts, classes and visibility -/

def timeoutMessage (timeout : ℕ × Option String) : String :=
  let suffix := (timeout.2.map fun reason => ": " ++ reason).getD ""
  s!"timed out until {timeout.1}{suffix}"

def requireNotTimedOut (nowMs : ℕ) : Checked Unit :=
  match host.community.isTimedOut member nowMs with
  | some timeout => .error (.rejected (timeoutMessage timeout))
  | none => .ok ()

def minClientVersionForE2ee : ℕ := 2

def connectionProtocolVersion : ℕ := (host.clientProtocol.lookup member).getD 1

def connectionSpeaksV2 : Bool := minClientVersionForE2ee ≤ host.connectionProtocolVersion member

def requirePlaintextChannel (channelId : ℕ) : Checked Unit :=
  ensure (host.db.resolve channelId = .plaintext)
    (if host.connectionSpeaksV2 member then Db.e2eeRefused else upgradeRequired)

def requireV2 : Checked Unit := ensure (host.connectionSpeaksV2 member) upgradeRequired

/-- A direct message is visible to its participants, any other channel by permission. -/
def channelVisible (channelId : ℕ) : Bool :=
  match host.db.getChannel channelId with
  | none => false
  | some channel =>
    if channel.channelType = .dm then host.community.isDmParticipant member channelId
    else has (host.resolveMemberPerms member isOwner channelId) viewChannel

/-- On a server with an event log, why a member that the log does not know gets no content. -/
def contentBlockReason : Option String :=
  match host.server.logState with
  | some ls =>
    if ls.IsMember member then none
    else if member ∈ ls.pending then
      some "pending approval: waiting for a moderator to approve your join"
    else some "not a member of this server"
  | none => none

end Host
end Server

/-! ## Answers and events

What a request is answered with, and what it tells other connections. -/
namespace Server

open EventLog Guarded Permissions

structure MessageInfo where
  id : ℕ
  row : MessageRow
  pinned : Bool
  attachments : List (ℕ × AttachmentRow × FileRow)
  reactions : List ReactionRow
  thread : Option (ℕ × ℕ)
  deriving DecidableEq, Repr

structure ChannelView where
  row : ChannelRow
  info : ChannelInfo
  deriving DecidableEq, Repr

structure MemberInfo where
  publicKey : PublicKey
  displayName : String
  joinedAt : ℕ
  roleIds : List ℕ
  timeout : Option (ℕ × Option String)
  isBot : Bool
  deriving DecidableEq, Repr

structure ReportInfo where
  reporter : PublicKey
  channelId : ℕ
  messageId : ℕ
  eventHash : Option String
  author : Option PublicKey
  authorName : Option String
  reason : String
  evidence : Option String
  createdAt : ℕ
  deriving DecidableEq, Repr

inductive EventTarget where
  | all
  | subscribers (channelId : ℕ)
  | members (keys : List PublicKey)
  | permissionHolders (perm : Bits)
  deriving DecidableEq

/-- The row that a card shows. -/
inductive WidgetRef where
  | poll (id : ℕ)
  | giveaway (id : ℕ)
  | event (id : ℕ)
  deriving DecidableEq, Repr

inductive ServerEvent where
  | newMessage (message : MessageInfo)
  | sealedMessage (channelId : ℕ) (message : MessageInfo)
  | sealedMessageEdited (channelId : ℕ) (message : MessageInfo)
  | messageEdited (messageId channelId : ℕ) (newContent : String) (editedAt : ℕ)
  | messageDeleted (messageId channelId : ℕ)
  | messageTombstoned (channelId messageId : ℕ)
  | messagePinned (messageId channelId : ℕ)
  | messageUnpinned (messageId channelId : ℕ)
  | reactionAdded (messageId channelId : ℕ) (emoji : String) (member : PublicKey)
      (fileId : Option ℕ)
  | reactionRemoved (messageId channelId : ℕ) (emoji : String) (member : PublicKey)
      (fileId : Option ℕ)
  | attachmentRedacted (contentHash : String) (byModerator : Bool)
  | channelCreated (channel : ChannelView)
  | channelUpdated (channel : ChannelView)
  | channelDeleted (channelId : ℕ)
  | categoryCreated (categoryId : ℕ) (category : CategoryRow)
  | categoryUpdated (categoryId : ℕ) (category : CategoryRow)
  | categoryDeleted (categoryId : ℕ)
  | roleCreated (roleId : ℕ) (role : RoleRow)
  | roleUpdated (roleId : ℕ) (role : RoleRow)
  | roleDeleted (roleId : ℕ)
  | permissionsChanged
  | dmCreated (channel : ChannelView) (participant : MemberInfo)
  | memberJoined (member : PublicKey) (displayName : String)
  | memberLeft (member : PublicKey)
  | memberBanned (member : PublicKey) (reason : Option String)
  | memberUnbanned (member : PublicKey)
  | memberTimeoutChanged (member : PublicKey) (untilMs : Option ℕ) (reason : Option String)
  | memberProfileUpdated (member : PublicKey) (profileHash : Option String)
  | membershipChanged (member : PublicKey)
  | youWereKicked
  | youWereBanned (reason : Option String)
  | deletionRequested (member : PublicKey)
  | deletionCancelled (member : PublicKey)
  | mlsControlEvent (channelId : Option ℕ) (eventHash : EventHash)
  | reportCreated (report : ReportInfo)
  | auditEventCreated (actor : PublicKey) (target : Option PublicKey) (action : String)
  | typingStarted (channelId : ℕ) (member : PublicKey)
  /-- `PollUpdated`, `GiveawayUpdated` and `EventUpdated`, with the row that is shown anew. -/
  | widgetUpdated (widget : WidgetRef)
  | mediaJoined (channelId : ℕ) (member : PublicKey) (displayName : String)
  | mediaLeft (channelId : ℕ) (member : PublicKey)
  | streamCallEnded (channelId : ℕ)
  | streamKeyOffer (channelId : ℕ) (sender : PublicKey) (sessionId wrappedKey : List UInt8)
  deriving DecidableEq

structure BroadcastEvent where
  target : EventTarget
  event : ServerEvent
  deriving DecidableEq

inductive Response where
  | ok
  | messageSent (id timestamp : ℕ)
  | history (messages : List MessageInfo)
  | searchResults (messages : List MessageInfo)
  | mlsControl (events : List Event) (nextAcceptSeq : ℕ) (more : Bool)
  | file (row : FileRow) (bytes : List UInt8)
  | inviteCreated (code : String)
  | dmOpened (channel : ChannelView) (participant : MemberInfo)
  | dmList (dms : List (ChannelView × MemberInfo × Option MessageInfo))
  | eventAccepted (eventHash : EventHash) (timestamp : ℕ)
  | protocolVersion (serverVersion minClientVersion : ℕ)
  /-- The answer to a request that has none of these effects. -/
  | other

structure Answer where
  response : Response
  events : List BroadcastEvent
  orphans : List ℕ

def Answer.of (response : Response) (events : List BroadcastEvent) : Answer := ⟨response, events, []⟩

def Answer.ok (events : List BroadcastEvent) : Answer := .of .ok events

def toAll (event : ServerEvent) : BroadcastEvent := ⟨.all, event⟩

def toSubscribers (channelId : ℕ) (event : ServerEvent) : BroadcastEvent :=
  ⟨.subscribers channelId, event⟩

/-- The record of a management action goes to those who manage the server. -/
def audit (actor : PublicKey) (target : Option PublicKey) (action : String) : BroadcastEvent :=
  ⟨.permissionHolders manageServer, .auditEventCreated actor target action⟩

/-- A request checks and writes, and then answers from what it has written. When it is refused
it has written nothing; when the answer fails, what it has written stays. -/
def Host.commit (host : Host) (write : Checked Host) (answer : Host → Checked Answer) :
    Host × Checked Answer :=
  match write with
  | .ok host' => (host', answer host')
  | .error failure => (host, .error failure)

/-- What holds before a request, and after whatever it may have written, holds after it. -/
theorem Host.commit_effect {P : Host → Prop} {host : Host} {write : Checked Host}
    {answer : Host → Checked Answer} (hrefused : P host)
    (hwritten : ∀ host', write = .ok host' → P host') : P (host.commit write answer).1 := by
  cases write with
  | ok host' => exact hwritten host' rfl
  | error _ => exact hrefused

theorem Host.commit_of_ok {host host' : Host} {write : Checked Host}
    {answer : Host → Checked Answer} (h : write = .ok host') :
    (host.commit write answer).1 = host' := by
  rw [h, commit]

theorem Host.commit_answer {host host' : Host} {write : Checked Host}
    {answer : Host → Checked Answer} (h : write = .ok host') :
    (host.commit write answer).2 = answer host' := by
  rw [h, commit]

theorem Host.commit_answered {host : Host} {write : Checked Host} {answer : Host → Checked Answer}
    {a : Answer} (h : (host.commit write answer).2 = .ok a) :
    write = .ok (host.commit write answer).1 := by
  cases write with
  | ok host' => rfl
  | error failure => exact absurd h nofun

/-- What answers with an error only when nothing has been written leaves a refused request
without effect. -/
theorem Host.commit_rejected {host : Host} {write : Checked Host} {answer : Host → Checked Answer}
    (hanswer : ∀ host', write = .ok host' → ∃ a, answer host' = .ok a)
    (h : ∀ a, (host.commit write answer).2 ≠ .ok a) : (host.commit write answer).1 = host := by
  cases write with
  | error failure => rfl
  | ok host' =>
    obtain ⟨a, ha⟩ := hanswer host' rfl
    exact absurd ha (h a)

theorem Host.panics_commit {host : Host} {write : Checked Host} {answer : Host → Checked Answer} :
    Panics (host.commit write answer).2 ↔
      Panics write ∨ ∃ host', write = .ok host' ∧ Panics (answer host') := by
  cases write <;> simp [commit, Panics]

namespace Host

variable (host : Host)

/-! ## Messages as clients see them -/

def channelView (channel : ChannelRow) : ChannelView :=
  ⟨channel, host.community.channelInfo channel.id⟩

def getThreadForMessage (messageId : ℕ) : Option ChannelRow :=
  host.db.channels.find? fun ch =>
    (host.community.channelInfo ch.id).threadParentMessageId = some messageId ∧ ch.deleted = false

def getAttachmentsForMessage (messageId : ℕ) : List (ℕ × AttachmentRow × FileRow) :=
  (((host.db.attachments.rows.filter fun x => x.2.messageId = messageId).insertionSort
    fun x y => x.2.position ≤ y.2.position).filterMap fun x =>
      (host.db.files.get? x.2.fileId).map fun file => (x.1, x.2, file))

/-- A row with its attachments, its reactions, and its thread with the number of messages. -/
def messageInfo (x : ℕ × MessageRow) : MessageInfo where
  id := x.1
  row := x.2
  pinned := x.1 ∈ host.community.pinned
  attachments := host.getAttachmentsForMessage x.1
  reactions := host.db.reactions.filter fun r => r.messageId = x.1
  thread := (host.getThreadForMessage x.1).map fun ch =>
    (ch.id, host.db.messages.rows.countP fun y => y.2.channelId = ch.id)

def getMessage (messageId : ℕ) : Option MessageInfo :=
  (host.db.messages.get? messageId).map fun row => host.messageInfo (messageId, row)

def buildMemberInfo (pk : PublicKey) (nowMs : ℕ) : Checked MemberInfo := do
  let row ← context (host.community.getMember pk) "member not found"
  return ⟨pk, row.displayName, row.joinedAt, host.community.getMemberRoleIds pk,
    host.community.isTimedOut pk nowMs, row.isBot⟩

end Host
end Server
