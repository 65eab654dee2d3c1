import Farder.Server.ReadRequests

/-! # A server that handles requests

The requests that post by other ways than `SendMessage`, the steps of a command after its
admission, the events that a submission tells others about, and the dispatch behind the gate. -/
namespace Server

open EventLog Guarded Permissions

/-- What `FetchUrl` has fetched. -/
structure Fetched where
  fileName : String
  contentType : String
  bytes : List UInt8

structure Giveaway where
  id : ℕ
  channelId : ℕ
  messageId : ℕ
  creator : PublicKey
  ended : Bool
  winner : Option PublicKey

/-- What the requests tell that are not modelled further: to type, to vote, to enter or to answer,
to join and to leave a channel's media, and to offer a key for a stream. -/
inductive SideEvent where
  | typing (channelId : ℕ)
  | widget (channelId : ℕ) (ref : WidgetRef)
  | mediaJoined (channelId : ℕ) (displayName : String)
  | mediaLeft (channelId : ℕ)
  | streamCallEnded (channelId : ℕ) (other : PublicKey)
  | streamKeyOffer (channelId : ℕ) (peer : PublicKey) (sessionId wrappedKey : List UInt8)

def SideEvent.broadcast (member : PublicKey) : SideEvent → BroadcastEvent
  | .typing channelId => toSubscribers channelId (.typingStarted channelId member)
  | .widget channelId ref => toSubscribers channelId (.widgetUpdated ref)
  | .mediaJoined channelId displayName => toAll (.mediaJoined channelId member displayName)
  | .mediaLeft channelId => toAll (.mediaLeft channelId member)
  | .streamCallEnded channelId other => ⟨.members [other], .streamCallEnded channelId⟩
  | .streamKeyOffer channelId peer sessionId wrappedKey =>
    ⟨.members [peer], .streamKeyOffer channelId member sessionId wrappedKey⟩

/-- A request. What it finds in tables that are not modelled, or out on the network, comes
with it: the fetched bytes, the giveaway and the text that announces its new winner. -/
inductive Request where
  | channel (request : ChannelRequest)
  | role (request : RoleRequest)
  | member (request : MemberRequest)
  | message (request : MessageRequest)
  | read (request : ReadRequest)
  | fetchUrl (channelId : ℕ) (fetched : Option Fetched)
  | runCommand (channelId : ℕ) (trigger : String)
  | rerollGiveaway (giveaway : Option Giveaway) (announcement : Option String)
  | submitEvent (event : Event)
  | negotiateProtocol (clientVersion : ℕ)
  /-- `ResolveInvite`, `GetServerInfo` and `GetMembershipStatus`. -/
  | bootstrap
  /-- Any other request, with the members whose timeouts it looks at, and what it tells. -/
  | other (consulted : List PublicKey) (told : List SideEvent)

def serverProtocolVersion : ℕ := 2

def Request.requiresMembership : Request → Bool
  | .submitEvent _ => false
  | .negotiateProtocol _ => false
  | .bootstrap => false
  | _ => true

/-- What a command posts, as it was parsed or fetched, and the row that a card is made for. -/
structure CommandOutcome where
  content : String
  widgetId : ℕ

inductive CommandStep where
  | next (command : RunningCommand)
  | answer (told : Answer)

/-- A step that leads to another one tells nobody anything. -/
def CommandStep.told : CommandStep → Answer
  | .next _ => .of .other []
  | .answer told => told

def widgetOfKind (kind : String) (id : ℕ) : Option WidgetRef :=
  if kind = "poll" then some (.poll id)
  else if kind = "giveaway" then some (.giveaway id)
  else if kind = "event" then some (.event id)
  else none

def commandAuthor (member : PublicKey) (row : CommandRow) : Checked (Option PublicKey) :=
  if row.kind ∈ ["poll", "giveaway", "event"] then .ok (some member)
  else if row.kind = "reminder" then .ok none
  else if row.kind ∈ ["text", "api"] then .ok (some row.publicKey)
  else .error (.rejected "command misconfigured")

namespace Host

variable (K : Crypto) (host : Host) (member : PublicKey) (isOwner : Bool) (moment : Moment)

/-! ## The admission of commands, and giveaways -/

/-- The rule of `SendMessage`, with the refusal of the second version for every connection. -/
def checkRunCommandChannelAuth (channelId : ℕ) : Checked Unit := do
  host.requireNotTimedOut member moment.nowMs
  ensure (host.db.resolve channelId = .plaintext) Db.e2eeRefused
  host.requirePosting member isOwner channelId

/-- A command is let in by the rate limit and by the rule of its channel; what it posts comes
later. -/
def runCommand (channelId : ℕ) (trigger : String) : Host × Checked Answer :=
  if moment.admitted then
    let host := host.expireTimeout member moment.nowMs
    host.commit
      (do
        host.checkRunCommandChannelAuth member isOwner moment channelId
        return { host with
          running := ⟨member, isOwner, channelId, trigger, .admitted⟩ :: host.running })
      fun _ => return .of .other []
  else (host, .error (.rejected "slow down — too many commands"))

def widgetChannelVisible (channelId : ℕ) : Bool :=
  host.db.resolve channelId = .plaintext ∧ host.channelVisible member isOwner channelId

/-- The announcement of a new winner, authored by a key that is drawn for it. -/
def rerollGiveaway (giveaway : Option Giveaway) (announcement : Option String) :
    Host × Checked Answer :=
  let host := host.expireTimeout member moment.nowMs
  host.commit
    (do
      host.requireNotTimedOut member moment.nowMs
      let g ← context giveaway "giveaway not found"
      ensure (host.widgetChannelVisible member isOwner g.channelId) "giveaway not found"
      ensure (g.creator = member ∨
          has (host.resolveMemberServerPerms member isOwner) manageServer = true)
        "only the creator or a moderator can reroll"
      ensure (g.ended = true ∧ g.winner ≠ none)
        "can only reroll a finished giveaway with a winner"
      let text ← context announcement "no eligible entries to reroll"
      host.withDb <$> host.db.insertMessage g.channelId moment.botKey text (some g.messageId)
        moment.now)
    fun host' => return .ok (giveaway.toList.map (fun g =>
        toSubscribers g.channelId (.widgetUpdated (.giveaway g.id))) ++
      (host'.getMessage host.db.messages.next).toList.map fun message =>
        toSubscribers message.row.channelId (.newMessage message))

/-! ## Commands under way -/

variable (command : RunningCommand)

def findCommand : Checked RunningCommand := do
  let row ← context (host.community.findByTrigger command.trigger)
    s!"unknown command /{command.trigger}"
  return { command with stage := .found row.2 }

/-- Only a giveaway asks for a permission. -/
def clearCommand (row : CommandRow) : Checked RunningCommand := do
  if row.kind = "giveaway" then
    ensure (has (host.resolveMemberServerPerms command.member command.isOwner) manageServer)
      "giveaways can only be started by moderators (missing MANAGE_SERVER)"
  return { command with stage := .cleared row }

/-- The channel is not looked at again, but for its class. -/
def postCommand (row : CommandRow) (outcome : Except String CommandOutcome) :
    Host × Checked Answer :=
  host.commit
    (do
      let author ← commandAuthor command.member row
      let outcome ← outcome.mapError Failure.rejected
      match author with
      | some author =>
        host.withDb <$> host.db.insertMessage command.channelId author outcome.content none
          moment.now
      | none => return host)
    fun host' =>
      let widget := outcome.toOption.bind fun outcome => widgetOfKind row.kind outcome.widgetId
      return .ok ((host'.getMessage host.db.messages.next).toList.flatMap fun message =>
        toSubscribers command.channelId (.newMessage message) ::
          widget.toList.map fun ref => toSubscribers command.channelId (.widgetUpdated ref))

/-- A command whose step goes through is under way again. -/
def pass (step : Checked RunningCommand) : Host × Checked CommandStep :=
  match step with
  | .ok command => ({ host with running := command :: host.running }, .ok (.next command))
  | .error failure => (host, .error failure)

/-- One step of a command under way, each under a lock of its own; in between anything may
happen. -/
def continueCommand (outcome : Except String CommandOutcome) : Host × Checked CommandStep :=
  if command ∈ host.running then
    let host := { host with running := host.running.erase command }
    match command.stage with
    | .admitted => host.pass (host.findCommand command)
    | .found row => host.pass (host.clearCommand command row)
    | .cleared row =>
      let (host, answer) := host.postCommand moment command row outcome
      (host, CommandStep.answer <$> answer)
  else (host, .error (.rejected "no such command"))

def fetchUrl (channelId : ℕ) (fetched : Option Fetched) : Host × Checked Answer :=
  host.commit
    (do
      host.requirePerm member isOwner channelId sendMessages "SEND_MESSAGES"
      ensure (host.db.resolve channelId = .plaintext) Db.e2eeRefused
      let file ← context fetched "fetch failed"
      (fun stored => host.withDb stored.1) <$> host.db.storeOrReuseFromTempFile K member
        file.fileName file.bytes (K.sha256Hex file.bytes) file.contentType file.bytes.length
        ⟨none, none, none⟩ moment.now)
    fun _ => return .of .other []

/-- The row that a posted or edited event has, as an event for the subscribers. -/
def announceRow (event : Event) : List BroadcastEvent :=
  match event.core.payload with
  | .messagePosted p => rows (event.hash K) fun message =>
      toSubscribers p.channelId (.newMessage message)
  | .messagePostedE2ee p => rows (event.hash K) fun message =>
      toSubscribers p.channelId (.sealedMessage p.channelId message)
  | .messageEditedE2ee p => rows p.target fun message =>
      toSubscribers p.channelId (.sealedMessageEdited p.channelId message)
  | _ => []
where
  rows (hash : EventHash) (announce : MessageInfo → BroadcastEvent) : List BroadcastEvent :=
    (host.db.rowOfHash hash).toList.map fun x => announce (host.messageInfo x)

/-- What everybody is told about a channel, a group, a membership or a redaction. -/
def announceLog (event : Event) (trial : LogState) : List BroadcastEvent :=
  match event.core.payload with
  | .mlsKeyPackagePublished _ => [toAll (.mlsControlEvent none (event.hash K))]
  | .deviceRevoked _ => [toAll (.mlsControlEvent none (event.hash K))]
  | .channelCreated p => (host.db.getChannel p.channelId).toList.map fun channel =>
      toAll (.channelCreated (host.channelView channel))
  | .memberJoined pk _ => [toAll (.membershipChanged pk)]
  | .memberApproved pk => [toAll (.membershipChanged pk)]
  | .memberRemoved pk => [toAll (.membershipChanged pk)]
  | .memberBanned pk => [toAll (.membershipChanged pk)]
  | .attachmentRedacted contentHash =>
    [toAll (.attachmentRedacted contentHash
      (trial.attachmentUploaders.lookup contentHash ≠ some event.core.author))]
  | payload => (controlChannel payload).toList.map fun channelId =>
      toSubscribers channelId (.mlsControlEvent (some channelId) (event.hash K))

/-- The row that a tombstone has deleted; in a channel that is not plaintext it is announced as
a tombstone too. -/
def announceTombstone (event : Event) (row : Option (ℕ × MessageRow)) : List BroadcastEvent :=
  match event.core.payload, row with
  | .messageDeleted _, some (id, row) =>
    toSubscribers row.channelId (.messageDeleted id row.channelId) ::
      if host.db.resolve row.channelId = .plaintext then []
      else [toSubscribers row.channelId (.messageTombstoned row.channelId id)]
  | _, _ => []

/-- The row that a deletion is about, before it is deleted. -/
def tombstoneTarget (event : Event) : Option (ℕ × MessageRow) :=
  match event.core.payload with
  | .messageDeleted p => host.db.rowOfHash p.target
  | _ => none

def declareChannel (event : Event) : Host :=
  match event.core.payload with
  | .channelCreated p =>
    host.withCommunity (host.community.updateChannelInfo p.channelId fun _ => .empty)
  | _ => host

def submitEvent (event : Event) : Host × Checked Answer :=
  match host.server.submitEvent K event moment.now with
  | .error failure => (host, .error failure)
  | .ok (server, orphans) =>
    let host' := { host.declareChannel event with server }
    let events := host'.announceRow K event ++
      (server.logState.map (host'.announceLog K event)).getD [] ++
      host'.announceTombstone event (host.tombstoneTarget event)
    (host', .ok ⟨.eventAccepted (event.hash K) event.core.timestamp, events, orphans⟩)

def negotiateProtocol (clientVersion : ℕ) : Host × Checked Answer :=
  ({ host with clientProtocol := host.clientProtocol.insert member clientVersion },
    .ok (.of (.protocolVersion serverProtocolVersion minClientVersionForE2ee) []))

def dispatch (request : Request) : Host × Checked Answer :=
  match request with
  | .channel request => host.handleChannelRequest member isOwner request
  | .role request => host.handleRoleRequest member isOwner request
  | .member request => host.handleMemberRequest member isOwner moment request
  | .message request => host.handleMessageRequest member isOwner moment request
  | .read request => host.handleReadRequest member isOwner moment request
  | .fetchUrl channelId fetched => host.fetchUrl K member isOwner moment channelId fetched
  | .runCommand channelId trigger => host.runCommand member isOwner moment channelId trigger
  | .rerollGiveaway giveaway announcement =>
    host.rerollGiveaway member isOwner moment giveaway announcement
  | .submitEvent event => host.submitEvent K moment event
  | .negotiateProtocol clientVersion => host.negotiateProtocol member clientVersion
  | .bootstrap => (host, .ok (.of .other []))
  | .other consulted told =>
    (consulted.foldl (fun host pk => host.expireTimeout pk moment.nowMs) host,
      .ok (.of .other (told.map (SideEvent.broadcast member))))

def handleRequest (request : Request) : Host × Checked Answer :=
  if request.requiresMembership then
    match host.contentBlockReason member with
    | some reason => (host, .error (.rejected reason))
    | none => host.dispatch K member isOwner moment request
  else host.dispatch K member isOwner moment request

variable {K host member isOwner moment} {request : Request} {reason : String}
  {command : RunningCommand} {row : CommandRow} {outcome : Except String CommandOutcome}
  {P : Host → Prop}

theorem runCommand_db {channelId : ℕ} {trigger : String} :
    (host.runCommand member isOwner moment channelId trigger).1.db = host.db := by
  unfold runCommand
  split_ifs
  · refine commit_effect (P := fun host' => host'.db = host.db) rfl fun host' h => ?_
    simp only [bind_eq_ok, pure_eq_ok] at h
    obtain ⟨⟨⟩, -, rfl⟩ := h
    rfl
  · rfl

theorem postCommand_rule (h : P host) (hposted : ∀ author content db,
      host.db.insertMessage command.channelId author content none moment.now = .ok db →
        P (host.withDb db)) : P (host.postCommand moment command row outcome).1 := by
  refine commit_effect h fun host' hwrite => ?_
  simp only [bind_eq_ok] at hwrite
  obtain ⟨author, -, outcome, -, hwrite⟩ := hwrite
  cases author with
  | none => exact pure_eq_ok.mp hwrite ▸ h
  | some author =>
    obtain ⟨db, hinsert, rfl⟩ := map_eq_ok.mp hwrite
    exact hposted author outcome.content db hinsert

theorem pass_rule {step : Checked RunningCommand} (h : ∀ running, P { host with running }) :
    P (host.pass step).1 := by
  cases step with
  | ok command => exact h _
  | error failure => exact h host.running

/-- A step of a command writes the list of commands, and at its last step a message. -/
theorem continueCommand_rule (h : ∀ running, P { host with running })
    (hposted : ∀ running author content db,
      host.db.insertMessage command.channelId author content none moment.now = .ok db →
        P (withDb { host with running } db)) :
    P (host.continueCommand moment command outcome).1 := by
  unfold continueCommand
  split_ifs
  · cases command.stage with
    | admitted => exact pass_rule h
    | found row => exact pass_rule h
    | cleared row => exact postCommand_rule (h _) (hposted _)
  · exact h host.running

theorem handleRequest_of_open (hgate : host.contentBlockReason member = none) :
    host.handleRequest K member isOwner moment request =
      host.dispatch K member isOwner moment request := by
  simp only [handleRequest, hgate, ite_self]

theorem handleRequest_of_blocked (h : request.requiresMembership = true)
    (hgate : host.contentBlockReason member = some reason) :
    host.handleRequest K member isOwner moment request = (host, .error (.rejected reason)) := by
  simp only [handleRequest, h, hgate, if_true]

end Host
end Server
