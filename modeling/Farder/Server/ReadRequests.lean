import Farder.Server.MessageRequests

/-! # Reading messages and files

Each way to read stored content checks a permission of its own, in the channel that is asked
for or in those that the content turns out to be in. -/
namespace Server

open EventLog Guarded Permissions

inductive ReadRequest where
  | fetchHistory (channelId : ℕ) (beforeId : Option ℕ) (limit : ℕ)
  | fetchHistoryV2 (channelId : ℕ) (beforeId : Option ℕ) (limit : ℕ)
  | fetchMlsControl (channelId sinceAcceptSeq : ℕ)
  | search (query : String) (channelId : Option ℕ) (limit : ℕ)
  | listDms

def maxHistory : ℕ := 500
def maxFetchEvents : ℕ := 500

/-- The channel of an event that a group's members follow. -/
def controlChannel (payload : EventPayload) : Option ℕ :=
  match payload with
  | .mlsCommit p => some p.channelId
  | .mlsWelcome p => some p.channelId
  | .mlsLeafConfirmed p => some p.channelId
  | .mlsGroupReset p => some p.channelId
  | _ => none

namespace Host

variable (host : Host) (member : PublicKey) (isOwner : Bool) (moment : Moment)

/-- The rows of a channel that a page of its history shows. -/
def isOnPage (channelId : ℕ) (beforeId : Option ℕ) (withSealed : Bool) (x : ℕ × MessageRow) :
    Bool :=
  x.2.channelId = channelId ∧ (withSealed = true ∨ x.2.isE2ee = false) ∧ ∀ b ∈ beforeId, x.1 < b

/-- A page of history, the newest message first. -/
def history (channelId : ℕ) (beforeId : Option ℕ) (limit : ℕ) (withSealed : Bool) :
    List MessageInfo :=
  ((host.db.messages.rows.filter (isOnPage channelId beforeId withSealed)).reverse.take limit).map
    host.messageInfo

def fetchHistory (channelId : ℕ) (beforeId : Option ℕ) (limit : ℕ) : Host × Checked Answer :=
  host.commit
    (do
      host.requirePerm member isOwner channelId readMessages "READ_MESSAGES"
      return host)
    fun _ => return .of (.history (host.history channelId beforeId (min limit maxHistory) false)) []

/-- The same permission as `fetchHistory`, and the sealed messages too. -/
def fetchHistoryV2 (channelId : ℕ) (beforeId : Option ℕ) (limit : ℕ) : Host × Checked Answer :=
  host.commit
    (do
      host.requireV2 member
      host.requirePerm member isOwner channelId readMessages "READ_MESSAGES"
      return host)
    fun _ => return .of (.history (host.history channelId beforeId (min limit maxHistory) true)) []

/-- The stored events that control groups and come later, with their positions; so many of them
are looked at in one request. -/
def scannedControl (sinceAcceptSeq : ℕ) : List (Event × ℕ) :=
  (host.db.events.zipIdx 1).filter fun x =>
    (controlChannel x.1.core.payload).isSome ∧ sinceAcceptSeq < x.2

def fetchMlsControl (channelId sinceAcceptSeq : ℕ) : Host × Checked Answer :=
  host.commit
    (do
      host.requireV2 member
      host.requirePerm member isOwner channelId readMessages "READ_MESSAGES"
      return host)
    fun _ =>
      let found := host.scannedControl sinceAcceptSeq
      let scanned := found.take maxFetchEvents
      let events := scanned.filter fun x => controlChannel x.1.core.payload = some channelId
      return .of (.mlsControl (events.map Prod.fst)
        ((scanned.getLast?.map Prod.snd).getD sinceAcceptSeq) (maxFetchEvents < found.length)) []

/-- A row that is not sealed, in the channel that is asked for if there is one, and that the
index finds. -/
def isHit (query : String) (channelId : Option ℕ) (x : ℕ × MessageRow) : Bool :=
  x.2.isE2ee = false ∧ (∀ c ∈ channelId, x.2.channelId = c) ∧
    ∃ y ∈ host.db.messagesFts, y.1 = x.1 ∧ moment.fts.finds query y.2 = true

def searchMessages (query : String) (channelId : Option ℕ) (limit : ℕ) : Checked (List MessageInfo) := do
  ensure (moment.fts.valid query) "fts5: syntax error"
  return ((host.db.messages.rows.filter (host.isHit moment query channelId)).reverse.take limit).map
    host.messageInfo

/-- A hit of a search in all channels is kept if its channel can be read. -/
def canRead (channelId : ℕ) : Bool :=
  has (host.resolveMemberPerms member isOwner channelId) readMessages ∧
    has (host.resolveMemberPerms member isOwner channelId) viewChannel

/-- The limit is applied before the hits that the member cannot read are dropped. -/
def search (query : String) (channelId : Option ℕ) (limit : ℕ) : Host × Checked Answer :=
  host.commit
    (do
      forAll channelId.toList fun id =>
        host.requirePerm member isOwner id readMessages "READ_MESSAGES"
      return host)
    fun _ => do
      let hits ← host.searchMessages moment query channelId (min limit maxHistory)
      return .of (.searchResults
        (if channelId = none ∧ isOwner = false
          then hits.filter fun x => host.canRead member isOwner x.row.channelId
          else hits)) []

/-- The live direct messages of a member, with the other participants. -/
def listDmChannels : List (ChannelRow × PublicKey) :=
  (host.db.channels.filter fun ch =>
    host.community.isDmParticipant member ch.id ∧ ch.deleted = false).filterMap fun ch =>
      (host.community.dmPartner member ch.id).map fun other => (ch, other)

def dmEntry (ch : ChannelRow) (other : PublicKey) :
    Option (ChannelView × MemberInfo × Option MessageInfo) :=
  (host.buildMemberInfo other moment.nowMs).toOption.map fun participant =>
    (host.channelView ch, participant, (host.history ch.id none 1 false).head?)

def lastTimestamp (entry : ChannelView × MemberInfo × Option MessageInfo) : ℕ :=
  (entry.2.2.map fun message => message.row.timestamp).getD 0

def listDms : Host × Checked Answer :=
  let dms := host.listDmChannels member
  let entries := dms.filterMap fun x => host.dmEntry moment x.1 x.2
  (dms.foldl (fun host x => host.expireTimeout x.2 moment.nowMs) host,
    .ok (.of (.dmList (entries.insertionSort fun a b => lastTimestamp b ≤ lastTimestamp a)) []))

def handleReadRequest (request : ReadRequest) : Host × Checked Answer :=
  match request with
  | .fetchHistory channelId beforeId limit =>
    host.fetchHistory member isOwner channelId beforeId limit
  | .fetchHistoryV2 channelId beforeId limit =>
    host.fetchHistoryV2 member isOwner channelId beforeId limit
  | .fetchMlsControl channelId sinceAcceptSeq =>
    host.fetchMlsControl member isOwner channelId sinceAcceptSeq
  | .search query channelId limit => host.search member isOwner moment query channelId limit
  | .listDms => host.listDms member moment

/-- The channels of the messages that a file is attached to. -/
def carriers (fileId : ℕ) : List ℕ :=
  host.db.attachments.rows.filterMap fun x =>
    if x.2.fileId = fileId then (host.db.messages.get? x.2.messageId).map MessageRow.channelId
    else none

/-- A download. A file that is missing, redacted or out of reach is not available. -/
def download (fileId : ℕ) : Checked Answer := do
  let file ← context (host.db.files.get? fileId) "not available"
  ensure (file.redactedBy = none) "not available"
  ensure (isOwner = true ∨ ∃ id ∈ host.carriers fileId,
      has (host.resolveMemberPerms member false id) (viewChannel ||| readMessages) = true)
    "not available"
  let bytes ← context (host.db.blobs.lookup file.hash) "No such file or directory"
  return .of (.file file bytes) []

end Host

/-! ## What reading changes -/

variable {host : Host} {member : PublicKey} {isOwner : Bool} {moment : Moment}

theorem readRequest_effect (request : ReadRequest) :
    ∃ consulted : List PublicKey, (host.handleReadRequest member isOwner moment request).1 =
      consulted.foldl (fun host pk => host.expireTimeout pk moment.nowMs) host := by
  cases request with
  | fetchHistory channelId beforeId limit =>
    refine ⟨[], Host.commit_effect (P := fun host' => host' = host) rfl fun host' h => ?_⟩
    simp only [bind_eq_ok, pure_eq_ok] at h
    obtain ⟨⟨⟩, -, rfl⟩ := h
    rfl
  | fetchHistoryV2 channelId beforeId limit =>
    refine ⟨[], Host.commit_effect (P := fun host' => host' = host) rfl fun host' h => ?_⟩
    simp only [bind_eq_ok, pure_eq_ok] at h
    obtain ⟨⟨⟩, -, ⟨⟩, -, rfl⟩ := h
    rfl
  | fetchMlsControl channelId sinceAcceptSeq =>
    refine ⟨[], Host.commit_effect (P := fun host' => host' = host) rfl fun host' h => ?_⟩
    simp only [bind_eq_ok, pure_eq_ok] at h
    obtain ⟨⟨⟩, -, ⟨⟩, -, rfl⟩ := h
    rfl
  | search query channelId limit =>
    refine ⟨[], Host.commit_effect (P := fun host' => host' = host) rfl fun host' h => ?_⟩
    simp only [bind_eq_ok, pure_eq_ok] at h
    obtain ⟨⟨⟩, -, rfl⟩ := h
    rfl
  | listDms => exact ⟨(host.listDmChannels member).map Prod.snd, by rw [List.foldl_map]; rfl⟩

end Server

/-! ## The reactions of a message

What a member is shown of the reactions: one group for each emoji, or picture of a custom one. -/
namespace Server

open EventLog

structure ReactionGroup where
  emoji : String
  count : ℕ
  me : Bool
  fileId : Option ℕ
  deriving DecidableEq, Repr

/-- The file id that is stored for a standard emoji is 0. -/
def readFileId (stored : ℕ) : Option ℕ := if stored = 0 then none else some stored

namespace Db

variable (db : Db)

def groupRows (messageId : ℕ) (key : String × ℕ) : List ReactionRow :=
  db.reactions.filter fun r => r.messageId = messageId ∧ (r.emoji, r.fileId) = key

/-- `MIN(created_at)` of a group. -/
def firstReaction (messageId : ℕ) (key : String × ℕ) : ℕ :=
  (((db.groupRows messageId key).map ReactionRow.createdAt).min?).getD 0

/-- `reactions::get_reactions_for_message`; the order of groups of one second is open. -/
def getReactionsForMessage (messageId : ℕ) (requester : PublicKey) : List ReactionGroup :=
  ((db.reactionGroups messageId).mergeSort fun a b =>
      decide (db.firstReaction messageId a ≤ db.firstReaction messageId b)).map fun key =>
    { emoji := key.1
      count := (db.groupRows messageId key).length
      me := (db.groupRows messageId key).any fun r => r.userKey = requester
      fileId := readFileId key.2 }

end Db
end Server
