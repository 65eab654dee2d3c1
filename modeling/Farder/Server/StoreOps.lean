import Farder.Server.HostFrame
import Farder.Server.Advance
import Farder.Support.SearchIndex

/-! # The message store

What keeps the tables of messages, attachments, reactions and files together, and what each
operation on them asks of the search index and of the files: the commands that take entries out
of the index, and the calls that remove files, each with the database that it meets. -/
namespace Server

open EventLog Guarded Permissions SearchIndex

def ReactionRow.picture (r : ReactionRow) : Option ℕ :=
  if r.emoji = customEmoji then some r.fileId else none

namespace Db

variable (db : Db)

/-- A reaction shows the file. -/
def Pictured (fileId : ℕ) : Prop := ∃ r ∈ db.reactions, r.picture = some fileId

instance (fileId : ℕ) : Decidable (db.Pictured fileId) :=
  inferInstanceAs (Decidable (∃ r ∈ db.reactions, _))

def HasFile (fileId : ℕ) : Prop := ∃ file, (fileId, file) ∈ db.files

instance (fileId : ℕ) : Decidable (db.HasFile fileId) :=
  decidable_of_iff ((db.files.get? fileId).isSome) (by
    simp only [HasFile, Option.isSome_iff_exists, Table.get?_eq_some])

/-- A message has the file attached, or a reaction shows it. -/
def InUse (fileId : ℕ) : Prop := (∃ messageId, db.Attached messageId fileId) ∨ db.Pictured fileId

def contentAt (hash : String) : Option (List UInt8) :=
  (db.blobs.find? fun b => b.1 = hash).map Prod.snd

/-- What the search index should hold for a message. -/
def searchable (id : ℕ) : Option String :=
  ((db.messages.get? id).filter fun row => !row.isE2ee).map MessageRow.content

/-- The store agrees with itself. -/
structure SelfConsistent (K : Crypto) (db : Db) : Prop extends db.LinksKept where
  reactedMessage : ∀ r ∈ db.reactions, ∃ row, (r.messageId, row) ∈ db.messages
  reactedFile : ∀ r ∈ db.reactions, ∀ fileId, r.picture = some fileId → db.HasFile fileId
  stored : ∀ x ∈ db.files, x.2.redactedBy = none →
    ∃ bytes, db.contentAt x.2.hash = some bytes ∧ K.sha256Hex bytes = x.2.hash
  indexed : Tracks db.messagesFts db.searchable

/-! ## Commands to the search index -/

def insertCommands (row : MessageRow) : List (Command ℕ String) :=
  if row.isE2ee then [] else [.insert db.messages.next row.content]

def editCommands (id : ℕ) (newContent : String) : List (Command ℕ String) :=
  match db.messages.get? id with
  | none => []
  | some row => replace id row.content newContent

def unindexCommands (rows : List (ℕ × MessageRow)) : List (Command ℕ String) :=
  (rows.filter fun x => !x.2.isE2ee).map fun x => .delete x.1 x.2.content

def deleteCommands (id : ℕ) : List (Command ℕ String) :=
  unindexCommands ((db.messages.get? id).toList.map fun row => (id, row))

def retentionCommands (channelId cutoff : ℕ) : List (Command ℕ String) :=
  unindexCommands (db.messages.rows.filter fun x => isOlderIn channelId cutoff x.2)

def anonymizeCommands (author : PublicKey) : List (Command ℕ String) :=
  (db.messages.rows.filter fun x => x.2.author = author ∧ x.2.isE2ee = false).flatMap fun x =>
    replace x.1 x.2.content "[deleted]"

def messagesIn (channelId : ℕ) : List (ℕ × MessageRow) :=
  db.messages.rows.filter fun x => x.2.channelId = channelId

/-- Unlike the other deletions this one does not pass over sealed rows. -/
def hardDeleteCommands (channelId : ℕ) : List (Command ℕ String) :=
  (db.messagesIn channelId).map fun x => .delete x.1 x.2.content

/-- `channels::hard_delete_channel`, as far as it concerns these tables. The index counts its
entries: once none is left, a deletion fails, and the rows stay. -/
def hardDeleteChannel (channelId : ℕ) : Checked Db := do
  let rows := db.messagesIn channelId
  let commands := db.hardDeleteCommands channelId
  let db ← rows.foldlM (fun db x => do
    let (db, _) ← (db.deleteReactionsForMessage x.1).deleteAttachmentsForMessage x.1
    return db) db
  ensure (commands.length ≤ db.messagesFts.length) "database disk image is malformed"
  return { db with
    messagesFts := run db.messagesFts commands
    messages := db.messages.delete fun x => x.2.channelId = channelId
    channels := db.channels.filter fun ch => ch.id ≠ channelId }

def purgeChannelCommands (now : ℕ) (db : Db) (ch : ChannelRow) : List (Command ℕ String) :=
  match ch.retentionSecs with
  | none => []
  | some secs => db.retentionCommands ch.id (now - secs)

def purgeCommands (now : ℕ) : List (Command ℕ String) :=
  traceM (purgeChannelCommands now) (purgeChannel now) db db.listChannels

def deletionCommands (db : Db) (req : DeletionRequest) : List (Command ℕ String) :=
  db.anonymizeCommands req.memberKey

def deriveCommands (e : Event) : List (Command ℕ String) :=
  match e.core.payload with
  | .messagePosted p => [.insert db.messages.next p.content]
  | _ => []

/-- The row of the message that a tombstone names goes. -/
def sweepCommands (db : Db) (target : EventRef) : List (Command ℕ String) :=
  match db.rowOfHash target with
  | none => []
  | some (id, _) => db.deleteCommands id

def ingestCommands (e : Event) : List (Command ℕ String) :=
  match e.core.payload with
  | .messageDeleted p => db.sweepCommands p.target
  | _ => db.deriveCommands e

/-- The commands of the first two passes; the others leave the index alone. -/
def reconcileCommands (K : Crypto) (logState : Option LogState) : List (Command ℕ String) :=
  let tombstoned := isTombstoned db.events logState
  let missing := db.events.filter fun e => isPosted e ∧ db.rowOfHash (e.hash K) = none
  let derive (acc : Db × ℕ) (e : Event) : List (Command ℕ String) :=
    if tombstoned (e.hash K) then [] else acc.1.deriveCommands e
  traceM derive (deriveMissing K tombstoned) (db, 0) missing ++
    match missing.foldlM (deriveMissing K tombstoned) (db, 0) with
    | .ok (db, _) => traceM sweepCommands sweepTombstoned db (storedTombstoneTargets db.events)
    | .error _ => []

/-! ## Calls that remove files -/

/-- One call of `cleanup_orphaned_file` or `cleanup_all_orphans`: what it meets, and what it
leaves. -/
abbrev Cleanup := Db × Db

def cleanupCalls : Db → List ℕ → List Cleanup
  | _, [] => []
  | db, fileId :: rest =>
    (db, db.cleanupOrphanedFile fileId) :: cleanupCalls (db.cleanupOrphanedFile fileId) rest

def deletionCleanups (req : DeletionRequest) : List Cleanup :=
  match db.removeAttachmentsForAuthorMessages req.memberKey with
  | .ok (db, orphans) => db.cleanupCalls orphans
  | .error _ => []

def purgeCleanups (now : ℕ) : List Cleanup :=
  match db.listChannels.foldlM (purgeChannel now) db with
  | .ok db => [(db, db.cleanupAllOrphans now orphanMaxAgeSecs)]
  | .error _ => []

/-- The call removes no file that is in use. -/
def SparesFiles (call : Cleanup) : Prop :=
  ∀ fileId, call.1.InUse fileId → call.1.HasFile fileId → call.2.HasFile fileId

end Db

def ServerState.reconcileCommands (K : Crypto) (st : ServerState) : List (Command ℕ String) :=
  match st.db.genesis, buildLogState K st.db with
  | some _, .ok logState => st.db.reconcileChannelClasses.reconcileCommands K logState
  | _, _ => []

/-- What can happen to the store, on top of what can happen to a server. -/
inductive StoreOp where
  | host (op : HostOp)
  | hardDeleteChannel (channelId : ℕ)
  | cleanupAllOrphans (maxAgeSecs : ℕ)
  | redactBlob (contentHash : String) (redactor : PublicKey)
  | reconcile

namespace Host

variable (K : Crypto) (host : Host) (moment : Moment)

/-- The participants of a direct message refer to its channel. -/
def hardDeleteChannel (channelId : ℕ) : Checked Host := do
  let db ← host.db.hardDeleteChannel channelId
  ensure (∀ x ∈ host.community.dmParticipants, x.1 ≠ channelId) foreignKeyFailed
  return (host.withDb db).withCommunity { host.community with
    channelOverrides := FiniteMap.retain host.community.channelOverrides fun k _ =>
      k.1 ≠ channelId }

def performStore (op : StoreOp) : Checked Host :=
  match op with
  | .host op => .ok (host.perform K moment op).1
  | .hardDeleteChannel channelId => host.hardDeleteChannel channelId
  | .cleanupAllOrphans maxAgeSecs =>
    .ok (host.withDb (host.db.cleanupAllOrphans moment.now maxAgeSecs))
  | .redactBlob contentHash redactor =>
    .ok (host.withDb (host.db.redactBlob contentHash redactor))
  | .reconcile => (fun server => { host with server, running := [] }) <$> host.server.restart K

def deletionsCommands : List DeletionRequest → Db → List (Command ℕ String)
  | [], _ => []
  | req :: rest, db => match db.executeDeletion req with
    | .ok db' => db.deletionCommands req ++ deletionsCommands rest db'
    | .error _ => []

def deletionsCleanups : List DeletionRequest → Db → List Db.Cleanup
  | [], _ => []
  | req :: rest, db => match db.executeDeletion req with
    | .ok db' => db.deletionCleanups req ++ deletionsCleanups rest db'
    | .error _ => []

/-- The commands of an accepted operation that takes entries out of the search index. -/
def commands (op : StoreOp) : List (Command ℕ String) :=
  match op with
  | .host op => if host.Accepts K (moment, op) then
      match op with
      | .request _ _ (.message (.editMessage id newContent)) => host.db.editCommands id newContent
      | .request _ _ (.message (.deleteMessage id)) => host.db.deleteCommands id
      | .request _ _ (.submitEvent event) => host.db.ingestCommands event
      | .purgeExpiredMessages => host.db.purgeCommands moment.now
      | .executePendingDeletions =>
        deletionsCommands (host.db.expiredDeletionRequests moment.now) host.db
      | _ => []
    else []
  | .hardDeleteChannel channelId => host.db.hardDeleteCommands channelId
  | .reconcile => host.server.reconcileCommands K
  | _ => []

/-- The calls of an operation that may remove files. -/
def cleanups (op : StoreOp) : List Db.Cleanup :=
  match op with
  | .host (.cleanupOrphanedFile fileId) => [(host.db, host.db.cleanupOrphanedFile fileId)]
  | .host .purgeExpiredMessages => host.db.purgeCleanups moment.now
  | .host .executePendingDeletions =>
    deletionsCleanups (host.db.expiredDeletionRequests moment.now) host.db
  | .cleanupAllOrphans maxAgeSecs =>
    [(host.db, host.db.cleanupAllOrphans moment.now maxAgeSecs)]
  | _ => []

end Host

def StoreStep (K : Crypto) (host : Host) (e : Moment × StoreOp) (host' : Host) : Prop :=
  host.performStore K e.1 e.2 = .ok host'

abbrev StoreRun (K : Crypto) := Execution (StoreStep K)

end Server
