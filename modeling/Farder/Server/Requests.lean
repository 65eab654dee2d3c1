import Farder.Server.Reconcile
import Farder.Support.Execution
import Mathlib.Data.List.Sort

/-! # Requests, sweeps and runs of a server

The requests that edit and delete messages past the log, the periodic sweeps, and what the
sweeps depend on: uploads, channel settings and deletion requests. A run is a sequence of
operations, restarts among them, each at its own time. -/
namespace Server

open EventLog Guarded

def upgradeRequired : String := "this channel requires a newer client"
def orphanMaxAgeSecs : ℕ := 3600
def deletionGracePeriodSecs : ℕ := 72 * 3600

namespace Db

variable (db : Db)

def createChannel (name : String) (channelType : ChannelType) (position : ℕ) : Db :=
  { db with
    channels := db.channels ++
      [⟨db.nextChannel, name, channelType, position, none, false, some .plaintext⟩]
    nextChannel := db.nextChannel + 1 }

/-- `channels::update_channel`, for the retention of a channel. -/
def updateRetention (channelId : ℕ) (retentionSecs : Option ℕ) : Db :=
  { db with channels := db.channels.map fun ch =>
      if ch.id = channelId then { ch with retentionSecs } else ch }

def isListed (ch : ChannelRow) : Bool :=
  ch.deleted = false ∧ ch.channelType ≠ .thread ∧ ch.channelType ≠ .dm

def listChannels : List ChannelRow :=
  (db.channels.filter isListed).insertionSort fun a b => a.position ≤ b.position

def purgeChannel (now : ℕ) (db : Db) (ch : ChannelRow) : Checked Db :=
  match ch.retentionSecs with
  | none => return db
  | some secs => db.deleteMessagesBefore ch.id (now - secs)

/-- The retention sweep. -/
def purgeExpiredMessages (now : ℕ) : Checked Db := do
  let db ← db.listChannels.foldlM (purgeChannel now) db
  return db.cleanupAllOrphans now orphanMaxAgeSecs

def expiredDeletionRequests (now : ℕ) : List DeletionRequest :=
  db.deletionRequests.filter fun req => req.expiresAt < now

/-- Delete one member's data: its attachments, its name on its messages, its reactions. -/
def executeDeletion (db : Db) (req : DeletionRequest) : Checked Db := do
  let (db, orphans) ← db.removeAttachmentsForAuthorMessages req.memberKey
  let db := orphans.foldl cleanupOrphanedFile db
  let db := (db.anonymizeMessagesByAuthor req.memberKey).deleteReactionsByUser req.memberKey
  return { db with
    deletionRequests := db.deletionRequests.filter fun r => r.memberKey ≠ req.memberKey }

def executePendingDeletions (now : ℕ) : Checked Db :=
  (db.expiredDeletionRequests now).foldlM executeDeletion db

def requestDeletion (member : PublicKey) (isOwner : Bool) (now : ℕ) : Checked Db := do
  ensure (isOwner = false) "server owner cannot request deletion — transfer ownership first"
  ensure (∀ r ∈ db.deletionRequests, r.memberKey ≠ member) "deletion request already pending"
  return { db with deletionRequests :=
            db.deletionRequests ++ [⟨member, now, now + deletionGracePeriodSecs⟩] }

def cancelDeletion (member : PublicKey) : Checked Db := do
  ensure (∃ r ∈ db.deletionRequests, r.memberKey = member) "no pending deletion request"
  return { db with deletionRequests :=
            db.deletionRequests.filter fun r => r.memberKey ≠ member }

/-- `DeleteMessage`; `managesMessages` is the outcome of the permission check. -/
def requestDeleteMessage (member : PublicKey) (messageId : ℕ) (managesMessages : Bool) :
    Checked (Db × List ℕ) := do
  let row ← context (db.messages.get? messageId) "message not found"
  ensure (row.author = member ∨ managesMessages = true) "missing MANAGE_MESSAGES permission"
  db.deleteMessage messageId

/-- `EditMessage`, from a connection that may or may not speak the second version. -/
def requestEditMessage (member : PublicKey) (messageId : ℕ) (newContent : String)
    (speaksV2 : Bool) (now : ℕ) : Checked Db := do
  ensure (newContent.utf8ByteSize ≤ maxMessageBytes)
    "message content too long (max 8000 characters)"
  let row ← context (db.messages.get? messageId) "message not found"
  ensure (row.author = member) "can only edit own messages"
  ensure (db.resolve row.channelId = .plaintext)
    (if speaksV2 then e2eeRefused else upgradeRequired)
  db.editMessage messageId newContent now

end Db

structure Upload where
  uploadedBy : PublicKey
  originalName : String
  bytes : List UInt8
  declaredHash : String
  mimeType : String
  fileSize : ℕ
  media : MediaInfo

/-- What can happen to a server. The clean-up of an unused file is the connection's, after a
request has deleted the file's last message. -/
inductive Op where
  | submitEvent (event : Event)
  | deleteMessage (member : PublicKey) (messageId : ℕ) (managesMessages : Bool)
  | editMessage (member : PublicKey) (messageId : ℕ) (newContent : String) (speaksV2 : Bool)
  | purgeExpiredMessages
  | executePendingDeletions
  | cleanupOrphanedFile (fileId : ℕ)
  | upload (upload : Upload)
  | createChannel (name : String) (channelType : ChannelType) (position : ℕ)
  | updateRetention (channelId : ℕ) (retentionSecs : Option ℕ)
  | requestDeletion (member : PublicKey) (isOwner : Bool)
  | cancelDeletion (member : PublicKey)
  | restart

variable (K : Crypto)

/-- One operation at the time `now`. -/
def ServerState.handle (st : ServerState) (now : ℕ) (op : Op) : Checked ServerState :=
  let onDb (x : Checked Db) : Checked ServerState := (fun db => { st with db }) <$> x
  match op with
  | .submitEvent event => Prod.fst <$> st.submitEvent K event now
  | .deleteMessage member messageId managesMessages =>
    onDb (Prod.fst <$> st.db.requestDeleteMessage member messageId managesMessages)
  | .editMessage member messageId newContent speaksV2 =>
    onDb (st.db.requestEditMessage member messageId newContent speaksV2 now)
  | .purgeExpiredMessages => onDb (st.db.purgeExpiredMessages now)
  | .executePendingDeletions => onDb (st.db.executePendingDeletions now)
  | .cleanupOrphanedFile fileId => onDb (.ok (st.db.cleanupOrphanedFile fileId))
  | .upload u =>
    onDb (Prod.fst <$> st.db.storeOrReuseFromTempFile K u.uploadedBy u.originalName u.bytes
      u.declaredHash u.mimeType u.fileSize u.media now)
  | .createChannel name channelType position =>
    onDb ((fun _ => st.db.createChannel name channelType position) <$> st.db.requireRowId)
  | .updateRetention channelId retentionSecs =>
    onDb (.ok (st.db.updateRetention channelId retentionSecs))
  | .requestDeletion member isOwner => onDb (st.db.requestDeletion member isOwner now)
  | .cancelDeletion member => onDb (st.db.cancelDeletion member)
  | .restart => st.restart K

/-- An operation and the time at which it happens. -/
abbrev TimedOp := ℕ × Op

def Step (st : ServerState) (x : TimedOp) (st' : ServerState) : Prop :=
  st.handle K x.1 x.2 = .ok st'

abbrev History := List (Transition ServerState TimedOp)

abbrev ServerRun (st : ServerState) (tr : History) (st' : ServerState) : Prop :=
  Execution (Step K) st tr st'

end Server
