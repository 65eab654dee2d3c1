import Farder.Server.Messages

/-! # Ingest of a submitted event

`SubmitEvent` validates an event on a copy of the authorization state, stores it and derives
its channel row, message row, attachments, sealed edit or deletion, all in one transaction:
an error on the way leaves the server as it was. -/
namespace Server

open EventLog Guarded

def e2eeChannelIdFloor : ℕ := 2 ^ 32
def maxEventFutureSkewSecs : ℕ := 300
def maxChannelNameBytes : ℕ := 256
def maxKeyPackageBytes : ℕ := 8 * 1024
def maxMlsMessageBytes : ℕ := 256 * 1024
def maxMlsWelcomeBytes : ℕ := 256 * 1024
def maxDeclaredLeavesPerCommit : ℕ := 256
def maxResetWelcomes : ℕ := 256
def maxE2eeCiphertextBytes : ℕ := 45 * 1024
def maxE2eeEditCiphertextBytes : ℕ := maxE2eeCiphertextBytes
def maxE2eeAttachments : ℕ := 10
def maxMessageBytes : ℕ := 8000

def cap (what : String) (len max : ℕ) : Checked Unit :=
  ensure (len ≤ max) s!"{what} is {len} bytes, over the {max}-byte cap"

def capLen (what : String) (len max : ℕ) : Checked Unit :=
  ensure (len ≤ max) s!"{what} has {len} entries, over the cap of {max}"

/-- The size caps of each payload and the upper bound on the claimed time. -/
def checkIngestCapsAt (event : Event) (now : ℕ) : Checked Unit := do
  ensure (event.core.timestamp ≤ now + maxEventFutureSkewSecs)
    s!"event timestamp is more than {maxEventFutureSkewSecs}s ahead of server time"
  match event.core.payload with
  | .channelCreated p => do
    cap "ChannelCreated.name" p.name.utf8ByteSize maxChannelNameBytes
    cap "ChannelCreated.kind" p.kind.utf8ByteSize maxChannelNameBytes
  | .mlsKeyPackagePublished p =>
    cap "MlsKeyPackagePublished.key_package" p.keyPackage.length maxKeyPackageBytes
  | .mlsCommit p => do
    cap "MlsCommit.mls_message" p.mlsMessage.length maxMlsMessageBytes
    capLen "MlsCommit.adds" p.adds.length maxDeclaredLeavesPerCommit
    capLen "MlsCommit.removes" p.removes.length maxDeclaredLeavesPerCommit
  | .mlsWelcome p => cap "MlsWelcome.welcome" p.welcome.length maxMlsWelcomeBytes
  | .mlsGroupReset p => capLen "MlsGroupReset.welcomes" p.welcomes.length maxResetWelcomes
  | .messagePostedE2ee p => do
    cap "MessagePostedE2ee.ciphertext" p.ciphertext.length maxE2eeCiphertextBytes
    capLen "MessagePostedE2ee.attachments" p.attachments.length maxE2eeAttachments
  | .messageEditedE2ee p =>
    cap "MessageEditedE2ee.ciphertext" p.ciphertext.length maxE2eeEditCiphertextBytes
  | _ => .ok ()

/-- The channel, generation and epoch that an event cites, if it cites one. -/
def epochClaim (payload : EventPayload) : Option (ℕ × ℕ × ℕ) :=
  match payload with
  | .mlsCommit p => some (p.channelId, p.generation, p.epoch)
  | .messagePostedE2ee p => some (p.channelId, p.generation, p.epoch)
  | .messageEditedE2ee p => some (p.channelId, p.generation, p.epoch)
  | _ => none

def mlsCurrentEpoch (s : LogState) (channelId : ℕ) : Option (ℕ × ℕ) :=
  (s.mlsGroups.lookup channelId).map fun g => (g.generation, g.epoch)

/-- An event that lost the race for its epoch is bounced, for its author to resubmit. -/
def checkEpochClaim (s : LogState) (payload : EventPayload) : Checked Unit :=
  match epochClaim payload with
  | some (channelId, claim) =>
    ensureIfSome (mlsCurrentEpoch s channelId) (fun current => claim = current) "stale-epoch"
  | none => .ok ()

variable (K : Crypto)

namespace Db

variable (db : Db) (event : Event)

def storeEvent : Checked Db := do
  ensure (∀ e ∈ db.events, e.hash K ≠ event.hash K) "UNIQUE constraint failed: events.event_hash"
  return { db with events := db.events ++ [event] }

/-- The row of a declared channel. Its id must be in the reserved range and free, and it
carries no messages yet. -/
def materializeChannelCreated : Checked Db :=
  match event.core.payload with
  | .channelCreated p => do
    ensure (e2eeChannelIdFloor ≤ p.channelId)
      s!"ChannelCreated.channel_id must be at or above the reserved floor {e2eeChannelIdFloor}"
    ensure (db.channelRow p.channelId = none) "channel id already exists on this server"
    ensure (∀ x ∈ db.messages.rows, x.2.channelId ≠ p.channelId)
      "channel id already carries message history on this server"
    ensure (p.kind = "text" ∧ p.parent = none)
      "unsupported ChannelCreated shape (this rung accepts kind=\"text\" with no parent)"
    let position := db.channels.foldl (fun m ch => max m (ch.position + 1)) 0
    let row : ChannelRow :=
      { id := p.channelId, name := p.name, channelType := .text, position, retentionSecs := none
        deleted := false, contentClass := some p.cls }
    return { db with
      channels := db.channels ++ [row]
      nextChannel := db.nextAfter p.channelId }
  | _ => return db

/-- The row id of a cited message, if it has a row in the same channel. -/
def resolveReplyTarget (channelId : ℕ) (replyTo : Option EventRef) : Option ℕ :=
  replyTo.bind fun target =>
    (db.messages.find? fun x => x.2.eventHash = some target ∧ x.2.channelId = channelId).map
      Prod.fst

def deriveMessageRow : Checked (Db × Option ℕ) :=
  match event.core.payload with
  | .messagePosted p => do
    let reply := db.resolveReplyTarget p.channelId p.replyTo
    let db' ← db.insertDerivedRow p.channelId event.core.author p.content event.core.timestamp
      reply (event.hash K)
    return (db', some db.messages.next)
  | .messagePostedE2ee p => do
    let reply := db.resolveReplyTarget p.channelId p.replyTo
    let db' ← db.insertSealedRow p.channelId event.core.author p.ciphertext event.core.timestamp
      reply (event.hash K)
    return (db', some db.messages.next)
  | _ => return (db, none)

/-- A cap is valid if it describes the stored file with its hash, and the author uploaded that
file or owns the server. -/
def AttachmentValid (cap : AttachmentCap) (author owner : PublicKey) (file : FileRow) : Prop :=
  file.size = cap.size ∧ file.mimeType = cap.declaredType ∧ file.uploadedBy = cap.uploader ∧
    (author = cap.uploader ∨ author = owner)

instance (cap : AttachmentCap) (author owner : PublicKey) (file : FileRow) :
    Decidable (AttachmentValid cap author owner file) :=
  inferInstanceAs (Decidable (_ ∧ _ ∧ _ ∧ (_ ∨ _)))

/-- Attach the file that a cap describes; an invalid cap, or one that is attached already, is
skipped. -/
def deriveAttachment (messageId : ℕ) (author owner : PublicKey) (position : ℕ)
    (cap : AttachmentCap) : Db :=
  match db.fileByHash cap.contentHash with
  | none => db
  | some (fileId, file) =>
    if AttachmentValid cap author owner file ∧
        ∀ x ∈ db.attachments.rows, ¬(x.2.messageId = messageId ∧ x.2.fileId = fileId) then
      db.createMessageAttachment messageId fileId position file.originalName file.media
    else db

def attachmentCaps (payload : EventPayload) : List AttachmentCap :=
  match payload with
  | .messagePosted p => p.attachments
  | .messagePostedE2ee p => p.attachments
  | _ => []

def deriveAttachments (messageId : ℕ) (owner : PublicKey) : Db :=
  (attachmentCaps event.core.payload).zipIdx.foldl (fun db x =>
    db.deriveAttachment messageId event.core.author owner x.2 x.1) db

/-- The row that a sealed edit targets. At ingest (`strict`) an edit by anyone but the row's
author is refused; when replayed it is skipped. -/
def sealedEditTarget (channelId : ℕ) (target : EventRef) (author : PublicKey) (strict : Bool) :
    Checked (Option ℕ) :=
  match db.rowOfHash target with
  | none => return none
  | some (id, row) => do
    ensure (row.channelId = channelId) "sealed edit cites a target in a different channel"
    ensure (row.isE2ee = true) "sealed edit targets a plaintext message"
    if row.author = author then return some id
    else do
      ensure (strict = false) "only a message's own author may edit it"
      return none

def applySealedEdit : Checked Db :=
  match event.core.payload with
  | .messageEditedE2ee p => do
    let target ← db.sealedEditTarget p.channelId p.target event.core.author true
    let id ← context target "sealed edit cites a message this server has not derived"
    db.updateSealedRow id p.ciphertext event.core.timestamp
  | _ => return db

/-- Delete the row that a tombstone names; an author's deletion must be by the row's author. -/
def applyTombstone : Checked (Db × List ℕ) :=
  match event.core.payload with
  | .messageDeleted p => do
    let (id, row) ← context (db.rowOfHash p.target)
      "tombstone cites a message this server has not derived"
    ensure (row.channelId = p.channelId) "tombstone cites a target in a different channel"
    ensure (p.reason = .author → row.author = event.core.author)
      "an author-reason delete must be authored by the message's author"
    db.deleteMessage id
  | _ => return (db, [])

def redactAttachment : Db :=
  match event.core.payload with
  | .attachmentRedacted contentHash => db.redactBlob contentHash event.core.author
  | _ => db

def attachDerived (messageId : Option ℕ) : Db :=
  match messageId, db.genesis with
  | some id, some g => db.deriveAttachments event id g.owner
  | _, _ => db

/-- The transaction of an accepted event. -/
def ingest : Checked (Db × List ℕ) := do
  let db ← prefixed "failed to store event: " (db.storeEvent K event)
  let db ← prefixed "event rejected: " (db.materializeChannelCreated event)
  let (db, derivedId) ← prefixed "failed to derive message: " (db.deriveMessageRow K event)
  let db := (db.attachDerived event derivedId).redactAttachment event
  let db ← prefixed "event rejected: " (db.applySealedEdit event)
  prefixed "event rejected: " (db.applyTombstone event)

/-- A plaintext post is bounded in length, and its channel must exist. -/
def checkPosted : Checked Unit :=
  match event.core.payload with
  | .messagePosted p => do
    ensure (p.content.utf8ByteSize ≤ maxMessageBytes)
      "message content too long (max 8000 characters)"
    ensure (db.getChannel p.channelId ≠ none) "channel not found"
  | _ => .ok ()

end Db

/-- `SubmitEvent`; the result lists the files that are now unused. -/
def ServerState.submitEvent (st : ServerState) (event : Event) (now : ℕ) :
    Checked (ServerState × List ℕ) := do
  let ls ← context st.logState "server is not running the event log (no genesis yet)"
  prefixed "event rejected: " (checkIngestCapsAt event now)
  checkEpochClaim ls event.core.payload
  let trial ← prefixed "event rejected: " (ls.apply K event)
  st.db.checkPosted event
  let (db, orphans) ← st.db.ingest K event
  return ({ db, logState := some trial }, orphans)

end Server
