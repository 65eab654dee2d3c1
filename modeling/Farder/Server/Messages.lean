import Farder.Server.Db

/-! # Files and attachments

Stored files are shared by content hash and counted by the attachments that use them. A file
that nothing uses is removed when its last user goes, or by the sweep of old orphans. -/
namespace Server.Db

open EventLog Guarded

variable (K : Crypto) (db : Db)

/-- `attachments::get_file_by_hash`. -/
def fileByHash (hash : String) : Option (ℕ × FileRow) :=
  db.files.find? fun x => x.2.hash = hash

def removeBlob (hash : String) : Db :=
  { db with blobs := db.blobs.filter fun b => b.1 ≠ hash }

/-- The file of an upload: an existing one with that hash, else a new one from the bytes. -/
def storeOrReuseFromTempFile (uploadedBy : PublicKey) (originalName : String) (bytes : List UInt8)
    (declaredHash mimeType : String) (fileSize : ℕ) (media : MediaInfo) (now : ℕ) :
    Checked (Db × ℕ) :=
  match db.fileByHash declaredHash with
  | some (id, _) => return (db, id)
  | none => do
    let actualHash := K.sha256Hex bytes
    ensure (actualHash = declaredHash)
      s!"hash mismatch: declared {declaredHash} but computed {actualHash}"
    let file : FileRow :=
      { hash := actualHash, size := fileSize, mimeType, originalName, uploadedBy
        uploadedAt := now, refCount := 0, media, redactedBy := none }
    let db' : Db :=
      { db with
        files := db.files.insert file
        blobs := (db.removeBlob actualHash).blobs ++ [(actualHash, bytes)] }
    return (db', db.files.next)

def incrementRefCount (fileId : ℕ) : Db :=
  { db with files := db.files.modify fileId fun f => { f with refCount := f.refCount + 1 } }

def decrementRefCount (fileId : ℕ) : Db :=
  { db with files := db.files.modify fileId fun f => { f with refCount := f.refCount - 1 } }

def cleanupOrphanedFile (fileId : ℕ) : Db :=
  match db.files.get? fileId with
  | none => db
  | some file =>
    if file.refCount = 0 then
      { db.removeBlob file.hash with files := db.files.delete fun x => x.1 = fileId }
    else db

def isOldOrphan (cutoff : ℕ) (file : FileRow) : Bool :=
  file.refCount = 0 ∧ file.uploadedAt < cutoff

def cleanupAllOrphans (now maxAgeSecs : ℕ) : Db :=
  let cutoff := now - maxAgeSecs
  let orphans := db.files.rows.filter fun x => isOldOrphan cutoff x.2
  { orphans.foldl (fun db x => db.removeBlob x.2.hash) db with
    files := db.files.delete fun x => isOldOrphan cutoff x.2 }

/-- Mark the file with a hash redacted, and remove its bytes. -/
def redactBlob (contentHash : String) (redactor : PublicKey) : Db :=
  match db.fileByHash contentHash with
  | none => db
  | some _ =>
    { db.removeBlob contentHash with
      files := db.files.map fun _ f =>
        if f.hash = contentHash then { f with redactedBy := some redactor } else f }

def createMessageAttachment (messageId fileId position : ℕ) (originalName : String)
    (media : MediaInfo) : Db :=
  { db with
    attachments := db.attachments.insert ⟨messageId, fileId, position, originalName, media⟩
    }.incrementRefCount fileId

/-- The file ids of a message's attachments, in the order of the table. -/
def attachedFiles (messageId : ℕ) : List ℕ :=
  (db.attachments.rows.filter fun x => x.2.messageId = messageId).map fun x => x.2.fileId

def releaseFile (acc : Db × List ℕ) (fileId : ℕ) : Checked (Db × List ℕ) := do
  let db := acc.1.decrementRefCount fileId
  let file ← context (db.files.get? fileId) "Query returned no rows"
  return (db, if file.refCount = 0 then acc.2 ++ [fileId] else acc.2)

def deleteAttachmentsForMessage (messageId : ℕ) : Checked (Db × List ℕ) :=
  let cut : Db :=
    { db with attachments := db.attachments.delete fun x => x.2.messageId = messageId }
  (db.attachedFiles messageId).foldlM releaseFile (cut, [])

def messagesOf (author : PublicKey) : List ℕ :=
  (db.messages.rows.filter fun x => x.2.author = author).map Prod.fst

def removeAttachmentsForAuthorMessages (author : PublicKey) : Checked (Db × List ℕ) :=
  (db.messagesOf author).foldlM (fun acc messageId => do
    let (db, orphans) ← acc.1.deleteAttachmentsForMessage messageId
    return (db, acc.2 ++ orphans)) (db, [])

def deleteReactionsForMessage (messageId : ℕ) : Db :=
  { db with reactions := db.reactions.filter fun r => r.messageId ≠ messageId }

def deleteReactionsByUser (user : PublicKey) : Db :=
  { db with reactions := db.reactions.filter fun r => r.userKey ≠ user }

end Server.Db

/-! ## The message view

Rows of the log enter the `messages` table through one insertion behind two doors, one for
each content class; the search index follows every row that is not sealed. -/
namespace Server.Db

open EventLog Guarded

variable (db : Db)

/-- The unique index on `event_hash` refuses a second row of one event. -/
def insertRow (row : MessageRow) : Checked Db := do
  ensure (row.eventHash = none ∨ ∀ x ∈ db.messages.rows, x.2.eventHash ≠ row.eventHash)
    "UNIQUE constraint failed: messages.event_hash"
  return { db with
    messages := db.messages.insert row
    messagesFts :=
      if row.isE2ee then db.messagesFts else db.messagesFts ++ [(db.messages.next, row.content)] }

/-- The door for the plaintext content of the log. -/
def insertDerivedRow (channelId : ℕ) (author : PublicKey) (content : String) (timestamp : ℕ)
    (replyTo : Option ℕ) (eventHash : EventHash) : Checked Db := do
  db.requirePlaintextForDerived channelId
  db.insertRow ⟨channelId, author, content, timestamp, none, replyTo, some eventHash, none, false⟩

def insertSealedRow (channelId : ℕ) (author : PublicKey) (sealed : List UInt8) (timestamp : ℕ)
    (replyTo : Option ℕ) (eventHash : EventHash) : Checked Db := do
  db.requireE2ee channelId
  db.insertRow
    ⟨channelId, author, "", timestamp, none, replyTo, some eventHash, some sealed, true⟩

def updateSealedRow (id : ℕ) (sealed : List UInt8) (editedAt : ℕ) : Checked Db := do
  let row ← context (db.messages.get? id) "Query returned no rows"
  db.requireE2ee row.channelId
  ensure (row.isE2ee = true) "sealed edits only apply to sealed rows"
  return { db with
    messages := db.messages.modify id fun row =>
      { row with sealed := some sealed, editedAt := some editedAt } }

/-- Take the entry out of the search index and put another one in. -/
def reindex (id : ℕ) (old new : String) : Db :=
  { db with messagesFts := db.messagesFts.erase (id, old) ++ [(id, new)] }

def editMessage (id : ℕ) (newContent : String) (now : ℕ) : Checked Db := do
  let row ← context (db.messages.get? id) "Query returned no rows"
  db.requirePlaintext row.channelId
  return { db with
    messages := db.messages.modify id fun row =>
      { row with content := newContent, editedAt := some now } }.reindex id row.content newContent

/-- Take a deleted row out of the search index; a sealed row was never in it. -/
def unindex (id : ℕ) (row : MessageRow) : Db :=
  if row.isE2ee then db else { db with messagesFts := db.messagesFts.erase (id, row.content) }

/-- Delete a message with its attachments and reactions; the result lists the files that are
now unused. -/
def deleteMessage (id : ℕ) : Checked (Db × List ℕ) := do
  let (db, orphans) ← db.deleteAttachmentsForMessage id
  let db := db.deleteReactionsForMessage id
  let db := match db.messages.get? id with
    | some row => db.unindex id row
    | none => db
  return ({ db with messages := db.messages.delete fun x => x.1 = id }, orphans)

def isOlderIn (channelId cutoff : ℕ) (row : MessageRow) : Bool :=
  row.channelId = channelId ∧ row.timestamp < cutoff

def deleteMessagesBefore (channelId cutoff : ℕ) : Checked Db := do
  let rows := db.messages.rows.filter fun x => isOlderIn channelId cutoff x.2
  let db ← rows.foldlM (fun db x => do
    let (db, _) ← Db.deleteAttachmentsForMessage db x.1
    return db.deleteReactionsForMessage x.1) db
  let db := rows.foldl (fun db x => db.unindex x.1 x.2) db
  return { db with messages := db.messages.delete fun x => isOlderIn channelId cutoff x.2 }

/-- What the deletion of its author's data leaves of a row: a sealed body stays as it is. -/
def anonymized (row : MessageRow) : MessageRow :=
  { row with
    author := deletedUserKey
    content := if row.isE2ee then row.content else "[deleted]" }

def anonymizeMessagesByAuthor (author : PublicKey) : Db :=
  let rows := db.messages.rows.filter fun x => x.2.author = author ∧ x.2.isE2ee = false
  { rows.foldl (fun db x => db.reindex x.1 x.2.content "[deleted]") db with
    messages := db.messages.map fun _ row =>
      if row.author = author then anonymized row else row }

end Server.Db
