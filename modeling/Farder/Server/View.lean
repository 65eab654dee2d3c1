import Farder.Server.Requests

/-! # What a message operation leaves alone

The view of a database is the part that the log and the messages live in. Attachments, files,
reactions and the search index are outside it, so most of the work of a deletion is a frame
fact, and what remains is one equation for each operation. -/
namespace Server

open EventLog Guarded

/-- The tables that the log and its message rows live in. -/
structure View where
  genesis : Option Genesis
  events : List Event
  messages : Table MessageRow
  channels : List ChannelRow

namespace Db

def view (db : Db) : View := ⟨db.genesis, db.events, db.messages, db.channels⟩

variable {K : Crypto} {db db' : Db} {event : Event} {l : List ℕ} {α β : Type}

@[simp] theorem view_genesis : db.view.genesis = db.genesis := rfl
@[simp] theorem view_events : db.view.events = db.events := rfl
@[simp] theorem view_messages : db.view.messages = db.messages := rfl
@[simp] theorem view_channels : db.view.channels = db.channels := rfl

theorem foldl_frame (out : Db → β) {f : Db → α → Db} (hf : ∀ db a, out (f db a) = out db)
    (as : List α) (db : Db) : out (as.foldl f db) = out db :=
  foldl_invariant (P := fun db' => out db' = out db) rfl fun db' h a _ => (hf db' a).trans h

theorem view_foldl {f : Db → α → Db} (hf : ∀ db a, (f db a).view = db.view) (as : List α)
    (db : Db) : (as.foldl f db).view = db.view :=
  foldl_frame view hf as db

theorem view_foldlM {f : β → α → Checked β} (out : β → Db)
    (hf : ∀ b a b', f b a = .ok b' → (out b').view = (out b).view) {as : List α} {b b' : β}
    (h : as.foldlM f b = .ok b') : (out b').view = (out b).view :=
  foldlM_invariant (P := fun c => (out c).view = (out b).view) h rfl
    fun c hc a _ c' h => (hf c a c' h).trans hc

/-! ## Files and attachments -/

@[simp] theorem view_removeBlob (hash : String) : (db.removeBlob hash).view = db.view := rfl

@[simp] theorem view_decrementRefCount (id : ℕ) : (db.decrementRefCount id).view = db.view := rfl

@[simp] theorem view_cleanupOrphanedFile (id : ℕ) : (db.cleanupOrphanedFile id).view = db.view := by
  unfold cleanupOrphanedFile
  split
  · rfl
  · split <;> rfl

@[simp] theorem view_cleanupAllOrphans (now age : ℕ) :
    (db.cleanupAllOrphans now age).view = db.view :=
  view_foldl (f := fun db (x : ℕ × FileRow) => db.removeBlob x.2.hash) (fun _ _ => rfl) _ db

@[simp] theorem view_redactBlob (hash : String) (redactor : PublicKey) :
    (db.redactBlob hash redactor).view = db.view := by
  unfold redactBlob
  split <;> rfl

@[simp] theorem view_deriveAttachment (id : ℕ) (author owner : PublicKey) (position : ℕ)
    (cap : AttachmentCap) : (db.deriveAttachment id author owner position cap).view = db.view := by
  unfold deriveAttachment
  split
  · rfl
  · split <;> rfl

@[simp] theorem view_deriveAttachments (id : ℕ) (owner : PublicKey) :
    (db.deriveAttachments event id owner).view = db.view :=
  view_foldl (fun _ _ => view_deriveAttachment ..) _ db

@[simp] theorem view_attachDerived (id : Option ℕ) :
    (db.attachDerived event id).view = db.view := by
  unfold attachDerived
  split <;> simp

@[simp] theorem view_redactAttachment : (db.redactAttachment event).view = db.view := by
  unfold redactAttachment
  split <;> simp

theorem view_releaseFile {acc acc' : Db × List ℕ} {id : ℕ} (h : releaseFile acc id = .ok acc') :
    acc'.1.view = acc.1.view := by
  simp only [releaseFile, bind_eq_ok, pure_eq_ok] at h
  obtain ⟨file, -, rfl⟩ := h
  simp

theorem view_deleteAttachmentsForMessage {id : ℕ}
    (h : db.deleteAttachmentsForMessage id = .ok (db', l)) : db'.view = db.view :=
  view_foldlM Prod.fst (fun _ _ _ h => view_releaseFile h) h

theorem view_removeAttachmentsForAuthorMessages {author : PublicKey}
    (h : db.removeAttachmentsForAuthorMessages author = .ok (db', l)) : db'.view = db.view := by
  refine view_foldlM (α := ℕ) Prod.fst ?_ h
  intro acc id acc' h
  simp only [bind_eq_ok, pure_eq_ok] at h
  obtain ⟨⟨db₁, orphans⟩, hdelete, rfl⟩ := h
  exact view_deleteAttachmentsForMessage hdelete

theorem view_storeOrReuse {uploadedBy : PublicKey} {name hash mime : String} {bytes : List UInt8}
    {size now id : ℕ} {media : MediaInfo}
    (h : db.storeOrReuseFromTempFile K uploadedBy name bytes hash mime size media now =
      .ok (db', id)) : db'.view = db.view := by
  unfold storeOrReuseFromTempFile at h
  split at h
  · simp only [pure_eq_ok, Prod.mk.injEq] at h
    rw [← h.1]
  · simp only [bind_eq_ok, pure_eq_ok, Prod.mk.injEq] at h
    obtain ⟨-, -, rfl, -⟩ := h
    rfl

@[simp] theorem view_unindex (id : ℕ) (row : MessageRow) : (db.unindex id row).view = db.view := by
  unfold unindex
  split <;> rfl

@[simp] theorem view_reindex (id : ℕ) (old new : String) :
    (db.reindex id old new).view = db.view := rfl

@[simp] theorem view_deleteReactionsForMessage (id : ℕ) :
    (db.deleteReactionsForMessage id).view = db.view := rfl

theorem view_insertRow {row : MessageRow} (h : db.insertRow row = .ok db') :
    (row.eventHash = none ∨ ∀ x ∈ db.messages, x.2.eventHash ≠ row.eventHash) ∧
      db'.view = { db.view with messages := db.messages.insert row } := by
  simp only [insertRow, bind_eq_ok, ensure_eq_ok, pure_eq_ok] at h
  obtain ⟨-, hunique, rfl⟩ := h
  exact ⟨hunique, rfl⟩

theorem view_updateSealedRow {id editedAt : ℕ} {sealed : List UInt8}
    (h : db.updateSealedRow id sealed editedAt = .ok db') :
    ∃ row, (id, row) ∈ db.messages ∧ db.resolve row.channelId = .e2ee ∧ row.isE2ee = true ∧
      db' = { db with messages := db.messages.modify id fun row =>
                { row with sealed := some sealed, editedAt := some editedAt } } := by
  simp only [updateSealedRow, requireE2ee, bind_eq_ok, context_eq_ok, ensure_eq_ok,
    pure_eq_ok] at h
  obtain ⟨row, hrow, -, hclass, -, hsealed, rfl⟩ := h
  exact ⟨row, Table.get?_eq_some.mp hrow, hclass, hsealed, rfl⟩

theorem view_editMessage {id now : ℕ} {content : String}
    (h : db.editMessage id content now = .ok db') :
    ∃ row, (id, row) ∈ db.messages ∧ db.resolve row.channelId = .plaintext ∧
      db'.view = { db.view with messages := db.messages.modify id fun row =>
                    { row with content, editedAt := some now } } := by
  simp only [editMessage, requirePlaintext, bind_eq_ok, context_eq_ok, ensure_eq_ok,
    pure_eq_ok] at h
  obtain ⟨row, hrow, -, hclass, rfl⟩ := h
  exact ⟨row, Table.get?_eq_some.mp hrow, hclass, rfl⟩

theorem view_onMessages {v : View} (h : db.view = v) (f : Table MessageRow → Table MessageRow) :
    ({ db with messages := f db.messages } : Db).view = { v with messages := f v.messages } := by
  subst h
  rfl

theorem view_deleteMessage {id : ℕ} (h : db.deleteMessage id = .ok (db', l)) :
    db'.view = { db.view with messages := db.messages.delete fun x => x.1 = id } := by
  simp only [deleteMessage, bind_eq_ok, pure_eq_ok, Prod.mk.injEq] at h
  obtain ⟨⟨db₁, orphans⟩, hdelete, rfl, -⟩ := h
  refine view_onMessages ?_ fun t => t.delete fun x => x.1 = id
  have hview := view_deleteAttachmentsForMessage hdelete
  split
  · rw [view_unindex, view_deleteReactionsForMessage, hview]
  · rw [view_deleteReactionsForMessage, hview]

theorem view_deleteMessagesBefore {channelId cutoff : ℕ}
    (h : db.deleteMessagesBefore channelId cutoff = .ok db') :
    db'.view = { db.view with
      messages := db.messages.delete fun x => isOlderIn channelId cutoff x.2 } := by
  simp only [deleteMessagesBefore, bind_eq_ok, pure_eq_ok] at h
  obtain ⟨db₁, hdelete, rfl⟩ := h
  refine view_onMessages ?_ fun t => t.delete fun x => isOlderIn channelId cutoff x.2
  rw [view_foldl (f := fun db (x : ℕ × MessageRow) => db.unindex x.1 x.2)
    fun _ x => view_unindex x.1 x.2]
  refine view_foldlM (fun db => db) ?_ hdelete
  intro db x db' h
  simp only [bind_eq_ok, pure_eq_ok] at h
  obtain ⟨⟨db₁, orphans⟩, hdelete, rfl⟩ := h
  show (db₁.deleteReactionsForMessage x.1).view = db.view
  rw [view_deleteReactionsForMessage, view_deleteAttachmentsForMessage hdelete]

theorem view_anonymize (author : PublicKey) :
    (db.anonymizeMessagesByAuthor author).view = { db.view with
      messages := db.messages.map fun _ row =>
        if row.author = author then anonymized row else row } := by
  have hview := view_foldl (f := fun db (x : ℕ × MessageRow) =>
    db.reindex x.1 x.2.content "[deleted]") (fun _ _ => rfl)
    (db.messages.rows.filter fun x => x.2.author = author ∧ x.2.isE2ee = false) db
  exact congrArg (fun v : View => { v with
    messages := db.messages.map fun _ row => if row.author = author then anonymized row else row })
    hview

end Db
end Server
