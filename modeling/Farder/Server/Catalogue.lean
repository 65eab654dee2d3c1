import Farder.Server.HostRun
import Farder.Server.View

/-! # The catalogue of a server

Rows of channels are written by the requests about channels, by the creation of threads and of
direct messages, and by the ingest of a declaration; the genesis is written when the server is
claimed. Everything that happens to messages, files and members leaves both alone. -/
namespace Server

open EventLog Guarded

namespace Db

/-- The rows of channels, the next id that their table gives out, and the genesis. -/
def catalogue (db : Db) : List ChannelRow × ℕ × Option Genesis :=
  (db.channels, db.nextChannel, db.genesis)

variable {K : Crypto} {db db' : Db} {event : Event} {l : List ℕ} {α β : Type}

theorem channels_eq (h : db'.catalogue = db.catalogue) : db'.channels = db.channels :=
  congrArg Prod.fst h

theorem nextChannel_eq (h : db'.catalogue = db.catalogue) :
    db'.nextChannel = db.nextChannel :=
  congrArg (fun c => c.2.1) h

theorem genesis_eq (h : db'.catalogue = db.catalogue) : db'.genesis = db.genesis :=
  congrArg (fun c => c.2.2) h

theorem catalogue_foldl {f : Db → α → Db}
    (hf : ∀ db a, (f db a).catalogue = db.catalogue) (as : List α) :
    (as.foldl f db).catalogue = db.catalogue :=
  foldl_frame catalogue hf as db

theorem catalogue_foldlM {f : β → α → Checked β} (out : β → Db)
    (hf : ∀ b a b', f b a = .ok b' → (out b').catalogue = (out b).catalogue) {as : List α}
    {b b' : β} (h : as.foldlM f b = .ok b') : (out b').catalogue = (out b).catalogue :=
  foldlM_invariant (P := fun c => (out c).catalogue = (out b).catalogue) h rfl
    fun c hc a _ c' h => (hf c a c' h).trans hc

/-! ## Files and attachments -/

@[simp] theorem catalogue_cleanupOrphanedFile (id : ℕ) :
    (db.cleanupOrphanedFile id).catalogue = db.catalogue := by
  unfold cleanupOrphanedFile
  split
  · rfl
  · split <;> rfl

@[simp] theorem catalogue_cleanupAllOrphans (now age : ℕ) :
    (db.cleanupAllOrphans now age).catalogue = db.catalogue :=
  catalogue_foldl (f := fun db (x : ℕ × FileRow) => db.removeBlob x.2.hash) (fun _ _ => rfl) _

@[simp] theorem catalogue_redactAttachment :
    (db.redactAttachment event).catalogue = db.catalogue := by
  unfold redactAttachment redactBlob
  split
  · split <;> rfl
  · rfl

@[simp] theorem catalogue_deriveAttachment (id : ℕ) (author owner : PublicKey) (position : ℕ)
    (cap : AttachmentCap) :
    (db.deriveAttachment id author owner position cap).catalogue = db.catalogue := by
  unfold deriveAttachment
  split
  · rfl
  · split <;> rfl

@[simp] theorem catalogue_attachDerived (id : Option ℕ) :
    (db.attachDerived event id).catalogue = db.catalogue := by
  unfold attachDerived
  split
  · exact catalogue_foldl (fun _ _ => catalogue_deriveAttachment ..) _
  · rfl

theorem catalogue_releaseFile {acc acc' : Db × List ℕ} {id : ℕ}
    (h : releaseFile acc id = .ok acc') : acc'.1.catalogue = acc.1.catalogue := by
  simp only [releaseFile, bind_eq_ok, pure_eq_ok] at h
  obtain ⟨file, -, rfl⟩ := h
  rfl

theorem catalogue_deleteAttachmentsForMessage {id : ℕ}
    (h : db.deleteAttachmentsForMessage id = .ok (db', l)) :
    db'.catalogue = db.catalogue :=
  catalogue_foldlM Prod.fst (fun _ _ _ h => catalogue_releaseFile h) h

theorem catalogue_removeAttachmentsForAuthorMessages {author : PublicKey}
    (h : db.removeAttachmentsForAuthorMessages author = .ok (db', l)) :
    db'.catalogue = db.catalogue := by
  refine catalogue_foldlM (α := ℕ) Prod.fst ?_ h
  intro acc id acc' h
  simp only [bind_eq_ok, pure_eq_ok] at h
  obtain ⟨⟨db₁, orphans⟩, hdelete, rfl⟩ := h
  exact catalogue_deleteAttachmentsForMessage hdelete

theorem catalogue_storeOrReuse {uploadedBy : PublicKey} {name hash mime : String}
    {bytes : List UInt8} {size now id : ℕ} {media : MediaInfo}
    (h : db.storeOrReuseFromTempFile K uploadedBy name bytes hash mime size media now =
      .ok (db', id)) : db'.catalogue = db.catalogue := by
  unfold storeOrReuseFromTempFile at h
  split at h
  · simp only [pure_eq_ok, Prod.mk.injEq] at h
    rw [← h.1]
  · simp only [bind_eq_ok, pure_eq_ok, Prod.mk.injEq] at h
    obtain ⟨-, -, rfl, -⟩ := h
    rfl

theorem catalogue_insertRow {row : MessageRow} (h : db.insertRow row = .ok db') :
    db'.catalogue = db.catalogue := by
  simp only [insertRow, bind_eq_ok, pure_eq_ok] at h
  obtain ⟨-, -, rfl⟩ := h
  rfl

theorem catalogue_insertMessage {channelId now : ℕ} {author : PublicKey} {content : String}
    {replyTo : Option ℕ} (h : db.insertMessage channelId author content replyTo now = .ok db') :
    db'.catalogue = db.catalogue := by
  simp only [insertMessage, bind_eq_ok] at h
  obtain ⟨-, -, hinsert⟩ := h
  exact catalogue_insertRow hinsert

@[simp] theorem catalogue_unindex (id : ℕ) (row : MessageRow) :
    (db.unindex id row).catalogue = db.catalogue := by
  unfold unindex
  split <;> rfl

theorem catalogue_deleteMessage {id : ℕ} (h : db.deleteMessage id = .ok (db', l)) :
    db'.catalogue = db.catalogue := by
  simp only [deleteMessage, bind_eq_ok, pure_eq_ok, Prod.mk.injEq] at h
  obtain ⟨⟨db₁, orphans⟩, hdelete, rfl, -⟩ := h
  have htable := catalogue_deleteAttachmentsForMessage hdelete
  cases hrow : (db₁.deleteReactionsForMessage id).messages.get? id with
  | none => exact htable
  | some row => exact (catalogue_unindex id row).trans htable

theorem catalogue_requestDeleteMessage {member : PublicKey} {id : ℕ} {manages : Bool}
    (h : db.requestDeleteMessage member id manages = .ok (db', l)) :
    db'.catalogue = db.catalogue := by
  simp only [requestDeleteMessage, bind_eq_ok] at h
  obtain ⟨row, -, -, -, hdelete⟩ := h
  exact catalogue_deleteMessage hdelete

theorem catalogue_requestEditMessage {member : PublicKey} {id now : ℕ} {content : String}
    {v2 : Bool} (h : db.requestEditMessage member id content v2 now = .ok db') :
    db'.catalogue = db.catalogue := by
  simp only [requestEditMessage, editMessage, bind_eq_ok, pure_eq_ok] at h
  obtain ⟨-, -, -, -, -, -, -, -, row, -, -, -, rfl⟩ := h
  rfl

theorem catalogue_addReaction {member : PublicKey} {id now : ℕ} {emoji : String}
    {fileId : Option ℕ} (h : db.addReaction id member emoji fileId now = .ok db') :
    db'.catalogue = db.catalogue := by
  simp only [addReaction, bind_eq_ok, pure_eq_ok] at h
  obtain ⟨-, -, rfl⟩ := h
  rfl

theorem catalogue_deleteMessagesBefore {channelId cutoff : ℕ}
    (h : db.deleteMessagesBefore channelId cutoff = .ok db') :
    db'.catalogue = db.catalogue := by
  simp only [deleteMessagesBefore, bind_eq_ok, pure_eq_ok] at h
  obtain ⟨db₁, hdelete, rfl⟩ := h
  refine (catalogue_foldl (f := fun db (x : ℕ × MessageRow) => db.unindex x.1 x.2)
    (fun _ x => catalogue_unindex x.1 x.2) _).trans ?_
  refine catalogue_foldlM (fun db => db) ?_ hdelete
  intro db x db' h
  simp only [bind_eq_ok, pure_eq_ok] at h
  obtain ⟨⟨db₁, orphans⟩, hdelete, rfl⟩ := h
  have htable := catalogue_deleteAttachmentsForMessage hdelete
  exact htable

theorem catalogue_purgeExpiredMessages {now : ℕ} (h : db.purgeExpiredMessages now = .ok db') :
    db'.catalogue = db.catalogue := by
  simp only [purgeExpiredMessages, bind_eq_ok, pure_eq_ok] at h
  obtain ⟨db₁, hpurge, rfl⟩ := h
  rw [catalogue_cleanupAllOrphans]
  refine catalogue_foldlM (fun db => db) ?_ hpurge
  intro db ch db' h
  unfold purgeChannel at h
  split at h
  · rw [pure_eq_ok.mp h]
  · exact catalogue_deleteMessagesBefore h

theorem catalogue_executeDeletion {req : DeletionRequest}
    (h : db.executeDeletion req = .ok db') :
    db'.catalogue = db.catalogue := by
  simp only [executeDeletion, bind_eq_ok, pure_eq_ok] at h
  obtain ⟨⟨db₁, orphans⟩, hremove, rfl⟩ := h
  have hcleaned : (orphans.foldl cleanupOrphanedFile db₁).catalogue = db.catalogue :=
    (catalogue_foldl (fun _ _ => catalogue_cleanupOrphanedFile _) _).trans
      (catalogue_removeAttachmentsForAuthorMessages hremove)
  rw [← hcleaned]
  exact catalogue_foldl (f := fun db (x : ℕ × MessageRow) =>
    db.reindex x.1 x.2.content "[deleted]") (fun _ _ => rfl) _

theorem catalogue_deriveMessageRow {id : Option ℕ}
    (h : db.deriveMessageRow K event = .ok (db', id)) : db'.catalogue = db.catalogue := by
  unfold deriveMessageRow at h
  split at h
  · simp only [insertDerivedRow, bind_eq_ok, pure_eq_ok, Prod.mk.injEq] at h
    obtain ⟨db', ⟨-, -, hinsert⟩, rfl, -⟩ := h
    exact catalogue_insertRow hinsert
  · simp only [insertSealedRow, bind_eq_ok, pure_eq_ok, Prod.mk.injEq] at h
    obtain ⟨db', ⟨-, -, hinsert⟩, rfl, -⟩ := h
    exact catalogue_insertRow hinsert
  · obtain ⟨rfl, -⟩ := Prod.mk.inj (pure_eq_ok.mp h)
    rfl

theorem catalogue_updateSealedRow {id editedAt : ℕ} {ciphertext : List UInt8}
    (h : db.updateSealedRow id ciphertext editedAt = .ok db') :
    db'.catalogue = db.catalogue := by
  simp only [updateSealedRow, bind_eq_ok, pure_eq_ok] at h
  obtain ⟨row, -, -, -, -, -, rfl⟩ := h
  rfl

/-- An accepted event writes to the channels only if it declares one: one row more, under an id
of the reserved range that no row has. -/
theorem catalogue_ingest (h : db.ingest K event = .ok (db', l)) :
    (∃ p row, event.core.payload = .channelCreated p ∧ e2eeChannelIdFloor ≤ p.channelId ∧
      db.channelRow p.channelId = none ∧ row.id = p.channelId ∧
      db'.catalogue =
        (db.channels ++ [row], db.nextAfter p.channelId, db.genesis)) ∨
    (∀ p, event.core.payload ≠ .channelCreated p) ∧ db'.catalogue = db.catalogue := by
  simp only [ingest, bind_eq_ok, prefixed_eq_ok] at h
  obtain ⟨db₁, hstore, db₂, hmaterialize, ⟨db₃, id⟩, hderive, db₄, hedit, htombstone⟩ := h
  have hstored : db₁.catalogue = db.catalogue := by
    simp only [storeEvent, bind_eq_ok, pure_eq_ok] at hstore
    obtain ⟨-, -, rfl⟩ := hstore
    rfl
  have hderived : db₃.catalogue = db₂.catalogue := catalogue_deriveMessageRow hderive
  have hedited : db₄.catalogue = db₃.catalogue := by
    have hredacted : ((db₃.attachDerived event id).redactAttachment event).catalogue =
        db₃.catalogue := catalogue_redactAttachment.trans (catalogue_attachDerived id)
    rw [← hredacted]
    unfold applySealedEdit at hedit
    split at hedit
    · simp only [bind_eq_ok] at hedit
      obtain ⟨target, -, id, -, hedit⟩ := hedit
      exact catalogue_updateSealedRow hedit
    · rw [pure_eq_ok.mp hedit]
  have hdeleted : db'.catalogue = db₄.catalogue := by
    unfold applyTombstone at htombstone
    split at htombstone
    · simp only [bind_eq_ok] at htombstone
      obtain ⟨⟨id, row⟩, -, -, -, -, -, hdelete⟩ := htombstone
      exact catalogue_deleteMessage hdelete
    · rw [← (Prod.mk.inj (pure_eq_ok.mp htombstone)).1]
  rw [hdeleted, hedited, hderived]
  unfold materializeChannelCreated at hmaterialize
  split at hmaterialize
  · next p hp =>
    simp only [bind_eq_ok, ensure_eq_ok, pure_eq_ok] at hmaterialize
    obtain ⟨-, hfloor, -, hfree, -, -, -, -, rfl⟩ := hmaterialize
    rw [channelRow, channels_eq hstored] at hfree
    rw [catalogue, nextAfter, channels_eq hstored, nextChannel_eq hstored, genesis_eq hstored]
    exact .inl ⟨p, _, hp, hfloor, hfree, rfl, rfl⟩
  · next hother =>
    obtain rfl := pure_eq_ok.mp hmaterialize
    exact .inr ⟨fun p hp => hother p hp, hstored⟩

end Db
end Server
