import Farder.Server.AttachmentLinks

/-! # How messages, files and attachments advance

No operation gives a message or a file an id that was given out before, and none attaches a
file to a message that no event derived. So a link that was removed can come back only while
its message is there, with its event, and so is its file. -/
namespace Server.Db

open EventLog Guarded

variable {K : Crypto} {db db' db'' : Db} {e : Event} {l : List ℕ} {now : ℕ} {p : ℕ → Bool}

/-- The same event derived both rows, or none did. -/
def SameOrigin (r r' : MessageRow) : Prop := r'.eventHash = r.eventHash

/-- Nothing will attach the file to the message again: no event stands behind the message, or
the file is gone. -/
def Unlinkable (db : Db) (messageId fileId : ℕ) : Prop :=
  (∀ row, (messageId, row) ∈ db.messages → row.eventHash = none) ∨
    ∀ file, (fileId, file) ∉ db.files

structure Advances (db db' : Db) : Prop where
  messages : db.messages.Evolves SameOrigin db'.messages
  files : db.files.Evolves SameFile db'.files
  links : db'.LinksKept
  attached : ∀ m f, db'.Attached m f →
    db.Attached m f ∨ ∃ row, (m, row) ∈ db'.messages ∧ row.eventHash ≠ none

/-- A step whose removed links stay removed. -/
structure Proceeds (db db' : Db) : Prop extends Advances db db' where
  final : ∀ m f, db.Attached m f → db'.Attached m f ∨ db'.Unlinkable m f

theorem LinksKept.row (h : db.LinksKept) {m f : ℕ} (hm : db.Attached m f) :
    ∃ row, (m, row) ∈ db.messages := by
  obtain ⟨a, ha, rfl, -⟩ := hm
  exact h.message a ha

theorem LinksKept.fileRow (h : db.LinksKept) {m f : ℕ} (hm : db.Attached m f) :
    ∃ file, (f, file) ∈ db.files := by
  obtain ⟨a, ha, -, rfl⟩ := hm
  exact h.file a ha

theorem Advances.unlinkable (h : Advances db db') {m f : ℕ} (hm : m < db.messages.next)
    (hf : f < db.files.next) (hgone : db.Unlinkable m f) : db'.Unlinkable m f := by
  rcases hgone with hgone | hgone
  · refine .inl fun row' hrow' => ?_
    obtain ⟨row, hrow, hsame⟩ := h.messages.rows _ hrow' hm
    exact Eq.trans hsame (hgone row hrow)
  · refine .inr fun file' hfile' => ?_
    obtain ⟨file, hfile, -⟩ := h.files.rows _ hfile' hf
    exact hgone file hfile

theorem Advances.trans (h : Advances db db') (k : Advances db' db'') : Advances db db'' where
  messages := h.messages.trans (fun _ _ _ h k => Eq.trans k h) k.messages
  files := h.files.trans (fun _ _ _ h k => Eq.trans k h) k.files
  links := k.links
  attached := by
    intro m f hm
    rcases k.attached m f hm with hm' | hm'
    · rcases h.attached m f hm' with hm'' | ⟨row', hrow', hhash⟩
      · exact .inl hm''
      · -- The message is the same one as when the link was made.
        obtain ⟨row, hrow⟩ := k.links.row hm
        have hlt : m < db'.messages.next := Table.key_lt hrow'
        obtain ⟨r, hr, hsame⟩ := k.messages.rows _ hrow hlt
        obtain rfl := Table.row_eq hr hrow'
        exact .inr ⟨row, hrow, fun hnone => hhash (hsame.symm.trans hnone)⟩
    · exact .inr hm'

theorem Proceeds.trans (hl : db.LinksKept) (h : Proceeds db db') (k : Proceeds db' db'') :
    Proceeds db db'' where
  toAdvances := h.toAdvances.trans k.toAdvances
  final := by
    intro m f hm
    rcases h.final m f hm with hm' | hgone
    · exact k.final m f hm'
    · obtain ⟨row, hrow⟩ := hl.row hm
      obtain ⟨file, hfile⟩ := hl.fileRow hm
      exact .inr (k.toAdvances.unlinkable ((Table.key_lt hrow).trans_le h.messages.next)
        ((Table.key_lt hfile).trans_le h.files.next) hgone)

/-- The link was made before, is gone now, and nothing will make it again. -/
structure Severed (db : Db) (messageId fileId : ℕ) : Prop where
  detached : ¬db.Attached messageId fileId
  message : messageId < db.messages.next
  file : fileId < db.files.next
  unlinkable : db.Unlinkable messageId fileId

theorem Severed.advances {m f : ℕ} (h : db.Severed m f) (hstep : Advances db db') :
    db'.Severed m f := by
  have hgone := hstep.unlinkable h.message h.file h.unlinkable
  refine ⟨fun hm => ?_, h.message.trans_le hstep.messages.next,
    h.file.trans_le hstep.files.next, hgone⟩
  obtain ⟨file, hfile⟩ := hstep.links.fileRow hm
  rcases hstep.attached m f hm with hold | ⟨row, hrow, hhash⟩
  · exact h.detached hold
  · rcases hgone with hgone | hgone
    · exact hhash (hgone row hrow)
    · exact hgone file hfile

theorem Proceeds.severed {m f : ℕ} (h : Proceeds db db') (hl : db.LinksKept)
    (hm : db.Attached m f) (hgone : ¬db'.Attached m f) : db'.Severed m f := by
  obtain ⟨row, hrow⟩ := hl.row hm
  obtain ⟨file, hfile⟩ := hl.fileRow hm
  exact ⟨hgone, (Table.key_lt hrow).trans_le h.messages.next,
    (Table.key_lt hfile).trans_le h.files.next, (h.final m f hm).resolve_left hgone⟩

/-! ## Steps on one of the tables -/

/-- The tables that attachments live in. -/
def fileView (db : Db) : Table FileRow × Table AttachmentRow := (db.files, db.attachments)

theorem attached_congr (h : db'.attachments = db.attachments) {m f : ℕ} :
    db'.Attached m f ↔ db.Attached m f := by
  rw [Attached, h, Attached]

theorem Proceeds.of_messages (hl : db.LinksKept) (hfiles : db'.fileView = db.fileView)
    (hmessages : db.messages.Evolves SameOrigin db'.messages)
    (hkept : ∀ k row, (k, row) ∈ db.messages → ∃ row', (k, row') ∈ db'.messages) :
    Proceeds db db' := by
  obtain ⟨hf, ha⟩ := Prod.mk.inj hfiles
  refine ⟨⟨hmessages, hf ▸ .refl fun _ => rfl, hl.congr_messages ha hf hkept, ?_⟩, ?_⟩
  · exact fun m f hm => .inl ((attached_congr ha).mp hm)
  · exact fun m f hm => .inl ((attached_congr ha).mpr hm)

theorem Proceeds.of_same (hl : db.LinksKept) (hfiles : db'.fileView = db.fileView)
    (hmessages : db'.messages = db.messages) : Proceeds db db' :=
  .of_messages hl hfiles (hmessages ▸ .refl fun _ => rfl)
    fun _ row hrow => ⟨row, hmessages ▸ hrow⟩

theorem Proceeds.of_map (hl : db.LinksKept) (hfiles : db'.fileView = db.fileView)
    {f : ℕ → MessageRow → MessageRow} (hmessages : db'.messages = db.messages.map f)
    (hf : ∀ k row, SameOrigin row (f k row)) : Proceeds db db' := by
  refine .of_messages hl hfiles ?_ ?_
  · rw [hmessages]
    exact .map fun x _ => hf x.1 x.2
  · intro k row hrow
    rw [hmessages]
    exact ⟨_, Table.mem_map_of_mem hrow⟩

theorem Proceeds.of_modify (hl : db.LinksKept) (hfiles : db'.fileView = db.fileView) {id : ℕ}
    {f : MessageRow → MessageRow} (hmessages : db'.messages = db.messages.modify id f)
    (hf : ∀ row, SameOrigin row (f row)) : Proceeds db db' := by
  refine .of_map hl hfiles hmessages fun k row => ?_
  split_ifs
  · exact hf row
  · rfl

theorem Proceeds.of_insert (hl : db.LinksKept) (hfiles : db'.fileView = db.fileView)
    {row : MessageRow} (hmessages : db'.messages = db.messages.insert row) : Proceeds db db' := by
  refine .of_messages hl hfiles ?_ ?_
  · rw [hmessages]
    exact .insert fun _ => rfl
  · intro k row hrow
    rw [hmessages]
    exact ⟨row, Table.mem_insert.mpr (.inl hrow)⟩

theorem Proceeds.of_files (hview : db'.view = db.view)
    (hattachments : db'.attachments = db.attachments)
    (hfiles : db.files.Evolves SameFile db'.files) (hl : db'.LinksKept) : Proceeds db db' where
  messages := by
    have hmessages : db'.messages = db.messages := congrArg View.messages hview
    exact hmessages ▸ .refl fun _ => rfl
  files := hfiles
  links := hl
  attached _ _ hm := .inl ((attached_congr hattachments).mp hm)
  final _ _ hm := .inl ((attached_congr hattachments).mpr hm)

theorem Attaches.proceeds {p : ℕ → Prop} (h : Attaches p db db') (hl : db.LinksKept)
    (hp : ∀ m, p m → ∃ row, (m, row) ∈ db.messages ∧ row.eventHash ≠ none) :
    Proceeds db db' := by
  have hmessages : db'.messages = db.messages := congrArg View.messages h.view
  refine ⟨⟨hmessages ▸ .refl fun _ => rfl, h.files, h.links hl, ?_⟩, ?_⟩
  · intro m f hm
    rcases h.attached m f hm with hm | hm
    · exact .inl hm
    · exact .inr (hmessages ▸ hp m hm)
  · exact fun m f hm => .inl (h.kept m f hm)

theorem Detaches.proceeds (h : Detaches p db db' l) (hl : db.LinksKept)
    {q : ℕ × MessageRow → Bool} (hfiles : db''.fileView = db'.fileView)
    (hmessages : db''.messages = db.messages.delete q)
    (hq : ∀ x ∈ db.messages, q x = p x.1) : Proceeds db db'' := by
  obtain ⟨hf, ha⟩ := Prod.mk.inj hfiles
  have hview : db'.messages = db.messages := congrArg View.messages h.view
  have hattached : ∀ m f, db''.Attached m f ↔ db.Attached m f ∧ p m = false := by
    intro m f
    rw [attached_congr ha, attached_delete h.attachments]
  refine ⟨⟨?_, hf ▸ h.files, ⟨?_, ?_, ?_⟩, ?_⟩, ?_⟩
  · rw [hmessages]
    exact .delete fun _ => rfl
  · intro a hmem
    obtain ⟨hm, hp⟩ := (hattached _ _).mp ⟨a, hmem, rfl, rfl⟩
    obtain ⟨row, hrow⟩ := hl.row hm
    exact ⟨row, hmessages ▸ Table.mem_delete.mpr ⟨hrow, (hq _ hrow).trans hp⟩⟩
  · intro a hmem
    rw [ha] at hmem
    rw [hf]
    exact (h.links hl).file a hmem
  · intro x hx
    rw [hf] at hx
    rw [uses, ha, ← uses]
    exact (h.links hl).counted x hx
  · exact fun m f hm => .inl ((hattached m f).mp hm).1
  · intro m f hm
    cases hp : p m with
    | false => exact .inl ((hattached m f).mpr ⟨hm, hp⟩)
    | true =>
      refine .inr (.inl fun row hrow => ?_)
      rw [hmessages, Table.mem_delete] at hrow
      rw [hq _ hrow.1, hp] at hrow
      exact absurd hrow.2 (by simp)

theorem fileView_unindex (id : ℕ) (row : MessageRow) :
    (db.unindex id row).fileView = db.fileView := by
  unfold unindex
  split <;> rfl

theorem proceeds_deleteMessage {id : ℕ} (hl : db.LinksKept)
    (h : db.deleteMessage id = .ok (db', l)) : Proceeds db db' := by
  have hmessages := congrArg View.messages (view_deleteMessage h)
  simp only [deleteMessage, bind_eq_ok, pure_eq_ok, Prod.mk.injEq] at h
  obtain ⟨⟨db₁, orphans⟩, hdelete, rfl, -⟩ := h
  refine (detaches_deleteAttachments hdelete).proceeds hl ?_ hmessages fun _ _ => rfl
  split
  · exact fileView_unindex _ _
  · rfl

def olderIn (db : Db) (channelId cutoff : ℕ) : List (ℕ × MessageRow) :=
  db.messages.rows.filter fun x => isOlderIn channelId cutoff x.2

theorem mem_olderIn {channelId cutoff : ℕ} {x : ℕ × MessageRow} (hx : x ∈ db.messages) :
    x.1 ∈ (db.olderIn channelId cutoff).map Prod.fst ↔ isOlderIn channelId cutoff x.2 = true := by
  rw [List.mem_map]
  constructor
  · rintro ⟨y, hy, hkey⟩
    obtain ⟨hy, hold⟩ := List.mem_filter.mp hy
    exact Table.eq_of_key_eq (t := db.messages) hy hx hkey ▸ hold
  · exact fun hold => ⟨x, List.mem_filter.mpr ⟨hx, hold⟩, rfl⟩

theorem detaches_deleteMessagesBefore {channelId cutoff : ℕ}
    (h : db.deleteMessagesBefore channelId cutoff = .ok db') :
    ∃ db₁ l, Detaches (fun m => m ∈ (db.olderIn channelId cutoff).map Prod.fst) db db₁ l ∧
      db'.fileView = db₁.fileView := by
  simp only [deleteMessagesBefore, bind_eq_ok, pure_eq_ok] at h
  obtain ⟨db₁, hdelete, rfl⟩ := h
  have hall := detaches_foldlM (α := ℕ × MessageRow) (fun db => db) (fun _ _ => True) Prod.fst
    ?_ hdelete
  · obtain ⟨-, l, -, hdetaches⟩ := hall
    exact ⟨db₁, l, hdetaches, foldl_frame fileView
      (f := fun db (x : ℕ × MessageRow) => db.unindex x.1 x.2)
      (fun _ x => fileView_unindex x.1 x.2) _ db₁⟩
  · intro db x db' h
    simp only [bind_eq_ok, pure_eq_ok] at h
    obtain ⟨⟨db₁, orphans⟩, hdelete, rfl⟩ := h
    exact ⟨fun _ _ => trivial, orphans, fun _ _ => trivial,
      (detaches_deleteAttachments hdelete).onReactions _⟩

theorem proceeds_deleteMessagesBefore {channelId cutoff : ℕ} (hl : db.LinksKept)
    (h : db.deleteMessagesBefore channelId cutoff = .ok db') : Proceeds db db' := by
  have hmessages := congrArg View.messages (view_deleteMessagesBefore h)
  obtain ⟨db₁, l, hdetaches, hfiles⟩ := detaches_deleteMessagesBefore h
  refine hdetaches.proceeds hl hfiles hmessages fun x hx => ?_
  rw [Bool.eq_iff_iff, decide_eq_true_eq, mem_olderIn hx]

@[simp] theorem attachments_cleanupOrphanedFile (id : ℕ) :
    (db.cleanupOrphanedFile id).attachments = db.attachments := by
  unfold cleanupOrphanedFile
  split
  · rfl
  · split <;> rfl

theorem proceeds_cleanupOrphanedFile (hl : db.LinksKept) (id : ℕ) :
    Proceeds db (db.cleanupOrphanedFile id) := by
  refine .of_files (view_cleanupOrphanedFile id) ?_ ?_ (hl.cleanupOrphanedFile id)
  · exact attachments_cleanupOrphanedFile id
  · unfold cleanupOrphanedFile
    split
    · exact .refl fun _ => rfl
    · split
      · exact .delete fun _ => rfl
      · exact .refl fun _ => rfl

theorem proceeds_cleanupAllOrphans (hl : db.LinksKept) (now age : ℕ) :
    Proceeds db (db.cleanupAllOrphans now age) := by
  refine .of_files (view_cleanupAllOrphans now age) ?_ (.delete fun _ => rfl)
    (hl.cleanupAllOrphans now age)
  exact foldl_frame attachments (f := fun db (x : ℕ × FileRow) => db.removeBlob x.2.hash)
    (fun _ _ => rfl) _ db

theorem proceeds_purgeExpiredMessages (hl : db.LinksKept)
    (h : db.purgeExpiredMessages now = .ok db') : Proceeds db db' := by
  simp only [purgeExpiredMessages, bind_eq_ok, pure_eq_ok] at h
  obtain ⟨db₁, hpurge, rfl⟩ := h
  have hchannels : Proceeds db db₁ := by
    refine foldlM_invariant (P := fun db₁ => Proceeds db db₁) hpurge
      (.of_same hl rfl rfl) fun db₁ h₁ ch _ db₂ hch => ?_
    unfold purgeChannel at hch
    split at hch
    · obtain rfl := pure_eq_ok.mp hch
      exact h₁
    · exact h₁.trans hl (proceeds_deleteMessagesBefore h₁.links hch)
  exact hchannels.trans hl (proceeds_cleanupAllOrphans hchannels.links now orphanMaxAgeSecs)

theorem proceeds_storeOrReuse {uploadedBy : PublicKey} {name hash mime : String}
    {bytes : List UInt8} {size id : ℕ} {media : MediaInfo} (hl : db.LinksKept)
    (h : db.storeOrReuseFromTempFile K uploadedBy name bytes hash mime size media now =
      .ok (db', id)) : Proceeds db db' := by
  have hlinks := hl.storeOrReuse h
  have hview := view_storeOrReuse h
  unfold storeOrReuseFromTempFile at h
  split at h
  · simp only [pure_eq_ok, Prod.mk.injEq] at h
    exact .of_same hl (by rw [h.1]) (by rw [h.1])
  · simp only [bind_eq_ok, pure_eq_ok, Prod.mk.injEq] at h
    obtain ⟨-, -, rfl, -⟩ := h
    exact .of_files hview rfl (.insert fun _ => rfl) hlinks

theorem proceeds_editMessage {id : ℕ} {content : String} (hl : db.LinksKept)
    (h : db.editMessage id content now = .ok db') : Proceeds db db' := by
  simp only [editMessage, bind_eq_ok, pure_eq_ok] at h
  obtain ⟨row, -, -, -, rfl⟩ := h
  let edited (row : MessageRow) : MessageRow := { row with content, editedAt := some now }
  exact .of_modify hl rfl (show _ = db.messages.modify id edited from rfl) fun _ => rfl

/-! ### The transaction of an event -/

theorem proceeds_derive {id : Option ℕ} (hl : db.LinksKept)
    (h : db.deriveMessageRow K e = .ok (db', id)) :
    Proceeds db db' ∧ ∀ i ∈ id, ∃ row, (i, row) ∈ db'.messages ∧ row.eventHash ≠ none := by
  rw [deriveMessageRow_eq] at h
  split at h
  · obtain ⟨rfl, rfl⟩ := Prod.mk.inj (Except.ok.inj h)
    exact ⟨.of_same hl rfl rfl, by simp⟩
  · rename_i row hrow
    simp only [bind_eq_ok, insertRow, pure_eq_ok, Prod.mk.injEq] at h
    obtain ⟨-, -, db₁, ⟨-, -, rfl⟩, rfl, rfl⟩ := h
    refine ⟨.of_insert hl rfl rfl, fun i hi => ?_⟩
    obtain rfl := Option.some.inj hi
    exact ⟨row, Table.mem_insert.mpr (.inr rfl), by simp [derivedRow_eventHash hrow]⟩

theorem proceeds_redactAttachment (hl : db.LinksKept) :
    Proceeds db (db.redactAttachment e) := by
  unfold redactAttachment
  split
  · rename_i hash _
    refine .of_files (view_redactBlob _ _) ?_ ?_ (hl.redactBlob _ _)
    · unfold redactBlob
      split <;> rfl
    · unfold redactBlob
      split
      · exact .refl fun _ => rfl
      · refine Table.Evolves.map (t := db.files) (f := fun _ f =>
          if f.hash = hash then { f with redactedBy := some e.core.author } else f) fun x _ => ?_
        split_ifs <;> rfl
  · exact .of_same hl rfl rfl

theorem proceeds_applySealedEdit (hl : db.LinksKept) (h : db.applySealedEdit e = .ok db') :
    Proceeds db db' := by
  cases hp : e.core.payload with
  | messageEditedE2ee p =>
    simp only [applySealedEdit, hp, bind_eq_ok] at h
    obtain ⟨-, -, id, -, hupdate⟩ := h
    obtain ⟨row, -, -, -, rfl⟩ := view_updateSealedRow hupdate
    let edited (row : MessageRow) : MessageRow :=
      { row with sealed := some p.ciphertext, editedAt := some e.core.timestamp }
    exact .of_modify hl rfl (show _ = db.messages.modify id edited from rfl) fun _ => rfl
  | _ =>
    obtain rfl := applySealedEdit_other (by simp [hp]) h
    exact .of_same hl rfl rfl

theorem proceeds_applyTombstone (hl : db.LinksKept) (h : db.applyTombstone e = .ok (db', l)) :
    Proceeds db db' := by
  cases hp : e.core.payload with
  | messageDeleted p =>
    simp only [applyTombstone, hp, bind_eq_ok] at h
    obtain ⟨x, -, -, -, -, -, hdelete⟩ := h
    exact proceeds_deleteMessage hl hdelete
  | _ =>
    obtain rfl := applyTombstone_other (by simp [hp]) h
    exact .of_same hl rfl rfl

theorem proceeds_ingest (hl : db.LinksKept) (h : db.ingest K e = .ok (db', l)) :
    Proceeds db db' := by
  simp only [ingest, bind_eq_ok, prefixed_eq_ok] at h
  obtain ⟨db₁, hstore, db₂, hmaterialize, ⟨db₃, id⟩, hderive, db₄, hedit, htombstone⟩ := h
  have h₁ : Proceeds db db₁ := by
    simp only [storeEvent, bind_eq_ok, pure_eq_ok] at hstore
    obtain ⟨-, -, rfl⟩ := hstore
    exact .of_same hl rfl rfl
  have h₂ : Proceeds db₁ db₂ := by
    unfold materializeChannelCreated at hmaterialize
    split at hmaterialize
    · simp only [bind_eq_ok, pure_eq_ok] at hmaterialize
      obtain ⟨-, -, -, -, -, -, -, -, rfl⟩ := hmaterialize
      exact .of_same h₁.links rfl rfl
    · obtain rfl := pure_eq_ok.mp hmaterialize
      exact .of_same h₁.links rfl rfl
  obtain ⟨h₃, hderived⟩ := proceeds_derive h₂.links hderive
  have h₄ : Proceeds db₃ (db₃.attachDerived e id) := by
    unfold attachDerived
    split
    · rename_i i g _
      obtain ⟨row, hrow, hhash⟩ := hderived i rfl
      refine (attaches_deriveAttachments (p := fun m => m = i) ⟨row, hrow⟩ rfl).proceeds
        h₃.links ?_
      rintro m rfl
      exact ⟨row, hrow, hhash⟩
    · exact .of_same h₃.links rfl rfl
  have h₅ := proceeds_redactAttachment (e := e) h₄.links
  have h₆ := proceeds_applySealedEdit h₅.links hedit
  have h₇ := proceeds_applyTombstone h₆.links htombstone
  exact h₁.trans hl <| h₂.trans h₁.links <| h₃.trans h₂.links <| h₄.trans h₃.links <|
    h₅.trans h₄.links <| h₆.trans h₅.links h₇

theorem mem_cleanupOrphanedFile {id : ℕ} {x : ℕ × FileRow} :
    x ∈ (db.cleanupOrphanedFile id).files ↔ x ∈ db.files ∧ (x.1 = id → x.2.refCount ≠ 0) := by
  unfold cleanupOrphanedFile
  split
  · rename_i hnone
    have hne := fun hx : x ∈ db.files => Table.get?_eq_none.mp hnone x hx
    exact ⟨fun hx => ⟨hx, fun hid => absurd hid (hne hx)⟩, And.left⟩
  · rename_i file hfile
    have hrow (hx : x ∈ db.files) (hid : x.1 = id) : x.2 = file :=
      Table.row_eq (t := db.files) (hid ▸ hx) (Table.get?_eq_some.mp hfile)
    split
    · rename_i hzero
      rw [Table.mem_delete]
      refine and_congr_right fun hx => ?_
      by_cases hid : x.1 = id
      · simp [hid, hrow hx hid, hzero]
      · simp [hid]
    · rename_i hused
      exact ⟨fun hx => ⟨hx, fun hid => hrow hx hid ▸ hused⟩, And.left⟩

theorem mem_cleanupOrphanedFiles {x : ℕ × FileRow} :
    x ∈ (l.foldl cleanupOrphanedFile db).files → x ∈ db.files ∧ (x.1 ∈ l → x.2.refCount ≠ 0) := by
  induction l generalizing db with
  | nil => exact fun hx => ⟨hx, by simp⟩
  | cons id l ih =>
    intro hx
    obtain ⟨hx, hlisted⟩ := ih hx
    obtain ⟨hx, hhead⟩ := mem_cleanupOrphanedFile.mp hx
    refine ⟨hx, fun hmem => ?_⟩
    rcases List.mem_cons.mp hmem with hid | hid
    · exact hhead hid
    · exact hlisted hid

theorem proceeds_cleanupOrphanedFiles (hl : db.LinksKept) :
    Proceeds db (l.foldl cleanupOrphanedFile db) := by
  induction l generalizing db with
  | nil => exact .of_same hl rfl rfl
  | cons id l ih =>
    have hhead := proceeds_cleanupOrphanedFile hl id
    exact hhead.trans hl (ih hhead.links)

/-- The deletion of one member's data takes the attachments of its messages, and with them
every file that nothing else uses. -/
structure DeletesData (member : PublicKey) (db db' : Db) : Prop extends Advances db db' where
  messages_eq : db'.messages = db.messages.map fun _ row =>
    if row.author = member then anonymized row else row
  attached_iff : ∀ m f row, (m, row) ∈ db.messages →
    (db'.Attached m f ↔ db.Attached m f ∧ row.author ≠ member)
  removed : ∀ m f row, db.Attached m f → (m, row) ∈ db.messages → row.author = member →
    (∀ m', ¬db'.Attached m' f) → ∀ file, (f, file) ∉ db'.files

theorem mem_messagesOf {author : PublicKey} {m : ℕ} {row : MessageRow}
    (hrow : (m, row) ∈ db.messages) : m ∈ db.messagesOf author ↔ row.author = author := by
  simp only [messagesOf, List.mem_map, List.mem_filter, decide_eq_true_eq]
  constructor
  · rintro ⟨x, ⟨hx, hauthor⟩, hkey⟩
    obtain rfl := Table.eq_of_key_eq (t := db.messages) hx hrow hkey
    exact hauthor
  · exact fun hauthor => ⟨_, ⟨hrow, hauthor⟩, rfl⟩

theorem fileView_anonymize (author : PublicKey) :
    (db.anonymizeMessagesByAuthor author).fileView = db.fileView :=
  foldl_frame fileView (f := fun db (x : ℕ × MessageRow) => db.reindex x.1 x.2.content "[deleted]")
    (fun _ _ => rfl) _ db

theorem deletesData_executeDeletion {req : DeletionRequest} (hl : db.LinksKept)
    (h : db.executeDeletion req = .ok db') : DeletesData req.memberKey db db' := by
  have hmessages : db'.messages = db.messages.map fun _ row =>
      if row.author = req.memberKey then anonymized row else row :=
    congrArg View.messages (view_executeDeletion h)
  simp only [executeDeletion, bind_eq_ok, pure_eq_ok] at h
  obtain ⟨⟨db₁, orphans⟩, hremove, hdb'⟩ := h
  have hdetaches := detaches_removeAttachments hremove
  have hclean := proceeds_cleanupOrphanedFiles (l := orphans) (hdetaches.links hl)
  -- After the clean-up of the files the deletion touches neither files nor attachments.
  have hfileView : db'.fileView = (orphans.foldl cleanupOrphanedFile db₁).fileView := by
    rw [← hdb']
    exact fileView_anonymize _
  obtain ⟨hfiles, hattachments⟩ := Prod.mk.inj hfileView
  have hleft : ∀ m f, db'.Attached m f ↔ db₁.Attached m f := fun m f =>
    attached_congr (hattachments.trans (foldl_frame attachments
      (f := cleanupOrphanedFile) (fun _ id => attachments_cleanupOrphanedFile id) orphans db₁))
  have hattached : ∀ m f, db'.Attached m f ↔
      db.Attached m f ∧ m ∉ db.messagesOf req.memberKey := by
    intro m f
    rw [hleft, attached_delete (q := fun m => m ∈ db.messagesOf req.memberKey)
      hdetaches.attachments, decide_eq_false_iff_not]
  have hview : (orphans.foldl cleanupOrphanedFile db₁).messages = db.messages :=
    congrArg View.messages ((view_foldl (f := cleanupOrphanedFile)
      (fun _ id => view_cleanupOrphanedFile id) orphans db₁).trans hdetaches.view)
  refine ⟨⟨?_, ?_, ?_, ?_⟩, hmessages, ?_, ?_⟩
  · rw [hmessages]
    refine .map fun x _ => ?_
    split_ifs <;> rfl
  · rw [hfiles]
    exact hdetaches.files.trans (fun _ _ _ h k => Eq.trans k h) hclean.files
  · refine hclean.links.congr_messages hattachments hfiles fun k row hrow => ?_
    rw [hview] at hrow
    rw [hmessages]
    exact ⟨_, Table.mem_map_of_mem hrow⟩
  · exact fun m f hm => .inl ((hattached m f).mp hm).1
  · intro m f row hrow
    rw [hattached, mem_messagesOf hrow]
  · intro m f row hm hrow hauthor hnone file hfile
    have hlisted : f ∈ orphans := by
      refine hdetaches.orphaned hl m f ?_ hm fun m' hm' => hnone m' ((hleft m' f).mpr hm')
      exact decide_eq_true ((mem_messagesOf hrow).mpr hauthor)
    rw [hfiles] at hfile
    obtain ⟨hfile, hused⟩ := mem_cleanupOrphanedFiles hfile
    refine hused hlisted ?_
    rw [(hdetaches.links hl).counted _ hfile, uses_eq_zero]
    rintro a ha rfl
    exact hnone a.2.messageId ((hleft _ _).mpr ⟨a, ha, rfl, rfl⟩)

/-- Deleting the data of several members leaves no file that only they had attached. -/
theorem executeDeletions {reqs : List DeletionRequest} (hl : db.LinksKept)
    (h : reqs.foldlM executeDeletion db = .ok db') :
    Advances db db' ∧
      (∀ m f row, db.Attached m f → (m, row) ∈ db.messages →
        row.author ∉ reqs.map DeletionRequest.memberKey → db'.Attached m f) ∧
      ∀ f, (∃ m, db.Attached m f) →
        (∀ m row, db.Attached m f → (m, row) ∈ db.messages →
          row.author ∈ reqs.map DeletionRequest.memberKey) →
        ∀ file, (f, file) ∉ db'.files := by
  induction reqs generalizing db with
  | nil =>
    obtain rfl : db = db' := by simpa using h
    refine ⟨(Proceeds.of_same hl rfl rfl).toAdvances, fun m f row hm _ _ => hm, ?_⟩
    rintro f ⟨m, hm⟩ hall
    obtain ⟨row, hrow⟩ := hl.row hm
    exact absurd (hall m row hm hrow) (by simp)
  | cons req reqs ih =>
    rw [List.foldlM_cons, bind_eq_ok] at h
    obtain ⟨db₁, hhead, htail⟩ := h
    have hstep := deletesData_executeDeletion hl hhead
    obtain ⟨hadvances, hkept, hremoved⟩ := ih hstep.links htail
    have hsame : ∀ m row, (m, row) ∈ db.messages → row.author ≠ req.memberKey →
        (m, row) ∈ db₁.messages := by
      intro m row hrow hauthor
      rw [hstep.messages_eq, Table.mem_map]
      exact ⟨_, hrow, by simp [hauthor]⟩
    refine ⟨hstep.toAdvances.trans hadvances, ?_, ?_⟩
    · intro m f row hm hrow hauthor
      simp only [List.map_cons, List.mem_cons, not_or] at hauthor
      exact hkept m f row ((hstep.attached_iff m f row hrow).mpr ⟨hm, hauthor.1⟩)
        (hsame m row hrow hauthor.1) hauthor.2
    · rintro f ⟨m, hm⟩ hall
      obtain ⟨row, hrow⟩ := hl.row hm
      by_cases hleft : ∃ m', db₁.Attached m' f
      · refine hremoved f hleft fun m' row' hm' hrow' => ?_
        rw [hstep.messages_eq, Table.mem_map] at hrow'
        obtain ⟨x, hx, heq⟩ := hrow'
        obtain ⟨rfl, rfl⟩ := Prod.mk.inj heq
        obtain ⟨hm₀, hauthor⟩ := (hstep.attached_iff x.1 f x.2 hx).mp hm'
        rw [if_neg hauthor]
        simpa [hauthor] using hall x.1 x.2 hm₀ hx
      · have hnone : ∀ m', ¬db₁.Attached m' f := fun m' hm' => hleft ⟨m', hm'⟩
        have hauthor : row.author = req.memberKey := by
          by_contra hne
          exact hnone m ((hstep.attached_iff m f row hrow).mpr ⟨hm, hne⟩)
        have hgone := hstep.removed m f row hm hrow hauthor hnone
        intro file hfile
        obtain ⟨file₀, hfile₀⟩ := hl.fileRow hm
        obtain ⟨file₁, hfile₁, -⟩ := hadvances.files.rows _ hfile
          ((Table.key_lt hfile₀).trans_le hstep.files.next)
        exact hgone file₁ hfile₁

/-- The members whose data the next sweep deletes. -/
def expiredMembers (db : Db) (now : ℕ) : List PublicKey :=
  (db.expiredDeletionRequests now).map DeletionRequest.memberKey

/-- Every file attached to an expired member's message that an event derived is attached to
messages of expired members only. -/
def DeletesUnshared (db : Db) (now : ℕ) : Prop :=
  ∀ m row f, (m, row) ∈ db.messages → row.eventHash ≠ none → row.author ∈ db.expiredMembers now →
    db.Attached m f → ∀ m' row', (m', row') ∈ db.messages → db.Attached m' f →
      row'.author ∈ db.expiredMembers now

theorem proceeds_executePendingDeletions (hl : db.LinksKept) (hunshared : db.DeletesUnshared now)
    (h : db.executePendingDeletions now = .ok db') : Proceeds db db' := by
  obtain ⟨hadvances, hkept, hremoved⟩ := executeDeletions hl h
  refine ⟨hadvances, fun m f hm => ?_⟩
  obtain ⟨row, hrow⟩ := hl.row hm
  by_cases hauthor : row.author ∈ db.expiredMembers now
  · by_cases hhash : row.eventHash = none
    · have hlt : m < db.messages.next := Table.key_lt hrow
      refine .inr (.inl fun row' hrow' => ?_)
      obtain ⟨r, hr, hsame⟩ := hadvances.messages.rows _ hrow' hlt
      obtain rfl := Table.row_eq hr hrow
      exact Eq.trans hsame hhash
    · exact .inr (.inr (hremoved f ⟨m, hm⟩ fun m' row' hm' hrow' =>
        hunshared m row f hrow hhash hauthor hm m' row' hrow' hm'))
  · exact .inl (hkept m f row hm hrow hauthor)

end Server.Db
