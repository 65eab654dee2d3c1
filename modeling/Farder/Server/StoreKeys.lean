import Farder.Server.DbSteps
import Farder.Server.StoreSweeps

/-! # Keys of the store

In every run of a server no two files have the same hash, no two messages come from the same
event, a message that comes from an event comes from a stored one, every message is in a
channel that has a row, and every attachment links a message to a stored file. -/
namespace Server

open EventLog Guarded Permissions

variable {K : Crypto}

namespace Db

variable {db db' : Db} {e : Event} {l : List ℕ} {now id : ℕ} {row : MessageRow}

structure Keyed (K : Crypto) (db : Db) : Prop where
  files : db.files.UniqueIndex fun file => some file.hash
  posts : db.messages.UniqueIndex MessageRow.eventHash
  stored : ∀ x ∈ db.messages, ∀ hash, x.2.eventHash = some hash → ∃ e ∈ db.events, e.hash K = hash
  homed : ∀ x ∈ db.messages, x.2.channelId ∈ db.channelIds

/-- Every file is an old one. -/
def FilesFrom (db db' : Db) : Prop :=
  ∀ x ∈ db'.files, ∃ file, (x.1, file) ∈ db.files ∧ file.hash = x.2.hash

/-- Every row is an old one, with its keys. -/
structure Inherits (db db' : Db) : Prop where
  files : FilesFrom db db'
  messages : ∀ x ∈ db'.messages, ∃ row, (x.1, row) ∈ db.messages ∧
    row.channelId = x.2.channelId ∧ row.eventHash = x.2.eventHash
  events : ∀ e ∈ db.events, e ∈ db'.events
  channels : ∀ id ∈ db.channelIds, id ∈ db'.channelIds

theorem Keyed.inherits (h : db.Keyed K) (hi : Inherits db db') : db'.Keyed K where
  files := by
    intro x hx y hy _ heq
    obtain ⟨file, hfile, hhash⟩ := hi.files x hx
    obtain ⟨file', hfile', hhash'⟩ := hi.files y hy
    have hsame : some file.hash = some file'.hash := by
      rw [hhash, hhash']
      exact heq
    exact Table.eq_of_key_eq hx hy (congrArg Prod.fst (h.files _ hfile _ hfile' nofun hsame) :)
  posts := by
    intro x hx y hy hne heq
    obtain ⟨row, hrow, -, hhash⟩ := hi.messages x hx
    obtain ⟨row', hrow', -, hhash'⟩ := hi.messages y hy
    have hsame : row.eventHash = row'.eventHash := by rw [hhash, hhash', heq]
    exact Table.eq_of_key_eq hx hy
      (congrArg Prod.fst (h.posts _ hrow _ hrow' (hhash ▸ hne) hsame) :)
  stored := by
    intro x hx hash hsome
    obtain ⟨row, hrow, -, hhash⟩ := hi.messages x hx
    obtain ⟨e, he, heq⟩ := h.stored _ hrow hash (hhash.trans hsome)
    exact ⟨e, hi.events e he, heq⟩
  homed := by
    intro x hx
    obtain ⟨row, hrow, hchannel, -⟩ := hi.messages x hx
    exact hchannel ▸ hi.channels _ (h.homed _ hrow)

theorem Inherits.refl : Inherits db db where
  files x hx := ⟨x.2, hx, rfl⟩
  messages x hx := ⟨x.2, hx, rfl, rfl⟩
  events _ he := he
  channels _ hid := hid

theorem Inherits.trans {db'' : Db} (h : Inherits db db') (h' : Inherits db' db'') :
    Inherits db db'' where
  files := by
    intro x hx
    obtain ⟨file', hfile', hhash'⟩ := h'.files x hx
    obtain ⟨file, hfile, hhash⟩ := h.files _ hfile'
    exact ⟨file, hfile, hhash.trans hhash'⟩
  messages := by
    intro x hx
    obtain ⟨row', hrow', hchannel', hhash'⟩ := h'.messages x hx
    obtain ⟨row, hrow, hchannel, hhash⟩ := h.messages _ hrow'
    exact ⟨row, hrow, hchannel.trans hchannel', hhash.trans hhash'⟩
  events e he := h'.events e (h.events e he)
  channels id hid := h'.channels id (h.channels id hid)

/-! ## Steps that inherit -/

theorem Inherits.of_rows (hevents : db'.events = db.events) (hchannels : db'.channels = db.channels)
    (hmessages : ∀ x ∈ db'.messages, ∃ row, (x.1, row) ∈ db.messages ∧
      row.channelId = x.2.channelId ∧ row.eventHash = x.2.eventHash)
    (hfiles : FilesFrom db db') :
    Inherits db db' where
  files := hfiles
  messages := hmessages
  events e he := hevents ▸ he
  channels id hid := by rwa [channelIds, hchannels]

theorem Inherits.of_deleted {p : ℕ × MessageRow → Bool}
    (hview : db'.view = { db.view with messages := db.messages.delete p })
    (hfiles : FilesFrom db db') :
    Inherits db db' := by
  refine .of_rows (congrArg View.events hview) (congrArg View.channels hview)
    (fun x hx => ?_) hfiles
  have hmessages : db'.messages = db.messages.delete p := congrArg View.messages hview
  rw [hmessages] at hx
  exact ⟨x.2, (Table.mem_delete.mp hx).1, rfl, rfl⟩

theorem Inherits.of_mapped {f : ℕ → MessageRow → MessageRow}
    (hview : db'.view = { db.view with messages := db.messages.map f })
    (hchannel : ∀ k r, (f k r).channelId = r.channelId)
    (hhash : ∀ k r, (f k r).eventHash = r.eventHash)
    (hfiles : FilesFrom db db') :
    Inherits db db' := by
  refine .of_rows (congrArg View.events hview) (congrArg View.channels hview)
    (fun x hx => ?_) hfiles
  have hmessages : db'.messages = db.messages.map f := congrArg View.messages hview
  rw [hmessages] at hx
  obtain ⟨y, hy, rfl⟩ := Table.mem_map.mp hx
  exact ⟨y.2, hy, (hchannel _ _).symm, (hhash _ _).symm⟩

theorem Inherits.of_view (hview : db'.view = db.view)
    (hfiles : FilesFrom db db') :
    Inherits db db' := by
  refine .of_mapped (f := fun _ r => r) ?_ (fun _ _ => rfl) (fun _ _ => rfl) hfiles
  rw [hview, Table.map_eq_self fun _ _ => rfl]
  rfl

theorem FilesFrom.of_eq (h : db'.files = db.files) : FilesFrom db db' :=
  fun x hx => ⟨x.2, h ▸ hx, rfl⟩

theorem Recounts.inherits (h : Recounts db db') : Inherits db db' := by
  refine .of_rows (by rw [h.same]) h.channels (h.messages ▸ Inherits.refl.messages) fun x hx => ?_
  obtain ⟨f, hf, hsame⟩ := h.files
  rw [hf] at hx
  obtain ⟨y, hy, rfl⟩ := Table.mem_map.mp hx
  have hhash : (uncounted (f y.1 y.2)).hash = (uncounted y.2).hash := by rw [hsame]
  exact ⟨y.2, hy, hhash.symm⟩

theorem inherits_cleanupOrphanedFile {fileId : ℕ} :
    Inherits db (db.cleanupOrphanedFile fileId) :=
  .of_view (view_cleanupOrphanedFile fileId) fun x hx =>
    ⟨x.2, (mem_cleanupOrphanedFile.mp hx).1, rfl⟩

theorem inherits_cleanupAllOrphans {age : ℕ} : Inherits db (db.cleanupAllOrphans now age) :=
  .of_view (view_cleanupAllOrphans now age) fun x hx => ⟨x.2, (Table.mem_delete.mp hx).1, rfl⟩

theorem inherits_redactBlob {hash : String} {redactor : PublicKey} :
    Inherits db (db.redactBlob hash redactor) := by
  refine .of_view (view_redactBlob hash redactor) fun x hx => ?_
  unfold redactBlob at hx
  split at hx
  · exact ⟨x.2, hx, rfl⟩
  · obtain ⟨y, hy, rfl⟩ := Table.mem_map.mp hx
    refine ⟨y.2, hy, ?_⟩
    simp only
    split_ifs <;> rfl

theorem inherits_editMessage {content : String} (h : db.editMessage id content now = .ok db') :
    Inherits db db' := by
  obtain ⟨-, -, -, hview⟩ := view_editMessage h
  refine .of_mapped hview (fun k r => ?_) (fun k r => ?_) (.of_eq ?_)
  · split_ifs <;> rfl
  · split_ifs <;> rfl
  · simp only [editMessage, bind_eq_ok, pure_eq_ok] at h
    obtain ⟨row, -, ⟨⟩, -, rfl⟩ := h
    rfl

theorem inherits_updateSealedRow {sealed : List UInt8} {editedAt : ℕ}
    (h : db.updateSealedRow id sealed editedAt = .ok db') : Inherits db db' := by
  obtain ⟨-, -, -, -, rfl⟩ := view_updateSealedRow h
  let resealed (k : ℕ) (r : MessageRow) : MessageRow :=
    if k = id then { r with sealed := some sealed, editedAt := some editedAt } else r
  refine .of_mapped (f := resealed) rfl (fun k r => ?_) (fun k r => ?_) (.of_eq rfl)
  · simp only [resealed]
    split_ifs <;> rfl
  · simp only [resealed]
    split_ifs <;> rfl

theorem inherits_deleteMessage (h : db.deleteMessage id = .ok (db', l)) : Inherits db db' := by
  refine .of_deleted (view_deleteMessage h) ?_
  simp only [Db.deleteMessage, bind_eq_ok, pure_eq_ok, Prod.mk.injEq] at h
  obtain ⟨⟨db₁, orphans⟩, hdelete, rfl, -⟩ := h
  intro x hx
  refine (recounts_deleteAttachments hdelete).inherits.files x ?_
  revert hx
  cases hrow : (db₁.deleteReactionsForMessage id).messages.get? id with
  | none => exact fun hx => hx
  | some row =>
    show x ∈ ((db₁.deleteReactionsForMessage id).unindex id row).files → _
    rw [frame_unindex files fun _ _ => rfl]
    exact fun hx => hx

theorem inherits_deleteMessagesBefore {channelId cutoff : ℕ}
    (h : db.deleteMessagesBefore channelId cutoff = .ok db') : Inherits db db' := by
  refine .of_deleted (view_deleteMessagesBefore h) ?_
  obtain ⟨db₁, hdrop, -, hfiles, -⟩ := tables_deleteMessagesBefore h
  exact fun x hx => hdrop.inherits.files x (hfiles ▸ hx)

theorem inherits_purgeExpiredMessages (h : db.purgeExpiredMessages now = .ok db') :
    Inherits db db' := by
  simp only [Db.purgeExpiredMessages, bind_eq_ok, pure_eq_ok] at h
  obtain ⟨db₁, hloop, rfl⟩ := h
  refine .trans ?_ inherits_cleanupAllOrphans
  refine foldlM_invariant (P := Inherits db) hloop .refl fun db₂ hacc ch _ db₃ hstep => ?_
  unfold Db.purgeChannel at hstep
  split at hstep
  · exact pure_eq_ok.mp hstep ▸ hacc
  · exact hacc.trans (inherits_deleteMessagesBefore hstep)

theorem inherits_executeDeletion {req : DeletionRequest} (h : db.executeDeletion req = .ok db') :
    Inherits db db' := by
  refine .of_mapped (view_executeDeletion h) (fun k r => ?_) (fun k r => ?_) ?_
  · split_ifs <;> rfl
  · split_ifs <;> rfl
  · simp only [Db.executeDeletion, bind_eq_ok, pure_eq_ok] at h
    obtain ⟨⟨db₁, orphans⟩, hremove, rfl⟩ := h
    have hcleaned : Inherits db (orphans.foldl Db.cleanupOrphanedFile db₁) :=
      foldl_invariant (P := Inherits db) (recounts_removeAttachments hremove).inherits
        fun _ hacc _ _ => hacc.trans inherits_cleanupOrphanedFile
    intro x hx
    have hfiles := (Prod.mk.inj (@fileView_anonymize (orphans.foldl Db.cleanupOrphanedFile db₁)
      req.memberKey)).1
    exact hcleaned.files x (hfiles ▸ hx)

/-! ## Steps that insert -/

theorem Keyed.insertRow (h : db.Keyed K) (hinsert : db.insertRow row = .ok db')
    (hstored : ∀ hash, row.eventHash = some hash → ∃ e ∈ db.events, e.hash K = hash)
    (hhomed : row.channelId ∈ db.channelIds) : db'.Keyed K := by
  obtain ⟨hnew, hview⟩ := view_insertRow hinsert
  have hmessages : db'.messages = db.messages.insert row := congrArg View.messages hview
  have hevents : db'.events = db.events := congrArg View.events hview
  have hchannels : db'.channels = db.channels := congrArg View.channels hview
  have hfiles : db'.files = db.files := by
    simp only [Db.insertRow, bind_eq_ok, pure_eq_ok] at hinsert
    obtain ⟨⟨⟩, -, rfl⟩ := hinsert
    rfl
  refine ⟨hfiles ▸ h.files, ?_, fun x hx => ?_, fun x hx => ?_⟩
  · rw [hmessages]
    refine h.posts.insert fun x hx heq => ?_
    exact hnew.resolve_right fun hne => hne x hx heq
  · rw [hmessages] at hx
    rw [hevents]
    rcases Table.mem_insert.mp hx with hx | rfl
    · exact h.stored x hx
    · exact hstored
  · rw [hmessages] at hx
    rw [channelIds, hchannels]
    rcases Table.mem_insert.mp hx with hx | rfl
    · exact h.homed x hx
    · exact hhomed

theorem Keyed.storeOrReuse {uploadedBy : PublicKey} {name hash mime : String}
    {bytes : List UInt8} {size fileId : ℕ} {media : MediaInfo} (h : db.Keyed K)
    (hstore : db.storeOrReuseFromTempFile K uploadedBy name bytes hash mime size media now =
      .ok (db', fileId)) : db'.Keyed K := by
  unfold storeOrReuseFromTempFile at hstore
  split at hstore
  · simp only [pure_eq_ok, Prod.mk.injEq] at hstore
    exact hstore.1 ▸ h
  · next hnone =>
    simp only [bind_eq_ok, ensure_eq_ok, pure_eq_ok, Prod.mk.injEq] at hstore
    obtain ⟨⟨⟩, hhash, rfl, -⟩ := hstore
    refine ⟨h.files.insert fun x hx heq => ?_, h.posts, h.stored, h.homed⟩
    have hfree := Table.find?_eq_none.mp hnone x hx
    exact absurd ((Option.some.inj heq).trans hhash) (by simpa using hfree)

theorem mem_channelIds_of_class {c : ChannelClass} (h : db.view.classOf id = some c) :
    id ∈ db.channelIds := by
  obtain ⟨ch, hch, -⟩ := Option.bind_eq_some_iff.mp h
  have hid : ch.id = id := by simpa using List.find?_some hch
  exact hid ▸ List.mem_map_of_mem (List.mem_of_find?_eq_some hch)

theorem filesFrom_ingest (h : db.ingest K e = .ok (db', l)) : FilesFrom db db' := by
  simp only [Db.ingest, bind_eq_ok, prefixed_eq_ok] at h
  obtain ⟨db₁, hstore, db₂, hmaterialize, ⟨db₃, derived⟩, hderive, db₄, hedit, htombstone⟩ := h
  have h₂ : db₂.files = db.files :=
    (sameStore_materialize hmaterialize).files.trans (sameStore_storeEvent hstore).files
  have h₃ : FilesFrom db₂ db₃ := by
    refine .of_eq ?_
    rw [deriveMessageRow_eq] at hderive
    split at hderive
    · exact congrArg files (Prod.mk.inj (Except.ok.inj hderive)).1.symm
    · simp only [Db.insertRow, bind_eq_ok, pure_eq_ok, Prod.mk.injEq] at hderive
      obtain ⟨⟨⟩, -, _, ⟨⟨⟩, -, rfl⟩, rfl, -⟩ := hderive
      rfl
  have hattach : Inherits db₃ (db₃.attachDerived e derived) := by
    unfold attachDerived
    split
    · exact recounts_deriveAttachments.inherits
    · exact .refl
  have hredact : Inherits db₃ ((db₃.attachDerived e derived).redactAttachment e) := by
    refine hattach.trans ?_
    unfold redactAttachment
    split
    · exact inherits_redactBlob
    · exact .refl
  have h₄ : Inherits db₃ db₄ := by
    unfold applySealedEdit at hedit
    split at hedit
    · simp only [bind_eq_ok] at hedit
      obtain ⟨-, -, id, -, hupdate⟩ := hedit
      exact hredact.trans (inherits_updateSealedRow hupdate)
    · exact pure_eq_ok.mp hedit ▸ hredact
  have h₅ : Inherits db₃ db' := by
    unfold applyTombstone at htombstone
    split at htombstone
    · simp only [bind_eq_ok] at htombstone
      obtain ⟨⟨id, row⟩, -, -, -, -, -, hdelete⟩ := htombstone
      exact h₄.trans (inherits_deleteMessage hdelete)
    · exact (Prod.mk.inj (pure_eq_ok.mp htombstone)).1 ▸ h₄
  intro x hx
  obtain ⟨file', hfile', hhash'⟩ := h₅.files x hx
  obtain ⟨file, hfile, hhash⟩ := h₃ _ hfile'
  exact ⟨file, h₂ ▸ hfile, hhash.trans hhash'⟩

theorem Keyed.ingest (h : db.Keyed K) (hposted : db.checkPosted e = .ok ())
    (hingest : db.ingest K e = .ok (db', l)) : db'.Keyed K := by
  have hfiles := filesFrom_ingest hingest
  obtain ⟨-, heffect⟩ := ingested hposted hingest
  have hkept : ∀ {messages : Table MessageRow} {channels : List ChannelRow},
      db'.view = { db.view with events := db.events ++ [e], messages, channels } →
      (∀ x ∈ messages, ∃ row, (x.1, row) ∈ db.messages ∧ row.channelId = x.2.channelId ∧
        row.eventHash = x.2.eventHash) → (∀ ch ∈ db.channels, ch ∈ channels) → db'.Keyed K := by
    intro messages channels hview hmessages hchannels
    have hevents : db'.events = db.events ++ [e] := congrArg View.events hview
    have hrows : db'.messages = messages := congrArg View.messages hview
    have hids : db'.channels = channels := congrArg View.channels hview
    refine h.inherits ⟨hfiles, hrows ▸ hmessages, fun e' he' => ?_, fun id hid => ?_⟩
    · exact hevents ▸ List.mem_append_left _ he'
    · obtain ⟨ch, hch, rfl⟩ := List.mem_map.mp hid
      exact List.mem_map_of_mem (hids ▸ hchannels ch hch)
  generalize hview : db'.view = v at heffect
  cases heffect with
  | declared p ch => exact hkept hview Inherits.refl.messages fun c hc => List.mem_append_left _ hc
  | stored => exact hkept hview Inherits.refl.messages fun _ hc => hc
  | deleted p id row =>
    exact hkept hview (fun x hx => ⟨x.2, (Table.mem_delete.mp hx).1, rfl, rfl⟩) fun _ hc => hc
  | edited p id row =>
    refine hkept hview (fun x hx => ?_) fun _ hc => hc
    obtain ⟨y, hy, rfl⟩ := Table.mem_map.mp hx
    refine ⟨y.2, hy, ?_⟩
    simp only
    split_ifs <;> exact ⟨rfl, rfl⟩
  | posted row hrow hclass hnew =>
    have hevents : db'.events = db.events ++ [e] := congrArg View.events hview
    have hmessages : db'.messages = db.messages.insert row := congrArg View.messages hview
    have hchannels : db'.channels = db.channels := congrArg View.channels hview
    have hhash := derivedRow_eventHash hrow
    have hinherits : Inherits db { db with files := db'.files } :=
      ⟨hfiles, Inherits.refl.messages, fun _ he => he, fun _ hid => hid⟩
    refine ⟨(h.inherits hinherits).files, ?_, fun x hx => ?_, fun x hx => ?_⟩
    · rw [hmessages]
      exact h.posts.insert fun x hx heq => absurd (heq.trans hhash) (hnew x hx)
    · rw [hmessages] at hx
      rw [hevents]
      intro hash hsome
      rcases Table.mem_insert.mp hx with hx | rfl
      · obtain ⟨e', he', heq⟩ := h.stored x hx hash hsome
        exact ⟨e', List.mem_append_left _ he', heq⟩
      · exact ⟨e, by simp, Option.some.inj (hhash.symm.trans hsome)⟩
    · rw [hmessages] at hx
      rw [channelIds, hchannels]
      rcases Table.mem_insert.mp hx with hx | rfl
      · exact h.homed x hx
      · exact mem_channelIds_of_class hclass

theorem Keyed.step (h : db.Keyed K) (hstep : DbStep K db db') : db'.Keyed K := by
  cases hstep with
  | channels hids => exact h.inherits ⟨.of_eq rfl, Inherits.refl.messages, fun _ he => he, hids⟩
  | genesis => exact ⟨h.files, h.posts, h.stored, h.homed⟩
  | deletionRequests => exact ⟨h.files, h.posts, h.stored, h.homed⟩
  | reactions => exact ⟨h.files, h.posts, h.stored, h.homed⟩
  | insertMessage hinsert =>
    obtain ⟨hclass, hrow⟩ := insertMessage_eq_ok.mp hinsert
    exact h.insertRow hrow (by simp) (mem_channelIds_of_class (resolve_eq_plaintext.mp hclass))
  | attach hmessage hfile => exact h.inherits recounts_create.inherits
  | edit hedit => exact h.inherits (inherits_editMessage hedit)
  | delete hdelete => exact h.inherits (inherits_deleteMessage hdelete)
  | store hstore => exact h.storeOrReuse hstore
  | ingest hposted hingest => exact h.ingest hposted hingest
  | purge hpurge => exact h.inherits (inherits_purgeExpiredMessages hpurge)
  | execute hexecute => exact h.inherits (inherits_executeDeletion hexecute)
  | cleanup => exact h.inherits inherits_cleanupOrphanedFile

theorem keyed_run {setup : Setup} {tr : List (Transition Host (Moment × HostOp))} {host : Host}
    (hrun : HostRun K (.firstRun setup) tr host) : host.db.Keyed K := by
  refine db_invariant (I := Keyed K) (fun _ _ h hstep => h.step hstep) hrun ?_
  obtain ⟨channels, nextChannel, hdb⟩ := Host.firstRun_db setup
  rw [hdb]
  exact ⟨nofun, nofun, nofun, nofun⟩

theorem LinksKept.insertRow (h : db.LinksKept) (hinsert : db.insertRow row = .ok db') :
    db'.LinksKept := by
  simp only [Db.insertRow, bind_eq_ok, pure_eq_ok] at hinsert
  obtain ⟨⟨⟩, -, rfl⟩ := hinsert
  exact h.congr_messages rfl rfl fun _ r hr => ⟨r, Table.mem_insert.mpr (.inl hr)⟩

theorem LinksKept.step (h : db.LinksKept) (hstep : DbStep K db db') : db'.LinksKept := by
  have hsame : ∀ k row, (k, row) ∈ db.messages → ∃ row', (k, row') ∈ db.messages :=
    fun _ row hrow => ⟨row, hrow⟩
  cases hstep with
  | channels => exact h.congr_messages rfl rfl hsame
  | genesis => exact h.congr_messages rfl rfl hsame
  | deletionRequests => exact h.congr_messages rfl rfl hsame
  | reactions => exact h.congr_messages rfl rfl hsame
  | insertMessage hinsert => exact h.insertRow (insertMessage_eq_ok.mp hinsert).2
  | attach hmessage hfile => exact h.create ⟨_, hmessage⟩ ⟨_, hfile⟩
  | edit hedit => exact (proceeds_editMessage h hedit).links
  | delete hdelete => exact (proceeds_deleteMessage h hdelete).links
  | store hstore => exact h.storeOrReuse hstore
  | ingest hposted hingest => exact (proceeds_ingest h hingest).links
  | purge hpurge => exact (proceeds_purgeExpiredMessages h hpurge).links
  | execute hexecute => exact (deletesData_executeDeletion h hexecute).links
  | cleanup => exact (proceeds_cleanupOrphanedFile h _).links

theorem linked_run {setup : Setup} {tr : List (Transition Host (Moment × HostOp))} {host : Host}
    (hrun : HostRun K (.firstRun setup) tr host) : host.db.LinksKept := by
  refine db_invariant (I := LinksKept) (fun _ _ h hstep => h.step hstep) hrun ?_
  obtain ⟨channels, nextChannel, hdb⟩ := Host.firstRun_db setup
  rw [hdb]
  exact ⟨nofun, nofun, nofun⟩

end Db
end Server
