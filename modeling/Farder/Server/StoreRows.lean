import Farder.Server.StoreOps

/-! # What keeps the store consistent

Three groups of tables, each with its own invariant beside the links of the attachments: the
reactions, the files with their bytes, and the messages with the search index. One lemma for
each operation says that it keeps the group. -/
namespace Server.Db

open EventLog Guarded SearchIndex

variable {K : Crypto} {db db' : Db} {e : Event} {l : List ℕ} {now id : ℕ} {row : MessageRow}

structure Reacted (db : Db) : Prop where
  message : ∀ r ∈ db.reactions, ∃ row, (r.messageId, row) ∈ db.messages
  file : ∀ r ∈ db.reactions, ∀ fileId, r.picture = some fileId → db.HasFile fileId

/-- A hash names one file, the bytes under it are the ones that it is the hash of, and a file
that is not redacted has them. -/
structure Shelved (K : Crypto) (db : Db) : Prop where
  hashes : db.files.UniqueIndex fun f => some f.hash
  named : ∀ b ∈ db.blobs, K.sha256Hex b.2 = b.1
  present : ∀ x ∈ db.files, x.2.redactedBy = none → ∃ b ∈ db.blobs, b.1 = x.2.hash

/-- The index follows the messages, and a sealed row is in an encrypted channel. -/
structure Searched (db : Db) : Prop where
  indexed : Tracks db.messagesFts db.searchable
  classes : ∀ x ∈ db.messages, x.2.isE2ee = true → db.view.classOf x.2.channelId = some .e2ee

structure StoreKept (K : Crypto) (db : Db) : Prop where
  links : db.LinksKept
  reacted : db.Reacted
  shelved : db.Shelved K
  searched : db.Searched

theorem Shelved.stored (h : db.Shelved K) {x : ℕ × FileRow} (hx : x ∈ db.files)
    (hredacted : x.2.redactedBy = none) :
    ∃ bytes, db.contentAt x.2.hash = some bytes ∧ K.sha256Hex bytes = x.2.hash := by
  obtain ⟨b, hb, hhash⟩ := h.present x hx hredacted
  cases hfind : db.blobs.find? fun b => b.1 = x.2.hash with
  | none => exact absurd hhash (by simpa using List.find?_eq_none.mp hfind b hb)
  | some c =>
    have hname : c.1 = x.2.hash := by simpa using List.find?_some hfind
    refine ⟨c.2, by rw [contentAt, hfind, Option.map_some], ?_⟩
    rw [← hname]
    exact h.named c (List.mem_of_find?_eq_some hfind)

theorem StoreKept.selfConsistent (h : db.StoreKept K) : db.SelfConsistent K where
  toLinksKept := h.links
  reactedMessage := h.reacted.message
  reactedFile := h.reacted.file
  stored _ hx := h.shelved.stored hx
  indexed := h.searched.indexed

theorem Shelved.congr (h : db.Shelved K) (hfiles : db'.files = db.files)
    (hblobs : db'.blobs = db.blobs) : db'.Shelved K := by
  refine ⟨?_, ?_, ?_⟩
  · rw [hfiles]
    exact h.hashes
  · rw [hblobs]
    exact h.named
  · rw [hfiles, hblobs]
    exact h.present

theorem Shelved.map_files {f : ℕ → FileRow → FileRow} (h : db.Shelved K)
    (hfiles : db'.files = db.files.map f) (hblobs : db'.blobs = db.blobs)
    (hhash : ∀ k r, (f k r).hash = r.hash) (hredacted : ∀ k r, (f k r).redactedBy = r.redactedBy) :
    db'.Shelved K where
  hashes := by
    rw [hfiles]
    exact h.hashes.map fun x _ => by rw [hhash]
  named := hblobs ▸ h.named
  present := by
    intro x hx hnone
    rw [hfiles] at hx
    obtain ⟨y, hy, rfl⟩ := Table.mem_map.mp hx
    rw [hredacted] at hnone
    rw [hblobs, hhash]
    exact h.present y hy hnone

theorem Shelved.delete {p : ℕ × FileRow → Bool} (h : db.Shelved K)
    (hfiles : db'.files = db.files.delete p)
    (hblobs : ∀ b, b ∈ db'.blobs ↔ b ∈ db.blobs ∧
      ∀ x ∈ db.files, p x = true → b.1 ≠ x.2.hash) : db'.Shelved K where
  hashes := by
    rw [hfiles]
    exact h.hashes.delete
  named b hb := h.named b ((hblobs b).mp hb).1
  present := by
    intro x hx hnone
    rw [hfiles] at hx
    obtain ⟨hx, hkept⟩ := Table.mem_delete.mp hx
    obtain ⟨b, hb, hname⟩ := h.present x hx hnone
    refine ⟨b, (hblobs b).mpr ⟨hb, fun y hy hgone hsame => ?_⟩, hname⟩
    obtain rfl := h.hashes x hx y hy (by simp) (congrArg some (hname.symm.trans hsame))
    simp [hkept] at hgone

theorem Shelved.cleanupOrphanedFile (h : db.Shelved K) (fileId : ℕ) :
    (db.cleanupOrphanedFile fileId).Shelved K := by
  unfold Db.cleanupOrphanedFile
  split
  · exact h
  · rename_i file hfile
    split
    · refine h.delete rfl fun b => ?_
      have hrow := Table.get?_eq_some.mp hfile
      simp only [removeBlob, List.mem_filter, decide_eq_true_eq]
      refine and_congr_right fun _ => ⟨fun hne x hx hid => ?_, fun hne => hne _ hrow rfl⟩
      obtain rfl := Table.eq_of_key_eq (t := db.files) hx hrow hid
      exact hne
    · exact h

theorem mem_removeBlobs {files : List (ℕ × FileRow)} {b : String × List UInt8} :
    b ∈ (files.foldl (fun db x => db.removeBlob x.2.hash) db).blobs ↔
      b ∈ db.blobs ∧ ∀ x ∈ files, b.1 ≠ x.2.hash := by
  induction files generalizing db with
  | nil => simp
  | cons x files ih =>
    rw [List.foldl_cons, ih]
    simp [removeBlob, and_assoc]

theorem Shelved.cleanupAllOrphans (h : db.Shelved K) (now age : ℕ) :
    (db.cleanupAllOrphans now age).Shelved K := by
  refine h.delete rfl fun b => ?_
  simp only [Db.cleanupAllOrphans, mem_removeBlobs, List.mem_filter, and_imp, Prod.forall]
  exact Iff.rfl

theorem Shelved.redactBlob (h : db.Shelved K) (hash : String) (redactor : PublicKey) :
    (db.redactBlob hash redactor).Shelved K := by
  unfold Db.redactBlob
  split
  · exact h
  · refine ⟨h.hashes.map fun x _ => by split_ifs <;> rfl,
      fun b hb => h.named b (List.mem_filter.mp hb).1, ?_⟩
    intro x hx hnone
    obtain ⟨y, hy, rfl⟩ := Table.mem_map.mp hx
    simp only at hnone ⊢
    split_ifs at hnone ⊢ with hsame
    obtain ⟨b, hb, hname⟩ := h.present y hy hnone
    exact ⟨b, List.mem_filter.mpr ⟨hb, by simpa [hname] using hsame⟩, hname⟩

theorem Shelved.sweepRedactedBytes (h : db.Shelved K) : db.sweepRedactedBytes.Shelved K where
  hashes := h.hashes
  named b hb := h.named b (List.mem_filter.mp hb).1
  present := by
    intro x hx hnone
    obtain ⟨b, hb, hname⟩ := h.present x hx hnone
    refine ⟨b, List.mem_filter.mpr ⟨hb, decide_eq_true fun y hy hsame => ?_⟩, hname⟩
    obtain rfl := h.hashes x hx y hy (by simp) (congrArg some (hname.symm.trans hsame.symm))
    exact hnone

theorem Shelved.storeOrReuse {uploadedBy : PublicKey} {name hash mime : String}
    {bytes : List UInt8} {size fileId : ℕ} {media : MediaInfo} (h : db.Shelved K)
    (hstore : db.storeOrReuseFromTempFile K uploadedBy name bytes hash mime size media now =
      .ok (db', fileId)) : db'.Shelved K := by
  unfold storeOrReuseFromTempFile at hstore
  split at hstore
  · simp only [pure_eq_ok, Prod.mk.injEq] at hstore
    exact hstore.1 ▸ h
  · rename_i hnone
    simp only [bind_eq_ok, ensure_eq_ok, pure_eq_ok, Prod.mk.injEq] at hstore
    obtain ⟨⟨⟩, rfl, rfl, -⟩ := hstore
    have hfree : ∀ x ∈ db.files, x.2.hash ≠ K.sha256Hex bytes := by
      simpa [fileByHash, Table.find?_eq_none] using hnone
    refine ⟨h.hashes.insert fun x hx heq => absurd (Option.some.inj heq) (hfree x hx), ?_, ?_⟩
    · intro b hb
      rcases List.mem_append.mp hb with hb | hb
      · exact h.named b (List.mem_filter.mp hb).1
      · obtain rfl := List.mem_singleton.mp hb
        rfl
    · intro x hx hnone
      rcases Table.mem_insert.mp hx with hx | rfl
      · obtain ⟨b, hb, hname⟩ := h.present x hx hnone
        refine ⟨b, List.mem_append_left _ (List.mem_filter.mpr ⟨hb, ?_⟩), hname⟩
        simpa [hname] using hfree x hx
      · exact ⟨_, List.mem_append_right _ (List.mem_singleton_self _), rfl⟩

/-- The row but for its count. -/
def uncounted (r : FileRow) : FileRow := { r with refCount := 0 }

/-- A step on the attachments and the counts alone. -/
structure Recounts (db db' : Db) : Prop where
  files : ∃ f : ℕ → FileRow → FileRow, db'.files = db.files.map f ∧
    ∀ k r, uncounted (f k r) = uncounted r
  same : db' = { db with files := db'.files, attachments := db'.attachments }

theorem Recounts.refl : Recounts db db :=
  ⟨⟨fun _ r => r, (Table.map_eq_self fun _ _ => rfl).symm, fun _ _ => rfl⟩, rfl⟩

theorem Recounts.trans {db'' : Db} (h : Recounts db db') (k : Recounts db' db'') :
    Recounts db db'' := by
  obtain ⟨f, hf, hsame⟩ := h.files
  obtain ⟨g, hg, ksame⟩ := k.files
  refine ⟨⟨fun i r => g i (f i r), ?_, fun i r => ?_⟩, ?_⟩
  · rw [hg, hf, Table.map_map]
  · exact (ksame i (f i r)).trans (hsame i r)
  · rw [k.same, h.same]

theorem Recounts.hasFile (h : Recounts db db') {fileId : ℕ} :
    db'.HasFile fileId ↔ db.HasFile fileId := by
  obtain ⟨f, hf, -⟩ := h.files
  simp only [HasFile, hf]
  constructor
  · rintro ⟨file, hfile⟩
    obtain ⟨y, hy, heq⟩ := Table.mem_map.mp hfile
    obtain ⟨rfl, rfl⟩ := Prod.mk.inj heq
    exact ⟨y.2, hy⟩
  · rintro ⟨file, hfile⟩
    exact ⟨_, Table.mem_map_of_mem hfile⟩

theorem Recounts.file (h : Recounts db db') {x : ℕ × FileRow} (hx : x ∈ db'.files) :
    ∃ file, (x.1, file) ∈ db.files ∧ file.uploadedAt = x.2.uploadedAt := by
  obtain ⟨f, hf, hsame⟩ := h.files
  rw [hf] at hx
  obtain ⟨y, hy, rfl⟩ := Table.mem_map.mp hx
  have huploaded : (uncounted (f y.1 y.2)).uploadedAt = (uncounted y.2).uploadedAt := by
    rw [hsame]
  exact ⟨y.2, hy, huploaded.symm⟩

theorem Recounts.messages (h : Recounts db db') : db'.messages = db.messages := by rw [h.same]
theorem Recounts.fts (h : Recounts db db') : db'.messagesFts = db.messagesFts := by rw [h.same]
theorem Recounts.reactions (h : Recounts db db') : db'.reactions = db.reactions := by rw [h.same]
theorem Recounts.channels (h : Recounts db db') : db'.channels = db.channels := by rw [h.same]
theorem Recounts.blobs (h : Recounts db db') : db'.blobs = db.blobs := by rw [h.same]

theorem Shelved.recounts (h : db.Shelved K) (hr : Recounts db db') : db'.Shelved K := by
  obtain ⟨f, hf, hsame⟩ := hr.files
  have hhash : ∀ k r, (uncounted (f k r)).hash = (uncounted r).hash := fun k r => by rw [hsame]
  have hredacted : ∀ k r, (uncounted (f k r)).redactedBy = (uncounted r).redactedBy :=
    fun k r => by rw [hsame]
  exact h.map_files hf hr.blobs hhash hredacted

theorem recounts_create {messageId fileId position : ℕ} {name : String} {media : MediaInfo} :
    Recounts db (db.createMessageAttachment messageId fileId position name media) := by
  let counted (k : ℕ) (r : FileRow) : FileRow :=
    if k = fileId then { r with refCount := r.refCount + 1 } else r
  refine ⟨⟨counted, rfl, fun k r => ?_⟩, rfl⟩
  simp only [counted]
  split_ifs <;> rfl

theorem recounts_deriveAttachment {messageId position : ℕ} {author owner : PublicKey}
    {cap : AttachmentCap} :
    Recounts db (db.deriveAttachment messageId author owner position cap) := by
  unfold deriveAttachment
  split
  · exact .refl
  · split
    · exact recounts_create
    · exact .refl

theorem recounts_deriveAttachments {messageId : ℕ} {owner : PublicKey} :
    Recounts db (db.deriveAttachments e messageId owner) :=
  foldl_invariant (P := Recounts db) .refl fun _ h _ _ => h.trans recounts_deriveAttachment

theorem recounts_deleteAttachments (h : db.deleteAttachmentsForMessage id = .ok (db', l)) :
    Recounts db db' := by
  obtain ⟨hdb, -, -⟩ := foldlM_releaseFile h
  obtain rfl : db' = _ := hdb
  let counted (k : ℕ) (r : FileRow) : FileRow :=
    { r with refCount := r.refCount - (db.attachedFiles id).count k }
  exact ⟨⟨counted, rfl, fun _ _ => rfl⟩, rfl⟩

theorem recounts_removeAttachments {author : PublicKey}
    (h : db.removeAttachmentsForAuthorMessages author = .ok (db', l)) : Recounts db db' := by
  refine foldlM_invariant (P := fun acc => Recounts db acc.1) h .refl ?_
  intro acc hacc messageId _ acc' hstep
  simp only [bind_eq_ok, pure_eq_ok] at hstep
  obtain ⟨⟨db₁, orphans⟩, hdelete, rfl⟩ := hstep
  exact hacc.trans (recounts_deleteAttachments hdelete)

/-! ## The search index -/

theorem searchable_eq_some {content : String} : db.searchable id = some content ↔
    ∃ row, (id, row) ∈ db.messages ∧ row.isE2ee = false ∧ row.content = content := by
  simp [searchable, Option.filter_eq_some_iff, Table.get?_eq_some, and_assoc]

theorem searchable_congr (h : db'.messages = db.messages) (k : ℕ) :
    db'.searchable k = db.searchable k := by
  rw [searchable, h, searchable]

theorem Searched.congr (h : db.Searched) (hmessages : db'.messages = db.messages)
    (hfts : db'.messagesFts = db.messagesFts)
    (hclasses : ∀ id, db.view.classOf id = some .e2ee → db'.view.classOf id = some .e2ee) :
    db'.Searched where
  indexed := hfts ▸ h.indexed.congr (searchable_congr hmessages)
  classes := by
    intro x hx hsealed
    rw [hmessages] at hx
    exact hclasses _ (h.classes x hx hsealed)

theorem Searched.same (h : db.Searched) (hmessages : db'.messages = db.messages)
    (hfts : db'.messagesFts = db.messagesFts) (hchannels : db'.channels = db.channels) :
    db'.Searched :=
  h.congr hmessages hfts fun id hid => (classOf_congr (v := db.view) hchannels id).trans hid

theorem Searched.recounts (h : db.Searched) (hr : Recounts db db') : db'.Searched :=
  h.same hr.messages hr.fts hr.channels

theorem Searched.map {f : ℕ → MessageRow → MessageRow} (h : db.Searched)
    (hmessages : db'.messages = db.messages.map f) (hfts : db'.messagesFts = db.messagesFts)
    (hchannels : db'.channels = db.channels) (hcontent : ∀ k r, (f k r).content = r.content)
    (hsealed : ∀ k r, (f k r).isE2ee = r.isE2ee)
    (hchannel : ∀ k r, (f k r).channelId = r.channelId) : db'.Searched where
  indexed := by
    rw [hfts]
    refine h.indexed.congr fun k => ?_
    rw [searchable, searchable, hmessages, Table.get?_map]
    cases db.messages.get? k with
    | none => rfl
    | some row =>
      cases hplain : row.isE2ee <;> simp [Option.filter, hsealed, hcontent, hplain]
  classes := by
    intro x hx hx'
    rw [hmessages] at hx
    obtain ⟨y, hy, rfl⟩ := Table.mem_map.mp hx
    rw [hsealed] at hx'
    rw [hchannel, classOf_congr (v := db.view) hchannels]
    exact h.classes y hy hx'

theorem searchable_next : db.searchable db.messages.next = none := by
  refine Option.eq_none_iff_forall_ne_some.mpr fun content hcontent => ?_
  obtain ⟨row, hrow, -⟩ := searchable_eq_some.mp hcontent
  exact absurd (Table.key_lt hrow) (lt_irrefl _)

theorem messagesFts_insertRow (h : db.insertRow row = .ok db') :
    db'.messagesFts = run db.messagesFts (db.insertCommands row) := by
  simp only [insertRow, bind_eq_ok, pure_eq_ok] at h
  obtain ⟨⟨⟩, -, rfl⟩ := h
  unfold insertCommands
  cases row.isE2ee <;> rfl

theorem Searched.insertRow (h : db.Searched) (hinsert : db.insertRow row = .ok db')
    (hclass : row.isE2ee = true → db.view.classOf row.channelId = some .e2ee) :
    db'.Searched := by
  have hfts := messagesFts_insertRow hinsert
  obtain ⟨-, hview⟩ := view_insertRow hinsert
  have hmessages : db'.messages = db.messages.insert row := congrArg View.messages hview
  have hchannels : db'.channels = db.channels := congrArg View.channels hview
  refine ⟨?_, ?_⟩
  · have hsearch : ∀ k, db'.searchable k = if k = db.messages.next then
        (if row.isE2ee then none else some row.content) else db.searchable k := by
      intro k
      rw [searchable, hmessages, Table.get?_insert]
      split_ifs with hk hsealed
      · simp [Option.filter, hsealed]
      · simp [Option.filter, hsealed]
      · rfl
    rw [hfts, insertCommands]
    split_ifs with hsealed
    · refine h.indexed.congr fun k => ?_
      rw [hsearch, if_pos hsealed]
      split_ifs with hk
      · rw [hk, searchable_next]
      · rfl
    · refine (h.indexed.insert (c := row.content) searchable_next).congr fun k => ?_
      rw [hsearch, if_neg hsealed, Function.update_apply]
  · intro x hx hsealed
    rw [classOf_congr (v := db.view) hchannels]
    rw [hmessages] at hx
    rcases Table.mem_insert.mp hx with hx | rfl
    · exact h.classes x hx hsealed
    · exact hclass hsealed

theorem tracks_unindex {rows : List (ℕ × MessageRow)} {p : ℕ × MessageRow → Bool}
    (h : Tracks db.messagesFts db.searchable) (hkeys : (rows.map Prod.fst).Nodup)
    (hrows : ∀ x ∈ rows, x ∈ db.messages) (hp : ∀ x ∈ db.messages, p x = true ↔ x ∈ rows)
    (hmessages : db'.messages = db.messages.delete p) :
    Valid db.messagesFts (unindexCommands rows) ∧
      Tracks (run db.messagesFts (unindexCommands rows)) db'.searchable := by
  have hplain : ∀ x ∈ rows.filter (fun x => !x.2.isE2ee),
      db.searchable x.1 = some x.2.content := by
    intro x hx
    obtain ⟨hx, hplain⟩ := List.mem_filter.mp hx
    exact searchable_eq_some.mpr ⟨x.2, hrows x hx, by simpa using hplain, rfl⟩
  obtain ⟨hvalid, htracks⟩ := h.deletes (f := Prod.fst) (g := fun x => x.2.content)
    (hkeys.sublist (List.filter_sublist.map Prod.fst)) hplain
  refine ⟨hvalid, htracks.congr fun k => Option.ext fun content => ?_⟩
  rw [searchable_eq_some, hmessages]
  simp only [Table.mem_delete]
  split_ifs with hk
  · obtain ⟨x, hx, rfl⟩ := List.mem_map.mp hk
    obtain ⟨hx, -⟩ := List.mem_filter.mp hx
    refine iff_of_false ?_ (by simp)
    rintro ⟨row, ⟨hrow, hkept⟩, -⟩
    obtain rfl := Table.row_eq hrow (hrows x hx)
    simp [(hp x (hrows x hx)).mpr hx] at hkept
  · rw [searchable_eq_some]
    refine exists_congr fun row => ⟨fun h => ⟨h.1.1, h.2⟩, fun hall => ?_⟩
    obtain ⟨hrow, hplain, hcontent⟩ := hall
    refine ⟨⟨hrow, ?_⟩, hplain, hcontent⟩
    by_contra hgone
    refine hk (List.mem_map.mpr ⟨(k, row), List.mem_filter.mpr ⟨?_, by simpa using hplain⟩, rfl⟩)
    exact (hp _ hrow).mp (by simpa using hgone)

theorem Searched.deleteRows {rows : List (ℕ × MessageRow)} {p : ℕ × MessageRow → Bool}
    (h : db.Searched) (hkeys : (rows.map Prod.fst).Nodup)
    (hrows : ∀ x ∈ rows, x ∈ db.messages) (hp : ∀ x ∈ db.messages, p x = true ↔ x ∈ rows)
    (hmessages : db'.messages = db.messages.delete p)
    (hfts : db'.messagesFts = run db.messagesFts (unindexCommands rows))
    (hclasses : ∀ x ∈ db'.messages, db.view.classOf x.2.channelId = some .e2ee →
      db'.view.classOf x.2.channelId = some .e2ee) :
    Valid db.messagesFts (unindexCommands rows) ∧ db'.Searched := by
  obtain ⟨hvalid, htracks⟩ := tracks_unindex h.indexed hkeys hrows hp hmessages
  refine ⟨hvalid, hfts ▸ htracks, fun x hx hsealed => hclasses x hx ?_⟩
  rw [hmessages] at hx
  exact h.classes x (Table.mem_delete.mp hx).1 hsealed

theorem nodup_keys (p : ℕ × MessageRow → Bool) :
    ((db.messages.rows.filter p).map Prod.fst).Nodup := by
  have hnodup : (db.messages.rows.map Prod.fst).Nodup :=
    db.messages.sorted.imp fun hlt => Nat.ne_of_lt hlt
  exact hnodup.sublist (List.filter_sublist.map Prod.fst)

theorem messagesFts_unindexAll {rows : List (ℕ × MessageRow)} :
    (rows.foldl (fun db x => db.unindex x.1 x.2) db).messagesFts =
      run db.messagesFts (unindexCommands rows) := by
  induction rows generalizing db with
  | nil => rfl
  | cons x rows ih =>
    rw [List.foldl_cons, ih, unindex, unindexCommands, unindexCommands, List.filter_cons]
    cases x.2.isE2ee <;> rfl

theorem messagesFts_reindexAll {rows : List (ℕ × MessageRow)} {new : String} :
    (rows.foldl (fun db x => db.reindex x.1 x.2.content new) db).messagesFts =
      run db.messagesFts (rows.flatMap fun x => replace x.1 x.2.content new) := by
  induction rows generalizing db with
  | nil => rfl
  | cons x rows ih =>
    rw [List.foldl_cons, ih, List.flatMap_cons, run_append]
    rfl

end Server.Db
