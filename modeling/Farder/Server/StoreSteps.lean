import Farder.Server.StoreRows

/-! # Operations on the store

Each operation keeps the store consistent, and the commands that it issues to the search index
find the entries that they name. -/
namespace Server.Db

open EventLog Guarded SearchIndex

variable {K : Crypto} {db db' : Db} {e : Event} {l : List ℕ} {now id : ℕ} {row : MessageRow}

/-! ## Steps on one group -/

theorem Reacted.mono (h : db.Reacted)
    (hreactions : ∀ r ∈ db'.reactions, r ∈ db.reactions ∧
      ∀ row, (r.messageId, row) ∈ db.messages → ∃ row', (r.messageId, row') ∈ db'.messages)
    (hfiles : ∀ r ∈ db'.reactions, ∀ fileId, r.picture = some fileId → db.HasFile fileId →
      db'.HasFile fileId) : db'.Reacted where
  message := by
    intro r hr
    obtain ⟨hr, hkept⟩ := hreactions r hr
    obtain ⟨row, hrow⟩ := h.message r hr
    exact hkept row hrow
  file r hr fileId hpicture :=
    hfiles r hr fileId hpicture (h.file r (hreactions r hr).1 fileId hpicture)

theorem Reacted.same (h : db.Reacted) (hreactions : ∀ r ∈ db'.reactions, r ∈ db.reactions)
    (hmessages : ∀ k row, (k, row) ∈ db.messages → ∃ row', (k, row') ∈ db'.messages)
    (hfiles : ∀ fileId, db.HasFile fileId → db'.HasFile fileId) : db'.Reacted :=
  h.mono (fun r hr => ⟨hreactions r hr, fun row hrow => hmessages _ row hrow⟩)
    fun _ _ fileId _ hfile => hfiles fileId hfile

/-- A step that leaves the tables of the store alone, and opens no encrypted channel. -/
structure SameStore (db db' : Db) : Prop where
  messages : db'.messages = db.messages
  fts : db'.messagesFts = db.messagesFts
  files : db'.files = db.files
  blobs : db'.blobs = db.blobs
  attachments : db'.attachments = db.attachments
  reactions : db'.reactions = db.reactions
  classes : ∀ id, db.view.classOf id = some .e2ee → db'.view.classOf id = some .e2ee

theorem StoreKept.same (h : db.StoreKept K) (hs : SameStore db db') : db'.StoreKept K where
  links := (Proceeds.of_same h.links (by rw [fileView, hs.files, hs.attachments, fileView])
    hs.messages).links
  reacted := h.reacted.same (fun r hr => hs.reactions ▸ hr)
    (fun k row hrow => ⟨row, hs.messages ▸ hrow⟩) fun fileId ⟨file, hfile⟩ =>
      ⟨file, hs.files ▸ hfile⟩
  shelved := h.shelved.congr hs.files hs.blobs
  searched := h.searched.congr hs.messages hs.fts hs.classes

theorem SameStore.of_channels (hmessages : db'.messages = db.messages)
    (hfts : db'.messagesFts = db.messagesFts) (hfiles : db'.files = db.files)
    (hblobs : db'.blobs = db.blobs) (hattachments : db'.attachments = db.attachments)
    (hreactions : db'.reactions = db.reactions) (hchannels : db'.channels = db.channels) :
    SameStore db db' :=
  ⟨hmessages, hfts, hfiles, hblobs, hattachments, hreactions,
    fun id hid => (classOf_congr (v := db.view) hchannels id).trans hid⟩

theorem StoreKept.recounts (h : db.StoreKept K) (hr : Recounts db db') (hlinks : db'.LinksKept) :
    db'.StoreKept K where
  links := hlinks
  reacted := h.reacted.same (fun _ hx => hr.reactions ▸ hx)
    (fun _ row hrow => ⟨row, hr.messages ▸ hrow⟩) fun _ hfile => hr.hasFile.mpr hfile
  shelved := h.shelved.recounts hr
  searched := h.searched.recounts hr

theorem StoreKept.fewerReactions (h : db.StoreKept K)
    (hreactions : ∀ r ∈ db'.reactions, r ∈ db.reactions)
    (hmessages : db'.messages = db.messages) (hfts : db'.messagesFts = db.messagesFts)
    (hfiles : db'.files = db.files) (hblobs : db'.blobs = db.blobs)
    (hattachments : db'.attachments = db.attachments) (hchannels : db'.channels = db.channels) :
    db'.StoreKept K where
  links := h.links.congr_messages hattachments hfiles fun _ row hrow => ⟨row, hmessages ▸ hrow⟩
  reacted := h.reacted.same hreactions (fun _ row hrow => ⟨row, hmessages ▸ hrow⟩)
    fun _ ⟨file, hfile⟩ => ⟨file, hfiles ▸ hfile⟩
  shelved := h.shelved.congr hfiles hblobs
  searched := h.searched.same hmessages hfts hchannels

/-- The step issues valid commands and changes the index by them. -/
structure Issues (K : Crypto) (commands : List (Command ℕ String)) (db db' : Db) : Prop where
  valid : Valid db.messagesFts commands
  index : db'.messagesFts = run db.messagesFts commands
  kept : db'.StoreKept K

theorem StoreKept.insertRow (h : db.StoreKept K) (hinsert : db.insertRow row = .ok db')
    (hclass : row.isE2ee = true → db.view.classOf row.channelId = some .e2ee) :
    db'.StoreKept K := by
  have hsearched := h.searched.insertRow hinsert hclass
  simp only [Db.insertRow, bind_eq_ok, pure_eq_ok] at hinsert
  obtain ⟨⟨⟩, -, rfl⟩ := hinsert
  have hmessages : ∀ k r, (k, r) ∈ db.messages → ∃ r', (k, r') ∈ db.messages.insert row :=
    fun k r hr => ⟨r, Table.mem_insert.mpr (.inl hr)⟩
  exact ⟨h.links.congr_messages rfl rfl hmessages,
    h.reacted.same (fun _ hr => hr) hmessages fun _ hfile => hfile,
    h.shelved.congr rfl rfl, hsearched⟩

theorem StoreKept.rewrite {f : ℕ → MessageRow → MessageRow} (h : db.StoreKept K)
    (hmessages : db'.messages = db.messages.map f) (hfiles : db'.files = db.files)
    (hblobs : db'.blobs = db.blobs) (hattachments : db'.attachments = db.attachments)
    (hreactions : db'.reactions = db.reactions) (hsearched : db'.Searched) :
    db'.StoreKept K where
  links := h.links.congr_messages hattachments hfiles fun _ _ hr =>
    ⟨_, hmessages ▸ Table.mem_map_of_mem hr⟩
  reacted := h.reacted.same (fun _ hr => hreactions ▸ hr)
    (fun _ _ hr => ⟨_, hmessages ▸ Table.mem_map_of_mem hr⟩) fun _ ⟨file, hfile⟩ =>
      ⟨file, hfiles ▸ hfile⟩
  shelved := h.shelved.congr hfiles hblobs
  searched := hsearched

theorem StoreKept.updateSealedRow {sealed : List UInt8} {editedAt : ℕ} (h : db.StoreKept K)
    (hupdate : db.updateSealedRow id sealed editedAt = .ok db') : db'.StoreKept K := by
  obtain ⟨-, -, -, -, rfl⟩ := view_updateSealedRow hupdate
  let resealed (k : ℕ) (r : MessageRow) : MessageRow :=
    if k = id then { r with sealed := some sealed, editedAt := some editedAt } else r
  refine h.rewrite (f := resealed) rfl rfl rfl rfl rfl
    (h.searched.map (f := resealed) rfl rfl rfl ?_ ?_ ?_)
  all_goals
    intro k r
    simp only [resealed]
    split_ifs <;> rfl

theorem StoreKept.editMessage {content : String} (h : db.StoreKept K)
    (hedit : db.editMessage id content now = .ok db') :
    Issues K (db.editCommands id content) db db' := by
  simp only [Db.editMessage, requirePlaintext, bind_eq_ok, context_eq_ok, ensure_eq_ok,
    pure_eq_ok] at hedit
  obtain ⟨row, hget, ⟨⟩, hclass, rfl⟩ := hedit
  have hrow := Table.get?_eq_some.mp hget
  have hplain : row.isE2ee = false := by
    by_contra hsealed
    have hchannel := h.searched.classes _ hrow (by simpa using hsealed)
    rw [resolve_eq_plaintext, hchannel] at hclass
    exact absurd hclass (by simp)
  obtain ⟨hvalid, htracks⟩ := h.searched.indexed.replace (c := content)
    (searchable_eq_some.mpr ⟨row, hrow, hplain, rfl⟩)
  let edited (k : ℕ) (r : MessageRow) : MessageRow :=
    if k = id then { r with content, editedAt := some now } else r
  rw [editCommands, hget]
  refine ⟨hvalid, rfl, h.rewrite (f := edited) rfl rfl rfl rfl rfl ⟨htracks.congr fun k => ?_, ?_⟩⟩
  · have hsearch : ∀ d : Db, d.messages = db.messages.map edited →
        d.searchable k = Function.update db.searchable id (some content) k := by
      intro d hd
      rw [searchable, hd, Table.get?_map, Function.update_apply]
      split_ifs with hk
      · subst hk
        simp [edited, hget, Option.filter, hplain]
      · simp [edited, hk, searchable]
    exact hsearch _ rfl
  · intro x hx hsealed
    obtain ⟨y, hy, rfl⟩ := Table.mem_map.mp hx
    split_ifs at hsealed ⊢
    · exact h.searched.classes y hy hsealed
    · exact h.searched.classes y hy hsealed

def plaintextBy (db : Db) (author : PublicKey) : List (ℕ × MessageRow) :=
  db.messages.rows.filter fun x => x.2.author = author ∧ x.2.isE2ee = false

theorem mem_plaintextBy {author : PublicKey} {x : ℕ × MessageRow} :
    x ∈ db.plaintextBy author ↔ x ∈ db.messages ∧ x.2.author = author ∧ x.2.isE2ee = false := by
  simp [plaintextBy, Table.mem_def]

theorem searchable_anonymize (author : PublicKey) (k : ℕ) :
    (db.anonymizeMessagesByAuthor author).searchable k =
      if k ∈ (db.plaintextBy author).map Prod.fst then some "[deleted]" else db.searchable k := by
  have hmessages : (db.anonymizeMessagesByAuthor author).messages = db.messages.map fun _ row =>
      if row.author = author then anonymized row else row :=
    congrArg View.messages (view_anonymize author)
  refine Option.ext fun content => ?_
  rw [searchable_eq_some, hmessages]
  simp only [Table.mem_map, Prod.mk.injEq]
  split_ifs with hk
  · obtain ⟨x, hx, rfl⟩ := List.mem_map.mp hk
    obtain ⟨hx, hauthor, hplain⟩ := mem_plaintextBy.mp hx
    rw [Option.some.injEq]
    constructor
    · rintro ⟨_, ⟨y, hy, hkey, rfl⟩, -, rfl⟩
      obtain rfl := Table.eq_of_key_eq (t := db.messages) hy hx hkey
      simp [hauthor, anonymized, hplain]
    · rintro rfl
      exact ⟨_, ⟨x, hx, rfl, rfl⟩, by simp [hauthor, anonymized, hplain],
        by simp [hauthor, anonymized, hplain]⟩
  · rw [searchable_eq_some]
    -- A plaintext row with another key is somebody else's.
    have hother : ∀ y ∈ db.messages, y.1 = k → y.2.isE2ee = false → y.2.author ≠ author := by
      rintro y hy rfl hplain hauthor
      exact hk (List.mem_map.mpr ⟨y, mem_plaintextBy.mpr ⟨hy, hauthor, hplain⟩, rfl⟩)
    constructor
    · rintro ⟨_, ⟨y, hy, rfl, rfl⟩, hplain, rfl⟩
      have hplain' : y.2.isE2ee = false := by
        split_ifs at hplain <;> exact hplain
      rw [if_neg (hother y hy rfl hplain')] at hplain ⊢
      exact ⟨y.2, hy, hplain, rfl⟩
    · rintro ⟨row, hrow, hplain, rfl⟩
      have hne := hother _ hrow rfl hplain
      exact ⟨row, ⟨_, hrow, rfl, if_neg hne⟩, hplain, rfl⟩

theorem StoreKept.anonymize (h : db.StoreKept K) (author : PublicKey) :
    Issues K (db.anonymizeCommands author) db (db.anonymizeMessagesByAuthor author) := by
  have hplain : ∀ x ∈ db.plaintextBy author, db.searchable x.1 = some x.2.content := by
    intro x hx
    obtain ⟨hx, -, hplain⟩ := mem_plaintextBy.mp hx
    exact searchable_eq_some.mpr ⟨x.2, hx, hplain, rfl⟩
  have hkeys : ((db.plaintextBy author).map Prod.fst).Nodup := nodup_keys _
  obtain ⟨hvalid, htracks⟩ := h.searched.indexed.replaces (f := Prod.fst)
    (g := fun x => x.2.content) (d := "[deleted]") hkeys hplain
  have hfts : (db.anonymizeMessagesByAuthor author).messagesFts =
      run db.messagesFts (db.anonymizeCommands author) := messagesFts_reindexAll
  refine ⟨hvalid, hfts, ?_⟩
  have hview := @view_anonymize db author
  have hmessages : (db.anonymizeMessagesByAuthor author).messages = db.messages.map fun _ row =>
      if row.author = author then anonymized row else row := congrArg View.messages hview
  obtain ⟨hfiles, hattachments⟩ := Prod.mk.inj (@fileView_anonymize db author)
  have hframe {β : Type} (out : Db → β) (hout : ∀ (db : Db) x (row : MessageRow),
      out (db.reindex x row.content "[deleted]") = out db) (rows : List (ℕ × MessageRow)) :
      out (rows.foldl (fun db x => db.reindex x.1 x.2.content "[deleted]") db) = out db :=
    foldl_frame out (fun db x => hout db x.1 x.2) rows db
  refine h.rewrite hmessages hfiles (hframe blobs (fun _ _ _ => rfl) _) hattachments
    (hframe reactions (fun _ _ _ => rfl) _) ⟨?_, ?_⟩
  · rw [hfts]
    exact htracks.congr (searchable_anonymize author)
  · intro x hx hsealed
    have hchannels : (db.anonymizeMessagesByAuthor author).channels = db.channels :=
      congrArg View.channels hview
    rw [classOf_congr (v := db.view) hchannels]
    rw [hmessages] at hx
    obtain ⟨y, hy, rfl⟩ := Table.mem_map.mp hx
    split_ifs at hsealed ⊢
    · exact h.searched.classes y hy hsealed
    · exact h.searched.classes y hy hsealed

theorem Recounts.onReactions (h : Recounts db db') (reactions : List ReactionRow) :
    Recounts { db with reactions } { db' with reactions } :=
  ⟨h.files, congrArg (fun db => { db with reactions }) h.same⟩

def reactionsBut (db : Db) (rows : List (ℕ × MessageRow)) : List ReactionRow :=
  db.reactions.filter fun r => r.messageId ∉ rows.map Prod.fst

/-- A loop that takes attachments and reactions of one message after the other. -/
theorem recounts_drop {step : Db → ℕ × MessageRow → Checked Db}
    (hstep : ∀ db x db', step db x = .ok db' →
      Recounts { db with reactions := db.reactions.filter fun r => r.messageId ≠ x.1 } db')
    {rows : List (ℕ × MessageRow)} (h : rows.foldlM step db = .ok db') :
    Recounts { db with reactions := db.reactionsBut rows } db' := by
  induction rows generalizing db with
  | nil =>
    obtain rfl : db = db' := by simpa using h
    have hall : db.reactionsBut [] = db.reactions := by simp [reactionsBut]
    rw [hall]
    exact .refl
  | cons x rows ih =>
    rw [List.foldlM_cons, bind_eq_ok] at h
    obtain ⟨db₁, hhead, htail⟩ := h
    have hfirst := hstep db x db₁ hhead
    have hrest : db₁.reactionsBut rows = db.reactionsBut (x :: rows) := by
      have hreactions : db₁.reactions = db.reactions.filter fun r => r.messageId ≠ x.1 :=
        hfirst.reactions
      rw [reactionsBut, reactionsBut, hreactions, List.filter_filter]
      refine List.filter_congr fun r _ => ?_
      rw [List.map_cons, Bool.eq_iff_iff]
      simp only [Bool.and_eq_true, decide_eq_true_eq, List.mem_cons, not_or]
      exact and_comm
    have hall := ih htail
    rw [hrest] at hall
    exact (hfirst.onReactions _).trans hall

theorem recounts_deleteThenReact {x : ℕ × MessageRow}
    (h : (do let (db, _) ← db.deleteAttachmentsForMessage x.1
             return db.deleteReactionsForMessage x.1) = .ok db') :
    Recounts { db with reactions := db.reactions.filter fun r => r.messageId ≠ x.1 } db' := by
  simp only [bind_eq_ok, pure_eq_ok] at h
  obtain ⟨⟨db₁, orphans⟩, hdelete, rfl⟩ := h
  have hr := recounts_deleteAttachments hdelete
  have hreactions : (db₁.deleteReactionsForMessage x.1).reactions =
      db.reactions.filter fun r => r.messageId ≠ x.1 := by
    simp only [deleteReactionsForMessage, hr.reactions]
  exact hreactions ▸ hr.onReactions _

theorem recounts_reactThenDelete {x : ℕ × MessageRow}
    (h : (do let (db, _) ← (db.deleteReactionsForMessage x.1).deleteAttachmentsForMessage x.1
             return db) = .ok db') :
    Recounts { db with reactions := db.reactions.filter fun r => r.messageId ≠ x.1 } db' := by
  simp only [bind_eq_ok, pure_eq_ok] at h
  obtain ⟨⟨db₁, orphans⟩, hdelete, rfl⟩ := h
  exact recounts_deleteAttachments hdelete

theorem StoreKept.drop {rows : List (ℕ × MessageRow)} {p : ℕ × MessageRow → Bool} {db₁ : Db}
    (h : db.StoreKept K) (hr : Recounts { db with reactions := db.reactionsBut rows } db₁)
    (hp : ∀ x ∈ db.messages, p x = true ↔ x ∈ rows)
    (hmessages : db'.messages = db.messages.delete p) (hfiles : db'.files = db₁.files)
    (hblobs : db'.blobs = db₁.blobs) (hreactions : db'.reactions = db₁.reactions)
    (hlinks : db'.LinksKept) (hsearched : db'.Searched) : db'.StoreKept K where
  links := hlinks
  reacted := by
    have hleft : db'.reactions = db.reactionsBut rows := hreactions.trans hr.reactions
    refine h.reacted.mono (fun r hx => ?_) fun r _ fileId _ hfile => ?_
    · rw [hleft] at hx
      obtain ⟨hx, hkept⟩ := List.mem_filter.mp hx
      refine ⟨hx, fun row hrow => ⟨row, ?_⟩⟩
      rw [hmessages, Table.mem_delete]
      refine ⟨hrow, Bool.eq_false_iff.mpr fun hgone => ?_⟩
      exact (of_decide_eq_true hkept) (List.mem_map_of_mem (f := Prod.fst) ((hp _ hrow).mp hgone))
    · obtain ⟨file, hfile'⟩ : db₁.HasFile fileId := hr.hasFile.mpr hfile
      exact ⟨file, hfiles ▸ hfile'⟩
  shelved := by
    have hsame : Shelved K { db with reactions := db.reactionsBut rows } :=
      h.shelved.congr rfl rfl
    exact (hsame.recounts hr).congr hfiles hblobs
  searched := hsearched

theorem messagesFts_unindex : (db.unindex id row).messagesFts =
    run db.messagesFts (unindexCommands [(id, row)]) :=
  @messagesFts_unindexAll db [(id, row)]

theorem frame_unindex {β : Type} (out : Db → β)
    (hout : ∀ (db : Db) messagesFts, out { db with messagesFts } = out db) :
    out (db.unindex id row) = out db := by
  unfold unindex
  split
  · rfl
  · exact hout db _

theorem StoreKept.deleteMessage (h : db.StoreKept K) (hrow : (id, row) ∈ db.messages)
    (hdelete : db.deleteMessage id = .ok (db', l)) :
    Issues K (db.deleteCommands id) db db' := by
  have hlinks := (proceeds_deleteMessage h.links hdelete).links
  have hview := view_deleteMessage hdelete
  have hmessages : db'.messages = db.messages.delete fun x => x.1 = id :=
    congrArg View.messages hview
  have hget : db.messages.get? id = some row := Table.get?_eq_some.mpr hrow
  simp only [Db.deleteMessage, bind_eq_ok, pure_eq_ok, Prod.mk.injEq] at hdelete
  obtain ⟨⟨db₁, orphans⟩, hattachments, hdb', -⟩ := hdelete
  have hr := recounts_deleteAttachments hattachments
  have hget₁ : (db₁.deleteReactionsForMessage id).messages.get? id = some row :=
    (congrArg (fun t => t.get? id) hr.messages).trans hget
  simp only [hget₁] at hdb'
  have hp : ∀ x ∈ db.messages, decide (x.1 = id) = true ↔ x ∈ [(id, row)] := by
    intro x hx
    rw [decide_eq_true_eq, List.mem_singleton]
    exact ⟨fun hid => Table.eq_of_key_eq (t := db.messages) hx hrow hid, fun hx => by rw [hx]⟩
  have hdrop : Recounts { db with reactions := db.reactionsBut [(id, row)] }
      (db₁.deleteReactionsForMessage id) := by
    have honly : db.reactionsBut [(id, row)] = db.reactions.filter fun r => r.messageId ≠ id := by
      simp [reactionsBut]
    rw [honly]
    refine recounts_deleteThenReact (x := (id, row)) ?_
    rw [hattachments]
    rfl
  have hcommands : db.deleteCommands id = unindexCommands [(id, row)] := by
    simp [deleteCommands, hget]
  have hfts : db'.messagesFts = run db.messagesFts (unindexCommands [(id, row)]) := by
    rw [← hdb']
    show ((db₁.deleteReactionsForMessage id).unindex id row).messagesFts = _
    rw [messagesFts_unindex, hdrop.fts]
  have hchannels : db'.channels = db.channels := congrArg View.channels hview
  have hkeys : ([(id, row)].map Prod.fst).Nodup := List.nodup_singleton id
  obtain ⟨hvalid, hsearched⟩ := h.searched.deleteRows hkeys
    (fun x hx => List.mem_singleton.mp hx ▸ hrow) hp hmessages hfts
    fun x _ hclass => (classOf_congr (v := db.view) hchannels _).trans hclass
  rw [hcommands]
  refine ⟨hvalid, hfts, h.drop hdrop hp hmessages ?_ ?_ ?_ hlinks hsearched⟩
  · rw [← hdb']
    exact frame_unindex files fun _ _ => rfl
  · rw [← hdb']
    exact frame_unindex blobs fun _ _ => rfl
  · rw [← hdb']
    exact frame_unindex reactions fun _ _ => rfl

theorem frame_unindexAll {β : Type} (out : Db → β)
    (hout : ∀ (db : Db) messagesFts, out { db with messagesFts } = out db)
    (rows : List (ℕ × MessageRow)) :
    out (rows.foldl (fun db x => db.unindex x.1 x.2) db) = out db :=
  foldl_frame out (fun _ _ => frame_unindex out hout) rows db

theorem tables_deleteMessagesBefore {channelId cutoff : ℕ}
    (h : db.deleteMessagesBefore channelId cutoff = .ok db') :
    ∃ db₁, Recounts { db with reactions := db.reactionsBut (db.olderIn channelId cutoff) } db₁ ∧
      db'.messagesFts = run db.messagesFts (db.retentionCommands channelId cutoff) ∧
      db'.files = db₁.files ∧ db'.blobs = db₁.blobs ∧ db'.reactions = db₁.reactions := by
  simp only [Db.deleteMessagesBefore, bind_eq_ok, pure_eq_ok] at h
  obtain ⟨db₁, hloop, rfl⟩ := h
  have hdrop : Recounts { db with
      reactions := db.reactionsBut (db.olderIn channelId cutoff) } db₁ := recounts_drop
    (fun db x db' hstep => recounts_deleteThenReact
      (by simpa only [bind_eq_ok, pure_eq_ok] using hstep)) hloop
  exact ⟨db₁, hdrop, messagesFts_unindexAll.trans (by rw [hdrop.fts]; rfl),
    frame_unindexAll files (fun _ _ => rfl) _, frame_unindexAll blobs (fun _ _ => rfl) _,
    frame_unindexAll reactions (fun _ _ => rfl) _⟩

theorem StoreKept.deleteMessagesBefore {channelId cutoff : ℕ} (h : db.StoreKept K)
    (hdelete : db.deleteMessagesBefore channelId cutoff = .ok db') :
    Issues K (db.retentionCommands channelId cutoff) db db' := by
  have hlinks := (proceeds_deleteMessagesBefore h.links hdelete).links
  have hview := view_deleteMessagesBefore hdelete
  have hmessages : db'.messages = db.messages.delete fun x => isOlderIn channelId cutoff x.2 :=
    congrArg View.messages hview
  have hchannels : db'.channels = db.channels := congrArg View.channels hview
  obtain ⟨db₁, hdrop, hfts, hfiles, hblobs, hreactions⟩ := tables_deleteMessagesBefore hdelete
  have hp : ∀ x ∈ db.messages, isOlderIn channelId cutoff x.2 = true ↔
      x ∈ db.olderIn channelId cutoff := by
    intro x hx
    exact ⟨fun hold => List.mem_filter.mpr ⟨hx, hold⟩, fun hx => (List.mem_filter.mp hx).2⟩
  have hkeys : ((db.olderIn channelId cutoff).map Prod.fst).Nodup := nodup_keys _
  obtain ⟨hvalid, hsearched⟩ := h.searched.deleteRows hkeys
    (fun x hx => (List.mem_filter.mp hx).1) hp hmessages hfts
    fun x _ hclass => (classOf_congr (v := db.view) hchannels _).trans hclass
  exact ⟨hvalid, hfts, h.drop hdrop hp hmessages hfiles hblobs hreactions hlinks hsearched⟩

/-- The commands of a channel's deletion are those of other deletions if no row is sealed. -/
theorem hardDeleteCommands_eq {channelId : ℕ}
    (hplain : ∀ x ∈ db.messages, x.2.channelId = channelId → x.2.isE2ee = false) :
    db.hardDeleteCommands channelId = unindexCommands (db.messagesIn channelId) := by
  rw [hardDeleteCommands, unindexCommands, List.filter_eq_self.mpr]
  intro x hx
  obtain ⟨hx, hchannel⟩ := List.mem_filter.mp hx
  simp [hplain x hx (by simpa using hchannel)]

theorem proceeds_hardDeleteChannel {channelId : ℕ} (hl : db.LinksKept)
    (h : db.hardDeleteChannel channelId = .ok db') : Proceeds db db' := by
  simp only [hardDeleteChannel, bind_eq_ok, pure_eq_ok] at h
  obtain ⟨db₁, hloop, -, -, rfl⟩ := h
  have hall := detaches_foldlM (α := ℕ × MessageRow) (fun db => db) (fun _ _ => True) Prod.fst
    ?_ hloop
  · obtain ⟨-, l, -, hdetaches⟩ := hall
    have hmessages : db₁.messages = db.messages := congrArg View.messages hdetaches.view
    refine hdetaches.proceeds hl (q := fun x => x.2.channelId = channelId) rfl
      (congrArg (fun t : Table MessageRow => t.delete fun x => x.2.channelId = channelId)
        hmessages) fun x hx => ?_
    rw [Bool.eq_iff_iff, decide_eq_true_eq, decide_eq_true_eq, List.mem_map]
    constructor
    · exact fun hchannel => ⟨x, List.mem_filter.mpr ⟨hx, by simpa using hchannel⟩, rfl⟩
    · rintro ⟨y, hy, hkey⟩
      obtain ⟨hy, hchannel⟩ := List.mem_filter.mp hy
      obtain rfl := Table.eq_of_key_eq (t := db.messages) hy hx hkey
      simpa using hchannel
  · intro db x db' hstep
    simp only [bind_eq_ok, pure_eq_ok] at hstep
    obtain ⟨⟨db₂, orphans⟩, hdelete, rfl⟩ := hstep
    have hdetaches := detaches_deleteAttachments hdelete
    exact ⟨fun _ _ => trivial, orphans, fun _ _ => trivial,
      ⟨hdetaches.view, hdetaches.attachments, hdetaches.files,
        fun hl => hdetaches.links (hl.congr_messages rfl rfl fun _ row hrow => ⟨row, hrow⟩),
        fun hl => hdetaches.orphaned (hl.congr_messages rfl rfl fun _ row hrow => ⟨row, hrow⟩)⟩⟩

theorem StoreKept.hardDeleteChannel {channelId : ℕ} (h : db.StoreKept K)
    (hplain : ∀ x ∈ db.messages, x.2.channelId = channelId → x.2.isE2ee = false)
    (hdelete : db.hardDeleteChannel channelId = .ok db') :
    Issues K (db.hardDeleteCommands channelId) db db' := by
  have hlinks := (proceeds_hardDeleteChannel h.links hdelete).links
  have hcommands := hardDeleteCommands_eq hplain
  simp only [Db.hardDeleteChannel, bind_eq_ok, pure_eq_ok] at hdelete
  obtain ⟨db₁, hloop, -, -, hdb'⟩ := hdelete
  have hdrop := recounts_drop (fun db x db' hstep => recounts_reactThenDelete
    (by simpa only [bind_eq_ok, pure_eq_ok] using hstep)) hloop
  have hmessages : db'.messages = db.messages.delete fun x => x.2.channelId = channelId := by
    rw [← hdb']
    exact congrArg (fun t : Table MessageRow => t.delete fun x => x.2.channelId = channelId)
      hdrop.messages
  have hp : ∀ x ∈ db.messages, decide (x.2.channelId = channelId) = true ↔
      x ∈ db.messagesIn channelId := by
    intro x hx
    exact ⟨fun hchannel => List.mem_filter.mpr ⟨hx, hchannel⟩, fun hx => (List.mem_filter.mp hx).2⟩
  have hfts : db'.messagesFts = run db.messagesFts (unindexCommands (db.messagesIn channelId)) := by
    rw [← hdb', ← hcommands]
    exact congrArg (fun index => run index _) hdrop.fts
  -- The channel goes, but with it all rows that are in it.
  have hclasses : ∀ x ∈ db'.messages, db.view.classOf x.2.channelId = some .e2ee →
      db'.view.classOf x.2.channelId = some .e2ee := by
    intro x hx hclass
    rw [hmessages] at hx
    have hother : x.2.channelId ≠ channelId := by simpa using (Table.mem_delete.mp hx).2
    rw [← hclass, ← hdb', View.classOf, View.classOf]
    congr 1
    show (db₁.channels.filter _).find? _ = db.channels.find? _
    rw [hdrop.channels, List.find?_filter]
    congr 1
    funext ch
    by_cases hid : ch.id = x.2.channelId
    · simp [hid, hother]
    · simp [hid]
  obtain ⟨hvalid, hsearched⟩ := h.searched.deleteRows (nodup_keys _)
    (fun x hx => (List.mem_filter.mp hx).1) hp hmessages hfts hclasses
  rw [hcommands]
  refine ⟨hvalid, hfts, h.drop hdrop hp hmessages ?_ ?_ ?_ hlinks hsearched⟩
  all_goals rw [← hdb']

theorem hasFile_cleanupOrphanedFile {fileId k : ℕ} :
    (db.cleanupOrphanedFile fileId).HasFile k ↔
      ∃ file, (k, file) ∈ db.files ∧ (k = fileId → file.refCount ≠ 0) := by
  simp only [HasFile, mem_cleanupOrphanedFile]

theorem hasFile_cleanupAllOrphans {age k : ℕ} : (db.cleanupAllOrphans now age).HasFile k ↔
    ∃ file, (k, file) ∈ db.files ∧ isOldOrphan (now - age) file = false := by
  simp [HasFile, cleanupAllOrphans]

/-- The files that only reactions use and that a clean-up may take. -/
def Unshown (db : Db) (p : ℕ → FileRow → Prop) : Prop :=
  ∀ x ∈ db.files, x.2.refCount = 0 → p x.1 x.2 → ¬db.Pictured x.1

theorem LinksKept.counted_attached (h : db.LinksKept) {x : ℕ × FileRow} {messageId : ℕ}
    (hx : x ∈ db.files) (hattached : db.Attached messageId x.1) : x.2.refCount ≠ 0 := by
  rw [h.counted x hx, Ne, uses_eq_zero]
  intro hnone
  obtain ⟨a, ha, -, hfile⟩ := hattached
  exact hnone a ha hfile

theorem spares_cleanupOrphanedFile {fileId : ℕ} (hl : db.LinksKept)
    (h : db.Unshown fun k _ => k = fileId) : SparesFiles (db, db.cleanupOrphanedFile fileId) := by
  rintro k huse ⟨file, hfile⟩
  refine hasFile_cleanupOrphanedFile.mpr ⟨file, hfile, fun hid hzero => ?_⟩
  rcases huse with ⟨messageId, hattached⟩ | hpictured
  · exact hl.counted_attached hfile hattached hzero
  · exact h _ hfile hzero hid hpictured

theorem spares_cleanupAllOrphans {age : ℕ} (hl : db.LinksKept)
    (h : db.Unshown fun _ file => file.uploadedAt < now - age) :
    SparesFiles (db, db.cleanupAllOrphans now age) := by
  rintro k huse ⟨file, hfile⟩
  refine hasFile_cleanupAllOrphans.mpr ⟨file, hfile, Bool.eq_false_iff.mpr fun hold => ?_⟩
  obtain ⟨hzero, hage⟩ : file.refCount = 0 ∧ file.uploadedAt < now - age := by
    simpa [isOldOrphan] using hold
  rcases huse with ⟨messageId, hattached⟩ | hpictured
  · exact hl.counted_attached hfile hattached hzero
  · exact h _ hfile hzero hage hpictured

/-- A clean-up that spares the files in use keeps the pictures of the reactions. -/
theorem Reacted.spared (h : db.Reacted) (hspares : SparesFiles (db, db'))
    (hmessages : db'.messages = db.messages) (hreactions : db'.reactions = db.reactions) :
    db'.Reacted := by
  refine h.mono (fun r hr => ⟨hreactions ▸ hr, fun row hrow => ⟨row, hmessages ▸ hrow⟩⟩) ?_
  intro r hr fileId hpicture hfile
  rw [hreactions] at hr
  exact hspares fileId (.inr ⟨r, hr, hpicture⟩) hfile

theorem frame_cleanupOrphanedFile {β : Type} {fileId : ℕ} (out : Db → β)
    (hout : ∀ (db : Db) files blobs, out { db with files, blobs } = out db) :
    out (db.cleanupOrphanedFile fileId) = out db := by
  unfold Db.cleanupOrphanedFile
  split
  · rfl
  · split
    · exact hout db _ _
    · rfl

theorem frame_cleanupAllOrphans {β : Type} {age : ℕ} (out : Db → β)
    (hout : ∀ (db : Db) files, out { db with files } = out db)
    (hblobs : ∀ (db : Db) blobs, out { db with blobs } = out db) :
    out (db.cleanupAllOrphans now age) = out db :=
  (hout _ _).trans (foldl_frame out (f := fun db (x : ℕ × FileRow) => db.removeBlob x.2.hash)
    (fun db _ => hblobs db _) _ db)

theorem StoreKept.cleanupOrphanedFile {fileId : ℕ} (h : db.StoreKept K)
    (hunshown : db.Unshown fun k _ => k = fileId) :
    SparesFiles (db, db.cleanupOrphanedFile fileId) ∧
      (db.cleanupOrphanedFile fileId).StoreKept K := by
  have hspares := spares_cleanupOrphanedFile h.links hunshown
  exact ⟨hspares, h.links.cleanupOrphanedFile fileId,
    h.reacted.spared hspares (frame_cleanupOrphanedFile messages fun _ _ _ => rfl)
      (frame_cleanupOrphanedFile reactions fun _ _ _ => rfl),
    h.shelved.cleanupOrphanedFile fileId,
    h.searched.same (frame_cleanupOrphanedFile messages fun _ _ _ => rfl)
      (frame_cleanupOrphanedFile messagesFts fun _ _ _ => rfl)
      (frame_cleanupOrphanedFile channels fun _ _ _ => rfl)⟩

theorem StoreKept.cleanupAllOrphans {age : ℕ} (h : db.StoreKept K)
    (hunshown : db.Unshown fun _ file => file.uploadedAt < now - age) :
    SparesFiles (db, db.cleanupAllOrphans now age) ∧
      (db.cleanupAllOrphans now age).StoreKept K := by
  have hspares := spares_cleanupAllOrphans h.links hunshown
  exact ⟨hspares, h.links.cleanupAllOrphans now age,
    h.reacted.spared hspares (frame_cleanupAllOrphans messages (fun _ _ => rfl) fun _ _ => rfl)
      (frame_cleanupAllOrphans reactions (fun _ _ => rfl) fun _ _ => rfl),
    h.shelved.cleanupAllOrphans now age,
    h.searched.same (frame_cleanupAllOrphans messages (fun _ _ => rfl) fun _ _ => rfl)
      (frame_cleanupAllOrphans messagesFts (fun _ _ => rfl) fun _ _ => rfl)
      (frame_cleanupAllOrphans channels (fun _ _ => rfl) fun _ _ => rfl)⟩

end Server.Db
