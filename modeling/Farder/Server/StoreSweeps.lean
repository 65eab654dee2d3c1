import Farder.Server.RestartSpec
import Farder.Server.StoreSteps

/-! # Sweeps of the store

The retention sweep, the deletion of members' data, the ingest of an event and the
reconciliation with the log: loops of operations on the store, each with the condition under
which it takes no picture of a reaction away. -/
namespace Server.Db

open EventLog Guarded SearchIndex

variable {K : Crypto} {db db' : Db} {e : Event} {l : List ℕ} {now id : ℕ} {row : MessageRow}
  {α β : Type}

theorem Issues.refl (h : db.StoreKept K) : Issues K [] db db := ⟨trivial, rfl, h⟩

theorem Issues.trans {commands commands' : List (Command ℕ String)} {db'' : Db}
    (h : Issues K commands db db') (h' : Issues K commands' db' db'') :
    Issues K (commands ++ commands') db db'' where
  valid := valid_append.mpr ⟨h.valid, h.index ▸ h'.valid⟩
  index := by rw [h'.index, h.index, run_append]
  kept := h'.kept

theorem Issues.then {commands : List (Command ℕ String)} {db'' : Db}
    (h : Issues K commands db db') (hfts : db''.messagesFts = db'.messagesFts)
    (hkept : db''.StoreKept K) : Issues K commands db db'' :=
  ⟨h.valid, hfts.trans h.index, hkept⟩

theorem StoreKept.foldlM {report : β → α → List (Command ℕ String)} {step : β → α → Checked β}
    (out : β → Db) {as : List α} {P : β → Prop} {b b' : β} (h : (out b).StoreKept K) (hP : P b)
    (hstep : ∀ b, (out b).StoreKept K → P b → ∀ a ∈ as, ∀ b', step b a = .ok b' →
      Issues K (report b a) (out b) (out b') ∧ P b')
    (hok : as.foldlM step b = .ok b') :
    Issues K (traceM report step b as) (out b) (out b') ∧ P b' := by
  induction as generalizing b with
  | nil =>
    obtain rfl : b = b' := by simpa using hok
    exact ⟨.refl h, hP⟩
  | cons a as ih =>
    rw [List.foldlM_cons, bind_eq_ok] at hok
    obtain ⟨b₁, hhead, htail⟩ := hok
    obtain ⟨hissues, hP₁⟩ := hstep b h hP a (by simp) b₁ hhead
    obtain ⟨hrest, hP'⟩ := ih hissues.kept hP₁
      (fun b hk hp c hc => hstep b hk hp c (by simp [hc])) htail
    refine ⟨?_, hP'⟩
    rw [traceM, hhead]
    exact hissues.trans hrest

theorem StoreKept.storeOrReuse {uploadedBy : PublicKey} {name hash mime : String}
    {bytes : List UInt8} {size fileId : ℕ} {media : MediaInfo} (h : db.StoreKept K)
    (hstore : db.storeOrReuseFromTempFile K uploadedBy name bytes hash mime size media now =
      .ok (db', fileId)) : db'.StoreKept K := by
  have hlinks := h.links.storeOrReuse hstore
  have hshelved := h.shelved.storeOrReuse hstore
  unfold storeOrReuseFromTempFile at hstore
  split at hstore
  · simp only [pure_eq_ok, Prod.mk.injEq] at hstore
    exact hstore.1 ▸ h
  · simp only [bind_eq_ok, pure_eq_ok, Prod.mk.injEq] at hstore
    obtain ⟨⟨⟩, -, rfl, -⟩ := hstore
    exact ⟨hlinks, h.reacted.same (fun _ hr => hr) (fun _ row hrow => ⟨row, hrow⟩)
      fun _ hstored => hstored.imp fun _ hfile => Table.mem_insert.mpr (.inl hfile), hshelved,
      h.searched.same rfl rfl rfl⟩

/-- Every picture that the sweep would take is still attached to a message that stays. -/
def PurgeSpares (db : Db) (now : ℕ) : Prop :=
  ∀ r ∈ db.reactions, ∀ fileId, r.picture = some fileId →
    (∀ row, (r.messageId, row) ∈ db.messages → db.expires now row = false) →
    (∀ file, (fileId, file) ∈ db.files → file.uploadedAt < now - orphanMaxAgeSecs) →
    ∃ messageId row, db.Attached messageId fileId ∧ (messageId, row) ∈ db.messages ∧
      db.expires now row = false

/-- What the retention has left so far. -/
structure Purged (db db' : Db) : Prop where
  reactions : ∀ r ∈ db'.reactions, r ∈ db.reactions
  attached : ∀ m f row, db.Attached m f → (m, row) ∈ db'.messages → db'.Attached m f
  files : ∀ x ∈ db'.files, ∃ file, (x.1, file) ∈ db.files ∧ file.uploadedAt = x.2.uploadedAt

theorem Purged.refl : Purged db db :=
  ⟨fun _ hr => hr, fun _ _ _ h _ => h, fun x hx => ⟨x.2, hx, rfl⟩⟩

theorem Purged.trans {db'' : Db} (h : Purged db db') (h' : Purged db' db'')
    (hmessages : ∀ x ∈ db''.messages, x ∈ db'.messages) : Purged db db'' where
  reactions r hr := h.reactions r (h'.reactions r hr)
  attached m f row hattached hrow :=
    h'.attached m f row (h.attached m f row hattached (hmessages _ hrow)) hrow
  files := by
    intro x hx
    obtain ⟨file, hfile, huploaded⟩ := h'.files x hx
    obtain ⟨file', hfile', huploaded'⟩ := h.files _ hfile
    exact ⟨file', hfile', huploaded'.trans huploaded⟩

theorem purged_deleteMessagesBefore {channelId cutoff : ℕ}
    (h : db.deleteMessagesBefore channelId cutoff = .ok db') :
    Purged db db' ∧ ∀ x ∈ db'.messages, x ∈ db.messages := by
  have hmessages : db'.messages = db.messages.delete fun x => isOlderIn channelId cutoff x.2 :=
    congrArg View.messages (view_deleteMessagesBefore h)
  obtain ⟨db₁, hdrop, -, hfiles, -, hreactions⟩ := tables_deleteMessagesBefore h
  obtain ⟨db₂, l, hdetaches, hview⟩ := detaches_deleteMessagesBefore h
  have hsub : ∀ x ∈ db'.messages, x ∈ db.messages := by
    intro x hx
    rw [hmessages] at hx
    exact (Table.mem_delete.mp hx).1
  refine ⟨⟨fun r hr => ?_, fun m f row hattached hrow => ?_, fun x hx => ?_⟩, hsub⟩
  · rw [hreactions, hdrop.reactions] at hr
    exact (List.mem_filter.mp hr).1
  · rw [attached_congr (Prod.mk.inj hview).2, attached_delete
      (q := fun m => m ∈ (db.olderIn channelId cutoff).map Prod.fst) hdetaches.attachments]
    refine ⟨hattached, decide_eq_false fun hold => ?_⟩
    rw [mem_olderIn (hsub _ hrow)] at hold
    rw [hmessages] at hrow
    simp [hold] at hrow
  · rw [hfiles] at hx
    exact hdrop.file hx

/-! ### The sweep cannot fail -/

theorem releaseFiles_total {acc : Db × List ℕ} (h : ∀ f ∈ l, acc.1.HasFile f) :
    ∃ acc', l.foldlM releaseFile acc = .ok acc' := by
  have hstep : ∀ acc : Db × List ℕ, (∀ f ∈ l, acc.1.HasFile f) → ∀ f ∈ l,
      ∃ acc', releaseFile acc f = .ok acc' ∧ ∀ f ∈ l, acc'.1.HasFile f := by
    intro acc hacc f hf
    have hstill : ∀ k ∈ l, (acc.1.decrementRefCount f).HasFile k := by
      intro k hk
      obtain ⟨file, hfile⟩ := hacc k hk
      exact ⟨_, Table.mem_map_of_mem hfile⟩
    obtain ⟨file, hfile⟩ := hstill f hf
    have hrelease : releaseFile acc f = .ok (acc.1.decrementRefCount f,
        if file.refCount = 0 then acc.2 ++ [f] else acc.2) := by
      simp only [releaseFile, context, Table.get?_eq_some.mpr hfile]
      rfl
    exact ⟨_, hrelease, hstill⟩
  obtain ⟨acc', hok, -⟩ := foldlM_total h hstep
  exact ⟨acc', hok⟩

theorem LinksKept.deleteAttachments_total (h : db.LinksKept) :
    ∃ x, db.deleteAttachmentsForMessage id = .ok x := by
  refine releaseFiles_total fun f hf => ?_
  obtain ⟨a, ha, rfl⟩ := List.mem_map.mp hf
  exact h.file a (List.mem_filter.mp ha).1

theorem LinksKept.deleteMessagesBefore_total {channelId cutoff : ℕ} (h : db.LinksKept) :
    ∃ db', db.deleteMessagesBefore channelId cutoff = .ok db' := by
  obtain ⟨db₁, hloop, -⟩ := foldlM_total (P := LinksKept) h
    (l := db.olderIn channelId cutoff) (f := fun db x => do
      let detached ← db.deleteAttachmentsForMessage x.1
      return detached.1.deleteReactionsForMessage x.1) fun db h x _ => by
    obtain ⟨⟨db₁, orphans⟩, hdelete⟩ := @LinksKept.deleteAttachments_total db x.1 h
    refine ⟨db₁.deleteReactionsForMessage x.1, by rw [hdelete]; rfl, ?_⟩
    exact ((detaches_deleteAttachments hdelete).links h).congr_messages rfl rfl
      fun _ row hrow => ⟨row, hrow⟩
  exact ⟨_, bind_eq_ok.mpr ⟨db₁, hloop, rfl⟩⟩

theorem LinksKept.purgeExpiredMessages_total (h : db.LinksKept) :
    ∃ db', db.purgeExpiredMessages now = .ok db' := by
  have hstep : ∀ db : Db, db.LinksKept → ∀ ch, ∃ db', Db.purgeChannel now db ch = .ok db' ∧
      db'.LinksKept := by
    intro db h ch
    unfold Db.purgeChannel
    split
    · exact ⟨db, rfl, h⟩
    · obtain ⟨db₁, hdelete⟩ := h.deleteMessagesBefore_total
      exact ⟨db₁, hdelete, (proceeds_deleteMessagesBefore h hdelete).links⟩
  obtain ⟨db₁, hloop, -⟩ := foldlM_total (P := LinksKept) h
    (l := db.listChannels) (f := Db.purgeChannel now) fun db h ch _ => hstep db h ch
  exact ⟨_, by rw [Db.purgeExpiredMessages, hloop]; rfl⟩

theorem StoreKept.purgeChannel (h : db.StoreKept K) {ch : ChannelRow}
    (hpurge : Db.purgeChannel now db ch = .ok db') :
    Issues K (purgeChannelCommands now db ch) db db' ∧ Purged db db' ∧
      ∀ x ∈ db'.messages, x ∈ db.messages := by
  unfold Db.purgeChannel at hpurge
  unfold purgeChannelCommands
  cases hsecs : ch.retentionSecs with
  | none =>
    simp only [hsecs] at hpurge ⊢
    obtain rfl := pure_eq_ok.mp hpurge
    exact ⟨.refl h, .refl, fun _ hx => hx⟩
  | some secs =>
    simp only [hsecs] at hpurge ⊢
    obtain ⟨hpurged, hmessages⟩ := purged_deleteMessagesBefore hpurge
    exact ⟨h.deleteMessagesBefore hpurge, hpurged, hmessages⟩

theorem StoreKept.purgeChannels (h : db.StoreKept K)
    (hpurge : db.listChannels.foldlM (Db.purgeChannel now) db = .ok db') :
    Issues K (db.purgeCommands now) db db' ∧ Purged db db' := by
  refine h.foldlM (fun db => db) (P := Purged db) .refl (fun db₁ h₁ hpurged ch _ db₂ hch => ?_)
    hpurge
  obtain ⟨hissues, hnext, hmessages⟩ := h₁.purgeChannel hch
  exact ⟨hissues, hpurged.trans hnext hmessages⟩

theorem unshown_of_purged (h : db.PurgeSpares now) (hpurged : Purged db db')
    (hkept : db'.StoreKept K) (hmessages : db'.messages =
      db.messages.delete fun x => db.expires now x.2) :
    db'.Unshown fun _ file => file.uploadedAt < now - orphanMaxAgeSecs := by
  rintro x hx hzero hage ⟨r, hr, hpicture⟩
  obtain ⟨row, hrow⟩ := hkept.reacted.message r hr
  rw [hmessages] at hrow
  obtain ⟨hrow, hstays⟩ := Table.mem_delete.mp hrow
  obtain ⟨file, hfile, huploaded⟩ := hpurged.files x hx
  obtain ⟨m, row', hattached, hrow', hstays'⟩ := h r (hpurged.reactions r hr) x.1 hpicture
    (fun row₁ hrow₁ => Table.row_eq hrow₁ hrow ▸ hstays)
    fun file₁ hfile₁ => by rwa [Table.row_eq hfile₁ hfile, huploaded]
  have hstill : (m, row') ∈ db'.messages := hmessages ▸ Table.mem_delete.mpr ⟨hrow', hstays'⟩
  exact hkept.links.counted_attached hx (hpurged.attached m x.1 row' hattached hstill) hzero

theorem StoreKept.purgeExpiredMessages (h : db.StoreKept K) (hspares : db.PurgeSpares now)
    (hpurge : db.purgeExpiredMessages now = .ok db') :
    Issues K (db.purgeCommands now) db db' ∧ ∀ call ∈ db.purgeCleanups now, SparesFiles call := by
  simp only [Db.purgeExpiredMessages, bind_eq_ok, pure_eq_ok] at hpurge
  obtain ⟨db₁, hloop, rfl⟩ := hpurge
  obtain ⟨hissues, hpurged⟩ := h.purgeChannels hloop
  have hmessages : db₁.messages = db.messages.delete fun x => db.expires now x.2 :=
    congrArg View.messages (view_purgeChannels hloop)
  obtain ⟨hfiles, hkept⟩ := hissues.kept.cleanupAllOrphans
    (unshown_of_purged hspares hpurged hissues.kept hmessages)
  refine ⟨hissues.then ?_ hkept, fun call hcall => ?_⟩
  · exact frame_cleanupAllOrphans messagesFts (fun _ _ => rfl) fun _ _ => rfl
  · simp only [purgeCleanups, hloop, List.mem_singleton] at hcall
    exact hcall ▸ hfiles

/-! ## The deletion of members' data -/

/-- Every picture that the deletion would take is still attached to somebody else's message. -/
def DeletionSpares (db : Db) (req : DeletionRequest) : Prop :=
  ∀ r ∈ db.reactions, ∀ fileId, r.picture = some fileId → (∃ m, db.Attached m fileId) →
    ∃ messageId row, db.Attached messageId fileId ∧ (messageId, row) ∈ db.messages ∧
      row.author ≠ req.memberKey

def DeletionsSpare : List DeletionRequest → Db → Prop
  | [], _ => True
  | req :: rest, db => db.DeletionSpares req ∧
    ∀ db', db.executeDeletion req = .ok db' → DeletionsSpare rest db'

theorem orphans_deleteAttachments (h : db.deleteAttachmentsForMessage id = .ok (db', l)) :
    ∀ f ∈ l, db.Attached id f := by
  have hattached : ∀ f ∈ db.attachedFiles id, db.Attached id f := by
    intro f hf
    obtain ⟨a, ha, rfl⟩ := List.mem_map.mp hf
    obtain ⟨ha, hid⟩ := List.mem_filter.mp ha
    exact ⟨a, ha, by simpa using hid, rfl⟩
  refine foldlM_invariant (P := fun acc => ∀ f ∈ acc.2, db.Attached id f) h (by simp) ?_
  intro acc hacc f hf acc' hrelease
  simp only [releaseFile, bind_eq_ok, pure_eq_ok] at hrelease
  obtain ⟨file, -, rfl⟩ := hrelease
  intro k hk
  split_ifs at hk
  · rcases List.mem_append.mp hk with hk | hk
    · exact hacc k hk
    · exact List.mem_singleton.mp hk ▸ hattached f hf
  · exact hacc k hk

theorem orphans_removeAttachments {author : PublicKey}
    (h : db.removeAttachmentsForAuthorMessages author = .ok (db', l)) :
    ∀ f ∈ l, ∃ m, db.Attached m f := by
  have hboth := foldlM_invariant (P := fun acc => (∀ m f, acc.1.Attached m f → db.Attached m f) ∧
    ∀ f ∈ acc.2, ∃ m, db.Attached m f) h ⟨fun _ _ h => h, by simp⟩ ?_
  · exact hboth.2
  · intro acc ⟨hsub, hlisted⟩ id _ acc' hstep
    simp only [bind_eq_ok, pure_eq_ok] at hstep
    obtain ⟨⟨db₁, orphans⟩, hdelete, rfl⟩ := hstep
    refine ⟨fun m f hm => hsub m f ?_, fun f hf => ?_⟩
    · exact ((attached_delete (q := fun m => m = id)
        (detaches_deleteAttachments hdelete).attachments).mp hm).1
    · rcases List.mem_append.mp hf with hf | hf
      · exact hlisted f hf
      · exact ⟨id, hsub _ _ (orphans_deleteAttachments hdelete f hf)⟩

theorem StoreKept.cleanupOrphanedFiles (h : db.StoreKept K)
    (hunshown : db.Unshown fun k _ => k ∈ l) :
    (l.foldl Db.cleanupOrphanedFile db).StoreKept K ∧
      ∀ call ∈ db.cleanupCalls l, SparesFiles call := by
  induction l generalizing db with
  | nil => exact ⟨h, by simp [cleanupCalls]⟩
  | cons fileId l ih =>
    have hfirst : db.Unshown fun k _ => k = fileId :=
      fun x hx hzero hid => hunshown x hx hzero (by simp [hid])
    obtain ⟨hspares, hkept⟩ := h.cleanupOrphanedFile hfirst
    have hrest : (db.cleanupOrphanedFile fileId).Unshown fun k _ => k ∈ l := by
      rintro x hx hzero hmem ⟨r, hr, hpicture⟩
      have hreactions : (db.cleanupOrphanedFile fileId).reactions = db.reactions :=
        frame_cleanupOrphanedFile reactions fun _ _ _ => rfl
      exact hunshown x (mem_cleanupOrphanedFile.mp hx).1 hzero (by simp [hmem])
        ⟨r, hreactions ▸ hr, hpicture⟩
    obtain ⟨hkept', hcalls⟩ := ih hkept hrest
    refine ⟨hkept', fun call hcall => ?_⟩
    rcases List.mem_cons.mp hcall with rfl | hcall
    · exact hspares
    · exact hcalls call hcall

theorem StoreKept.executeDeletion {req : DeletionRequest} (h : db.StoreKept K)
    (hspares : db.DeletionSpares req) (hdelete : db.executeDeletion req = .ok db') :
    Issues K (deletionCommands db req) db db' ∧
      ∀ call ∈ db.deletionCleanups req, SparesFiles call := by
  simp only [Db.executeDeletion, bind_eq_ok, pure_eq_ok] at hdelete
  obtain ⟨⟨db₁, orphans⟩, hremove, rfl⟩ := hdelete
  have hdetaches := detaches_removeAttachments hremove
  have hr := recounts_removeAttachments hremove
  have h₁ := h.recounts hr (hdetaches.links h.links)
  have hunshown : db₁.Unshown fun k _ => k ∈ orphans := by
    rintro x hx hzero hlisted ⟨r, hr', hpicture⟩
    rw [hr.reactions] at hr'
    obtain ⟨m, row, hattached, hrow, hother⟩ := hspares r hr' x.1 hpicture
      (orphans_removeAttachments hremove x.1 hlisted)
    have hstill : db₁.Attached m x.1 := by
      rw [attached_delete (q := fun m => m ∈ db.messagesOf req.memberKey) hdetaches.attachments]
      exact ⟨hattached, decide_eq_false fun hmine => hother ((mem_messagesOf hrow).mp hmine)⟩
    exact h₁.links.counted_attached hx hstill hzero
  obtain ⟨h₂, hcalls⟩ := h₁.cleanupOrphanedFiles hunshown
  have hframe {β : Type} (out : Db → β)
      (hout : ∀ (db : Db) files blobs, out { db with files, blobs } = out db) :
      out (orphans.foldl Db.cleanupOrphanedFile db₁) = out db₁ :=
    foldl_frame out (fun _ _ => frame_cleanupOrphanedFile out hout) orphans db₁
  have hmessages : (orphans.foldl Db.cleanupOrphanedFile db₁).messages = db.messages :=
    (hframe messages fun _ _ _ => rfl).trans hr.messages
  have hfts : (orphans.foldl Db.cleanupOrphanedFile db₁).messagesFts = db.messagesFts :=
    (hframe messagesFts fun _ _ _ => rfl).trans hr.fts
  have hissues := h₂.anonymize req.memberKey
  have hcommands : (orphans.foldl Db.cleanupOrphanedFile db₁).anonymizeCommands req.memberKey =
      deletionCommands db req := by
    rw [anonymizeCommands, hmessages]
    rfl
  rw [hcommands] at hissues
  refine ⟨⟨hfts ▸ hissues.valid, hfts ▸ hissues.index, ?_⟩, fun call hcall => ?_⟩
  · exact hissues.kept.fewerReactions (fun r hr => (List.mem_filter.mp hr).1)
      rfl rfl rfl rfl rfl rfl
  · simp only [deletionCleanups, hremove] at hcall
    exact hcalls call hcall

theorem sameStore_storeEvent (h : db.storeEvent K e = .ok db') : SameStore db db' := by
  simp only [storeEvent, bind_eq_ok, pure_eq_ok] at h
  obtain ⟨⟨⟩, -, rfl⟩ := h
  exact .of_channels rfl rfl rfl rfl rfl rfl rfl

theorem sameStore_materialize (h : db.materializeChannelCreated e = .ok db') :
    SameStore db db' := by
  unfold materializeChannelCreated at h
  split at h
  · simp only [bind_eq_ok, pure_eq_ok] at h
    obtain ⟨⟨⟩, -, ⟨⟩, -, ⟨⟩, -, ⟨⟩, -, rfl⟩ := h
    exact ⟨rfl, rfl, rfl, rfl, rfl, rfl, fun _ hclass => classOf_append hclass⟩
  · obtain rfl := pure_eq_ok.mp h
    exact .of_channels rfl rfl rfl rfl rfl rfl rfl

theorem insertCommands_derived {replyTo : Option ℕ} (h : derivedRow K e replyTo = some row) :
    db.insertCommands row = db.deriveCommands e := by
  cases hp : e.core.payload with
  | messagePosted p =>
    simp only [derivedRow, hp, Option.some.injEq] at h
    subst h
    simp [insertCommands, deriveCommands, hp]
  | messagePostedE2ee p =>
    simp only [derivedRow, hp, Option.some.injEq] at h
    subst h
    simp [insertCommands, deriveCommands, hp]
  | _ => simp [derivedRow, hp] at h

/-- The door that a derived row goes through sees to it that a sealed one is where it may be. -/
theorem StoreKept.derive {derived : Option ℕ} (h : db.StoreKept K)
    (hderive : db.deriveMessageRow K e = .ok (db', derived)) :
    Issues K (db.deriveCommands e) db db' ∧ ∀ i ∈ derived, ∃ row, (i, row) ∈ db'.messages := by
  rw [deriveMessageRow_eq] at hderive
  split at hderive
  · next hnone =>
    obtain ⟨rfl, rfl⟩ := Prod.mk.inj (Except.ok.inj hderive)
    have hcommands : db.deriveCommands e = [] := by
      cases hp : e.core.payload <;> simp [deriveCommands, derivedRow, hp] at hnone ⊢
    rw [hcommands]
    exact ⟨.refl h, by simp⟩
  · next row hrow =>
    simp only [bind_eq_ok, pure_eq_ok, Prod.mk.injEq] at hderive
    obtain ⟨⟨⟩, hclass, db₁, hinsert, rfl, rfl⟩ := hderive
    have hkept := h.insertRow hinsert fun hsealed => by
      rw [requireClass_eq_ok] at hclass
      simpa [MessageRow.contentClass, hsealed] using hclass
    have hmessages : db₁.messages = db.messages.insert row :=
      congrArg View.messages (view_insertRow hinsert).2
    refine ⟨insertCommands_derived hrow ▸ ⟨?_, messagesFts_insertRow hinsert, hkept⟩, ?_⟩
    · unfold insertCommands
      split_ifs
      · trivial
      · exact ⟨trivial, trivial⟩
    · intro i hi
      obtain rfl := Option.some.inj hi
      exact ⟨row, hmessages ▸ Table.mem_insert.mpr (.inr rfl)⟩

theorem StoreKept.redactBlob (h : db.StoreKept K) (hash : String) (redactor : PublicKey) :
    (db.redactBlob hash redactor).StoreKept K := by
  have hlinks := h.links.redactBlob hash redactor
  have hshelved := h.shelved.redactBlob hash redactor
  unfold Db.redactBlob at hlinks hshelved ⊢
  split
  · exact h
  · next hfile =>
    simp only [hfile] at hlinks hshelved
    exact ⟨hlinks, h.reacted.same (fun _ hr => hr) (fun _ row hrow => ⟨row, hrow⟩)
      fun _ ⟨_, hfile⟩ => ⟨_, Table.mem_map_of_mem hfile⟩, hshelved, h.searched.same rfl rfl rfl⟩

theorem fts_redactBlob {hash : String} {redactor : PublicKey} :
    (db.redactBlob hash redactor).messagesFts = db.messagesFts := by
  unfold Db.redactBlob
  split <;> rfl

theorem StoreKept.redactAttachment (h : db.StoreKept K) :
    (db.redactAttachment e).StoreKept K ∧
      (db.redactAttachment e).messagesFts = db.messagesFts := by
  unfold Db.redactAttachment
  split
  · exact ⟨h.redactBlob _ _, fts_redactBlob⟩
  · exact ⟨h, rfl⟩

theorem StoreKept.attachDerived {derived : Option ℕ} (h : db.StoreKept K)
    (hderived : ∀ i ∈ derived, ∃ row, (i, row) ∈ db.messages) :
    (db.attachDerived e derived).StoreKept K ∧
      (db.attachDerived e derived).messagesFts = db.messagesFts := by
  unfold Db.attachDerived
  split
  · next id g _ =>
    have hattaches : Attaches (fun _ => True) db (db.deriveAttachments e id g.owner) :=
      attaches_deriveAttachments (hderived id rfl) trivial
    exact ⟨h.recounts recounts_deriveAttachments (hattaches.links h.links),
      recounts_deriveAttachments.fts⟩
  · exact ⟨h, rfl⟩

theorem StoreKept.applySealedEdit (h : db.StoreKept K) (hedit : db.applySealedEdit e = .ok db') :
    db'.StoreKept K ∧ db'.messagesFts = db.messagesFts := by
  unfold Db.applySealedEdit at hedit
  split at hedit
  · simp only [bind_eq_ok] at hedit
    obtain ⟨-, -, id, -, hupdate⟩ := hedit
    refine ⟨h.updateSealedRow hupdate, ?_⟩
    obtain ⟨-, -, -, -, rfl⟩ := view_updateSealedRow hupdate
    rfl
  · obtain rfl := pure_eq_ok.mp hedit
    exact ⟨h, rfl⟩

theorem StoreKept.applyTombstone (h : db.StoreKept K) {p : MessageDeleted}
    (hp : e.core.payload = .messageDeleted p) (htombstone : db.applyTombstone e = .ok (db', l)) :
    Issues K (db.sweepCommands p.target) db db' := by
  simp only [Db.applyTombstone, hp, bind_eq_ok, context_eq_ok] at htombstone
  obtain ⟨⟨id, row⟩, hrow, -, -, -, -, hdelete⟩ := htombstone
  rw [sweepCommands, hrow]
  exact h.deleteMessage (Table.find?_mem hrow).1 hdelete

theorem StoreKept.ingest (h : db.StoreKept K) (hingest : db.ingest K e = .ok (db', l)) :
    Issues K (db.ingestCommands e) db db' := by
  simp only [Db.ingest, bind_eq_ok, prefixed_eq_ok] at hingest
  obtain ⟨db₁, hstore, db₂, hmaterialize, ⟨db₃, derived⟩, hderive, db₄, hedit, htombstone⟩ :=
    hingest
  have hs₁ := sameStore_storeEvent hstore
  have hs₂ := sameStore_materialize hmaterialize
  have hmessages : db₂.messages = db.messages := hs₂.messages.trans hs₁.messages
  have hfts : db₂.messagesFts = db.messagesFts := hs₂.fts.trans hs₁.fts
  obtain ⟨hissues, hderived⟩ := ((h.same hs₁).same hs₂).derive hderive
  obtain ⟨h₃, hfts₃⟩ := hissues.kept.attachDerived (e := e) hderived
  obtain ⟨h₄, hfts₄⟩ := h₃.redactAttachment (e := e)
  obtain ⟨h₅, hfts₅⟩ := h₄.applySealedEdit hedit
  have hall := hissues.then (hfts₅.trans (hfts₄.trans hfts₃)) h₅
  by_cases hdeletes : ∃ p, e.core.payload = .messageDeleted p
  · obtain ⟨p, hp⟩ := hdeletes
    obtain ⟨rfl, rfl⟩ := derive_other (by simp [isPosted, hp]) hderive
    obtain rfl := applySealedEdit_other (by simp [hp]) hedit
    have hdelete := h₅.applyTombstone hp htombstone
    have hcommands : ((db₃.attachDerived e none).redactAttachment e).sweepCommands p.target =
        db.ingestCommands e := by
      have hrows : ((db₃.attachDerived e none).redactAttachment e).messages = db.messages := by
        simp only [Db.attachDerived, Db.redactAttachment, hp, hmessages]
      simp only [ingestCommands, hp, sweepCommands, deleteCommands, rowOfHash, hrows]
    rw [hcommands] at hdelete
    have hindex := (hfts₄.trans hfts₃).trans hfts
    exact ⟨hindex ▸ hdelete.valid, hindex ▸ hdelete.index, hdelete.kept⟩
  · obtain rfl := applyTombstone_other (fun p hp => hdeletes ⟨p, hp⟩) htombstone
    have hcommands : db₂.deriveCommands e = db.ingestCommands e := by
      unfold ingestCommands
      split
      · exact absurd ⟨_, ‹_›⟩ hdeletes
      · simp only [deriveCommands, hmessages]
    rw [hcommands] at hall
    exact ⟨hfts ▸ hall.valid, hfts ▸ hall.index, hall.kept⟩

theorem classOf_reconcileChannelClass (h : db.view.classOf id = some .e2ee) :
    (db.reconcileChannelClass e).view.classOf id = some .e2ee := by
  unfold reconcileChannelClass
  split
  · next p _ =>
    split
    · exact h
    · next row hrow =>
      split_ifs with hkept
      · exact h
      · have hother : id ≠ p.channelId := by
          rintro rfl
          have hclass : (db.channelRow p.channelId).bind ChannelRow.contentClass = some .e2ee := h
          rw [hrow] at hclass
          exact hkept (.inr hclass)
        simp only [View.classOf, view_channels, List.find?_map] at h ⊢
        rw [← h, Option.bind_map]
        have hsame : ((fun ch : ChannelRow => decide (ch.id = id)) ∘ fun ch =>
            if ch.id = p.channelId then { ch with contentClass := some p.cls } else ch) =
            fun ch => decide (ch.id = id) := by
          funext ch
          simp only [Function.comp_apply]
          split_ifs <;> rfl
        rw [hsame]
        cases hfind : db.channels.find? fun ch => ch.id = id with
        | none => rfl
        | some ch =>
          have hid : ch.id = id := by simpa using List.find?_some hfind
          simp [hid, hother]
  · exact h

theorem sameStore_reconcileChannelClasses : SameStore db db.reconcileChannelClasses := by
  have hframe {γ : Type} (out : Db → γ)
      (hout : ∀ (db : Db) channels, out { db with channels } = out db) :
      out db.reconcileChannelClasses = out db := by
    refine foldl_frame out (fun db e => ?_) db.events db
    unfold reconcileChannelClass
    split
    · split
      · rfl
      · split
        · rfl
        · exact hout db _
    · rfl
  exact ⟨hframe messages fun _ _ => rfl, hframe messagesFts fun _ _ => rfl,
    hframe files fun _ _ => rfl, hframe blobs fun _ _ => rfl, hframe attachments fun _ _ => rfl,
    hframe reactions fun _ _ => rfl, fun id hid =>
      foldl_invariant (P := fun db' : Db => db'.view.classOf id = some .e2ee) hid
        fun _ h _ _ => classOf_reconcileChannelClass h⟩

theorem StoreKept.deriveMissing {tombstoned : EventHash → Bool} {acc acc' : Db × ℕ}
    (h : acc.1.StoreKept K) (hderive : Db.deriveMissing K tombstoned acc e = .ok acc') :
    Issues K (if tombstoned (e.hash K) then [] else acc.1.deriveCommands e) acc.1 acc'.1 := by
  unfold Db.deriveMissing at hderive
  split_ifs at hderive ⊢
  · obtain rfl := pure_eq_ok.mp hderive
    exact .refl h
  · simp only [bind_eq_ok, pure_eq_ok] at hderive
    obtain ⟨⟨db₁, derived⟩, hrow, rfl⟩ := hderive
    exact (h.derive hrow).1

theorem StoreKept.sweepTombstoned {target : EventRef} (h : db.StoreKept K)
    (hsweep : db.sweepTombstoned target = .ok db') :
    Issues K (db.sweepCommands target) db db' := by
  unfold Db.sweepTombstoned at hsweep
  unfold sweepCommands
  cases hrow : db.rowOfHash target with
  | none =>
    simp only [hrow] at hsweep ⊢
    obtain rfl := pure_eq_ok.mp hsweep
    exact .refl h
  | some x =>
    simp only [hrow, bind_eq_ok, pure_eq_ok] at hsweep ⊢
    obtain ⟨⟨db₁, orphans⟩, hdelete, rfl⟩ := hsweep
    exact h.deleteMessage (Table.find?_mem hrow).1 hdelete

theorem StoreKept.replaySealedEdit {tombstoned : EventHash → Bool} (h : db.StoreKept K)
    (hreplay : Db.replaySealedEdit tombstoned db e = .ok db') :
    db'.StoreKept K ∧ db'.messagesFts = db.messagesFts := by
  unfold Db.replaySealedEdit at hreplay
  split at hreplay
  · split_ifs at hreplay
    · obtain rfl := pure_eq_ok.mp hreplay
      exact ⟨h, rfl⟩
    · rw [bind_eq_ok] at hreplay
      obtain ⟨target, -, hreplay⟩ := hreplay
      cases target with
      | none =>
        obtain rfl := pure_eq_ok.mp hreplay
        exact ⟨h, rfl⟩
      | some id =>
        refine ⟨h.updateSealedRow hreplay, ?_⟩
        obtain ⟨-, -, -, -, rfl⟩ := view_updateSealedRow hreplay
        rfl
  · obtain rfl := pure_eq_ok.mp hreplay
    exact ⟨h, rfl⟩

theorem StoreKept.repairReplyLinks (h : db.StoreKept K) :
    (db.repairReplyLinks K).StoreKept K ∧ (db.repairReplyLinks K).messagesFts = db.messagesFts := by
  refine foldl_invariant (P := fun db' : Db => db'.StoreKept K ∧
    db'.messagesFts = db.messagesFts) ⟨h, rfl⟩ fun db₁ ⟨h₁, hfts⟩ x _ => ?_
  rw [repairReplyLink_eq]
  have hsearched : Searched { db₁ with
      messages := db₁.messages.map (relink (db₁.view.replyRow x.1) x.2) } := by
    refine h₁.searched.map rfl rfl rfl ?_ ?_ ?_
    all_goals
      intro k r
      unfold relink
      split_ifs <;> rfl
  exact ⟨h₁.rewrite rfl rfl rfl rfl rfl hsearched, hfts⟩

theorem recounts_reconcileAttachments : Recounts db (db.reconcileAttachments K) := by
  unfold reconcileAttachments
  split
  · exact .refl
  · exact foldl_invariant (P := Recounts db) .refl fun _ h _ _ => h.trans recounts_deriveAttachments

theorem StoreKept.sweepRedactedBytes (h : db.StoreKept K) : db.sweepRedactedBytes.StoreKept K where
  links := h.links.blobs _
  reacted := h.reacted.same (fun _ hr => hr) (fun _ row hrow => ⟨row, hrow⟩) fun _ hfile => hfile
  shelved := h.shelved.sweepRedactedBytes
  searched := h.searched.same rfl rfl rfl

theorem StoreKept.reconcileMessages {logState : Option LogState} {repaired : ℕ}
    (h : db.StoreKept K) (hreconcile : db.reconcileMessages K logState = .ok (db', repaired)) :
    Issues K (db.reconcileCommands K logState) db db' := by
  simp only [Db.reconcileMessages, bind_eq_ok, pure_eq_ok, Prod.mk.injEq] at hreconcile
  obtain ⟨⟨db₁, derived⟩, hderive, db₂, hsweep, db₃, hreplay, rfl, -⟩ := hreconcile
  obtain ⟨hissues₁, -⟩ := StoreKept.foldlM Prod.fst (P := fun _ => True) (b := (db, 0)) h trivial
    (fun acc hacc _ e _ acc' hstep => ⟨hacc.deriveMissing hstep, trivial⟩) hderive
  obtain ⟨hissues₂, -⟩ := hissues₁.kept.foldlM (fun db => db) (P := fun _ => True) trivial
    (fun _ hk _ target _ _ hstep => ⟨hk.sweepTombstoned hstep, trivial⟩) hsweep
  have hreplayed := foldlM_invariant (P := fun db' : Db => db'.StoreKept K ∧
    db'.messagesFts = db₂.messagesFts) hreplay ⟨hissues₂.kept, rfl⟩
    fun d hd e _ d' hstep => by
      obtain ⟨hk, hfts⟩ := hd
      obtain ⟨hk', hfts'⟩ := hk.replaySealedEdit hstep
      exact ⟨hk', hfts'.trans hfts⟩
  obtain ⟨h₄, hfts₄⟩ := hreplayed.1.repairReplyLinks
  have hall := (hissues₁.trans hissues₂).then (hfts₄.trans hreplayed.2) h₄
  unfold reconcileCommands
  simp only [hderive]
  exact hall

end Server.Db

namespace Server

open EventLog Guarded SearchIndex Db

variable {K : Crypto} {st st' : ServerState}

theorem StoreKept.restart (h : st.db.StoreKept K) (hrestart : st.restart K = .ok st') :
    Issues K (st.reconcileCommands K) st.db st'.db := by
  unfold ServerState.restart at hrestart
  unfold ServerState.reconcileCommands
  split at hrestart
  · next hnone =>
    obtain rfl := pure_eq_ok.mp hrestart
    simp only [hnone]
    exact .refl h
  · next g hsome =>
    simp only [bind_eq_ok, pure_eq_ok] at hrestart
    obtain ⟨logState, hbuild, ⟨db, repaired⟩, hreconcile, rfl⟩ := hrestart
    have hclasses : SameStore st.db st.db.reconcileChannelClasses :=
      sameStore_reconcileChannelClasses
    have hissues := (h.same hclasses).reconcileMessages hreconcile
    have hr : Recounts db (db.reconcileAttachments K) := recounts_reconcileAttachments
    have hlinks : (db.reconcileAttachments K).LinksKept :=
      attaches_reconcileAttachments.links hissues.kept.links
    have hkept := (hissues.kept.recounts hr hlinks).sweepRedactedBytes
    simp only [hsome, hbuild]
    have hfts : (db.reconcileAttachments K).sweepRedactedBytes.messagesFts = db.messagesFts :=
      hr.fts
    have hall := hissues.then hfts hkept
    exact ⟨hclasses.fts ▸ hall.valid, hclasses.fts ▸ hall.index, hall.kept⟩

end Server
