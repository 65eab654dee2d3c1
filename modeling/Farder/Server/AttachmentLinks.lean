import Farder.Server.Step

/-! # Attachments and reference counts

Every attachment names a message and a file that exist, and a file's reference count is the
number of its attachments. So a file loses its last attachment exactly when its count reaches
zero, and only then may it be removed. -/
namespace Server

open EventLog Guarded

variable {K : Crypto} {db db' : Db} {e : Event} {l : List ℕ} {now : ℕ}

namespace Db

def Attached (db : Db) (messageId fileId : ℕ) : Prop :=
  ∃ a ∈ db.attachments, a.2.messageId = messageId ∧ a.2.fileId = fileId

/-- The number of attachments of a file. -/
def uses (db : Db) (fileId : ℕ) : ℕ := db.attachments.rows.countP fun a => a.2.fileId = fileId

structure LinksKept (db : Db) : Prop where
  message : ∀ a ∈ db.attachments, ∃ row, (a.2.messageId, row) ∈ db.messages
  file : ∀ a ∈ db.attachments, ∃ f, (a.2.fileId, f) ∈ db.files
  counted : ∀ f ∈ db.files, f.2.refCount = db.uses f.1

theorem uses_eq_zero {fileId : ℕ} :
    db.uses fileId = 0 ↔ ∀ a ∈ db.attachments, a.2.fileId ≠ fileId := by
  simp [uses, List.countP_eq_zero, Table.mem_def]

theorem LinksKept.congr_messages (h : db.LinksKept)
    (hattachments : db'.attachments = db.attachments) (hfiles : db'.files = db.files)
    (hmessages : ∀ k row, (k, row) ∈ db.messages → ∃ row', (k, row') ∈ db'.messages) :
    db'.LinksKept where
  message := by
    intro a ha
    rw [hattachments] at ha
    obtain ⟨row, hrow⟩ := h.message a ha
    exact hmessages _ _ hrow
  file := by
    intro a ha
    rw [hattachments] at ha
    rw [hfiles]
    exact h.file a ha
  counted := by
    intro f hf
    rw [hfiles] at hf
    rw [h.counted f hf, uses, uses, hattachments]

theorem LinksKept.map_files {f : ℕ → FileRow → FileRow} (h : db.LinksKept)
    (hf : ∀ k r, (f k r).refCount = r.refCount) :
    ({ db with files := db.files.map f } : Db).LinksKept where
  message := h.message
  file := by
    intro a ha
    obtain ⟨r, hr⟩ := h.file a ha
    exact ⟨_, Table.mem_map_of_mem hr⟩
  counted := by
    intro x hx
    obtain ⟨y, hy, rfl⟩ := Table.mem_map.mp hx
    simp only [hf]
    exact h.counted y hy

theorem LinksKept.delete_files {p : ℕ × FileRow → Bool} (h : db.LinksKept)
    (hp : ∀ f ∈ db.files, p f = true → f.2.refCount = 0) :
    ({ db with files := db.files.delete p } : Db).LinksKept where
  message := h.message
  file := by
    intro a ha
    obtain ⟨f, hf⟩ := h.file a ha
    refine ⟨f, Table.mem_delete.mpr ⟨hf, ?_⟩⟩
    by_contra hdel
    have hzero := hp _ hf (by simpa using hdel)
    rw [h.counted _ hf, uses_eq_zero] at hzero
    exact hzero a ha rfl
  counted x hx := h.counted x (Table.mem_delete.mp hx).1

theorem LinksKept.insert_file {f : FileRow} (h : db.LinksKept)
    (hfiles : db'.files = db.files.insert f) (hf : f.refCount = 0)
    (hattachments : db'.attachments = db.attachments) (hmessages : db'.messages = db.messages) :
    db'.LinksKept where
  message := by
    rw [hattachments, hmessages]
    exact h.message
  file := by
    rw [hattachments, hfiles]
    intro a ha
    obtain ⟨f', hf'⟩ := h.file a ha
    exact ⟨f', Table.mem_insert.mpr (.inl hf')⟩
  counted := by
    intro x hx
    rw [hfiles] at hx
    rw [uses, hattachments, ← uses]
    rcases Table.mem_insert.mp hx with hx | rfl
    · exact h.counted x hx
    · rw [hf]
      symm
      refine uses_eq_zero.mpr fun a ha heq => ?_
      obtain ⟨f', hf'⟩ := h.file a ha
      have hlt := Table.key_lt hf'
      simp only at heq hlt
      omega

theorem LinksKept.blobs (h : db.LinksKept) (blobs : List (String × List UInt8)) :
    ({ db with blobs } : Db).LinksKept :=
  h.congr_messages rfl rfl fun _ row hrow => ⟨row, hrow⟩

theorem LinksKept.cleanupOrphanedFile (h : db.LinksKept) (id : ℕ) :
    (db.cleanupOrphanedFile id).LinksKept := by
  unfold Db.cleanupOrphanedFile
  split
  · exact h
  · rename_i f hf
    split
    · rename_i hzero
      refine (h.blobs _).delete_files fun x hx hid => ?_
      have hid : x.1 = id := by simpa using hid
      have hrow := Table.get?_eq_some.mp hf
      obtain rfl := Table.eq_of_key_eq (t := db.files) hx hrow hid
      exact hzero
    · exact h

theorem LinksKept.cleanupAllOrphans (h : db.LinksKept) (now age : ℕ) :
    (db.cleanupAllOrphans now age).LinksKept := by
  have hblobs : ∀ (l : List (ℕ × FileRow)) (db : Db), db.LinksKept →
      (l.foldl (fun db x => db.removeBlob x.2.hash) db).LinksKept ∧
        (l.foldl (fun db x => db.removeBlob x.2.hash) db).files = db.files := by
    intro l
    induction l with
    | nil => exact fun db h => ⟨h, rfl⟩
    | cons x l ih => exact fun db h => ih _ (h.blobs _)
  obtain ⟨hkept, hfiles⟩ := hblobs
    (db.files.rows.filter fun x => isOldOrphan (now - age) x.2) db h
  have hdelete := hkept.delete_files (p := fun x => isOldOrphan (now - age) x.2) fun f hf hold => by
    simp only [isOldOrphan, decide_eq_true_eq] at hold
    exact hold.1
  rwa [hfiles] at hdelete

theorem LinksKept.redactBlob (h : db.LinksKept) (hash : String) (redactor : PublicKey) :
    (db.redactBlob hash redactor).LinksKept := by
  unfold Db.redactBlob
  split
  · exact h
  · refine (h.blobs _).map_files fun k f => ?_
    split_ifs <;> rfl

theorem LinksKept.storeOrReuse {uploadedBy : PublicKey} {name hash mime : String}
    {bytes : List UInt8} {size id : ℕ} {media : MediaInfo} (h : db.LinksKept)
    (hstore : db.storeOrReuseFromTempFile K uploadedBy name bytes hash mime size media now =
      .ok (db', id)) : db'.LinksKept := by
  unfold storeOrReuseFromTempFile at hstore
  split at hstore
  · simp only [pure_eq_ok, Prod.mk.injEq] at hstore
    exact hstore.1 ▸ h
  · simp only [bind_eq_ok, pure_eq_ok, Prod.mk.injEq] at hstore
    obtain ⟨-, -, rfl, -⟩ := hstore
    exact h.insert_file rfl rfl rfl rfl

theorem files_create {messageId fileId position : ℕ} {name : String} {media : MediaInfo} :
    (db.createMessageAttachment messageId fileId position name media).files =
      db.files.modify fileId fun f => { f with refCount := f.refCount + 1 } := rfl

theorem attached_create {messageId fileId position m f : ℕ} {name : String} {media : MediaInfo} :
    (db.createMessageAttachment messageId fileId position name media).Attached m f ↔
      db.Attached m f ∨ m = messageId ∧ f = fileId := by
  simp only [Attached, createMessageAttachment, incrementRefCount, Table.mem_insert]
  constructor
  · rintro ⟨a, ha | rfl, hm, hf⟩
    · exact .inl ⟨a, ha, hm, hf⟩
    · exact .inr ⟨hm.symm, hf.symm⟩
  · rintro (⟨a, ha, hm, hf⟩ | ⟨rfl, rfl⟩)
    · exact ⟨a, .inl ha, hm, hf⟩
    · exact ⟨_, .inr rfl, rfl, rfl⟩

theorem LinksKept.create {messageId fileId position : ℕ} {name : String} {media : MediaInfo}
    (h : db.LinksKept) (hmessage : ∃ row, (messageId, row) ∈ db.messages)
    (hfile : ∃ f, (fileId, f) ∈ db.files) :
    (db.createMessageAttachment messageId fileId position name media).LinksKept where
  message := by
    intro a ha
    rcases Table.mem_insert.mp ha with ha | rfl
    · exact h.message a ha
    · exact hmessage
  file := by
    intro a ha
    rcases Table.mem_insert.mp ha with ha | rfl
    · obtain ⟨f, hf⟩ := h.file a ha
      exact ⟨_, Table.mem_map_of_mem hf⟩
    · obtain ⟨f, hf⟩ := hfile
      exact ⟨_, Table.mem_map_of_mem hf⟩
  counted := by
    intro x hx
    obtain ⟨y, hy, rfl⟩ := Table.mem_map.mp hx
    have hcount := h.counted y hy
    simp only [uses, createMessageAttachment, incrementRefCount, Table.insert,
      List.countP_append, List.countP_singleton, decide_eq_true_eq] at hcount ⊢
    by_cases hid : y.1 = fileId
    · simp [hid, hcount]
    · have hne : fileId ≠ y.1 := fun h => hid h.symm
      simp [hid, hne, hcount]

def SameFile (f f' : FileRow) : Prop := f'.hash = f.hash

/-- A step that only adds attachments, and those only to messages with `p`. -/
structure Attaches (p : ℕ → Prop) (db db' : Db) : Prop where
  view : db'.view = db.view
  files : db.files.Evolves SameFile db'.files
  attached : ∀ m f, db'.Attached m f → db.Attached m f ∨ p m
  kept : ∀ m f, db.Attached m f → db'.Attached m f
  links : db.LinksKept → db'.LinksKept

variable {p : ℕ → Prop}

theorem Attaches.refl : Attaches p db db :=
  ⟨rfl, .refl fun _ => rfl, fun _ _ h => .inl h, fun _ _ h => h, id⟩

theorem Attaches.trans {db'' : Db} (h : Attaches p db db') (k : Attaches p db' db'') :
    Attaches p db db'' where
  view := k.view.trans h.view
  files := h.files.trans (fun _ _ _ h k => k.trans h) k.files
  attached := by
    intro m f hm
    rcases k.attached m f hm with hm | hm
    · exact h.attached m f hm
    · exact .inr hm
  kept m f hm := k.kept m f (h.kept m f hm)
  links hl := k.links (h.links hl)

theorem Attaches.foldl {α : Type} {step : Db → α → Db} {as : List α}
    (hstep : ∀ db', db'.view = db.view → ∀ a ∈ as, Attaches p db' (step db' a)) :
    Attaches p db (as.foldl step db) :=
  foldl_invariant .refl fun db' h a ha => h.trans (hstep db' h.view a ha)

theorem attaches_deriveAttachment {messageId position : ℕ} {author owner : PublicKey}
    {cap : AttachmentCap} (hmessage : ∃ row, (messageId, row) ∈ db.messages)
    (hp : p messageId) :
    Attaches p db (db.deriveAttachment messageId author owner position cap) := by
  unfold deriveAttachment
  split
  · exact .refl
  · rename_i fileId file hfile
    split_ifs
    · refine ⟨rfl, ?_, ?_, ?_, ?_⟩
      · rw [files_create]
        exact .modify (fun _ => rfl) fun _ => rfl
      · intro m f hm
        rcases attached_create.mp hm with hm | ⟨rfl, -⟩
        · exact .inl hm
        · exact .inr hp
      · exact fun m f hm => attached_create.mpr (.inl hm)
      · exact fun hl => hl.create hmessage ⟨file, (Table.find?_mem hfile).1⟩
    · exact .refl

theorem attaches_deriveAttachments {messageId : ℕ} {owner : PublicKey}
    (hmessage : ∃ row, (messageId, row) ∈ db.messages) (hp : p messageId) :
    Attaches p db (db.deriveAttachments e messageId owner) :=
  .foldl fun db' hview _ _ => by
    have hmessages : db'.messages = db.messages := congrArg View.messages hview
    exact attaches_deriveAttachment (hmessages ▸ hmessage) hp

/-- Releasing files lowers each count by the number of its releases, and lists the files
whose count has reached zero. -/
theorem foldlM_releaseFile {acc acc' : Db × List ℕ} (h : l.foldlM releaseFile acc = .ok acc') :
    acc'.1 = { acc.1 with files := acc.1.files.map fun k f =>
        { f with refCount := f.refCount - l.count k } } ∧
      (∀ id ∈ acc.2, id ∈ acc'.2) ∧
      ∀ id ∈ l, ∀ f, (id, f) ∈ acc'.1.files → f.refCount = 0 → id ∈ acc'.2 := by
  induction l generalizing acc with
  | nil =>
    obtain rfl : acc = acc' := by simpa using h
    simp [Table.map_eq_self]
  | cons id l ih =>
    rw [List.foldlM_cons, bind_eq_ok] at h
    obtain ⟨acc₁, hrelease, h⟩ := h
    simp only [releaseFile, bind_eq_ok, context_eq_ok, pure_eq_ok] at hrelease
    obtain ⟨file, hfile, rfl⟩ := hrelease
    obtain ⟨hdb, hkept, hlisted⟩ := ih h
    have hmono : ∀ k ∈ acc.2, k ∈ acc'.2 := by
      intro k hk
      refine hkept k ?_
      simp only
      split_ifs
      · exact List.mem_append_left _ hk
      · exact hk
    refine ⟨?_, hmono, ?_⟩
    · rw [hdb]
      simp only [decrementRefCount, Table.modify, Table.map_map]
      refine congrArg (fun files => { acc.1 with files }) (Table.map_congr fun x _ => ?_)
      by_cases hx : x.1 = id
      · simp only [hx, if_true, List.count_cons_self]
        congr 1
        omega
      · have hne : id ≠ x.1 := fun h => hx h.symm
        simp [hx, List.count_cons_of_ne hne]
    · intro k hk f hf hzero
      by_cases hl : k ∈ l
      · exact hlisted k hl f hf hzero
      · -- The last release of the file found its final count.
        obtain rfl : k = id := (List.mem_cons.mp hk).resolve_right hl
        rw [hdb] at hf
        obtain ⟨y, hy, hyf⟩ := Table.mem_map.mp hf
        obtain ⟨rfl, rfl⟩ := Prod.mk.inj hyf
        simp only [List.count_eq_zero_of_not_mem hl, Nat.sub_zero] at hzero
        have hfound := Table.row_eq (Table.get?_eq_some.mp hfile) hy
        refine hkept _ ?_
        simp [hfound, hzero]

/-- A step that deletes exactly the attachments of the messages with `p`; the list names every
file that has thereby lost its last attachment. -/
structure Detaches (p : ℕ → Bool) (db db' : Db) (orphans : List ℕ) : Prop where
  view : db'.view = db.view
  attachments : db'.attachments = db.attachments.delete fun a => p a.2.messageId
  files : db.files.Evolves SameFile db'.files
  links : db.LinksKept → db'.LinksKept
  orphaned : db.LinksKept → ∀ m f, p m = true → db.Attached m f → (∀ m', ¬db'.Attached m' f) →
    f ∈ orphans

variable {q : ℕ → Bool}

theorem attached_delete (h : db'.attachments = db.attachments.delete fun a => q a.2.messageId)
    {m f : ℕ} : db'.Attached m f ↔ db.Attached m f ∧ q m = false := by
  simp only [Attached, h, Table.mem_delete]
  constructor
  · rintro ⟨a, ⟨ha, hq⟩, rfl, rfl⟩
    exact ⟨⟨a, ha, rfl, rfl⟩, hq⟩
  · rintro ⟨⟨a, ha, rfl, rfl⟩, hq⟩
    exact ⟨a, ⟨ha, hq⟩, rfl, rfl⟩

theorem uses_delete (id fileId : ℕ) :
    db.uses fileId = Db.uses { db with
      attachments := db.attachments.delete fun a => a.2.messageId = id } fileId +
        (db.attachedFiles id).count fileId := by
  simp only [uses, attachedFiles, Table.delete, List.count_eq_countP, List.countP_map]
  rw [List.countP_eq_countP_filter_add db.attachments.rows _ fun a => a.2.messageId = id,
    Nat.add_comm]
  congr 1

theorem detaches_deleteAttachments {id : ℕ}
    (h : db.deleteAttachmentsForMessage id = .ok (db', l)) :
    Detaches (fun m => m = id) db db' l := by
  have hview := view_deleteAttachmentsForMessage h
  obtain ⟨hdb, -, hlisted⟩ := foldlM_releaseFile h
  have hfiles : db'.files = db.files.map fun k f =>
      { f with refCount := f.refCount - (db.attachedFiles id).count k } :=
    congrArg Db.files hdb
  have hevolves : db.files.Evolves SameFile db'.files := by
    rw [hfiles]
    exact .map fun _ _ => rfl
  subst hdb
  have hlinks : db.LinksKept → LinksKept { db with
      attachments := db.attachments.delete fun a => a.2.messageId = id
      files := db.files.map fun k f =>
        { f with refCount := f.refCount - (db.attachedFiles id).count k } } := by
    intro hl
    constructor
    · intro a ha
      exact hl.message a (Table.mem_delete.mp ha).1
    · intro a ha
      obtain ⟨f, hf⟩ := hl.file a (Table.mem_delete.mp ha).1
      exact ⟨_, Table.mem_map_of_mem hf⟩
    · intro x hx
      obtain ⟨y, hy, rfl⟩ := Table.mem_map.mp hx
      have hcount := hl.counted y hy
      rw [uses_delete id] at hcount
      simp only [hcount, Nat.add_sub_cancel]
      rfl
  refine ⟨hview, rfl, hevolves, hlinks, ?_⟩
  intro hl m f hm hattached hnone
  obtain rfl : m = id := by simpa using hm
  obtain ⟨a, ha, ham, haf⟩ := hattached
  obtain ⟨file, hfile⟩ := hl.file a ha
  rw [haf] at hfile
  refine hlisted f ?_ _ (Table.mem_map_of_mem hfile) ?_
  · exact List.mem_map.mpr ⟨a, List.mem_filter.mpr ⟨ha, by simpa using ham⟩, haf⟩
  · have hcounted := (hlinks hl).counted _ (Table.mem_map_of_mem hfile)
    rw [hcounted, uses_eq_zero]
    exact fun b hb hbf => hnone b.2.messageId ⟨b, hb, rfl, hbf⟩

theorem Detaches.refl : Detaches (fun _ => false) db db [] :=
  ⟨rfl, (Table.delete_eq_self fun _ _ => rfl).symm, .refl fun _ => rfl, id, by simp⟩

theorem Detaches.trans {db'' : Db} {p q : ℕ → Bool} {k : List ℕ} (h : Detaches p db db' l)
    (h' : Detaches q db' db'' k) : Detaches (fun m => p m || q m) db db'' (l ++ k) where
  view := h'.view.trans h.view
  attachments := by
    rw [h'.attachments, h.attachments, Table.delete_delete]
  files := h.files.trans (fun _ _ _ h k => k.trans h) h'.files
  links hl := h'.links (h.links hl)
  orphaned := by
    intro hl m f hpq hattached hnone
    by_cases hleft : ∃ m', db'.Attached m' f
    · -- The second step takes the last attachments.
      obtain ⟨m', hm'⟩ := hleft
      refine List.mem_append_right _ (h'.orphaned (h.links hl) m' f ?_ hm' hnone)
      by_contra hq
      exact hnone m' ((attached_delete h'.attachments).mpr ⟨hm', by simpa using hq⟩)
    · refine List.mem_append_left _ (h.orphaned hl m f ?_ hattached fun m' hm' => hleft ⟨m', hm'⟩)
      by_contra hp
      exact hleft ⟨m, (attached_delete h.attachments).mpr ⟨hattached, by simpa using hp⟩⟩

theorem Detaches.congr {p q : ℕ → Bool} (h : Detaches p db db' l) (hpq : ∀ m, p m = q m) :
    Detaches q db db' l := by
  obtain rfl := funext hpq
  exact h

theorem Detaches.onReactions {p : ℕ → Bool} (h : Detaches p db db' l)
    (reactions : List ReactionRow) : Detaches p db { db' with reactions } l :=
  ⟨h.view, h.attachments, h.files,
    fun hl => (h.links hl).congr_messages rfl rfl fun _ row hrow => ⟨row, hrow⟩, h.orphaned⟩

theorem Detaches.mono {p : ℕ → Bool} {k : List ℕ} (h : Detaches p db db' l)
    (hsub : ∀ i ∈ l, i ∈ k) : Detaches p db db' k :=
  ⟨h.view, h.attachments, h.files, h.links,
    fun hl m f hp hattached hnone => hsub f (h.orphaned hl m f hp hattached hnone)⟩

/-- Deleting the attachments of each message of a list, when every step adds the files that it
frees to those `listed` so far. -/
theorem detaches_foldlM {α β : Type} {step : β → α → Checked β} (out : β → Db)
    (listed : β → ℕ → Prop) (key : α → ℕ)
    (hstep : ∀ b a b', step b a = .ok b' → (∀ i, listed b i → listed b' i) ∧
      ∃ l, (∀ i ∈ l, listed b' i) ∧ Detaches (fun m => m = key a) (out b) (out b') l)
    {as : List α} {b b' : β} (h : as.foldlM step b = .ok b') :
    (∀ i, listed b i → listed b' i) ∧
      ∃ l, (∀ i ∈ l, listed b' i) ∧ Detaches (fun m => m ∈ as.map key) (out b) (out b') l := by
  induction as generalizing b with
  | nil =>
    obtain rfl : b = b' := by simpa using h
    exact ⟨fun _ hi => hi, [], by simp, Detaches.refl.congr fun m => by simp⟩
  | cons a as ih =>
    rw [List.foldlM_cons, bind_eq_ok] at h
    obtain ⟨b₁, hhead, htail⟩ := h
    obtain ⟨hmono, l, hl, hdetaches⟩ := hstep b a b₁ hhead
    obtain ⟨hmono', k, hk, hdetaches'⟩ := ih htail
    refine ⟨fun i hi => hmono' i (hmono i hi), l ++ k, ?_,
      (hdetaches.trans hdetaches').congr fun m => by simp⟩
    intro i hi
    rcases List.mem_append.mp hi with hi | hi
    · exact hmono' i (hl i hi)
    · exact hk i hi

theorem detaches_removeAttachments {author : PublicKey}
    (h : db.removeAttachmentsForAuthorMessages author = .ok (db', l)) :
    Detaches (fun m => m ∈ db.messagesOf author) db db' l := by
  have hall := detaches_foldlM (α := ℕ) Prod.fst (fun acc i => i ∈ acc.2) (fun m => m) ?_ h
  · obtain ⟨-, k, hk, hdetaches⟩ := hall
    exact (hdetaches.mono hk).congr fun m => by simp
  · intro acc id acc' h
    simp only [bind_eq_ok, pure_eq_ok] at h
    obtain ⟨⟨db₁, orphans⟩, hdelete, rfl⟩ := h
    exact ⟨fun i hi => List.mem_append_left _ hi, orphans,
      fun i hi => List.mem_append_right _ hi, detaches_deleteAttachments hdelete⟩

end Db
end Server
