import Farder.Server.SampleHost

/-! # Who can destroy a stored file

The log names an uploader for each hash: whoever the first post that carries the hash says. The
file store names another one: whoever sent the bytes. A redaction asks the log and acts on the
store, so an author without `kick` destroys just its own files as long as the two agree. -/
namespace Server

open EventLog Guarded

variable {K : Crypto} {st st' : ServerState} {ls : LogState} {db : Db} {e : Event}
  {orphans : List ℕ} {hash : String} {now : ℕ}

namespace Db

/-- The bytes under the hash are gone, or a file with the hash has been marked redacted. -/
def Destroyed (hash : String) (db db' : Db) : Prop :=
  (∃ bytes, (hash, bytes) ∈ db.blobs ∧ (hash, bytes) ∉ db'.blobs) ∨
    ∃ id file file', (id, file) ∈ db.files ∧ (id, file') ∈ db'.files ∧ file.hash = hash ∧
      file.redactedBy = none ∧ file'.redactedBy ≠ none

/-- There is a file with the hash to destroy: it is not marked, or its bytes are there. -/
def Standing (hash : String) (db : Db) : Prop :=
  (∃ x ∈ db.files, x.2.hash = hash) ∧
    ((∃ x ∈ db.files, x.2.hash = hash ∧ x.2.redactedBy = none) ∨
      ∃ bytes, (hash, bytes) ∈ db.blobs)

theorem fileByHash_eq_none : db.fileByHash hash = none ↔ ∀ x ∈ db.files, x.2.hash ≠ hash := by
  simp [fileByHash, Table.find?_eq_none]

theorem destroyed_redactBlob (author : PublicKey) :
    Destroyed hash db (db.redactBlob hash author) ↔ Standing hash db := by
  unfold redactBlob
  cases hfile : db.fileByHash hash with
  | none =>
    rw [fileByHash_eq_none] at hfile
    refine iff_of_false ?_ fun ⟨⟨x, hx, heq⟩, _⟩ => hfile x hx heq
    rintro (⟨bytes, hmem, hgone⟩ | ⟨id, file, file', hmem, -, heq, -⟩)
    · exact hgone hmem
    · exact hfile _ hmem heq
  | some y =>
    obtain ⟨hy, hhash⟩ := Table.find?_mem hfile
    have hsome : ∃ x ∈ db.files, x.2.hash = hash := ⟨y, hy, by simpa using hhash⟩
    simp only [Standing, hsome, true_and]
    constructor
    · rintro (⟨bytes, hmem, -⟩ | ⟨id, file, file', hmem, -, heq, hnone, -⟩)
      · exact .inr ⟨bytes, hmem⟩
      · exact .inl ⟨_, hmem, heq, hnone⟩
    · rintro (⟨⟨id, file⟩, hmem, heq, hnone⟩ | ⟨bytes, hmem⟩)
      · refine .inr ⟨id, file, _, hmem, Table.mem_map_of_mem hmem, heq, hnone, ?_⟩
        simp [show file.hash = hash from heq]
      · exact .inl ⟨bytes, hmem, by simp [removeBlob]⟩

end Db

/-- A redaction that is accepted does to the files what `redact_blob` does. -/
theorem redacted (hsubmit : st.submitEvent K e now = .ok (st', orphans))
    (hp : e.core.payload = .attachmentRedacted hash) :
    st'.db = ({ st.db with events := st.db.events ++ [e] } : Db).redactBlob hash
      e.core.author := by
  simp only [ServerState.submitEvent, bind_eq_ok, context_eq_ok, prefixed_eq_ok, pure_eq_ok,
    Prod.mk.injEq] at hsubmit
  obtain ⟨-, -, -, -, -, -, -, -, ⟨⟩, -, ⟨db, orphans⟩, hingest, rfl, -⟩ := hsubmit
  simp only [Db.ingest, bind_eq_ok, prefixed_eq_ok] at hingest
  obtain ⟨db₁, hstore, db₂, hmaterialize, ⟨db₃, id⟩, hderive, db₄, hedit, htombstone⟩ := hingest
  obtain rfl := materialize_other (by simp [hp]) hmaterialize
  obtain ⟨rfl, rfl⟩ := derive_other (by simp [isPosted, hp]) hderive
  obtain rfl := applySealedEdit_other (by simp [hp]) hedit
  obtain rfl := applyTombstone_other (by simp [hp]) htombstone
  simp only [Db.storeEvent, bind_eq_ok, pure_eq_ok] at hstore
  obtain ⟨⟨⟩, -, rfl⟩ := hstore
  simp [Db.redactAttachment, Db.attachDerived, hp]

/-- Without `kick`, the log accepts a redaction from the uploader that it names. -/
theorem redacted_uploader (hsubmit : st.submitEvent K e now = .ok (st', orphans))
    (hls : st.logState = some ls) (hp : e.core.payload = .attachmentRedacted hash)
    (hkick : ¬ls.HasCapability e.core.author "kick") :
    ls.attachmentUploaders.lookup hash = some e.core.author := by
  obtain ⟨ls', ls'', hls', happly, -, -, -⟩ := submitted hsubmit
  obtain rfl := Option.some.inj (hls.symm.trans hls')
  obtain ⟨key, m, -, heff, -⟩ := LogState.apply_cases happly
  cases heff with
  | attachmentRedacted contentHash uploader hp' huploader hcap =>
    obtain rfl : contentHash = hash := by simpa [hp] using hp'.symm
    rw [huploader, hcap.resolve_right hkick]
  | _ => simp_all

/-- In every state, an accepted redaction by an author without `kick` destroys only a file that
the author has uploaded, if and only if the log and the file store name the same uploader for
the file that is there to destroy. -/
theorem redaction_by_uploader_iff (hsubmit : st.submitEvent K e now = .ok (st', orphans))
    (hls : st.logState = some ls) (hp : e.core.payload = .attachmentRedacted hash)
    (hkick : ¬ls.HasCapability e.core.author "kick") :
    (Db.Destroyed hash st.db st'.db →
      ∀ x ∈ st.db.files, x.2.hash = hash → x.2.uploadedBy = e.core.author) ↔
    (Db.Standing hash st.db → ∀ x ∈ st.db.files, x.2.hash = hash →
      ls.attachmentUploaders.lookup hash = some x.2.uploadedBy) := by
  have hdestroyed : Db.Destroyed hash st.db st'.db ↔ Db.Standing hash st.db := by
    have hstored : Db.Destroyed hash { st.db with events := st.db.events ++ [e] } st'.db ↔
        Db.Standing hash { st.db with events := st.db.events ++ [e] } := by
      rw [redacted hsubmit hp]
      exact Db.destroyed_redactBlob e.core.author
    exact hstored
  rw [hdestroyed, redacted_uploader hsubmit hls hp hkick]
  simp only [Option.some.injEq, eq_comm]

open SampleLog SampleServer

def namedByBob (uploader : Keypair) : List TimedOp :=
  [(1, .createChannel "general" .text 0),
   (1, .upload ⟨key uploader, "photo.png", [65], "q", "image/png", 1, ⟨none, none, none⟩⟩)] ++
  submits
    [⟨alice, a0, 1, cert alice a0 none⟩,
     ⟨alice, a0, 1, .inviteCreated ⟨"", 5, 100, false⟩⟩,
     ⟨bob, b0, 1, cert bob b0 none⟩,
     ⟨bob, b0, 1, .memberJoined (key bob) (ref alice a0 1)⟩,
     ⟨bob, b0, 2, .messagePosted ⟨1, "look", none, [⟨"q", "image/png", 1, key bob⟩]⟩⟩]

/-- Bob's redaction of the hash, the next event of his device. -/
def redactedByBob (uploader : Keypair) : Event :=
  nextEvent (stateAfter (namedByBob uploader)).db.events ⟨bob, b0, 3, .attachmentRedacted "q"⟩

def afterRedaction (uploader : Keypair) : Option ServerState :=
  ((stateAfter (namedByBob uploader)).submitEvent crypto (redactedByBob uploader) 3).toOption.map
    Prod.fst

theorem submit_redactedByBob (uploader : Keypair) (h : (afterRedaction uploader).isSome) :
    ∃ st' orphans, afterRedaction uploader = some st' ∧
      (stateAfter (namedByBob uploader)).submitEvent crypto (redactedByBob uploader) 3 =
        .ok (st', orphans) := by
  unfold afterRedaction at h ⊢
  cases hsubmit : (stateAfter (namedByBob uploader)).submitEvent crypto (redactedByBob uploader) 3
    with
  | ok r => exact ⟨r.1, r.2, rfl, rfl⟩
  | error _ => simp [hsubmit, Except.toOption] at h

theorem log_namedByBob (uploader : Keypair)
    (hlog : (stateAfter (namedByBob uploader)).logState.isSome)
    (h : ∀ ls ∈ (stateAfter (namedByBob uploader)).logState, ¬ls.HasCapability (key bob) "kick") :
    ∃ ls, (stateAfter (namedByBob uploader)).logState = some ls ∧
      ¬ls.HasCapability (key bob) "kick" := by
  obtain ⟨ls, hls⟩ := Option.isSome_iff_exists.mp hlog
  exact ⟨ls, hls, h ls hls⟩

theorem payload_redactedByBob (uploader : Keypair) :
    (redactedByBob uploader).core.payload = .attachmentRedacted "q" := rfl

/-- Bob may redact the file that he has uploaded himself. -/
theorem redaction_by_uploader_iff_bob :
    let st := stateAfter (namedByBob bob)
    ∃ st' orphans ls, st.submitEvent crypto (redactedByBob bob) 3 = .ok (st', orphans) ∧
      st.logState = some ls ∧ ¬ls.HasCapability (key bob) "kick" ∧
      ((Db.Destroyed "q" st.db st'.db →
        ∀ x ∈ st.db.files, x.2.hash = "q" → x.2.uploadedBy = (redactedByBob bob).core.author) ↔
      (Db.Standing "q" st.db → ∀ x ∈ st.db.files, x.2.hash = "q" →
        ls.attachmentUploaders.lookup "q" = some x.2.uploadedBy)) := by
  intro st
  obtain ⟨st', orphans, -, hsubmit⟩ := submit_redactedByBob bob (by decide +kernel)
  obtain ⟨ls, hls, hkick⟩ := log_namedByBob bob (by decide +kernel) (by decide +kernel)
  exact ⟨st', orphans, ls, hsubmit, hls, hkick,
    redaction_by_uploader_iff hsubmit hls (payload_redactedByBob bob) hkick⟩

/-- Bob destroys the file that Alice has uploaded: he was the first to post its hash. -/
theorem redaction_of_alices_file :
    let st := stateAfter (namedByBob alice)
    ServerRun crypto founded (history (namedByBob alice)) st ∧
      ∃ st' orphans ls, st.submitEvent crypto (redactedByBob alice) 3 = .ok (st', orphans) ∧
        st.logState = some ls ∧ ¬ls.HasCapability (redactedByBob alice).core.author "kick" ∧
        ("q", [65]) ∈ st.db.blobs ∧ st'.db.blobs = [] ∧
        ∃ x ∈ st.db.files, x.2.hash = "q" ∧ x.2.uploadedBy = key alice ∧
          key alice ≠ (redactedByBob alice).core.author := by
  intro st
  obtain ⟨st', orphans, hafter, hsubmit⟩ :=
    submit_redactedByBob alice (by decide +kernel)
  obtain ⟨ls, hls, hkick⟩ :=
    log_namedByBob alice (by decide +kernel) (by decide +kernel)
  have hblobs : ∀ st' ∈ afterRedaction alice, st'.db.blobs = [] := by decide +kernel
  refine ⟨run_history _, st', orphans, ls, hsubmit, hls, hkick, by decide +kernel,
    hblobs st' hafter, ?_⟩
  have hfile : ∃ x ∈ st.db.files.rows, x.2.hash = "q" ∧ x.2.uploadedBy = key alice ∧
      key alice ≠ (redactedByBob alice).core.author := by decide +kernel
  exact hfile

end Server
