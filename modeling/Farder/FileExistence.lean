import Farder.Server.SampleHost
import Farder.Server.StoreKeys

/-! # The existence of a file

Two states of a server differ only in one file and in messages that carry it, in channels that a
member may not read. Which of the member's requests get different answers. -/
namespace Server

open EventLog Guarded Permissions Db

variable {K : Crypto} {host host' : Host} {m : PublicKey} {moment : Moment}

/-- The database without a file: without its row and its bytes, and without some messages and
what belongs to these. -/
def Db.withoutFile (db : Db) (fileId : ℕ) (hash : String) (gone : Finset ℕ)
    (files : Table FileRow) : Db :=
  { db with
    files
    blobs := (db.removeBlob hash).blobs
    messages := db.messages.delete fun x => x.1 ∈ gone
    messagesFts := db.messagesFts.filter fun y => y.1 ∉ gone
    attachments := db.attachments.delete fun x => x.2.fileId = fileId ∨ x.2.messageId ∈ gone
    reactions := db.reactions.filter fun r => r.messageId ∉ gone }

def Host.withoutFile (host : Host) (fileId : ℕ) (hash : String) (gone : Finset ℕ)
    (files : Table FileRow) : Host :=
  (host.withDb (host.db.withoutFile fileId hash gone files)).withCommunity
    { host.community with pinned := host.community.pinned.filter (· ∉ gone) }

/-- The other files are the same, up to the counts of their attachments. The next id may differ. -/
def FilesWithout (files : Table FileRow) (fileId : ℕ) (files' : Table FileRow) : Prop :=
  ∀ id, (files'.get? id).map uncounted =
    if id = fileId then none else (files.get? id).map uncounted

def Host.mayRead (host : Host) (m : PublicKey) (channelId : ℕ) : Bool :=
  has (host.resolveMemberPerms m false channelId) (viewChannel ||| readMessages)

/-- The second state lacks the file, and the messages `gone`, which carry it. All messages that
carry it are in channels that the member may not read. -/
structure DiffersInFile (m : PublicKey) (fileId : ℕ) (file : FileRow) (gone : Finset ℕ)
    (host host' : Host) : Prop where
  stored : (fileId, file) ∈ host.db.files
  carry : ∀ id ∈ gone, host.db.Attached id fileId ∧ ∃ row, (id, row) ∈ host.db.messages
  hidden : ∀ channelId ∈ host.carriers fileId, host.mayRead m channelId = false
  without : ∃ files, FilesWithout host.db.files fileId files ∧
    host' = host.withoutFile fileId file.hash gone files

/-! ## Requests and answers -/

/-- A request that looks files up, by hash or by id. -/
inductive FileRequest where
  | upload (channelId : ℕ) (upload : Upload)
  | download (fileId : ℕ)
  | sendMessage (channelId : ℕ) (content : String) (replyTo : Option ℕ) (attachmentIds : List ℕ)
  | addReaction (messageId : ℕ) (emoji : String) (fileId : Option ℕ)
  | submitEvent (event : Event)

/-- Made by a member who is not the owner. -/
def FileRequest.op (m : PublicKey) : FileRequest → HostOp
  | .upload channelId file => .upload m false channelId file
  | .download fileId => .download m false fileId
  | .sendMessage channelId content replyTo attachmentIds =>
    .request m false (.message (.sendMessage channelId content replyTo attachmentIds))
  | .addReaction messageId emoji fileId =>
    .request m false (.message (.addReaction messageId emoji fileId))
  | .submitEvent event => .request m false (.submitEvent event)

/-- A download is told nothing of the count. -/
def Response.shown : Response → Response
  | .file row bytes => .file (uncounted row) bytes
  | response => response

/-- What the member who made a request gets to see. -/
def Host.answer (K : Crypto) (host : Host) (moment : Moment) (op : HostOp) : Checked Response :=
  (fun a => a.response.shown) <$> (host.perform K moment op).2

/-! ## What reveals the file -/

/-- The stream brings as many bytes as are announced, and they have this hash. -/
def Upload.Carries (K : Crypto) (upload : Upload) (hash : String) : Prop :=
  upload.fileSize ≤ upload.bytes.length ∧ K.sha256Hex (upload.bytes.take upload.fileSize) = hash

namespace Host

variable (K : Crypto) (host : Host) (m : PublicKey) (moment : Moment)

/-- All that is asked of a message before its attachments are looked at. -/
def checkPost (channelId : ℕ) (content : String) (attachmentIds : List ℕ) : Checked Unit := do
  host.requireNotTimedOut m moment.nowMs
  host.requirePlaintextChannel m channelId
  ensure (content.utf8ByteSize ≤ maxMessageBytes) "message content too long (max 8000 characters)"
  ensure (attachmentIds.length ≤ 10) "too many attachments (max 10)"
  host.requirePosting m false channelId

/-- All files that are listed before this one are stored, and the member's own. -/
def ReachesFile (fileId : ℕ) (attachmentIds : List ℕ) : Prop :=
  ∃ before after, attachmentIds = before ++ fileId :: after ∧
    ∀ id ∈ before, ∃ file, (id, file) ∈ host.db.files ∧ file.uploadedBy = m

/-- The log accepts the event, and it is not stored yet. -/
def LogPasses (event : Event) : Prop :=
  ∃ ls ∈ host.server.logState, checkIngestCapsAt event moment.now = .ok () ∧
    checkEpochClaim ls event.core.payload = .ok () ∧ (∃ trial, ls.apply K event = .ok trial) ∧
    ∀ e ∈ host.db.events, e.hash K ≠ event.hash K

/-- The request is answered differently if the file, or a message that carries it, is not there. -/
def Reveals (fileId : ℕ) (file : FileRow) (gone : Finset ℕ) : FileRequest → Prop
  | .upload channelId upload =>
    host.contentBlockReason m = none ∧ upload.fileSize ≤ host.maxFileSize ∧
      lengthBetween upload.originalName 1 255 = true ∧
      has (host.resolveMemberPerms m false channelId) sendMessages = true ∧
      moment.admitted = true ∧ upload.declaredHash = file.hash ∧ ¬upload.Carries K file.hash
  | .download _ => False
  | .sendMessage channelId content _ attachmentIds =>
    host.contentBlockReason m = none ∧
      (host.expireTimeout m moment.nowMs).checkPost m moment channelId content attachmentIds =
        .ok () ∧ host.ReachesFile m fileId attachmentIds
  | .addReaction messageId _ _ =>
    host.contentBlockReason m = none ∧
      (host.expireTimeout m moment.nowMs).requireNotTimedOut m moment.nowMs = .ok () ∧
      messageId ∈ gone
  | .submitEvent event =>
    host.LogPasses K moment event ∧ ∃ target x,
      (deletedTarget event = some target ∨
        ∃ p, event.core.payload = .messageEditedE2ee p ∧ p.target = target) ∧
      host.db.rowOfHash target = some x ∧ x.1 ∈ gone

end Host

/-! ## Files of the second state -/

section

variable {fileId : ℕ} {file : FileRow} {files files' : Table FileRow}

theorem FilesWithout.file_none (h : FilesWithout files fileId files') :
    files'.get? fileId = none := by
  have hnone := h fileId
  rwa [if_pos rfl, Option.map_eq_none_iff] at hnone

theorem FilesWithout.mem (h : FilesWithout files fileId files') {x : ℕ × FileRow}
    (hx : x ∈ files') :
    x.1 ≠ fileId ∧ ∃ row, (x.1, row) ∈ files ∧ uncounted row = uncounted x.2 := by
  have hget : files'.get? x.1 = some x.2 := Table.get?_eq_some.mpr hx
  have hsame := h x.1
  rw [hget, Option.map_some] at hsame
  split_ifs at hsame with hid
  obtain ⟨row, hrow, heq⟩ := Option.map_eq_some_iff.mp hsame.symm
  exact ⟨hid, row, Table.get?_eq_some.mp hrow, heq⟩

theorem FilesWithout.mem_of_ne (h : FilesWithout files fileId files') {x : ℕ × FileRow}
    (hx : x ∈ files) (hne : x.1 ≠ fileId) :
    ∃ row, (x.1, row) ∈ files' ∧ uncounted row = uncounted x.2 := by
  have hsame := h x.1
  rw [if_neg hne, Table.get?_eq_some.mpr hx, Option.map_some] at hsame
  obtain ⟨row, hrow, heq⟩ := Option.map_eq_some_iff.mp hsame
  exact ⟨row, Table.get?_eq_some.mp hrow, heq⟩

theorem uncounted_eq {r r' : FileRow} (h : uncounted r = uncounted r') : r.hash = r'.hash ∧
    r.uploadedBy = r'.uploadedBy ∧ r.redactedBy = r'.redactedBy ∧
    r.originalName = r'.originalName ∧ r.media = r'.media := by
  simp only [uncounted, FileRow.mk.injEq] at h
  tauto

end

theorem expireTimeout_withoutFile {fileId nowMs : ℕ} {hash : String} {gone : Finset ℕ}
    {files : Table FileRow} (pk : PublicKey) :
    (host.withoutFile fileId hash gone files).expireTimeout pk nowMs =
      (host.expireTimeout pk nowMs).withoutFile fileId hash gone files := by
  unfold Host.expireTimeout Community.expireTimeout
  have hmember : (host.withoutFile fileId hash gone files).community.getMember pk =
      host.community.getMember pk := rfl
  rw [hmember]
  cases (host.community.getMember pk).bind MemberRow.timeoutUntil with
  | none => rfl
  | some untilMs =>
    by_cases hexpired : nowMs < untilMs
    · simp only [if_pos hexpired]
      rfl
    · simp only [if_neg hexpired]
      rfl

theorem commit_snd {write : Checked Host} {answer : Host → Checked Answer} :
    (host.commit write answer).2 = write >>= answer := by
  cases write <;> rfl

/-- A hash that is known is enough; else the bytes must be there, and have it. -/
def Db.checkStored (K : Crypto) (db : Db) (upload : Upload) : Checked Unit :=
  if (db.fileByHash upload.declaredHash).isSome then .ok ()
  else do
    ensure (upload.fileSize ≤ upload.bytes.length) "stream closed before all bytes received"
    let computed := K.sha256Hex (upload.bytes.take upload.fileSize)
    ensure (computed = upload.declaredHash)
      s!"hash mismatch: declared {upload.declaredHash} but computed {computed}"

theorem storeUpload_checks {upload : Upload} :
    (fun _ => ()) <$> host.storeUpload K m moment upload = host.db.checkStored K upload := by
  unfold Host.storeUpload Db.checkStored
  by_cases hknown : (host.db.fileByHash upload.declaredHash).isSome = true
  · rw [if_pos hknown, if_pos hknown]
    rfl
  · rw [if_neg hknown, if_neg hknown]
    rw [Option.not_isSome_iff_eq_none] at hknown
    simp only [map_bind, Functor.map_map, storeOrReuseFromTempFile, hknown]
    refine bind_congr fun _ => ?_
    by_cases hhash : K.sha256Hex (upload.bytes.take upload.fileSize) = upload.declaredHash
    · simp [ensure, hhash]
    · simp [ensure, hhash]

def Host.checkUpload (host : Host) (m : PublicKey) (moment : Moment) (channelId : ℕ)
    (upload : Upload) : Checked Unit := do
  match host.contentBlockReason m with
  | some reason => .error (.rejected s!"auxiliary stream denied: {reason}")
  | none => do
    ensure (upload.fileSize ≤ host.maxFileSize) s!"file too large (max {host.maxFileSize} bytes)"
    ensure (lengthBetween upload.originalName 1 255) "invalid file name"
    host.requirePerm m false channelId sendMessages "SEND_MESSAGES"
    ensure moment.admitted "upload rate limit exceeded — please slow down"

theorem answer_upload {channelId : ℕ} {upload : Upload} :
    host.answer K moment ((FileRequest.upload channelId upload).op m) = do
      host.checkUpload m moment channelId upload
      host.db.checkStored K upload
      return .other := by
  simp only [Host.answer, FileRequest.op, Host.perform, Host.auxiliary, Host.checkUpload]
  cases host.contentBlockReason m with
  | some reason => rfl
  | none =>
    simp only [Host.upload, commit_snd, ← @storeUpload_checks K host m moment upload, bind_assoc,
      map_bind, bind_map_left]
    rfl

theorem checkUpload_eq_ok {channelId : ℕ} {upload : Upload} :
    host.checkUpload m moment channelId upload = .ok () ↔ host.contentBlockReason m = none ∧
      upload.fileSize ≤ host.maxFileSize ∧ lengthBetween upload.originalName 1 255 = true ∧
      has (host.resolveMemberPerms m false channelId) sendMessages = true ∧
      moment.admitted = true := by
  unfold Host.checkUpload
  cases host.contentBlockReason m with
  | some reason => simp
  | none => simp [Host.requirePerm, bind_eq_ok, ensure_eq_ok]

section

variable {fileId : ℕ} {file : FileRow} {gone : Finset ℕ}

theorem fileByHash_isSome {db : Db} {hash : String} :
    (db.fileByHash hash).isSome = true ↔ ∃ x ∈ db.files, x.2.hash = hash := by
  rw [Option.isSome_iff_ne_none, Ne, fileByHash, Table.find?_eq_none]
  simp

/-- Without a file, another hash finds what it found. -/
theorem fileByHash_withoutFile {files : Table FileRow} {hash : String} (hkeyed : host.db.Keyed K)
    (hstored : (fileId, file) ∈ host.db.files) (hfiles : FilesWithout host.db.files fileId files) :
    ((host.db.withoutFile fileId file.hash gone files).fileByHash hash).isSome = true ↔
      hash ≠ file.hash ∧ (host.db.fileByHash hash).isSome := by
  rw [fileByHash_isSome, fileByHash_isSome]
  constructor
  · rintro ⟨x, hx, hhash⟩
    obtain ⟨hne, row, hrow, heq⟩ := hfiles.mem hx
    have hsame := (uncounted_eq heq).1.trans hhash
    refine ⟨fun hfile => hne ?_, (x.1, row), hrow, hsame⟩
    exact congrArg Prod.fst (hkeyed.files _ hrow _ hstored nofun
      (congrArg some (hsame.trans hfile)) :)
  · rintro ⟨hne, x, hx, hhash⟩
    have hid : x.1 ≠ fileId := by
      rintro rfl
      exact hne (hhash.symm.trans (congrArg FileRow.hash (Table.row_eq hx hstored)))
    obtain ⟨row, hrow, heq⟩ := hfiles.mem_of_ne hx hid
    exact ⟨(x.1, row), hrow, (uncounted_eq heq).1.trans hhash⟩

theorem upload_same_iff {channelId : ℕ} {upload : Upload} (hkeyed : host.db.Keyed K)
    (hdiffers : DiffersInFile m fileId file gone host host') :
    host.answer K moment ((FileRequest.upload channelId upload).op m) =
        host'.answer K moment ((FileRequest.upload channelId upload).op m) ↔
      ¬host.Reveals K m moment fileId file gone (.upload channelId upload) := by
  obtain ⟨files, hfiles, rfl⟩ := hdiffers.without
  have hcheck : (host.withoutFile fileId file.hash gone files).checkUpload m moment channelId
      upload = host.checkUpload m moment channelId upload := rfl
  rw [answer_upload, answer_upload, hcheck, bind_eq_bind_iff]
  have hstored : (host.db.fileByHash file.hash).isSome = true :=
    fileByHash_isSome.mpr ⟨_, hdiffers.stored, rfl⟩
  have hsame : host.db.checkStored K upload =
      (host.db.withoutFile fileId file.hash gone files).checkStored K upload ↔
        ¬(upload.declaredHash = file.hash ∧ ¬upload.Carries K file.hash) := by
    unfold Db.checkStored Upload.Carries
    simp only [fileByHash_withoutFile hkeyed hdiffers.stored hfiles]
    by_cases hdeclared : upload.declaredHash = file.hash
    · rw [hdeclared, if_pos hstored, if_neg (by simp), eq_comm]
      simp [bind_eq_ok, ensure_eq_ok]
    · simp [hdeclared]
  constructor
  · rintro h ⟨hgate, hsize, hname, hperm, hadmitted, hreveals⟩
    exact hsame.mp (then_eq_iff.mp
      (h () (checkUpload_eq_ok.mpr ⟨hgate, hsize, hname, hperm, hadmitted⟩))) hreveals
  · intro h a ha
    obtain ⟨hgate, hsize, hname, hperm, hadmitted⟩ := checkUpload_eq_ok.mp ha
    exact then_eq_iff.mpr
      (hsame.mpr fun hreveals => h ⟨hgate, hsize, hname, hperm, hadmitted, hreveals⟩)

theorem answer_download {k : ℕ} : host.answer K moment ((FileRequest.download k).op m) =
    match host.contentBlockReason m with
    | some reason => .error (.rejected s!"auxiliary stream denied: {reason}")
    | none => (fun a => a.response.shown) <$> host.download m false k := by
  simp only [Host.answer, FileRequest.op, Host.perform, Host.auxiliary]
  cases host.contentBlockReason m <;> rfl

theorem mem_carriers {db : Db} {k channelId : ℕ} : channelId ∈ (host.withDb db).carriers k ↔
    ∃ a ∈ db.attachments, a.2.fileId = k ∧ ∃ row, (a.2.messageId, row) ∈ db.messages ∧
      row.channelId = channelId := by
  simp only [Host.carriers, Host.withDb, List.mem_filterMap, Table.mem_def]
  constructor
  · rintro ⟨a, ha, hid⟩
    split_ifs at hid with hk
    obtain ⟨row, hrow, hchannel⟩ := Option.map_eq_some_iff.mp hid
    exact ⟨a, ha, hk, row, Table.get?_eq_some.mp hrow, hchannel⟩
  · rintro ⟨a, ha, hk, row, hrow, hchannel⟩
    refine ⟨a, ha, ?_⟩
    rw [if_pos hk, Table.get?_eq_some.mpr hrow, Option.map_some, hchannel]

theorem mem_carriers_withoutFile {files : Table FileRow} {hash : String} {k channelId : ℕ} :
    channelId ∈ (host.withoutFile fileId hash gone files).carriers k ↔
      ∃ a ∈ host.db.attachments, a.2.fileId = k ∧ a.2.fileId ≠ fileId ∧ a.2.messageId ∉ gone ∧
        ∃ row, (a.2.messageId, row) ∈ host.db.messages ∧ row.channelId = channelId := by
  refine mem_carriers.trans ?_
  simp only [Db.withoutFile, Table.mem_delete, decide_eq_false_iff_not, not_or]
  constructor
  · rintro ⟨a, ⟨ha, hne, hgone⟩, hk, row, ⟨hrow, -⟩, hchannel⟩
    exact ⟨a, ha, hk, hne, hgone, row, hrow, hchannel⟩
  · rintro ⟨a, ha, hk, hne, hgone, row, hrow, hchannel⟩
    exact ⟨a, ⟨ha, hne, hgone⟩, hk, row, ⟨hrow, hgone⟩, hchannel⟩

theorem hidden_gone (hdiffers : DiffersInFile m fileId file gone host host') {id : ℕ}
    {row : MessageRow} (hrow : (id, row) ∈ host.db.messages) (hid : id ∈ gone) :
    host.mayRead m row.channelId = false := by
  obtain ⟨a, ha, rfl, hk⟩ := (hdiffers.carry id hid).1
  exact hdiffers.hidden _ (mem_carriers.mpr ⟨a, ha, hk, row, hrow, rfl⟩)

theorem carried_iff (hdiffers : DiffersInFile m fileId file gone host host') {k : ℕ}
    (hne : k ≠ fileId) : (∃ id ∈ host'.carriers k, host'.mayRead m id = true) ↔
      ∃ id ∈ host.carriers k, host.mayRead m id = true := by
  obtain ⟨files, hfiles, rfl⟩ := hdiffers.without
  have hreads : ∀ id, (host.withoutFile fileId file.hash gone files).mayRead m id =
      host.mayRead m id := fun _ => rfl
  simp only [hreads, mem_carriers_withoutFile]
  constructor
  · rintro ⟨id, ⟨a, ha, hk, -, -, row, hrow, hchannel⟩, hread⟩
    exact ⟨id, mem_carriers.mpr ⟨a, ha, hk, row, hrow, hchannel⟩, hread⟩
  · rintro ⟨id, hcarrier, hread⟩
    obtain ⟨a, ha, hk, row, hrow, hchannel⟩ := mem_carriers.mp hcarrier
    refine ⟨id, ⟨a, ha, hk, hk ▸ hne, fun hgone => ?_, row, hrow, hchannel⟩, hread⟩
    have hhidden := hidden_gone hdiffers hrow hgone
    simp [hchannel, hread] at hhidden

theorem download_refused {k : ℕ} (h : ∀ file, host.db.files.get? k = some file →
      file.redactedBy = none → ∀ id ∈ host.carriers k, host.mayRead m id = false) :
    host.download m false k = .error (.rejected "not available") := by
  unfold Host.download
  cases hfile : host.db.files.get? k with
  | none => rfl
  | some file =>
    by_cases hredacted : file.redactedBy = none
    · have hdenied : ¬∃ id ∈ host.carriers k, host.mayRead m id = true := by
        rintro ⟨id, hid, hread⟩
        simp [h file hfile hredacted id hid] at hread
      have hensure : ¬(false = true ∨ ∃ id ∈ host.carriers k,
          has (host.resolveMemberPerms m false id) (viewChannel ||| readMessages) = true) := by
        rintro (hfalse | hread)
        · exact absurd hfalse (by simp)
        · exact hdenied hread
      simp only [context, ensure, if_pos hredacted, if_neg hensure, bind, Except.bind]
    · simp only [context, ensure, if_neg hredacted, bind, Except.bind]

theorem lookup_removeBlob {db : Db} {hash k : String} (hne : k ≠ hash) :
    (db.removeBlob hash).blobs.lookup k = db.blobs.lookup k := by
  simp only [removeBlob]
  induction db.blobs with
  | nil => rfl
  | cons b blobs ih =>
    obtain ⟨name, bytes⟩ := b
    by_cases hb : name = hash
    · have hother : (k == name) = false := by simpa [hb] using hne
      rw [List.filter_cons_of_neg (by simp [hb]), ih, List.lookup_cons, hother]
    · rw [List.filter_cons_of_pos (by simpa using hb), List.lookup_cons, List.lookup_cons, ih]

theorem shown_download {k : ℕ} : (fun a => a.response.shown) <$> host.download m false k = do
    let file ← context ((host.db.files.get? k).map uncounted) "not available"
    ensure (file.redactedBy = none) "not available"
    ensure (∃ id ∈ host.carriers k, host.mayRead m id = true) "not available"
    let bytes ← context (host.db.blobs.lookup file.hash) "No such file or directory"
    return .file file bytes := by
  unfold Host.download
  cases host.db.files.get? k with
  | none => rfl
  | some file =>
    simp only [map_bind, Option.map_some, context, Host.mayRead, Bool.false_eq_true, false_or]
    rfl

theorem download_same (hkeyed : host.db.Keyed K)
    (hdiffers : DiffersInFile m fileId file gone host host') {k : ℕ} :
    host.answer K moment ((FileRequest.download k).op m) =
      host'.answer K moment ((FileRequest.download k).op m) := by
  have hsame : (fun a => a.response.shown) <$> host.download m false k =
      (fun a => a.response.shown) <$> host'.download m false k := by
    by_cases hk : k = fileId
    · subst hk
      rw [download_refused fun _ _ _ => hdiffers.hidden, download_refused fun file' hfile' => ?_]
      obtain ⟨files, hfiles, rfl⟩ := hdiffers.without
      cases hfiles.file_none.symm.trans hfile'
    · have hreach := carried_iff hdiffers hk
      obtain ⟨files, hfiles, rfl⟩ := hdiffers.without
      have hget := hfiles k
      rw [if_neg hk] at hget
      simp only [shown_download, hreach]
      have hdb : (host.withoutFile fileId file.hash gone files).db.files = files := rfl
      rw [hdb, hget]
      cases hrow : host.db.files.get? k with
      | none => rfl
      | some row =>
        have hhash : row.hash ≠ file.hash := fun heq => hk (congrArg Prod.fst
          (hkeyed.files _ (Table.get?_eq_some.mp hrow) _ hdiffers.stored (Option.some_ne_none _)
            (congrArg some heq)) :)
        have hblob : (host.withoutFile fileId file.hash gone files).db.blobs.lookup row.hash =
            host.db.blobs.lookup row.hash := lookup_removeBlob hhash
        simp only [Option.map_some, context, bind, Except.bind, uncounted, hblob]
  obtain ⟨files, hfiles, heq⟩ := hdiffers.without
  have hgate : host'.contentBlockReason m = host.contentBlockReason m := heq ▸ rfl
  rw [answer_download, answer_download, hgate, hsame]

def Db.checkAttachable (db : Db) (m : PublicKey) (k : ℕ) : Checked Unit := do
  let row ← context (db.files.get? k) s!"attachment file_id {k} not found"
  ensure (row.uploadedBy = m) "cannot attach files uploaded by another member"

theorem checkAttachable_eq_ok {db : Db} {k : ℕ} :
    db.checkAttachable m k = .ok () ↔ ∃ row, (k, row) ∈ db.files ∧ row.uploadedBy = m := by
  simp [Db.checkAttachable, bind_eq_ok, context_eq_ok, ensure_eq_ok, Table.get?_eq_some]

theorem checkAttachable_congr {db db' : Db} {k : ℕ}
    (h : (db'.files.get? k).map uncounted = (db.files.get? k).map uncounted) :
    db'.checkAttachable m k = db.checkAttachable m k := by
  unfold Db.checkAttachable
  cases hrow : db.files.get? k with
  | none =>
    rw [hrow, Option.map_none, Option.map_eq_none_iff] at h
    rw [h]
  | some row =>
    rw [hrow, Option.map_some] at h
    obtain ⟨row', hrow', heq⟩ := Option.map_eq_some_iff.mp h
    simp only [hrow', context, bind, Except.bind, (uncounted_eq heq).2.1]

theorem checkAttachable_create {db : Db} {messageId fileId position k : ℕ} {name : String}
    {media : MediaInfo} :
    (db.createMessageAttachment messageId fileId position name media).checkAttachable m k =
      db.checkAttachable m k := by
  refine checkAttachable_congr ?_
  simp only [createMessageAttachment, incrementRefCount, Table.modify, Table.get?_map,
    Option.map_map]
  congr 1
  funext row
  simp only [Function.comp_apply]
  split_ifs <;> rfl

theorem attachFiles_checks {messageId : ℕ} {files : List (ℕ × ℕ)} :
    (host.attachFiles m false messageId files).2 =
      forAll files fun x => host.db.checkAttachable m x.1 := by
  induction files generalizing host with
  | nil => rfl
  | cons x files ih =>
    simp only [Host.attachFiles, forAll]
    have hcheck : (fun _ => ()) <$> (do
        let file ← context (host.db.files.get? x.1) s!"attachment file_id {x.1} not found"
        ensure (file.uploadedBy = m ∨ false = true)
          "cannot attach files uploaded by another member"
        return file : Checked FileRow) = host.db.checkAttachable m x.1 := by
      simp [Db.checkAttachable]
    rw [← hcheck]
    split
    · next failure hfailure =>
      rw [hfailure]
      rfl
    · next file hfile =>
      rw [hfile]
      refine ih.trans ?_
      have hsame : ∀ k, (host.withDb (host.db.createMessageAttachment messageId x.1 x.2
          file.originalName file.media)).db.checkAttachable m k = host.db.checkAttachable m k :=
        fun _ => checkAttachable_create
      simp only [hsame]
      rfl

theorem postMessage_checks {channelId : ℕ} {content : String} {replyTo : Option ℕ}
    {attachmentIds : List ℕ} :
    host.postMessage m false moment channelId content replyTo attachmentIds =
      host.checkPost m moment channelId content attachmentIds >>= fun _ =>
        host.withDb <$> host.db.insertMessage channelId m content replyTo moment.now := by
  simp only [Host.postMessage, Host.checkPost, bind_assoc]

theorem insertMessage_files {db db' : Db} {channelId now : ℕ} {author : PublicKey}
    {content : String} {replyTo : Option ℕ}
    (h : db.insertMessage channelId author content replyTo now = .ok db') :
    db'.files = db.files := by
  rw [insertMessage_eq h]

theorem resolve_of_checkPost {channelId : ℕ} {content : String} {attachmentIds : List ℕ}
    (h : host.checkPost m moment channelId content attachmentIds = .ok ()) :
    host.db.resolve channelId = .plaintext := by
  simp only [Host.checkPost, Host.requirePlaintextChannel, bind_eq_ok, ensure_eq_ok] at h
  obtain ⟨-, -, -, hclass, -⟩ := h
  exact hclass

theorem answer_sendMessage {channelId : ℕ} {content : String} {replyTo : Option ℕ}
    {attachmentIds : List ℕ} : host.answer K moment
      ((FileRequest.sendMessage channelId content replyTo attachmentIds).op m) =
    match host.contentBlockReason m with
    | some reason => .error (.rejected reason)
    | none => do
      (host.expireTimeout m moment.nowMs).checkPost m moment channelId content attachmentIds
      forAll attachmentIds (host.db.checkAttachable m)
      return .messageSent host.db.messages.next moment.now := by
  simp only [Host.answer, FileRequest.op, Host.perform, Host.handleRequest,
    Request.requiresMembership, if_true]
  cases host.contentBlockReason m with
  | some reason => rfl
  | none =>
    simp only [Host.dispatch, Host.handleMessageRequest, Host.sendMessage]
    have hpost := @postMessage_checks (host.expireTimeout m moment.nowMs) m moment channelId
      content replyTo attachmentIds
    cases hcheck : (host.expireTimeout m moment.nowMs).checkPost m moment channelId content
        attachmentIds with
    | error failure =>
      rw [hpost, hcheck]
      rfl
    | ok _ =>
      obtain ⟨db, hinsert⟩ := insertMessage_exists m content replyTo moment.now
        (resolve_of_checkPost hcheck)
      let posted := (host.expireTimeout m moment.nowMs).withDb db
      have hposted : (host.expireTimeout m moment.nowMs).postMessage m false moment channelId
          content replyTo attachmentIds = .ok posted := by
        rw [hpost, hcheck]
        exact map_eq_ok.mpr ⟨db, hinsert, rfl⟩
      have hmessages : posted.db.messages = host.db.messages.insert
          ⟨channelId, m, content, moment.now, none, replyTo, none, none, false⟩ :=
        insertMessage_messages hinsert
      have hfiles : posted.db.files = host.db.files := insertMessage_files hinsert
      have hattached : (posted.attachFiles m false host.db.messages.next attachmentIds.zipIdx).2 =
          forAll attachmentIds (host.db.checkAttachable m) := by
        have hchecks : posted.db.checkAttachable m = host.db.checkAttachable m :=
          funext fun k => checkAttachable_congr (by rw [hfiles])
        rw [attachFiles_checks, ← @forAll_map _ _ Prod.fst, hchecks, List.zipIdx_map_fst]
      have hrow : (posted.attachFiles m false host.db.messages.next
          attachmentIds.zipIdx).1.db.messages.get? host.db.messages.next =
            some ⟨channelId, m, content, moment.now, none, replyTo, none, none, false⟩ := by
        rw [Host.attachFiles_messages, hmessages, Table.get?_eq_some]
        exact Table.mem_insert.mpr (.inr rfl)
      have hnext : (host.expireTimeout m moment.nowMs).db.messages.next = host.db.messages.next :=
        rfl
      simp only [hposted, hnext, hattached, Host.getMessage, hrow]
      cases forAll attachmentIds (host.db.checkAttachable m) <;> rfl

/-- A file that is somebody else's is refused in another way than one that is not there. -/
theorem attachable_same_iff (hdiffers : DiffersInFile m fileId file gone host host')
    (huploader : file.uploadedBy ≠ m) {ids : List ℕ} :
    forAll ids (host.db.checkAttachable m) = forAll ids (host'.db.checkAttachable m) ↔
      ¬host.ReachesFile m fileId ids := by
  obtain ⟨files, hfiles, rfl⟩ := hdiffers.without
  have hdb : (host.withoutFile fileId file.hash gone files).db.files = files := rfl
  induction ids with
  | nil =>
    refine iff_of_true rfl ?_
    rintro ⟨before, after, heq, -⟩
    simp at heq
  | cons k ids ih =>
    by_cases hk : k = fileId
    · subst hk
      have hstored : host.db.checkAttachable m k =
          .error (.rejected "cannot attach files uploaded by another member") := by
        simp [Db.checkAttachable, Table.get?_eq_some.mpr hdiffers.stored, context, ensure,
          huploader, bind, Except.bind]
      have hmissing : (host.withoutFile k file.hash gone files).db.checkAttachable m k =
          .error (.rejected s!"attachment file_id {k} not found") := by
        simp [Db.checkAttachable, hdb, hfiles.file_none, context, bind, Except.bind]
      refine iff_of_false ?_ (not_not.mpr ⟨[], ids, rfl, by simp⟩)
      rw [forAll, forAll, hstored, hmissing]
      intro heq
      have htext := Failure.rejected.inj (Except.error.inj heq)
      rw [String.append_assoc] at htext
      exact @append_ne _ _ _ 0 (by decide) (by decide) htext.symm
    · have hcheck : (host.withoutFile fileId file.hash gone files).db.checkAttachable m k =
          host.db.checkAttachable m k := by
        refine checkAttachable_congr ?_
        rw [hdb, hfiles k, if_neg hk]
      rw [forAll, forAll, hcheck, bind_eq_bind_iff]
      constructor
      · rintro hsame ⟨before, after, heq, hown⟩
        cases before with
        | nil => exact hk (List.cons.inj heq).1
        | cons k' before =>
          obtain ⟨rfl, rfl⟩ := List.cons.inj heq
          have hok := checkAttachable_eq_ok.mpr (hown k (by simp))
          exact ih.mp (hsame () hok) ⟨before, after, rfl, fun id hid => hown id (by simp [hid])⟩
      · intro hreach a ha
        refine ih.mpr ?_
        rintro ⟨before, after, heq, hown⟩
        refine hreach ⟨k :: before, after, ?_, ?_⟩
        · rw [heq]
          rfl
        · intro id hid
          rcases List.mem_cons.mp hid with rfl | hid
          · exact checkAttachable_eq_ok.mp ha
          · exact hown id hid

theorem sendMessage_same_iff (hdiffers : DiffersInFile m fileId file gone host host')
    (huploader : file.uploadedBy ≠ m) {channelId : ℕ} {content : String} {replyTo : Option ℕ}
    {attachmentIds : List ℕ} :
    host.answer K moment
        ((FileRequest.sendMessage channelId content replyTo attachmentIds).op m) =
      host'.answer K moment
        ((FileRequest.sendMessage channelId content replyTo attachmentIds).op m) ↔
      ¬host.Reveals K m moment fileId file gone
        (.sendMessage channelId content replyTo attachmentIds) := by
  have hattached := @attachable_same_iff host host' m fileId file gone hdiffers huploader
    attachmentIds
  obtain ⟨files, hfiles, rfl⟩ := hdiffers.without
  have hgate : (host.withoutFile fileId file.hash gone files).contentBlockReason m =
      host.contentBlockReason m := rfl
  have hpost : ((host.withoutFile fileId file.hash gone files).expireTimeout m
      moment.nowMs).checkPost m moment channelId content attachmentIds =
        (host.expireTimeout m moment.nowMs).checkPost m moment channelId content attachmentIds := by
    rw [expireTimeout_withoutFile]
    rfl
  have hnext : (host.withoutFile fileId file.hash gone files).db.messages.next =
      host.db.messages.next := rfl
  rw [answer_sendMessage, answer_sendMessage, hgate, hpost, hnext]
  unfold Host.Reveals
  cases hblocked : host.contentBlockReason m with
  | some reason => simp
  | none =>
    simp only [true_and]
    rw [bind_eq_bind_iff]
    constructor
    · rintro h ⟨hcheck, hreach⟩
      exact hattached.mp (then_eq_iff.mp (h () hcheck)) hreach
    · intro h a ha
      exact then_eq_iff.mpr (hattached.mpr fun hreach => h ⟨ha, hreach⟩)

def Host.checkReactable (host : Host) (m : PublicKey) (messageId : ℕ) (emoji : String)
    (reactionFile : Option ℕ) (row : MessageRow) : Checked Unit := do
  host.requirePerm m false row.channelId readMessages "READ_MESSAGES"
  host.requirePlaintextChannel m row.channelId
  host.db.checkReaction messageId emoji reactionFile

theorem answer_addReaction {messageId : ℕ} {emoji : String} {reactionFile : Option ℕ} :
    host.answer K moment ((FileRequest.addReaction messageId emoji reactionFile).op m) =
    match host.contentBlockReason m with
    | some reason => .error (.rejected reason)
    | none => do
      (host.expireTimeout m moment.nowMs).requireNotTimedOut m moment.nowMs
      let row ← context (host.db.messages.get? messageId) "message not found"
      (host.expireTimeout m moment.nowMs).checkReactable m messageId emoji reactionFile row
      return .ok := by
  simp only [Host.answer, FileRequest.op, Host.perform, Host.handleRequest,
    Request.requiresMembership, if_true]
  cases host.contentBlockReason m with
  | some reason => rfl
  | none =>
    simp only [Host.dispatch, Host.handleMessageRequest, Host.addReaction, commit_snd,
      Host.checkReactable, Db.addReaction, map_bind, bind_pure_comp, Functor.map_map]
    rfl

theorem checkReactable_found {messageId : ℕ} {emoji : String} {reactionFile : Option ℕ}
    {row : MessageRow} : ¬Says "message not found"
      (host.checkReactable m messageId emoji reactionFile row) := by
  have hplain : (if host.connectionSpeaksV2 m then e2eeRefused else upgradeRequired) ≠
      "message not found" := by
    split_ifs <;> simp [e2eeRefused, upgradeRequired]
  have hperm : (let permName := "READ_MESSAGES"; s!"missing {permName} permission") ≠
      "message not found" := by decide
  simp [Host.checkReactable, Host.requirePerm, Host.requirePlaintextChannel, Db.checkReaction,
    hplain, hperm]

theorem checkReactable_withoutFile {messageId : ℕ} {emoji hash : String}
    {reactionFile : Option ℕ} {row : MessageRow} {files : Table FileRow}
    (hid : messageId ∉ gone) :
    (host.withoutFile fileId hash gone files).checkReactable m messageId emoji reactionFile row =
      host.checkReactable m messageId emoji reactionFile row := by
  have hreactions : (host.withoutFile fileId hash gone files).db.reactions.filter
      (fun r => r.messageId = messageId) = host.db.reactions.filter fun r =>
        r.messageId = messageId := by
    show (host.db.reactions.filter _).filter _ = _
    rw [List.filter_filter]
    refine List.filter_congr fun r _ => ?_
    by_cases hr : r.messageId = messageId
    · simp [hr, hid]
    · simp [hr]
  have hgroups : (host.withoutFile fileId hash gone files).db.reactionGroups messageId =
      host.db.reactionGroups messageId := by
    unfold reactionGroups
    rw [hreactions]
  unfold Host.checkReactable Db.checkReaction
  rw [hgroups]
  rfl

theorem addReaction_same_iff (hdiffers : DiffersInFile m fileId file gone host host')
    {messageId : ℕ} {emoji : String} {reactionFile : Option ℕ} :
    host.answer K moment ((FileRequest.addReaction messageId emoji reactionFile).op m) =
      host'.answer K moment ((FileRequest.addReaction messageId emoji reactionFile).op m) ↔
      ¬host.Reveals K m moment fileId file gone (.addReaction messageId emoji reactionFile) := by
  have hcarry := hdiffers.carry messageId
  obtain ⟨files, hfiles, rfl⟩ := hdiffers.without
  have hgate : (host.withoutFile fileId file.hash gone files).contentBlockReason m =
      host.contentBlockReason m := rfl
  have hget : (host.withoutFile fileId file.hash gone files).db.messages.get? messageId =
      if messageId ∈ gone then none else host.db.messages.get? messageId := by
    refine (Table.get?_delete _).trans ?_
    cases host.db.messages.get? messageId <;> simp [Option.filter]
  have htimeout : ((host.expireTimeout m moment.nowMs).withoutFile fileId file.hash gone
      files).requireNotTimedOut m moment.nowMs =
        (host.expireTimeout m moment.nowMs).requireNotTimedOut m moment.nowMs := rfl
  rw [answer_addReaction, answer_addReaction, hgate, hget, expireTimeout_withoutFile, htimeout]
  unfold Host.Reveals
  cases hblocked : host.contentBlockReason m with
  | some reason => simp
  | none =>
    simp only [true_and]
    rw [bind_eq_bind_iff]
    by_cases hid : messageId ∈ gone
    · obtain ⟨row, hrow⟩ := (hcarry hid).2
      rw [Table.get?_eq_some.mpr hrow, if_pos hid]
      refine ⟨fun hsame ⟨htime, _⟩ => ?_, fun h a ha => absurd ⟨ha, hid⟩ h⟩
      -- Only where the row is missing, the answer says so.
      have hmissing : Says "message not found" (do
          let row ← context (some row) "message not found"
          (host.expireTimeout m moment.nowMs).checkReactable m messageId emoji reactionFile row
          return Response.ok) := by
        rw [hsame () htime]
        rfl
      simp [checkReactable_found] at hmissing
    · rw [if_neg hid]
      refine iff_of_true (fun _ _ => ?_) (fun h => hid h.2)
      cases host.db.messages.get? messageId with
      | none => rfl
      | some row =>
        simp only [context, checkReactable_withoutFile hid]

theorem answer_submitEvent {event : Event} :
    host.answer K moment ((FileRequest.submitEvent event).op m) = do
      let ls ← context host.server.logState "server is not running the event log (no genesis yet)"
      prefixed "event rejected: " (checkIngestCapsAt event moment.now)
      checkEpochClaim ls event.core.payload
      let _ ← prefixed "event rejected: " (ls.apply K event)
      host.db.checkPosted event
      (fun _ => ()) <$> host.db.ingest K event
      return .eventAccepted (event.hash K) event.core.timestamp := by
  have hanswer : host.answer K moment ((FileRequest.submitEvent event).op m) =
      (fun _ => .eventAccepted (event.hash K) event.core.timestamp) <$>
        host.server.submitEvent K event moment.now := by
    simp only [Host.answer, FileRequest.op, Host.perform, Host.handleRequest,
      Request.requiresMembership, Bool.false_eq_true, if_false, Host.dispatch, Host.submitEvent]
    cases host.server.submitEvent K event moment.now <;> rfl
  rw [hanswer, ServerState.submitEvent]
  simp only [map_bind, bind_map_left]
  rfl

theorem rowOfHash_withoutFile {hash : String} {files : Table FileRow} {target : EventHash}
    (hkeyed : host.db.Keyed K) : (host.db.withoutFile fileId hash gone files).rowOfHash target =
      (host.db.rowOfHash target).filter fun x => x.1 ∉ gone := by
  have hposts : (host.db.withoutFile fileId hash gone files).messages.UniqueIndex
      MessageRow.eventHash := hkeyed.posts.delete
  cases hrow : host.db.rowOfHash target with
  | none =>
    have hnone := Table.find?_eq_none.mp hrow
    exact Table.find?_eq_none.mpr fun x hx => hnone x (Table.mem_delete.mp hx).1
  | some x =>
    obtain ⟨hx, hhash⟩ := Table.find?_mem hrow
    have hhash : x.2.eventHash = some target := by simpa using hhash
    by_cases hgone : x.1 ∈ gone
    · simp only [Option.filter, hgone, not_true_eq_false, decide_false]
      refine Table.find?_eq_none.mpr fun y hy => ?_
      obtain ⟨hy, hkept⟩ := Table.mem_delete.mp hy
      by_contra hsame
      have hsame : y.2.eventHash = some target := by simpa using hsame
      obtain rfl := hkeyed.posts y hy x hx (hsame ▸ nofun) (hsame.trans hhash.symm)
      simp [hgone] at hkept
    · simp only [Option.filter, hgone, not_false_eq_true, decide_true]
      exact hposts.find? (Table.mem_delete.mpr ⟨hx, by simpa using hgone⟩) hhash

/-! ### What the transaction of an event is checked for -/

section

variable {db : Db} {event : Event}

theorem ingest_of_new (hnew : ∀ e ∈ db.events, e.hash K ≠ event.hash K) :
    db.ingest K event = (do
      let db ← prefixed "event rejected: "
        (Db.materializeChannelCreated { db with events := db.events ++ [event] } event)
      let (db, derivedId) ← prefixed "failed to derive message: " (db.deriveMessageRow K event)
      let db := (db.attachDerived event derivedId).redactAttachment event
      let db ← prefixed "event rejected: " (db.applySealedEdit event)
      prefixed "event rejected: " (db.applyTombstone event)) := by
  have hstore : db.storeEvent K event = .ok { db with events := db.events ++ [event] } := by
    rw [storeEvent, ensure, if_pos hnew]
    rfl
  rw [Db.ingest, hstore]
  rfl

theorem ingest_again (hstored : ¬∀ e ∈ db.events, e.hash K ≠ event.hash K) :
    db.ingest K event = .error (.rejected
      "failed to store event: UNIQUE constraint failed: events.event_hash") := by
  rw [Db.ingest, storeEvent, ensure, if_neg hstored]
  rfl

/-- The event that an edit or a tombstone cites, and what is said if it has no row. -/
def cited (event : Event) : Option (EventRef × String) :=
  match event.core.payload with
  | .messageEditedE2ee p =>
    some (p.target, "sealed edit cites a message this server has not derived")
  | .messageDeleted p => some (p.target, "tombstone cites a message this server has not derived")
  | _ => none

def Db.checkCited (db : Db) (event : Event) (row : MessageRow) : Checked Unit :=
  match event.core.payload with
  | .messageEditedE2ee p => do
    ensure (row.channelId = p.channelId) "sealed edit cites a target in a different channel"
    ensure (row.isE2ee = true) "sealed edit targets a plaintext message"
    ensure (row.author = event.core.author) "only a message's own author may edit it"
    db.requireE2ee row.channelId
  | .messageDeleted p => do
    ensure (row.channelId = p.channelId) "tombstone cites a target in a different channel"
    ensure (p.reason = .author → row.author = event.core.author)
      "an author-reason delete must be authored by the message's author"
  | _ => return ()

theorem ingest_declaration {p : ChannelCreated}
    (hnew : ∀ e ∈ db.events, e.hash K ≠ event.hash K)
    (hp : event.core.payload = .channelCreated p) : (fun _ => ()) <$> db.ingest K event =
      prefixed "event rejected: " ((fun _ => ()) <$> db.materializeChannelCreated event) := by
  rw [ingest_of_new hnew]
  simp only [deriveMessageRow, hp, applySealedEdit, applyTombstone, map_bind, prefixed_map,
    materializeChannelCreated, prefixed_pure, map_pure, bind_pure_comp, Functor.map_map]
  rfl

theorem ingest_derived {row : MessageRow} (hkeyed : db.Keyed K)
    (hnew : ∀ e ∈ db.events, e.hash K ≠ event.hash K)
    (hrow : derivedRow K event (db.view.replyRow event) = some row) :
    (fun _ => ()) <$> db.ingest K event =
      prefixed "failed to derive message: " (db.requireClass row) := by
  let stored : Db := { db with events := db.events ++ [event] }
  have hunique : ∀ x ∈ stored.messages, x.2.eventHash ≠ row.eventHash := by
    intro x hx heq
    obtain ⟨e, he, hhash⟩ := hkeyed.stored x hx _ (heq.trans (derivedRow_eventHash hrow))
    exact hnew e he hhash
  obtain ⟨db', hinsert⟩ := insertRow_exists (.inr hunique)
  have hderive : stored.deriveMessageRow K event = do
      db.requireClass row
      return (db', some db.messages.next) := by
    have hrow' : derivedRow K event (stored.view.replyRow event) = some row := hrow
    rw [deriveMessageRow_eq, hrow']
    simp only [hinsert]
    rfl
  rw [ingest_of_new hnew]
  unfold derivedRow at hrow
  split at hrow
  · next p hp =>
    simp only [materializeChannelCreated, hp, prefixed_pure, pure_bind, hderive, applySealedEdit,
      applyTombstone, map_pure, bind_pure_comp, prefixed_map, Functor.map_map, stored]
    cases db.requireClass row <;> rfl
  · next p hp =>
    simp only [materializeChannelCreated, hp, prefixed_pure, pure_bind, hderive, applySealedEdit,
      applyTombstone, map_pure, bind_pure_comp, prefixed_map, Functor.map_map, stored]
    cases db.requireClass row <;> rfl
  · simp at hrow

theorem ingest_cited {target : EventRef} {missing : String} (hlinks : db.LinksKept)
    (hnew : ∀ e ∈ db.events, e.hash K ≠ event.hash K)
    (hcited : cited event = some (target, missing)) : (fun _ => ()) <$> db.ingest K event =
      prefixed "event rejected: " (do
        let x ← context (db.rowOfHash target) missing
        db.checkCited event x.2) := by
  let stored : Db := { db with events := db.events ++ [event] }
  have hlookup : stored.rowOfHash target = db.rowOfHash target := rfl
  rw [ingest_of_new hnew]
  unfold cited at hcited
  split at hcited
  · next p hp =>
    obtain ⟨rfl, rfl⟩ := Prod.mk.inj (Option.some.inj hcited)
    simp only [deriveMessageRow, hp, applySealedEdit, applyTombstone, map_bind, prefixed_map,
      materializeChannelCreated, prefixed_pure, pure_bind, bind_pure_comp,
      attachDerived, redactAttachment, Db.checkCited, Functor.map_map]
    congr 1
    cases hrow : db.rowOfHash p.target with
    | none =>
      rw [hrow] at hlookup
      simp only [sealedEditTarget, stored] at hlookup ⊢
      rw [hlookup]
      rfl
    | some x =>
      have hget : db.messages.get? x.1 = some x.2 := Table.get?_eq_some.mpr (Table.find?_mem hrow).1
      rw [hrow] at hlookup
      simp only [sealedEditTarget, stored, updateSealedRow] at hlookup ⊢
      rw [hlookup]
      by_cases hchannel : x.2.channelId = p.channelId
      · by_cases hsealed : x.2.isE2ee = true
        · by_cases hauthor : x.2.author = event.core.author
          · have hclass : stored.requireE2ee p.channelId = db.requireE2ee p.channelId := rfl
            simp only [hchannel, hsealed, hauthor, hget, ensure, context, bind, Except.bind,
              if_true, pure, Except.pure, hclass, stored]
            cases db.requireE2ee p.channelId <;> rfl
          · simp [hchannel, hsealed, hauthor, ensure, context, bind, Except.bind]
        · simp [hchannel, hsealed, ensure, context, bind, Except.bind]
      · simp [hchannel, ensure, context, bind, Except.bind]
  · next p hp =>
    obtain ⟨rfl, rfl⟩ := Prod.mk.inj (Option.some.inj hcited)
    have hlinks' : stored.LinksKept := hlinks.congr_messages rfl rfl fun _ row hrow => ⟨row, hrow⟩
    have hdeleted : ∀ id, (fun _ => ()) <$> stored.deleteMessage id = pure () := by
      intro id
      obtain ⟨x, hdelete⟩ := @LinksKept.deleteAttachments_total stored id hlinks'
      rw [deleteMessage, hdelete]
      rfl
    simp only [deriveMessageRow, hp, applySealedEdit, applyTombstone, map_bind, prefixed_map,
      materializeChannelCreated, prefixed_pure, pure_bind, attachDerived, redactAttachment,
      Db.checkCited]
    simp only [hdeleted, stored, bind_pure_unit]
    rfl
  · simp at hcited

theorem ingest_other (hnew : ∀ e ∈ db.events, e.hash K ≠ event.hash K)
    (hdeclares : ∀ p, event.core.payload ≠ .channelCreated p)
    (hrow : derivedRow K event (db.view.replyRow event) = none) (hcited : cited event = none) :
    (fun _ => ()) <$> db.ingest K event = .ok () := by
  rw [ingest_of_new hnew]
  unfold derivedRow at hrow
  unfold cited at hcited
  cases hp : event.core.payload with
  | channelCreated p => exact absurd hp (hdeclares p)
  | messagePosted p => simp [hp] at hrow
  | messagePostedE2ee p => simp [hp] at hrow
  | messageEditedE2ee p => simp [hp] at hcited
  | messageDeleted p => simp [hp] at hcited
  | _ =>
    simp only [materializeChannelCreated, deriveMessageRow, hp, applySealedEdit, applyTombstone]
    rfl

theorem checkCited_found {target : EventRef} {missing : String} {row : MessageRow}
    (hcited : cited event = some (target, missing)) : ¬Says missing (db.checkCited event row) := by
  unfold cited at hcited
  split at hcited
  · next p hp =>
    obtain ⟨-, rfl⟩ := Prod.mk.inj (Option.some.inj hcited)
    have hclass : ∀ id : ℕ,
        s!"sealed content is only accepted in encrypted channels (channel {id})" ≠
          "sealed edit cites a message this server has not derived" := by
      intro id
      rw [String.append_assoc]
      exact @append_ne _ _ _ 7 (by decide) (by decide)
    simp only [Db.checkCited, hp, Db.requireE2ee, says_bind, says_ensure]
    rintro (h | ⟨-, -, h | ⟨-, -, h | ⟨-, -, -, h⟩⟩⟩)
    · simp at h
    · simp at h
    · simp at h
    · exact hclass _ h
  · next p hp =>
    obtain ⟨-, rfl⟩ := Prod.mk.inj (Option.some.inj hcited)
    simp [Db.checkCited, hp]
  · simp at hcited

end

section

variable {files : Table FileRow} {hash : String} {event : Event}

theorem free_of_keyed {db : Db} {channelId : ℕ} (hkeyed : db.Keyed K)
    (hfree : db.channelRow channelId = none) : ∀ x ∈ db.messages, x.2.channelId ≠ channelId := by
  rintro x hx rfl
  obtain ⟨ch, hch, hid⟩ := List.mem_map.mp (hkeyed.homed x hx)
  have hother := List.find?_eq_none.mp hfree ch hch
  simp [hid] at hother

/-- A channel that has no row has no messages, so that these are not asked for. -/
theorem declaration_same (hkeyed : host.db.Keyed K) :
    (fun _ => ()) <$> (host.db.withoutFile fileId hash gone files).materializeChannelCreated event =
      (fun _ => ()) <$> host.db.materializeChannelCreated event := by
  unfold materializeChannelCreated
  split
  · next p hp =>
    have hrow : (host.db.withoutFile fileId hash gone files).channelRow p.channelId =
        host.db.channelRow p.channelId := rfl
    simp only [hrow, map_bind]
    rw [bind_eq_bind_iff]
    intro _ _
    rw [bind_eq_bind_iff]
    intro _ hfree
    have hempty := free_of_keyed hkeyed (ensure_eq_ok.mp hfree)
    have hempty' : ∀ x ∈ (host.db.withoutFile fileId hash gone files).messages.rows,
        x.2.channelId ≠ p.channelId := fun x hx => hempty x (Table.mem_delete.mp hx).1
    simp only [ensure, if_pos hempty', if_pos (show ∀ x ∈ host.db.messages.rows, _ from hempty)]
    rfl
  · rfl

theorem ingest_same_of_uncited (hkeyed : host.db.Keyed K)
    (hkeyed' : (host.db.withoutFile fileId hash gone files).Keyed K)
    (hnew : ∀ e ∈ host.db.events, e.hash K ≠ event.hash K) (hcited : cited event = none) :
    (fun _ => ()) <$> host.db.ingest K event =
      (fun _ => ()) <$> (host.db.withoutFile fileId hash gone files).ingest K event := by
  have hevents : (host.db.withoutFile fileId hash gone files).events = host.db.events := rfl
  cases hrow : derivedRow K event (host.db.view.replyRow event) with
  | some row =>
    rw [ingest_derived hkeyed hnew hrow, ingest_derived hkeyed' hnew (derivedRow_reply hrow _)]
    rfl
  | none =>
    by_cases hdeclares : ∃ p, event.core.payload = .channelCreated p
    · obtain ⟨p, hp⟩ := hdeclares
      rw [ingest_declaration hnew hp, ← declaration_same hkeyed]
      exact (ingest_declaration (hevents ▸ hnew) hp).symm
    · have hother := not_exists.mp hdeclares
      rw [ingest_other hnew hother hrow hcited]
      refine (ingest_other (hevents ▸ hnew) hother ?_ hcited).symm
      refine Option.eq_none_iff_forall_ne_some.mpr fun row hrow' => ?_
      rw [derivedRow_reply hrow'] at hrow
      simp at hrow

theorem ingest_same_iff (hkeyed : host.db.Keyed K)
    (hkeyed' : (host.db.withoutFile fileId hash gone files).Keyed K) (hlinks : host.db.LinksKept)
    (hlinks' : (host.db.withoutFile fileId hash gone files).LinksKept) :
    (fun _ => ()) <$> host.db.ingest K event =
        (fun _ => ()) <$> (host.db.withoutFile fileId hash gone files).ingest K event ↔
      ¬((∀ e ∈ host.db.events, e.hash K ≠ event.hash K) ∧ ∃ target missing x,
        cited event = some (target, missing) ∧ host.db.rowOfHash target = some x ∧
          x.1 ∈ gone) := by
  have hevents : (host.db.withoutFile fileId hash gone files).events = host.db.events := rfl
  by_cases hnew : ∀ e ∈ host.db.events, e.hash K ≠ event.hash K
  · cases hcited : cited event with
    | none => exact iff_of_true (ingest_same_of_uncited hkeyed hkeyed' hnew hcited) (by simp)
    | some c =>
      obtain ⟨target, missing⟩ := c
      rw [ingest_cited hlinks hnew hcited, ingest_cited hlinks' hnew hcited,
        rowOfHash_withoutFile hkeyed]
      cases hrow : host.db.rowOfHash target with
      | none =>
        refine iff_of_true rfl ?_
        rintro ⟨-, target', missing', x, heq, hrow', -⟩
        obtain ⟨rfl, -⟩ := Prod.mk.inj (Option.some.inj heq)
        simp [hrow] at hrow'
      | some x =>
        by_cases hgone : x.1 ∈ gone
        · refine iff_of_false ?_ (not_not.mpr ⟨hnew, target, missing, x, rfl, hrow, hgone⟩)
          have hfilter : Option.filter (fun x => x.1 ∉ gone) (some x) = none := by
            simp [Option.filter, hgone]
          rw [hfilter]
          intro hsame
          -- Only where the row is missing, the answer says so.
          have hmissing : Says ("event rejected: " ++ missing) (prefixed "event rejected: " (do
              let x ← context (some x) missing
              host.db.checkCited event x.2)) := by
            rw [hsame]
            rfl
          obtain ⟨text, hsays, heq⟩ := says_prefixed.mp hmissing
          obtain rfl := (String.append_right_inj _).mp heq
          exact checkCited_found hcited hsays
        · have hkept : Option.filter (fun x => x.1 ∉ gone) (some x) = some x := by
            simp [Option.filter, hgone]
          rw [hkept]
          refine iff_of_true rfl ?_
          rintro ⟨-, target', missing', x', heq, hrow', hgone'⟩
          obtain ⟨rfl, -⟩ := Prod.mk.inj (Option.some.inj heq)
          obtain rfl := Option.some.inj (hrow.symm.trans hrow')
          exact hgone hgone'
  · rw [ingest_again hnew, ingest_again (hevents ▸ hnew)]
    exact iff_of_true rfl fun h => hnew h.1

theorem cited_target {target : EventRef} : (∃ missing, cited event = some (target, missing)) ↔
    deletedTarget event = some target ∨
      ∃ p, event.core.payload = .messageEditedE2ee p ∧ p.target = target := by
  unfold cited deletedTarget
  cases event.core.payload <;> simp

theorem checkPosted_cited {db : Db} {c : EventRef × String} (hcited : cited event = some c) :
    db.checkPosted event = .ok () := by
  unfold cited at hcited
  unfold Db.checkPosted
  cases hp : event.core.payload <;> simp_all

theorem submitEvent_same_iff (hkeyed : host.db.Keyed K) (hkeyed' : host'.db.Keyed K)
    (hlinks : host.db.LinksKept) (hlinks' : host'.db.LinksKept)
    (hdiffers : DiffersInFile m fileId file gone host host') {event : Event} :
    host.answer K moment ((FileRequest.submitEvent event).op m) =
        host'.answer K moment ((FileRequest.submitEvent event).op m) ↔
      ¬host.Reveals K m moment fileId file gone (.submitEvent event) := by
  obtain ⟨files, -, rfl⟩ := hdiffers.without
  have hstate : (host.withoutFile fileId file.hash gone files).server.logState =
      host.server.logState := rfl
  have hposted : (host.withoutFile fileId file.hash gone files).db.checkPosted event =
      host.db.checkPosted event := rfl
  have hingest := @ingest_same_iff K host fileId gone files file.hash event hkeyed hkeyed' hlinks
    hlinks'
  rw [answer_submitEvent, answer_submitEvent, hstate, hposted]
  constructor
  · rintro hsame ⟨⟨ls, hls, hcaps, hepoch, ⟨trial, htrial⟩, hnew⟩, target, x, htarget, hrow, hgone⟩
    obtain ⟨missing, hcited⟩ := cited_target.mpr htarget
    refine hingest.mp ?_ ⟨hnew, target, missing, x, hcited, hrow, hgone⟩
    have hcapped := bind_eq_bind_iff.mp hsame ls (context_eq_ok.mpr hls)
    have hclaimed := bind_eq_bind_iff.mp hcapped () (prefixed_eq_ok.mpr hcaps)
    have happlied := bind_eq_bind_iff.mp hclaimed () hepoch
    have hchecked := bind_eq_bind_iff.mp happlied trial (prefixed_eq_ok.mpr htrial)
    exact then_eq_iff.mp (bind_eq_bind_iff.mp hchecked () (checkPosted_cited hcited))
  · intro h
    rw [bind_eq_bind_iff]
    intro ls hls
    rw [bind_eq_bind_iff]
    rintro ⟨⟩ hcaps
    rw [bind_eq_bind_iff]
    rintro ⟨⟩ hepoch
    rw [bind_eq_bind_iff]
    intro trial htrial
    rw [bind_eq_bind_iff]
    rintro ⟨⟩ -
    refine then_eq_iff.mpr (hingest.mpr ?_)
    rintro ⟨hnew, target, missing, x, hcited, hrow, hgone⟩
    exact h ⟨⟨ls, context_eq_ok.mp hls, prefixed_eq_ok.mp hcaps, hepoch,
      ⟨trial, prefixed_eq_ok.mp htrial⟩, hnew⟩, target, x, cited_target.mp ⟨missing, hcited⟩,
        hrow, hgone⟩

end

end

/-! ## The existence of a file -/

open SampleLog SampleHost

/-- Alice shows a picture in a channel that nobody else may read. -/
def pictureHidden : List (Moment × HostOp) :=
  joined ++ requests 9
    [(alice, .channel (.createChannel "hidden" .text none none)),
     (alice, .channel (.setChannelOverride 2 1 0 (viewChannel ||| readMessages)))] ++
  [(momentAt 11, .upload (key alice) true 2
    ⟨key alice, "cat.png", [1], "1", "image/png", 1, ⟨none, none, none⟩⟩)] ++
  requests 12 [(alice, .message (.sendMessage 2 "look" none [1]))]

def pictureDeleted : List (Moment × HostOp) :=
  pictureHidden ++ requests 13 [(alice, .message (.deleteMessage 1))] ++
  [(momentAt 14, .cleanupOrphanedFile 1)]

def catFile : FileRow :=
  ⟨"1", 1, "image/png", "cat.png", key alice, 11, 1, ⟨none, none, none⟩, none⟩

def otherBytes : Upload := ⟨key bob, "x.png", [2], "1", "image/png", 1, ⟨none, none, none⟩⟩

theorem differsInPicture : DiffersInFile (key bob) 1 catFile {1} (hostAfter pictureHidden)
    (hostAfter pictureDeleted) where
  stored := Table.get?_eq_some.mp (by decide +kernel)
  carry := by
    intro id hid
    obtain rfl := Finset.mem_singleton.mp hid
    have hattached : (hostAfter pictureHidden).db.attachments.get? 1 =
        some ⟨1, 1, 0, "cat.png", ⟨none, none, none⟩⟩ := by decide +kernel
    have hposted : (hostAfter pictureHidden).db.messages.get? 1 =
        some ⟨2, key alice, "look", 12, none, none, none, none, false⟩ := by decide +kernel
    exact ⟨⟨_, Table.get?_eq_some.mp hattached, rfl, rfl⟩, _, Table.get?_eq_some.mp hposted⟩
  hidden := by decide +kernel
  without := by
    refine ⟨(hostAfter pictureDeleted).db.files, fun id => ?_, rfl⟩
    have hfiles : (hostAfter pictureHidden).db.files.rows = [(1, catFile)] := by decide +kernel
    have hnone : (hostAfter pictureDeleted).db.files.rows = [] := by decide +kernel
    have hget : (hostAfter pictureDeleted).db.files.get? id = none := by
      refine Table.get?_eq_none.mpr fun x hx => ?_
      rw [Table.mem_def, hnone] at hx
      simp at hx
    rw [hget]
    split_ifs with hid
    · rfl
    · have hother : (hostAfter pictureHidden).db.files.get? id = none := by
        refine Table.get?_eq_none.mpr fun x hx => ?_
        rw [Table.mem_def, hfiles, List.mem_singleton] at hx
        rw [hx]
        exact Ne.symm hid
      rw [hother]

end Server
