import Farder.FileExistence
import Farder.PostingAuthority

/-! # A message and its attachments

The row of a message is inserted before its attachments are looked up, and outside of any
transaction: an attachment that is refused leaves the row, and the links before it, behind. -/
namespace Server

open EventLog Guarded Permissions

namespace Host

variable (K : Crypto) (host host' : Host) (member : PublicKey) (isOwner : Bool) (moment : Moment)
  (channelId : ℕ) (content : String) (replyTo : Option ℕ) (attachmentIds : List ℕ)

/-- Messages, attachments and files are as before, reference counts included. -/
structure SameTables : Prop where
  messages : host'.db.messages = host.db.messages
  attachments : host'.db.attachments = host.db.attachments
  files : host'.db.files = host.db.files

/-- One row is added, and all listed attachments are linked to it in their order, each of them
counted at its file. -/
structure Sent : Prop where
  messages : host'.db.messages = host.db.messages.insert
    ⟨channelId, member, content, moment.now, none, replyTo, none, none, false⟩
  attachments : ∃ added, host'.db.attachments.rows = host.db.attachments.rows ++ added ∧
    added.map (fun x => (x.2.messageId, x.2.fileId, x.2.position)) =
      attachmentIds.zipIdx.map fun x => (host.db.messages.next, x)
  files : ∀ fileId, host'.db.files.get? fileId = (host.db.files.get? fileId).map fun f =>
    { f with refCount := f.refCount + attachmentIds.count fileId }

/-- The file is there, and of the one who sends it unless that is the owner. -/
def MayAttach (fileId : ℕ) : Prop :=
  ∃ file ∈ host.db.files.get? fileId, file.uploadedBy = member ∨ isOwner = true

/-- The request leaves nothing behind if it is refused, and all of it if it is not. -/
def AllOrNothing : Prop :=
  let result := host.handleRequest K member isOwner moment
    (.message (.sendMessage channelId content replyTo attachmentIds))
  (result.2.isOk = false → host.SameTables result.1) ∧
    (result.2.isOk = true →
      host.Sent result.1 member moment channelId content replyTo attachmentIds)

end Host

variable {K : Crypto} {host host' : Host} {member : PublicKey} {isOwner : Bool}
  {moment : Moment} {channelId messageId : ℕ} {content : String} {replyTo : Option ℕ}
  {attachmentIds : List ℕ} {files : List (ℕ × ℕ)}

open Host

/-! ## Attachments one by one -/

theorem get?_files_create (db : Db) (fileId position : ℕ) (name : String) (media : MediaInfo)
    (k : ℕ) :
    (db.createMessageAttachment messageId fileId position name media).files.get? k =
      (db.files.get? k).map fun f =>
        { f with refCount := f.refCount + if k = fileId then 1 else 0 } := by
  simp only [Db.createMessageAttachment, Db.incrementRefCount, Table.modify, Table.get?_map]
  congr 1
  funext f
  by_cases hk : k = fileId
  · rw [if_pos hk, if_pos hk]
  · rw [if_neg hk, if_neg hk]
    rfl

theorem mayAttach_create (fileId position : ℕ) (name : String) (media : MediaInfo) (k : ℕ) :
    (host.withDb (host.db.createMessageAttachment messageId fileId position name
      media)).MayAttach member isOwner k ↔ host.MayAttach member isOwner k := by
  have hget : (host.withDb (host.db.createMessageAttachment messageId fileId position name
      media)).db.files.get? k = _ := get?_files_create host.db fileId position name media k
  simp only [MayAttach, hget, Option.mem_def, Option.map_eq_some_iff]
  constructor
  · rintro ⟨_, ⟨file, hfile, rfl⟩, hmay⟩
    exact ⟨file, hfile, hmay⟩
  · rintro ⟨file, hfile, hmay⟩
    exact ⟨_, ⟨file, hfile, rfl⟩, hmay⟩

/-- The steps that attaching takes with a file that may be attached, and with one that may not. -/
theorem attachFiles_cons {x : ℕ × ℕ} :
    (∃ file ∈ host.db.files.get? x.1, (file.uploadedBy = member ∨ isOwner = true) ∧
      attachFiles member isOwner messageId host (x :: files) =
        attachFiles member isOwner messageId (host.withDb (host.db.createMessageAttachment
          messageId x.1 x.2 file.originalName file.media)) files) ∨
    ¬host.MayAttach member isOwner x.1 ∧
      ∃ failure, attachFiles member isOwner messageId host (x :: files) =
        (host, .error failure) := by
  by_cases hmay : host.MayAttach member isOwner x.1
  · obtain ⟨file, hfile, howner⟩ := hmay
    refine .inl ⟨file, hfile, howner, ?_⟩
    have hcheck : (do
        let file ← context (host.db.files.get? x.1) s!"attachment file_id {x.1} not found"
        ensure (file.uploadedBy = member ∨ isOwner = true)
          "cannot attach files uploaded by another member"
        return file : Checked FileRow) = .ok file := by
      simp only [bind_eq_ok, context_eq_ok, ensure_eq_ok, pure_eq_ok]
      exact ⟨file, hfile, (), howner, rfl⟩
    simp only [attachFiles, hcheck]
  · refine .inr ⟨hmay, ?_⟩
    simp only [attachFiles]
    split
    · next failure _ => exact ⟨failure, rfl⟩
    · next file hfile =>
      simp only [bind_eq_ok, context_eq_ok, ensure_eq_ok, pure_eq_ok] at hfile
      obtain ⟨file', hfile', ⟨⟩, howner, rfl⟩ := hfile
      exact absurd ⟨file', hfile', howner⟩ hmay

theorem attachFiles_isOk :
    (attachFiles member isOwner messageId host files).2.isOk = true ↔
      ∀ x ∈ files, host.MayAttach member isOwner x.1 := by
  induction files generalizing host with
  | nil => simp [attachFiles, Except.isOk, Except.toBool]
  | cons x files ih =>
    rw [List.forall_mem_cons]
    rcases attachFiles_cons with ⟨file, hfile, howner, heq⟩ | ⟨hmay, failure, heq⟩
    · rw [heq, ih]
      simp only [mayAttach_create]
      exact (and_iff_right ⟨file, hfile, howner⟩).symm
    · rw [heq]
      exact iff_of_false Bool.false_ne_true fun h => hmay h.1

theorem attachFiles_attachments
    (hok : (attachFiles member isOwner messageId host files).2.isOk = true) :
    ∃ added, (attachFiles member isOwner messageId host files).1.db.attachments.rows =
        host.db.attachments.rows ++ added ∧
      added.map (fun x => (x.2.messageId, x.2.fileId, x.2.position)) =
        files.map fun x => (messageId, x) := by
  induction files generalizing host with
  | nil => exact ⟨[], (List.append_nil _).symm, rfl⟩
  | cons x files ih =>
    rcases attachFiles_cons with ⟨file, hfile, howner, heq⟩ | ⟨hmay, failure, heq⟩
    · rw [heq] at hok ⊢
      obtain ⟨added, hrows, hlinks⟩ := ih hok
      refine ⟨(host.db.attachments.next,
        ⟨messageId, x.1, x.2, file.originalName, file.media⟩) :: added, ?_, ?_⟩
      · rw [hrows, List.append_cons]
        rfl
      · rw [List.map_cons, List.map_cons, hlinks]
    · rw [heq] at hok
      exact absurd hok Bool.false_ne_true

theorem attachFiles_files
    (hok : (attachFiles member isOwner messageId host files).2.isOk = true) (k : ℕ) :
    (attachFiles member isOwner messageId host files).1.db.files.get? k =
      (host.db.files.get? k).map fun f =>
        { f with refCount := f.refCount + (files.map Prod.fst).count k } := by
  induction files generalizing host with
  | nil => exact Option.map_id'.symm
  | cons x files ih =>
    rcases attachFiles_cons with ⟨file, hfile, howner, heq⟩ | ⟨hmay, failure, heq⟩
    · rw [heq] at hok ⊢
      rw [ih hok, withDb, get?_files_create, Option.map_map]
      congr 1
      funext f
      have hcount : ((x :: files).map Prod.fst).count k =
          (files.map Prod.fst).count k + if k = x.1 then 1 else 0 := by
        rw [List.map_cons, List.count_cons]
        by_cases hk : k = x.1
        · simp [hk]
        · simp [hk, Ne.symm hk]
      rw [hcount, Nat.add_comm (List.count _ _), ← Nat.add_assoc]
      rfl
    · rw [heq] at hok
      exact absurd hok Bool.false_ne_true

/-- What is left of a request that passes the checks before its row is inserted. -/
theorem sendMessage_posted (replyTo : Option ℕ)
    (hmay : host.MayPost member isOwner moment channelId)
    (hcontent : content.utf8ByteSize ≤ maxMessageBytes) (hcount : attachmentIds.length ≤ 10) :
    ∃ posted : Host,
      posted.db.messages = host.db.messages.insert
        ⟨channelId, member, content, moment.now, none, replyTo, none, none, false⟩ ∧
      posted.db.attachments = host.db.attachments ∧ posted.db.files = host.db.files ∧
      let attached :=
        attachFiles member isOwner host.db.messages.next posted attachmentIds.zipIdx
      let sent :=
        host.sendMessage member isOwner moment channelId content replyTo attachmentIds
      sent.1 = attached.1 ∧ sent.2.isOk = attached.2.isOk := by
  obtain ⟨db, hinsert⟩ := insertMessage_exists member content replyTo moment.now hmay.2.1
  have hposted := postMessage_eq_ok.mpr ⟨hmay, hcontent, hcount, db, hinsert, rfl⟩
  have hrow := insertMessage_messages hinsert
  have hattachments : db.attachments = host.db.attachments := by rw [insertMessage_eq hinsert]
  refine ⟨(host.expireTimeout member moment.nowMs).withDb db, hrow, hattachments,
    insertMessage_files hinsert, ?_⟩
  have hnext : (host.expireTimeout member moment.nowMs).db.messages.next =
    host.db.messages.next := rfl
  simp only [sendMessage, hposted, hnext, true_and]
  generalize hattached : attachFiles member isOwner _ _ _ = attached
  cases hresult : attached.2 with
  | error failure => rfl
  | ok done =>
    have hmessage : attached.1.getMessage host.db.messages.next ≠ none := by
      have hmessages : attached.1.db.messages = db.messages :=
        hattached ▸ attachFiles_messages
      rw [Host.getMessage, hmessages, hrow, Table.get?_insert, if_pos rfl]
      exact Option.some_ne_none _
    obtain ⟨message, hmessage⟩ := Option.ne_none_iff_exists'.mp hmessage
    rw [hmessage]
    rfl

theorem sendMessage_refused (replyTo : Option ℕ)
    (h : ¬(host.MayPost member isOwner moment channelId ∧
      content.utf8ByteSize ≤ maxMessageBytes ∧ attachmentIds.length ≤ 10)) :
    let sent := host.sendMessage member isOwner moment channelId content replyTo attachmentIds
    sent.2.isOk = false ∧ host.SameTables sent.1 := by
  simp only [sendMessage]
  split
  · exact ⟨rfl, rfl, rfl, rfl⟩
  · next posted hposted =>
    obtain ⟨hmay, hcontent, hcount, -⟩ := postMessage_eq_ok.mp hposted
    exact absurd ⟨hmay, hcontent, hcount⟩ h

/-- The request is all or nothing exactly if it is refused before its row is inserted, or all of
its attachments are there and may be used by the one who sends it. -/
theorem allOrNothing_iff :
    host.AllOrNothing K member isOwner moment channelId content replyTo attachmentIds ↔
      host.contentBlockReason member ≠ none ∨
        ¬(host.MayPost member isOwner moment channelId ∧
          content.utf8ByteSize ≤ maxMessageBytes ∧ attachmentIds.length ≤ 10) ∨
        ∀ fileId ∈ attachmentIds, host.MayAttach member isOwner fileId := by
  cases hgate : host.contentBlockReason member with
  | some reason =>
    refine iff_of_true ?_ (.inl nofun)
    rw [AllOrNothing, Host.handleRequest_of_blocked rfl hgate]
    exact ⟨fun _ => ⟨rfl, rfl, rfl⟩, nofun⟩
  | none =>
    rw [or_iff_right (not_not_intro rfl), AllOrNothing, Host.handleRequest_of_open hgate]
    have hdispatch : host.dispatch K member isOwner moment (.message (.sendMessage channelId
        content replyTo attachmentIds)) =
        host.sendMessage member isOwner moment channelId content replyTo attachmentIds := rfl
    rw [hdispatch]
    by_cases hpost : host.MayPost member isOwner moment channelId ∧
        content.utf8ByteSize ≤ maxMessageBytes ∧ attachmentIds.length ≤ 10
    · rw [or_iff_right (not_not_intro hpost)]
      obtain ⟨hmay, hcontent, hcount⟩ := hpost
      obtain ⟨posted, hmessages, hattachments, hfiles, hsent, hok⟩ :=
        sendMessage_posted replyTo hmay hcontent hcount
      have hall : (attachFiles member isOwner host.db.messages.next posted
          attachmentIds.zipIdx).2.isOk = true ↔
          ∀ fileId ∈ attachmentIds, host.MayAttach member isOwner fileId := by
        rw [attachFiles_isOk, ← List.forall_mem_map (f := Prod.fst), List.zipIdx_map_fst]
        simp only [MayAttach, hfiles]
      rw [hsent, hok]
      constructor
      · rintro ⟨herror, -⟩
        by_contra hnone
        have hsame := herror (Bool.eq_false_iff.mpr (mt hall.mp hnone))
        have hlater : (host.db.messages.insert _).next = host.db.messages.next :=
          congrArg Table.next
            (hmessages.symm.trans (attachFiles_messages.symm.trans hsame.messages))
        simp at hlater
      · intro hmays
        have hattached := hall.mpr hmays
        refine ⟨fun herror => absurd (hattached.symm.trans herror) nofun, fun _ => ?_⟩
        obtain ⟨added, hrows, hlinks⟩ := attachFiles_attachments hattached
        refine ⟨attachFiles_messages.trans hmessages, ⟨added, ?_, hlinks⟩, fun k => ?_⟩
        · rw [hrows, hattachments]
        · rw [attachFiles_files hattached, hfiles, List.zipIdx_map_fst]
    · obtain ⟨herror, hsame⟩ := sendMessage_refused replyTo hpost
      refine iff_of_true ⟨fun _ => hsame, ?_⟩ (.inl hpost)
      rw [herror]
      exact nofun

open SampleLog SampleHost

/-- Bob attaches a file that nobody has uploaded: his request is refused, and his message is
there. -/
theorem message_of_refused_attachment :
    HostRun crypto start (path joined) (hostAfter joined) ∧
      ¬(hostAfter joined).AllOrNothing crypto (key bob) false (momentAt 8) 1 "hello" none [9] := by
  refine ⟨run_path _, fun h => ?_⟩
  have hsame := h.1 (by decide +kernel)
  exact absurd (congrArg Table.next hsame.messages) (by decide +kernel)

end Server
