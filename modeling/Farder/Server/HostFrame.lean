import Farder.Server.Catalogue

/-! # What most requests leave alone

The requests that are not about channels, roles or members, and that submit no event, write by
a few operations only. What these keep, every such request keeps. -/
namespace Server

open EventLog Guarded Permissions

variable {K : Crypto} {host host' : Host} {member : PublicKey} {isOwner : Bool} {moment : Moment}

/-- A relation that holds across the operations that create no channel and keep nothing of a
connection. -/
structure Host.PlainFrame (R : Host → Host → Prop) : Prop where
  refl : ∀ host, R host host
  trans : ∀ host host' host'', R host host' → R host' host'' → R host host''
  expireTimeout : ∀ host pk nowMs, R host (host.expireTimeout pk nowMs)
  withDb : ∀ host db, db.catalogue = host.db.catalogue → R host (host.withDb db)
  pinned : ∀ host pinned, R host (host.withCommunity { host.community with pinned })

/-- A relation that holds across the operations that create no channel. -/
structure Host.MessageFrame (R : Host → Host → Prop) : Prop extends Host.PlainFrame R where
  clientProtocol : ∀ host clientProtocol, R host { host with clientProtocol }
  running : ∀ host running, R host { host with running }

/-- A relation that holds across each of the few operations. -/
structure Host.Frame (R : Host → Host → Prop) : Prop extends Host.MessageFrame R where
  insertChannel : ∀ host name channelType position info, host.db.HasRowId →
    R host (host.insertChannel name channelType position info)
  dmParticipants : ∀ host dmParticipants,
    R host (host.withCommunity { host.community with dmParticipants })

def MessageRequest.createsChannel : MessageRequest → Bool
  | .createThread .. => true
  | .openDm .. => true
  | _ => false

def Request.createsChannel : Request → Bool
  | .message request => request.createsChannel
  | _ => false

/-- The requests that write what is kept of connections: their versions, and their commands. -/
def Request.isOfSession : Request → Bool
  | .negotiateProtocol _ => true
  | .runCommand .. => true
  | _ => false

def Request.hasOwnRules : Request → Bool
  | .channel _ => true
  | .role _ => true
  | .member _ => true
  | .submitEvent _ => true
  | _ => false

variable {R : Host → Host → Prop}

namespace Host.PlainFrame

theorem attachFiles (hR : PlainFrame R) {messageId : ℕ} {files : List (ℕ × ℕ)} :
    R host (attachFiles member isOwner messageId host files).1 := by
  induction files generalizing host with
  | nil => exact hR.refl host
  | cons x files ih =>
    simp only [Host.attachFiles]
    split
    · exact hR.refl host
    · next file _ =>
      have hattached : (host.db.createMessageAttachment messageId x.1 x.2 file.originalName
          file.media).catalogue = host.db.catalogue := rfl
      exact hR.trans _ _ _ (hR.withDb host _ hattached) ih

theorem postMessage (hR : PlainFrame R) {channelId : ℕ} {content : String} {replyTo : Option ℕ}
    {attachmentIds : List ℕ}
    (h : host.postMessage member isOwner moment channelId content replyTo attachmentIds =
      .ok host') : R host host' := by
  simp only [Host.postMessage, bind_eq_ok, map_eq_ok] at h
  obtain ⟨⟨⟩, -, ⟨⟩, -, ⟨⟩, -, ⟨⟩, -, ⟨⟩, -, db, hinsert, rfl⟩ := h
  exact hR.withDb host db (Db.catalogue_insertMessage hinsert)

theorem messageEffect (hR : PlainFrame R) {request : MessageRequest}
    (hcreates : request.createsChannel = false)
    (h : MessageEffect host member isOwner moment request host') : R host host' := by
  cases h with
  | refused => exact hR.refl host
  | expired => exact hR.expireTimeout host _ _
  | sendMessage hpost =>
    have hposted := hR.trans _ _ _ (hR.expireTimeout host _ _) (hR.postMessage hpost)
    exact hR.trans _ _ _ hposted hR.attachFiles
  | addReaction hrow hperm hadd =>
    exact hR.trans _ _ _ (hR.expireTimeout host _ _)
      (hR.withDb _ _ (Db.catalogue_addReaction hadd))
  | openDm => exact absurd hcreates (by simp [MessageRequest.createsChannel])
  | createThread => exact absurd hcreates (by simp [MessageRequest.createsChannel])
  | pinMessage => exact hR.pinned host _
  | unpinMessage => exact hR.pinned host _
  | editMessage hedit => exact hR.withDb host _ (Db.catalogue_requestEditMessage hedit)
  | deleteMessage hrow hdelete =>
    exact hR.withDb host _ (Db.catalogue_requestDeleteMessage hdelete)
  | removeReaction => exact hR.withDb host _ rfl

theorem expireTimeouts (hR : PlainFrame R) {pks : List PublicKey} {nowMs : ℕ} :
    R host (pks.foldl (fun host pk => host.expireTimeout pk nowMs) host) :=
  foldl_invariant (P := R host) (hR.refl host)
    fun _ h _ _ => hR.trans _ _ _ h (hR.expireTimeout _ _ _)

theorem fetchUrl (hR : PlainFrame R) {channelId : ℕ} {fetched : Option Fetched} :
    R host (host.fetchUrl K member isOwner moment channelId fetched).1 := by
  refine commit_effect (hR.refl host) fun host' h => ?_
  simp only [bind_eq_ok, map_eq_ok] at h
  obtain ⟨⟨⟩, -, ⟨⟩, -, file, -, stored, hstore, rfl⟩ := h
  exact hR.withDb host _ (Db.catalogue_storeOrReuse hstore)

theorem rerollGiveaway (hR : PlainFrame R) {giveaway : Option Giveaway}
    {announcement : Option String} :
    R host (host.rerollGiveaway member isOwner moment giveaway announcement).1 := by
  have hexpired := hR.expireTimeout host member moment.nowMs
  refine commit_effect hexpired fun host' h => ?_
  simp only [bind_eq_ok, map_eq_ok] at h
  obtain ⟨⟨⟩, -, g, -, ⟨⟩, -, ⟨⟩, -, ⟨⟩, -, text, -, db, hinsert, rfl⟩ := h
  exact hR.trans _ _ _ hexpired (hR.withDb _ db (Db.catalogue_insertMessage hinsert))

/-- The rule for the requests that create no channel and keep nothing of a connection. -/
theorem dispatch (hR : PlainFrame R) {request : Request} (h : request.hasOwnRules = false)
    (hcreates : request.createsChannel = false) (hsession : request.isOfSession = false) :
    R host (host.dispatch K member isOwner moment request).1 := by
  cases request with
  | message request => exact hR.messageEffect hcreates (messageRequest_effect request)
  | read request =>
    obtain ⟨consulted, heq⟩ := @readRequest_effect host member isOwner moment request
    exact heq ▸ hR.expireTimeouts
  | fetchUrl channelId fetched => exact hR.fetchUrl
  | rerollGiveaway giveaway announcement => exact hR.rerollGiveaway
  | runCommand => exact absurd hsession (by simp [Request.isOfSession])
  | negotiateProtocol => exact absurd hsession (by simp [Request.isOfSession])
  | bootstrap => exact hR.refl host
  | other consulted told => exact hR.expireTimeouts
  | _ => exact absurd h (by simp [Request.hasOwnRules])

/-! ## Uploads and sweeps -/

/-- An upload leaves the server as it is, or stores the bytes that were declared. -/
theorem upload_rule {P : Host → Prop} {channelId : ℕ} {upload : Upload} (h : P host)
    (hstored : ∀ stored, host.db.storeOrReuseFromTempFile K member upload.originalName
      (upload.bytes.take upload.fileSize) upload.declaredHash upload.mimeType upload.fileSize
      upload.media moment.now = .ok stored → P (host.withDb stored.1)) :
    P (host.upload K member isOwner moment channelId upload).1 := by
  refine commit_effect h fun host' hwrite => ?_
  simp only [bind_eq_ok, storeUpload] at hwrite
  obtain ⟨⟨⟩, -, ⟨⟩, -, ⟨⟩, -, ⟨⟩, -, hwrite⟩ := hwrite
  split_ifs at hwrite
  · obtain rfl := pure_eq_ok.mp hwrite
    exact h
  · simp only [bind_eq_ok, map_eq_ok] at hwrite
    obtain ⟨⟨⟩, -, stored, hstore, rfl⟩ := hwrite
    exact hstored stored hstore

theorem upload (hR : PlainFrame R) {channelId : ℕ} {upload : Upload} :
    R host (host.upload K member isOwner moment channelId upload).1 :=
  upload_rule (hR.refl host) fun _ hstore => hR.withDb host _ (Db.catalogue_storeOrReuse hstore)

theorem perform (hR : PlainFrame R) {op : HostOp}
    (hrequest : ∀ member isOwner request, op ≠ .request member isOwner request)
    (hhandshake : ∀ member name credentials genesis,
      op ≠ .handshake member name credentials genesis)
    (hdeletions : op ≠ .executePendingDeletions)
    (hcontinues : ∀ command outcome, op ≠ .continueCommand command outcome) :
    R host (host.perform K moment op).1 := by
  cases op with
  | request => exact absurd rfl (hrequest _ _ _)
  | handshake => exact absurd rfl (hhandshake _ _ _ _)
  | executePendingDeletions => exact absurd rfl hdeletions
  | upload member isOwner channelId upload =>
    simp only [Host.perform, auxiliary]
    split
    · exact hR.refl host
    · exact hR.upload
  | download member isOwner fileId =>
    simp only [Host.perform, auxiliary]
    split <;> exact hR.refl host
  | purgeExpiredMessages =>
    simp only [Host.perform, sweep]
    split
    · next db hpurge => exact hR.withDb host db (Db.catalogue_purgeExpiredMessages hpurge)
    · exact hR.refl host
  | cleanupOrphanedFile fileId =>
    exact hR.withDb host _ (Db.catalogue_cleanupOrphanedFile fileId)
  | continueCommand => exact absurd rfl (hcontinues _ _)

end Host.PlainFrame

namespace Host.MessageFrame

theorem runCommand (hR : MessageFrame R) {channelId : ℕ} {trigger : String} :
    R host (host.runCommand member isOwner moment channelId trigger).1 := by
  unfold Host.runCommand
  split_ifs
  · have hexpired := hR.expireTimeout host member moment.nowMs
    refine commit_effect hexpired fun host' h => ?_
    simp only [bind_eq_ok, pure_eq_ok] at h
    obtain ⟨⟨⟩, -, rfl⟩ := h
    exact hR.trans _ _ _ hexpired (hR.running _ _)
  · exact hR.refl host

theorem continueCommand (hR : MessageFrame R) {command : RunningCommand}
    {outcome : Except String CommandOutcome} :
    R host (host.continueCommand moment command outcome).1 := by
  refine continueCommand_rule (hR.running host) fun running author content db hinsert => ?_
  exact hR.trans _ _ _ (hR.running host running)
    (hR.withDb _ db (Db.catalogue_insertMessage hinsert))

theorem dispatch (hR : MessageFrame R) {request : Request}
    (h : request.hasOwnRules = false) (hcreates : request.createsChannel = false) :
    R host (host.dispatch K member isOwner moment request).1 := by
  cases request with
  | negotiateProtocol clientVersion => exact hR.clientProtocol host _
  | runCommand channelId trigger => exact hR.runCommand
  | _ => exact hR.toPlainFrame.dispatch h hcreates rfl

/-- Uploads, downloads, commands, and the sweeps but the one that deletes members. -/
theorem perform (hR : MessageFrame R) {op : HostOp}
    (hrequest : ∀ member isOwner request, op ≠ .request member isOwner request)
    (hhandshake : ∀ member name credentials genesis,
      op ≠ .handshake member name credentials genesis)
    (hdeletions : op ≠ .executePendingDeletions) : R host (host.perform K moment op).1 := by
  cases op with
  | continueCommand command outcome => exact hR.continueCommand
  | _ => exact hR.toPlainFrame.perform hrequest hhandshake hdeletions (by simp)

end Host.MessageFrame

namespace Host.Frame

theorem openDmChannel (hR : Frame R) {a b : PublicKey}
    (hroom : (host.findDmChannel a b).isSome ∨ host.db.HasRowId) :
    R host (host.openDmChannel a b) := by
  unfold Host.openDmChannel
  split_ifs with hfound
  · exact hR.refl host
  · exact hR.trans _ _ _ (hR.insertChannel host _ _ _ _ (hroom.resolve_left hfound))
      (hR.dmParticipants _ _)

theorem messageEffect (hR : Frame R) {request : MessageRequest}
    (h : MessageEffect host member isOwner moment request host') : R host host' := by
  by_cases hcreates : request.createsChannel = false
  · exact hR.toPlainFrame.messageEffect hcreates h
  · cases h with
    | openDm hne hroom => exact hR.trans _ _ _ (hR.openDmChannel hroom) (hR.expireTimeout _ _ _)
    | createThread hrow hperm hroom => exact hR.insertChannel host _ _ _ _ hroom
    | refused => exact hR.refl host
    | expired => exact hR.expireTimeout host _ _
    | _ => exact absurd rfl hcreates

theorem dispatch (hR : Frame R) {request : Request} (h : request.hasOwnRules = false) :
    R host (host.dispatch K member isOwner moment request).1 := by
  cases request with
  | message request => exact hR.messageEffect (messageRequest_effect request)
  | _ => exact hR.toMessageFrame.dispatch h rfl

end Host.Frame

theorem Host.Frame.of_community {R : Community → Community → Prop} (hrefl : ∀ c, R c c)
    (htrans : ∀ c c' c'', R c c' → R c' c'' → R c c'')
    (htimeout : ∀ c pk nowMs, R c (Community.expireTimeout c pk nowMs))
    (hinfo : ∀ c id f, R c (Community.updateChannelInfo c id f))
    (hpinned : ∀ (c : Community) pinned, R c { c with pinned })
    (hdm : ∀ (c : Community) dmParticipants, R c { c with dmParticipants }) :
    Host.Frame fun host host' => R host.community host'.community where
  refl host := hrefl host.community
  trans _ _ _ := htrans _ _ _
  expireTimeout host pk nowMs := htimeout host.community pk nowMs
  withDb host _ _ := hrefl host.community
  insertChannel host _ _ _ info _ := hinfo host.community host.db.nextChannel fun _ => info
  pinned host _ := hpinned host.community _
  dmParticipants host _ := hdm host.community _
  clientProtocol host _ := hrefl host.community
  running host _ := hrefl host.community

end Server
