import Farder.EventLog
import Farder.Support.MessagePack

/-! # The bytes of events

What the log hashes, signs and stores are arrays of fields in the order of their declaration, and a
variant is its name with its fields. The format that writes them is any that keeps to its laws. -/
namespace EventLog

open Forms

def u64 : Form ℕ := .uint 64 (by decide)
def u32 : Form ℕ := .uint 32 (by decide)
def u16 : Form ℕ := .uint 16 (by decide)

def digestForm : Form Digest := .fixed 32

def optionalText : Form (Option String) := Form.text.option nofun

def publicKeyForm : Form PublicKey :=
  ((Fields.one (.fixed 32)).as PublicKey.bytes .mk).record (by decide)

def genesisForm : Form Genesis :=
  ((Fields.cons u16 <| .cons .text <| .cons publicKeyForm <| .cons u64 <| .one (.fixed 16)).as
    (fun g => (g.version, g.name, g.owner, g.createdAt, g.nonce))
    (fun (version, name, owner, createdAt, nonce) =>
      ⟨version, name, owner, createdAt, nonce⟩)).record (by decide)

def certCoreForm : Form DeviceCertCore :=
  ((Fields.cons publicKeyForm <| .cons publicKeyForm <| .cons .text <| .cons u64 <|
      .skipped u64 nofun).as
    (fun c => (c.identity, c.devicePubkey, c.deviceId, c.createdAt, c.expiresAt))
    (fun (identity, devicePubkey, deviceId, createdAt, expiresAt) =>
      ⟨identity, devicePubkey, deviceId, createdAt, expiresAt⟩)).record (by decide)

def certForm : Form DeviceCert :=
  ((Fields.cons certCoreForm <| .one .bytes).as (fun c => (c.core, c.signature))
    (fun (core, signature) => ⟨core, signature⟩)).record (by decide)

def capForm : Form AttachmentCap :=
  ((Fields.cons .text <| .cons .text <| .cons u64 <| .one publicKeyForm).as
    (fun c => (c.contentHash, c.declaredType, c.size, c.uploader))
    (fun (contentHash, declaredType, size, uploader) =>
      ⟨contentHash, declaredType, size, uploader⟩)).record (by decide)

def addForm : Form DeclaredAdd :=
  ((Fields.cons publicKeyForm <| .cons .text <| .one .text).as
    (fun a => (a.identity, a.device, a.keyPackage))
    (fun (identity, device, keyPackage) => ⟨identity, device, keyPackage⟩)).record (by decide)

def removeForm : Form DeclaredRemove :=
  ((Fields.cons publicKeyForm <| .one .text).as (fun r => (r.identity, r.device))
    (fun (identity, device) => ⟨identity, device⟩)).record (by decide)

def classForm : Form ChannelClass where
  put
    | .plaintext => .str "Plaintext"
    | .e2ee => .str "E2ee"
  get
    | .str "Plaintext" => some .plaintext
    | .str "E2ee" => some .e2ee
    | _ => none
  fits _ := true
  depth := 0
  fits_put c _ := by cases c <;> rfl
  get_put c _ := by cases c <;> rfl
  fits_get _ _ _ _ := rfl
  depth_put c := by cases c <;> exact Nat.zero_le 0

def reasonForm : Form DeleteReason where
  put
    | .author => .str "Author"
    | .moderation => .str "Moderation"
  get
    | .str "Author" => some .author
    | .str "Moderation" => some .moderation
    | _ => none
  fits _ := true
  depth := 0
  fits_put c _ := by cases c <;> rfl
  get_put c _ := by cases c <;> rfl
  fits_get _ _ _ _ := rfl
  depth_put c := by cases c <;> exact Nat.zero_le 0

def messagePostedFields : Fields MessagePosted :=
  (Fields.cons u64 <| .cons .text <| .cons optionalText <| .one capForm.list).as
    (fun p => (p.channelId, p.content, p.replyTo, p.attachments))
    (fun (channelId, content, replyTo, attachments) => ⟨channelId, content, replyTo, attachments⟩)

def inviteCreatedFields : Fields InviteCreated :=
  (Fields.cons .text <| .cons u32 <| .cons u64 <| .defaulted .flag false rfl).as
    (fun p => (p.codeHash, p.maxUses, p.expiresAt, p.requiresApproval))
    (fun (codeHash, maxUses, expiresAt, requiresApproval) =>
      ⟨codeHash, maxUses, expiresAt, requiresApproval⟩)

def channelCreatedFields : Fields ChannelCreated :=
  (Fields.cons u64 <| .cons .text <| .cons .text <| .cons classForm <| .one (u64.option nofun)).as
    (fun p => (p.channelId, p.name, p.kind, p.cls, p.parent))
    (fun (channelId, name, kind, cls, parent) => ⟨channelId, name, kind, cls, parent⟩)

def keyPackageFields : Fields MlsKeyPackagePublished :=
  (Fields.cons .bytes <| .cons digestForm <| .one u64).as
    (fun p => (p.keyPackage, p.storeInstanceHash, p.expiresAtLogPos))
    (fun (keyPackage, storeInstanceHash, expiresAtLogPos) =>
      ⟨keyPackage, storeInstanceHash, expiresAtLogPos⟩)

def commitFields : Fields MlsCommit :=
  (Fields.cons u64 <| .cons u64 <| .cons u64 <| .cons .bytes <| .cons addForm.list <|
      .cons removeForm.list <| .cons digestForm <| .cons digestForm <| .cons digestForm <|
      .cons .text <| .one digestForm).as
    (fun p => (p.channelId, p.generation, p.epoch, p.mlsMessage, p.adds, p.removes,
      p.prevEpochAuthenticator, p.postEpochAuthenticator, p.postTreeHash, p.authzHead,
      p.storeInstanceHash))
    (fun (channelId, generation, epoch, mlsMessage, adds, removes, prevEpochAuthenticator,
        postEpochAuthenticator, postTreeHash, authzHead, storeInstanceHash) =>
      ⟨channelId, generation, epoch, mlsMessage, adds, removes, prevEpochAuthenticator,
        postEpochAuthenticator, postTreeHash, authzHead, storeInstanceHash⟩)

def welcomeFields : Fields MlsWelcome :=
  (Fields.cons u64 <| .cons u64 <| .cons .text <| .cons publicKeyForm <| .cons .text <|
      .one .bytes).as
    (fun p => (p.channelId, p.generation, p.commit, p.forMember, p.forDevice, p.welcome))
    (fun (channelId, generation, commit, forMember, forDevice, welcome) =>
      ⟨channelId, generation, commit, forMember, forDevice, welcome⟩)

def leafConfirmedFields : Fields MlsLeafConfirmed :=
  (Fields.cons u64 <| .cons u64 <| .cons u64 <| .cons digestForm <| .one digestForm).as
    (fun p => (p.channelId, p.generation, p.epoch, p.treeHash, p.storeInstanceHash))
    (fun (channelId, generation, epoch, treeHash, storeInstanceHash) =>
      ⟨channelId, generation, epoch, treeHash, storeInstanceHash⟩)

def groupResetFields : Fields MlsGroupReset :=
  (Fields.cons u64 <| .cons u64 <| .cons Form.text.list <| .one digestForm).as
    (fun p => (p.channelId, p.newGeneration, p.welcomes, p.postTreeHash))
    (fun (channelId, newGeneration, welcomes, postTreeHash) =>
      ⟨channelId, newGeneration, welcomes, postTreeHash⟩)

def sealedPostedFields : Fields MessagePostedE2ee :=
  (Fields.cons u64 <| .cons u64 <| .cons u64 <| .cons .bytes <| .cons optionalText <|
      .cons capForm.list <| .one .text).as
    (fun p => (p.channelId, p.generation, p.epoch, p.ciphertext, p.replyTo, p.attachments,
      p.authzHead))
    (fun (channelId, generation, epoch, ciphertext, replyTo, attachments, authzHead) =>
      ⟨channelId, generation, epoch, ciphertext, replyTo, attachments, authzHead⟩)

def sealedEditedFields : Fields MessageEditedE2ee :=
  (Fields.cons u64 <| .cons .text <| .cons u64 <| .cons u64 <| .cons .bytes <| .one .text).as
    (fun p => (p.channelId, p.target, p.generation, p.epoch, p.ciphertext, p.authzHead))
    (fun (channelId, target, generation, epoch, ciphertext, authzHead) =>
      ⟨channelId, target, generation, epoch, ciphertext, authzHead⟩)

def messageDeletedFields : Fields MessageDeleted :=
  (Fields.cons u64 <| .cons .text <| .one reasonForm).as
    (fun p => (p.channelId, p.target, p.reason))
    (fun (channelId, target, reason) => ⟨channelId, target, reason⟩)

def certField : Fields DeviceCert := .one certForm
def memberField : Fields PublicKey := .one publicKeyForm
def textField : Fields String := .one .text
def memberAndText : Fields (PublicKey × String) := .cons publicKeyForm <| .one .text

/-- The name of the variant, and its fields. -/
def EventPayload.put : EventPayload → Value
  | .messagePosted p => .variant "MessagePosted" (.array (messagePostedFields.put p))
  | .deviceAuthorized cert => .variant "DeviceAuthorized" (.array (certField.put cert))
  | .inviteCreated p => .variant "InviteCreated" (.array (inviteCreatedFields.put p))
  | .memberJoined member invite =>
    .variant "MemberJoined" (.array (memberAndText.put (member, invite)))
  | .memberApproved member => .variant "MemberApproved" (.array (memberField.put member))
  | .memberRemoved member => .variant "MemberRemoved" (.array (memberField.put member))
  | .memberBanned member => .variant "MemberBanned" (.array (memberField.put member))
  | .memberUnbanned member => .variant "MemberUnbanned" (.array (memberField.put member))
  | .permissionGranted member capability =>
    .variant "PermissionGranted" (.array (memberAndText.put (member, capability)))
  | .attachmentRedacted contentHash =>
    .variant "AttachmentRedacted" (.array (textField.put contentHash))
  | .channelCreated p => .variant "ChannelCreated" (.array (channelCreatedFields.put p))
  | .mlsKeyPackagePublished p => .variant "MlsKeyPackagePublished" (.array (keyPackageFields.put p))
  | .mlsCommit p => .variant "MlsCommit" (.array (commitFields.put p))
  | .mlsWelcome p => .variant "MlsWelcome" (.array (welcomeFields.put p))
  | .mlsLeafConfirmed p => .variant "MlsLeafConfirmed" (.array (leafConfirmedFields.put p))
  | .mlsGroupReset p => .variant "MlsGroupReset" (.array (groupResetFields.put p))
  | .messagePostedE2ee p => .variant "MessagePostedE2ee" (.array (sealedPostedFields.put p))
  | .messageEditedE2ee p => .variant "MessageEditedE2ee" (.array (sealedEditedFields.put p))
  | .messageDeleted p => .variant "MessageDeleted" (.array (messageDeletedFields.put p))
  | .deviceRevoked device => .variant "DeviceRevoked" (.array (textField.put device))

def EventPayload.ofFields (fields : List Value) : String → Option EventPayload
  | "MessagePosted" => (messagePostedFields.get fields).map .messagePosted
  | "DeviceAuthorized" => (certField.get fields).map .deviceAuthorized
  | "InviteCreated" => (inviteCreatedFields.get fields).map .inviteCreated
  | "MemberJoined" => (memberAndText.get fields).map fun x => .memberJoined x.1 x.2
  | "MemberApproved" => (memberField.get fields).map .memberApproved
  | "MemberRemoved" => (memberField.get fields).map .memberRemoved
  | "MemberBanned" => (memberField.get fields).map .memberBanned
  | "MemberUnbanned" => (memberField.get fields).map .memberUnbanned
  | "PermissionGranted" => (memberAndText.get fields).map fun x => .permissionGranted x.1 x.2
  | "AttachmentRedacted" => (textField.get fields).map .attachmentRedacted
  | "ChannelCreated" => (channelCreatedFields.get fields).map .channelCreated
  | "MlsKeyPackagePublished" => (keyPackageFields.get fields).map .mlsKeyPackagePublished
  | "MlsCommit" => (commitFields.get fields).map .mlsCommit
  | "MlsWelcome" => (welcomeFields.get fields).map .mlsWelcome
  | "MlsLeafConfirmed" => (leafConfirmedFields.get fields).map .mlsLeafConfirmed
  | "MlsGroupReset" => (groupResetFields.get fields).map .mlsGroupReset
  | "MessagePostedE2ee" => (sealedPostedFields.get fields).map .messagePostedE2ee
  | "MessageEditedE2ee" => (sealedEditedFields.get fields).map .messageEditedE2ee
  | "MessageDeleted" => (messageDeletedFields.get fields).map .messageDeleted
  | "DeviceRevoked" => (textField.get fields).map .deviceRevoked
  | _ => none

def EventPayload.get : Value → Option EventPayload
  | .variant name (.array fields) => EventPayload.ofFields fields name
  | _ => none

/-- The numbers are in range, and the strings and lists have a length that can be written. -/
def EventPayload.fits : EventPayload → Bool
  | .messagePosted p => messagePostedFields.fits p
  | .deviceAuthorized cert => certField.fits cert
  | .inviteCreated p => inviteCreatedFields.fits p
  | .memberJoined member invite => memberAndText.fits (member, invite)
  | .memberApproved member => memberField.fits member
  | .memberRemoved member => memberField.fits member
  | .memberBanned member => memberField.fits member
  | .memberUnbanned member => memberField.fits member
  | .permissionGranted member capability => memberAndText.fits (member, capability)
  | .attachmentRedacted contentHash => textField.fits contentHash
  | .channelCreated p => channelCreatedFields.fits p
  | .mlsKeyPackagePublished p => keyPackageFields.fits p
  | .mlsCommit p => commitFields.fits p
  | .mlsWelcome p => welcomeFields.fits p
  | .mlsLeafConfirmed p => leafConfirmedFields.fits p
  | .mlsGroupReset p => groupResetFields.fits p
  | .messagePostedE2ee p => sealedPostedFields.fits p
  | .messageEditedE2ee p => sealedEditedFields.fits p
  | .messageDeleted p => messageDeletedFields.fits p
  | .deviceRevoked device => textField.fits device

theorem EventPayload.fits_of_fields {fields : List Value} {name : String} {p : EventPayload}
    (hfits : ∀ v ∈ fields, v.fits = true) (h : EventPayload.ofFields fields name = some p) :
    p.fits = true := by
  unfold EventPayload.ofFields at h
  split at h
  case h_21 => cases h
  all_goals
    obtain ⟨a, ha, rfl⟩ := Option.map_eq_some_iff.mp h
    exact Fields.fits_get _ _ a hfits ha

def payloadForm : Form EventPayload where
  put := EventPayload.put
  get := EventPayload.get
  fits := EventPayload.fits
  depth := 8
  fits_put p h := by
    cases p <;> exact fits_variant (of_decide_eq_true rfl)
      (fits_array ((Fields.length_put _ _).trans_lt (by decide)) (Fields.fits_put _ _ h))
  get_put p h := by
    cases p <;> simp only [EventPayload.put, EventPayload.get, EventPayload.ofFields] <;>
      rw [Fields.get_put _ _ h] <;> rfl
  fits_get v p hfits h := by
    cases v with
    | variant name body =>
      cases body with
      | array fields =>
        simp only [Value.fits, Bool.and_eq_true, allFit_iff] at hfits
        exact EventPayload.fits_of_fields hfits.2.2 h
      | _ => cases h
    | _ => cases h
  depth_put p := by
    cases p <;> exact (depth_variant (Fields.depth_put _ _)).trans (by decide)

def coreForm : Form EventCore :=
  ((Fields.cons .text <| .cons publicKeyForm <| .cons .text <| .cons u64 <| .cons optionalText <|
      .cons u64 <| .cons u64 <| .one payloadForm).as
    (fun c => (c.serverId, c.author, c.device, c.seq, c.prev, c.lamport, c.timestamp, c.payload))
    (fun (serverId, author, device, seq, prev, lamport, timestamp, payload) =>
      ⟨serverId, author, device, seq, prev, lamport, timestamp, payload⟩)).record (by decide)

def eventForm : Form Event :=
  ((Fields.cons coreForm <| .one .bytes).as (fun e => (e.core, e.signature))
    (fun (core, signature) => ⟨core, signature⟩)).record (by decide)

variable (K : Crypto) (F : Format)

/-- The encodings that the log is given. -/
def Crypto.onWire : Crypto :=
  { K with
    genesisBytes := genesisForm.toBytes F
    certCoreBytes := certCoreForm.toBytes F
    coreBytes := coreForm.toBytes F
    eventBytes := eventForm.toBytes F }

def Event.fromBytes (bytes : List UInt8) : Option Event := eventForm.fromBytes F bytes

variable {K F} {e e' : Event}

theorem eq_or_collision_of_hash (h : eventForm.fits e = true) (h' : eventForm.fits e' = true)
    (heq : e.hash (K.onWire F) = e'.hash (K.onWire F)) :
    e = e' ∨ ∃ bytes bytes', bytes ≠ bytes' ∧ K.sha256Hex bytes = K.sha256Hex bytes' := by
  by_cases hbytes : eventForm.toBytes F e = eventForm.toBytes F e'
  · exact .inl (eventForm.toBytes_injective (by decide) h h' hbytes)
  · exact .inr ⟨_, _, hbytes, heq⟩

/-! ## Editions

Events are stored and sent as they were written, and read by an encoder that knows more fields. -/

/-- The encoder, and what it was before certificates could expire, and before that, before an invite
could ask for approval. -/
inductive Edition where
  | beforeApprovals
  | beforeExpiry
  | current
  deriving DecidableEq, Repr

namespace Edition

variable (edition : Edition)

def certCore (c : DeviceCertCore) : Value :=
  match edition with
  | .current => certCoreForm.put c
  | _ => .array [publicKeyForm.put c.identity, publicKeyForm.put c.devicePubkey,
      Form.text.put c.deviceId, u64.put c.createdAt]

def cert (c : DeviceCert) : Value :=
  .array [edition.certCore c.core, Form.bytes.put c.signature]

def invite (p : InviteCreated) : List Value :=
  match edition with
  | .beforeApprovals => [Form.text.put p.codeHash, u32.put p.maxUses, u64.put p.expiresAt]
  | _ => inviteCreatedFields.put p

def payload : EventPayload → Value
  | .deviceAuthorized c => .variant "DeviceAuthorized" (.array [edition.cert c])
  | .inviteCreated p => .variant "InviteCreated" (.array (edition.invite p))
  | p => payloadForm.put p

def core (c : EventCore) : Value :=
  .array [Form.text.put c.serverId, publicKeyForm.put c.author, Form.text.put c.device,
    u64.put c.seq, optionalText.put c.prev, u64.put c.lamport, u64.put c.timestamp,
    edition.payload c.payload]

def event (e : Event) : Value := .array [edition.core e.core, Form.bytes.put e.signature]

def coreBytes (F : Format) (c : EventCore) : List UInt8 := F.encode (edition.core c)

def eventBytes (F : Format) (e : Event) : List UInt8 := F.encode (edition.event e)

/-- The edition has a field for everything that the payload says. -/
def Has : EventPayload → Prop
  | .deviceAuthorized c => edition ≠ .current → c.core.expiresAt = none
  | .inviteCreated p => edition = .beforeApprovals → p.requiresApproval = false
  | _ => True

instance (p : EventPayload) : Decidable (edition.Has p) := by
  unfold Has
  split <;> infer_instance

/-- It is written with a field more now. -/
def Outdated (p : EventPayload) : Prop :=
  edition = .beforeApprovals ∧ ∃ invite, p = .inviteCreated invite

variable {edition} {c : DeviceCertCore} {p : EventPayload}

theorem certCore_eq (h : edition ≠ .current → c.expiresAt = none) :
    edition.certCore c = certCoreForm.put c := by
  cases edition with
  | current => rfl
  | _ =>
    obtain ⟨identity, devicePubkey, deviceId, createdAt, expiresAt⟩ := c
    obtain rfl : expiresAt = none := h (by decide)
    rfl

theorem payload_cases (h : edition.Has p) : edition.payload p = payloadForm.put p ∨
    edition = .beforeApprovals ∧ ∃ invite, p = .inviteCreated invite ∧
      invite.requiresApproval = false := by
  cases p with
  | deviceAuthorized c =>
    left
    rw [payload, cert, certCore_eq h]
    rfl
  | inviteCreated invite =>
    cases edition with
    | beforeApprovals => exact .inr ⟨rfl, invite, rfl, h rfl⟩
    | _ => exact .inl rfl
  | _ => exact .inl rfl

theorem payload_read (h : edition.Has p) (hfits : payloadForm.fits p = true) :
    (edition.payload p).fits = true ∧ payloadForm.get (edition.payload p) = some p := by
  rcases payload_cases h with heq | ⟨rfl, ⟨codeHash, maxUses, expiresAt, _⟩, rfl, rfl⟩
  · rw [heq]
    exact ⟨payloadForm.fits_put p hfits, payloadForm.get_put p hfits⟩
  · have hfields : Form.text.fits codeHash = true ∧ u32.fits maxUses = true ∧
        u64.fits expiresAt = true := by
      simpa [payloadForm, EventPayload.fits, inviteCreatedFields, Fields.as, Fields.cons,
        Fields.defaulted, Form.flag] using hfits
    obtain ⟨hcode, huses, hexpires⟩ := hfields
    constructor
    · refine fits_variant (by decide +kernel) (fits_array (by simp [invite]) ?_)
      simp [invite, Form.fits_put, *]
    · simp [payload, invite, payloadForm, EventPayload.get, EventPayload.ofFields,
        inviteCreatedFields, Fields.as, Fields.cons, Fields.defaulted, Form.get_put, *]

theorem payload_depth (p : EventPayload) : (edition.payload p).depth ≤ 8 := by
  have hcore (c : DeviceCertCore) : (edition.certCore c).depth ≤ 4 := by
    cases edition with
    | current => exact (certCoreForm.depth_put c).trans (by decide)
    | _ =>
      refine depth_array ?_
      simp only [List.forall_mem_cons]
      exact ⟨(publicKeyForm.depth_put _).trans (by decide),
        (publicKeyForm.depth_put _).trans (by decide), Nat.zero_le _, Nat.zero_le _,
        List.forall_mem_nil _⟩
  cases p with
  | deviceAuthorized c =>
    refine (depth_variant (d := 5) (List.forall_mem_singleton.mpr (depth_array ?_))).trans
      (by decide)
    simp only [List.forall_mem_cons]
    exact ⟨hcore c.core, (Form.bytes.depth_put _).trans (by decide), List.forall_mem_nil _⟩
  | inviteCreated invite =>
    cases edition with
    | beforeApprovals =>
      refine depth_variant (d := 0) ?_ |>.trans (by decide)
      simp only [Edition.invite, List.forall_mem_cons]
      exact ⟨Nat.zero_le _, Nat.zero_le _, Nat.zero_le _, List.forall_mem_nil _⟩
    | _ => exact payloadForm.depth_put (.inviteCreated invite)
  | _ => exact payloadForm.depth_put _

variable {core : EventCore} {e : Event}

theorem core_depth (core : EventCore) : (edition.core core).depth ≤ 9 := by
  refine depth_array ?_
  simp only [List.forall_mem_cons]
  exact ⟨Nat.zero_le _, (publicKeyForm.depth_put _).trans (by decide), Nat.zero_le _,
    Nat.zero_le _, (optionalText.depth_put _).trans (by decide), Nat.zero_le _, Nat.zero_le _,
    payload_depth _, List.forall_mem_nil _⟩

theorem event_depth (e : Event) : (edition.event e).depth ≤ 10 := by
  refine depth_array ?_
  simp only [List.forall_mem_cons]
  exact ⟨core_depth _, (Form.bytes.depth_put _).trans (by decide), List.forall_mem_nil _⟩

theorem core_read (h : edition.Has core.payload) (hfits : coreForm.fits core = true) :
    (edition.core core).fits = true ∧ coreForm.get (edition.core core) = some core := by
  obtain ⟨serverId, author, device, seq, prev, lamport, timestamp, payload⟩ := core
  simp only [coreForm, Fields.record, Fields.as, Fields.cons, Fields.one, Bool.and_eq_true] at hfits
  obtain ⟨hserver, hauthor, hdevice, hseq, hprev, hlamport, htimestamp, hpayload⟩ := hfits
  obtain ⟨hfits, hget⟩ := payload_read h hpayload
  constructor
  · refine fits_array (by simp) ?_
    simp [Form.fits_put, *]
  · simp [Edition.core, coreForm, Fields.record, Fields.as, Fields.cons, Fields.one, Form.get_put,
      *]

theorem event_read (h : edition.Has e.core.payload) (hfits : eventForm.fits e = true) :
    (edition.event e).fits = true ∧ eventForm.get (edition.event e) = some e := by
  obtain ⟨core, signature⟩ := e
  simp only [eventForm, Fields.record, Fields.as, Fields.cons, Fields.one,
    Bool.and_eq_true] at hfits
  obtain ⟨hcore, hsignature⟩ := hfits
  obtain ⟨hfits, hget⟩ := core_read h hcore
  constructor
  · refine fits_array (by simp) ?_
    simp [Form.fits_put, *]
  · simp [event, eventForm, Fields.record, Fields.as, Fields.cons, Fields.one, Form.get_put, *]

theorem fromBytes_eventBytes (h : edition.Has e.core.payload) (hfits : eventForm.fits e = true) :
    Event.fromBytes F (edition.eventBytes F e) = some e := by
  obtain ⟨hvalue, hget⟩ := event_read h hfits
  have hdecode := F.decode_encode _ [] hvalue ((event_depth e).trans (by decide))
  rw [List.append_nil] at hdecode
  rw [Event.fromBytes, Form.fromBytes, eventBytes, hdecode, Option.bind_some, hget]

theorem invite_ne (invite : InviteCreated) : payloadForm.put (.inviteCreated invite) ≠
    payload .beforeApprovals (.inviteCreated invite) := by
  simp [payloadForm, EventPayload.put, payload, Edition.invite, inviteCreatedFields, Fields.as,
    Fields.cons, Fields.defaulted]

theorem payload_eq_iff (h : edition.Has p) :
    payloadForm.put p = edition.payload p ↔ ¬edition.Outdated p := by
  rcases payload_cases h with heq | ⟨rfl, invite, rfl, -⟩
  · refine iff_of_true heq.symm ?_
    rintro ⟨rfl, invite, rfl⟩
    exact invite_ne invite heq.symm
  · exact iff_of_false (invite_ne invite) fun hnot => hnot ⟨rfl, invite, rfl⟩

theorem core_eq_iff (core : EventCore) : coreForm.put core = edition.core core ↔
    payloadForm.put core.payload = edition.payload core.payload := by
  simp [Edition.core, coreForm, Fields.record, Fields.as, Fields.cons, Fields.one]

theorem event_eq_iff (e : Event) :
    eventForm.put e = edition.event e ↔ coreForm.put e.core = edition.core e.core := by
  simp [event, eventForm, Fields.record, Fields.as, Fields.cons, Fields.one]

/-- In any format, an event is read back whole from what any edition wrote, and from what none wrote
for another event; and it is written and signed in the same bytes again, unless it is outdated. -/
theorem reencoded_iff (F : Format) (h : edition.Has e.core.payload)
    (hfits : eventForm.fits e = true) :
    Event.fromBytes F (edition.eventBytes F e) = some e ∧
      (∀ (edition' : Edition) (e' : Event), edition'.Has e'.core.payload →
        eventForm.fits e' = true → edition'.eventBytes F e' = edition.eventBytes F e → e' = e) ∧
      (eventForm.toBytes F e = edition.eventBytes F e ↔ ¬edition.Outdated e.core.payload) ∧
      (coreForm.toBytes F e.core = edition.coreBytes F e.core ↔
        ¬edition.Outdated e.core.payload) := by
  have hread := fromBytes_eventBytes (F := F) h hfits
  have hcore : coreForm.fits e.core = true := by
    obtain ⟨core, signature⟩ := e
    simp only [eventForm, Fields.record, Fields.as, Fields.cons, Bool.and_eq_true] at hfits
    exact hfits.1
  have hevents : eventForm.toBytes F e = edition.eventBytes F e ↔
      payloadForm.put e.core.payload = edition.payload e.core.payload := by
    rw [← core_eq_iff, ← event_eq_iff]
    exact ⟨F.encode_injective (eventForm.fits_put e hfits)
      ((eventForm.depth_put e).trans (by decide)) (event_read h hfits).1
      ((event_depth e).trans (by decide)), congrArg F.encode⟩
  have hcores : coreForm.toBytes F e.core = edition.coreBytes F e.core ↔
      payloadForm.put e.core.payload = edition.payload e.core.payload := by
    rw [← core_eq_iff]
    exact ⟨F.encode_injective (coreForm.fits_put e.core hcore)
      ((coreForm.depth_put e.core).trans (by decide)) (core_read h hcore).1
      ((core_depth e.core).trans (by decide)), congrArg F.encode⟩
  rw [hevents, hcores, payload_eq_iff h]
  refine ⟨hread, fun edition' e' h' hfits' heq => ?_, .rfl, .rfl⟩
  rw [← heq, fromBytes_eventBytes h' hfits'] at hread
  exact Option.some.inj hread

/-- An invite from before there were approvals. -/
def oldInvite : Event :=
  ⟨⟨"server", ⟨1⟩, "device", 3, some "previous", 7, 1000, .inviteCreated ⟨"code", 5, 2000, false⟩⟩,
    [1, 2, 3]⟩

theorem reencoded_old_invite :
    let F := MessagePack.format
    Event.fromBytes F (beforeApprovals.eventBytes F oldInvite) = some oldInvite ∧
      (∀ (edition' : Edition) (e' : Event), edition'.Has e'.core.payload →
        eventForm.fits e' = true →
          edition'.eventBytes F e' = beforeApprovals.eventBytes F oldInvite → e' = oldInvite) ∧
      (eventForm.toBytes F oldInvite = beforeApprovals.eventBytes F oldInvite ↔
        ¬beforeApprovals.Outdated oldInvite.core.payload) ∧
      (coreForm.toBytes F oldInvite.core = beforeApprovals.coreBytes F oldInvite.core ↔
        ¬beforeApprovals.Outdated oldInvite.core.payload) :=
  reencoded_iff MessagePack.format (fun _ => rfl) (by decide +kernel)

end Edition

end EventLog
