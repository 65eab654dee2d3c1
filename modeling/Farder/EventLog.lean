import Farder.Support.Guarded
import Mathlib.Data.List.Basic

/-! # The signed event log

Identities, device certificates, payloads and signed events. Timestamps, counters and
identifiers of type `u64` and `u32` are natural numbers: the fold only compares and
increments them. Hashing, signing and the canonical encodings are parameters. -/
namespace EventLog

open Guarded

structure PublicKey where
  bytes : BitVec 256
  deriving DecidableEq, Repr

/-- The 32 bytes of the key, most significant first. -/
def PublicKey.asBytes (pk : PublicKey) : List UInt8 :=
  (List.range 32).map fun i => UInt8.ofNat (pk.bytes.toNat >>> (8 * (31 - i)))

def hexEncode (bytes : List UInt8) : String :=
  String.ofList (bytes.flatMap fun b =>
    [Nat.digitChar (b.toNat / 16), Nat.digitChar (b.toNat % 16)])

def PublicKey.text (pk : PublicKey) : String := "vk_" ++ hexEncode pk.asBytes

structure Keypair where
  signingKey : BitVec 256
  deriving DecidableEq, Repr

abbrev ServerId := String
abbrev DeviceId := String
abbrev EventHash := String
abbrev EventRef := EventHash
/-- A 32-byte digest: an epoch authenticator, a tree hash or a store-instance hash. -/
abbrev Digest := BitVec 256
/-- A place in a group's ratchet tree: an identity and one of its devices. -/
abbrev Leaf := PublicKey × DeviceId

structure Genesis where
  version : ℕ
  name : String
  owner : PublicKey
  createdAt : ℕ
  nonce : BitVec 128
  deriving DecidableEq, Repr

structure DeviceCertCore where
  identity : PublicKey
  devicePubkey : PublicKey
  deviceId : DeviceId
  createdAt : ℕ
  expiresAt : Option ℕ
  deriving DecidableEq, Repr

structure DeviceCert where
  core : DeviceCertCore
  signature : List UInt8
  deriving DecidableEq, Repr

structure AttachmentCap where
  contentHash : String
  declaredType : String
  size : ℕ
  uploader : PublicKey
  deriving DecidableEq, Repr

inductive ChannelClass where
  | plaintext
  | e2ee
  deriving DecidableEq, Repr

structure DeclaredAdd where
  identity : PublicKey
  device : DeviceId
  keyPackage : EventRef
  deriving DecidableEq, Repr

structure DeclaredRemove where
  identity : PublicKey
  device : DeviceId
  deriving DecidableEq, Repr

def DeclaredAdd.leaf (add : DeclaredAdd) : Leaf := (add.identity, add.device)
def DeclaredRemove.leaf (rem : DeclaredRemove) : Leaf := (rem.identity, rem.device)

inductive DeleteReason where
  | author
  | moderation
  deriving DecidableEq, Repr

structure MessagePosted where
  channelId : ℕ
  content : String
  replyTo : Option EventRef
  attachments : List AttachmentCap
  deriving DecidableEq, Repr

structure InviteCreated where
  codeHash : String
  maxUses : ℕ
  expiresAt : ℕ
  requiresApproval : Bool
  deriving DecidableEq, Repr

structure ChannelCreated where
  channelId : ℕ
  name : String
  kind : String
  cls : ChannelClass
  parent : Option ℕ
  deriving DecidableEq, Repr

structure MlsKeyPackagePublished where
  keyPackage : List UInt8
  storeInstanceHash : Digest
  expiresAtLogPos : ℕ
  deriving DecidableEq, Repr

structure MlsCommit where
  channelId : ℕ
  generation : ℕ
  epoch : ℕ
  mlsMessage : List UInt8
  adds : List DeclaredAdd
  removes : List DeclaredRemove
  prevEpochAuthenticator : Digest
  postEpochAuthenticator : Digest
  postTreeHash : Digest
  authzHead : EventHash
  storeInstanceHash : Digest
  deriving DecidableEq, Repr

structure MlsWelcome where
  channelId : ℕ
  generation : ℕ
  commit : EventRef
  forMember : PublicKey
  forDevice : DeviceId
  welcome : List UInt8
  deriving DecidableEq, Repr

structure MlsLeafConfirmed where
  channelId : ℕ
  generation : ℕ
  epoch : ℕ
  treeHash : Digest
  storeInstanceHash : Digest
  deriving DecidableEq, Repr

structure MlsGroupReset where
  channelId : ℕ
  newGeneration : ℕ
  welcomes : List EventRef
  postTreeHash : Digest
  deriving DecidableEq, Repr

structure MessagePostedE2ee where
  channelId : ℕ
  generation : ℕ
  epoch : ℕ
  ciphertext : List UInt8
  replyTo : Option EventRef
  attachments : List AttachmentCap
  authzHead : EventHash
  deriving DecidableEq, Repr

structure MessageEditedE2ee where
  channelId : ℕ
  target : EventRef
  generation : ℕ
  epoch : ℕ
  ciphertext : List UInt8
  authzHead : EventHash
  deriving DecidableEq, Repr

structure MessageDeleted where
  channelId : ℕ
  target : EventRef
  reason : DeleteReason
  deriving DecidableEq, Repr

/-- The action an event records, one constructor for each variant of the wire enum. -/
inductive EventPayload where
  | messagePosted (p : MessagePosted)
  | deviceAuthorized (cert : DeviceCert)
  | inviteCreated (p : InviteCreated)
  | memberJoined (member : PublicKey) (invite : EventRef)
  | memberApproved (member : PublicKey)
  | memberRemoved (member : PublicKey)
  | memberBanned (member : PublicKey)
  | memberUnbanned (member : PublicKey)
  | permissionGranted (member : PublicKey) (capability : String)
  | attachmentRedacted (contentHash : String)
  | channelCreated (p : ChannelCreated)
  | mlsKeyPackagePublished (p : MlsKeyPackagePublished)
  | mlsCommit (p : MlsCommit)
  | mlsWelcome (p : MlsWelcome)
  | mlsLeafConfirmed (p : MlsLeafConfirmed)
  | mlsGroupReset (p : MlsGroupReset)
  | messagePostedE2ee (p : MessagePostedE2ee)
  | messageEditedE2ee (p : MessageEditedE2ee)
  | messageDeleted (p : MessageDeleted)
  | deviceRevoked (device : DeviceId)
  deriving DecidableEq, Repr

structure EventCore where
  serverId : ServerId
  author : PublicKey
  device : DeviceId
  seq : ℕ
  prev : Option EventHash
  lamport : ℕ
  timestamp : ℕ
  payload : EventPayload
  deriving DecidableEq, Repr

/-- A signed event: the signature is by the device subkey, over the canonical core. -/
structure Event where
  core : EventCore
  signature : List UInt8
  deriving DecidableEq, Repr

def Event.leaf (e : Event) : Leaf := (e.core.author, e.core.device)

/-- What the log takes from its libraries: SHA-256 in hex, the Ed25519 operations and the
MessagePack encodings. -/
structure Crypto where
  sha256Hex : List UInt8 → String
  publicKey : Keypair → PublicKey
  sign : Keypair → List UInt8 → List UInt8
  verify : PublicKey → List UInt8 → List UInt8 → Bool
  genesisBytes : Genesis → List UInt8
  certCoreBytes : DeviceCertCore → List UInt8
  coreBytes : EventCore → List UInt8
  eventBytes : Event → List UInt8

variable (K : Crypto)

def Genesis.serverId (g : Genesis) : ServerId := K.sha256Hex (K.genesisBytes g)

def deviceId (devicePubkey : PublicKey) : DeviceId := K.sha256Hex devicePubkey.asBytes

def PublicKey.verify (pk : PublicKey) (message signature : List UInt8) : Checked Unit :=
  ensure (K.verify pk message signature = true) "signature verification failed"

def DeviceCert.createInner (identity : Keypair) (devicePubkey : PublicKey) (createdAt : ℕ)
    (expiresAt : Option ℕ) : DeviceCert :=
  let core : DeviceCertCore :=
    ⟨K.publicKey identity, devicePubkey, deviceId K devicePubkey, createdAt, expiresAt⟩
  ⟨core, K.sign identity (K.certCoreBytes core)⟩

def DeviceCert.verify (cert : DeviceCert) : Checked Unit := do
  ensure (cert.core.deviceId = EventLog.deviceId K cert.core.devicePubkey)
    "device_id does not match device_pubkey"
  cert.core.identity.verify K (K.certCoreBytes cert.core) cert.signature

def Event.sign (core : EventCore) (device : Keypair) : Event :=
  ⟨core, K.sign device (K.coreBytes core)⟩

def Event.verify (e : Event) (devicePubkey : PublicKey) : Checked Unit :=
  devicePubkey.verify K (K.coreBytes e.core) e.signature

def Event.hash (e : Event) : EventHash := K.sha256Hex (K.eventBytes e)

def Event.next (device : Keypair) (author : PublicKey) (serverId : ServerId)
    (prev : Option Event) (lamportObserved timestamp : ℕ) (payload : EventPayload) : Event :=
  let core : EventCore :=
    { serverId, author
      device := EventLog.deviceId K (K.publicKey device)
      seq := match prev with
        | some p => p.core.seq + 1
        | none => 0
      prev := prev.map fun p => p.hash K
      lamport := lamportObserved + 1
      timestamp, payload }
  Event.sign K core device

@[simp] theorem verify_cert_eq_ok {cert : DeviceCert} {u : Unit} :
    cert.verify K = .ok u ↔ cert.core.deviceId = deviceId K cert.core.devicePubkey ∧
      K.verify cert.core.identity (K.certCoreBytes cert.core) cert.signature = true := by
  simp [DeviceCert.verify, PublicKey.verify]

@[simp] theorem verify_event_eq_ok {e : Event} {pk : PublicKey} {u : Unit} :
    e.verify K pk = .ok u ↔ K.verify pk (K.coreBytes e.core) e.signature = true := by
  simp [Event.verify, PublicKey.verify]

@[simp] theorem panics_verify_cert (cert : DeviceCert) : ¬Panics (cert.verify K) := by
  simp [DeviceCert.verify, PublicKey.verify]

@[simp] theorem panics_verify_event (e : Event) (pk : PublicKey) : ¬Panics (e.verify K pk) := by
  simp [Event.verify, PublicKey.verify]

end EventLog
