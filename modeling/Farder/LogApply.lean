import Farder.LogAuthz

/-! # Applying events

The effects of authorized payloads, and the fold itself. An effect fails only where the
source asserts that a group exists; a failed event leaves the caller's state unchanged. -/
namespace EventLog

open Guarded

namespace MlsGroupRecord

/-- The next applied commit is a generation's first, or nobody holds a confirmed leaf. -/
def Bootstraps (g : MlsGroupRecord) : Prop :=
  g.epochAuthenticator = none ∨ g.leavesConfirmed = ∅

instance (g : MlsGroupRecord) : Decidable g.Bootstraps :=
  inferInstanceAs (Decidable (_ ∨ _))

/-- The group after an applied commit. Adds come before removes, and the author of a
bootstrap commit is the tree by construction. -/
def applyCommit (g : MlsGroupRecord) (leaf : Leaf) (eventHash : EventHash) (p : MlsCommit)
    (voidObligations : Finset Leaf) : MlsGroupRecord :=
  let pending := p.adds.foldl (fun t add => insert add.leaf t) g.leavesPending
  let pending := p.removes.foldl (fun t rem => t.erase rem.leaf) pending
  let confirmed := p.removes.foldl (fun t rem => t.erase rem.leaf) g.leavesConfirmed
  { g with
    epoch := p.epoch + 1
    commitHead := some eventHash
    epochAuthenticator := some p.postEpochAuthenticator
    treeHash := some p.postTreeHash
    commitsByEpoch := g.commitsByEpoch.insert (p.epoch + 1) ⟨eventHash, p.postTreeHash⟩
    leavesPending := if g.Bootstraps then pending.erase leaf else pending
    leavesConfirmed := if g.Bootstraps then insert leaf confirmed else confirmed
    resetWelcomed := g.resetWelcomed.filter fun l => l ∉ voidObligations
    eventsSinceLastCommit := 0
    lastCommitEpochByAuthor := g.lastCommitEpochByAuthor.insert leaf.1 p.epoch }

def recordWelcome (g : MlsGroupRecord) (eventHash : EventHash) (p : MlsWelcome) :
    MlsGroupRecord :=
  { g with
    welcomes := g.welcomes.insert eventHash ⟨p.generation, p.forMember, p.forDevice⟩ }

def confirmLeaf (g : MlsGroupRecord) (leaf : Leaf) : MlsGroupRecord :=
  { g with
    leavesPending := g.leavesPending.erase leaf
    leavesConfirmed := insert leaf g.leavesConfirmed }

def stagedLeaves (g : MlsGroupRecord) (welcomes : List EventRef) : Finset Leaf :=
  (welcomes.filterMap fun r => (g.welcomes.lookup r).map WelcomeRecord.leaf).toFinset

/-- The group of the new generation: the resetter is its only confirmed leaf, and the
staged leaves are both pending and owed. -/
def applyReset (g : MlsGroupRecord) (creator : Leaf) (p : MlsGroupReset) : MlsGroupRecord :=
  let welcomed := g.stagedLeaves p.welcomes
  { g with
    generation := p.newGeneration
    epoch := 1
    commitHead := none
    epochAuthenticator := none
    treeHash := none
    leavesConfirmed := {creator}
    leavesPending := welcomed
    resetWelcomed := welcomed
    eventsSinceLastCommit := 0
    channelEventsSinceReset := 0
    lastCommitEpochByAuthor := ∅
    commitsByEpoch := ∅
    welcomes := g.welcomes.retain fun _ w => p.newGeneration ≤ w.generation
    resetExpectedTreeHash := some p.postTreeHash }

def bumpResetCounter (g : MlsGroupRecord) : MlsGroupRecord :=
  { g with channelEventsSinceReset := saturatingAdd g.channelEventsSinceReset 1 }

/-- Sealed content spends both the freshness and the reset budget. -/
def bumpChannelCounters (g : MlsGroupRecord) : MlsGroupRecord :=
  bumpResetCounter { g with eventsSinceLastCommit := saturatingAdd g.eventsSinceLastCommit 1 }

end MlsGroupRecord

structure KeyPackageStore where
  live : FiniteMap Leaf (FiniteMap EventRef ℕ)
  consumed : FiniteMap EventRef ℕ

/-- A cited KeyPackage moves from the live refs of its device to the consumed refs. -/
def KeyPackageStore.consume (store : KeyPackageStore) (add : DeclaredAdd) : KeyPackageStore :=
  match store.live.lookup add.leaf with
  | none => store
  | some m =>
    match m.lookup add.keyPackage with
    | none => store
    | some exp =>
      ⟨store.live.insert add.leaf (m.erase add.keyPackage),
        store.consumed.insert add.keyPackage exp⟩

namespace LogState

variable (K : Crypto) (s : LogState)

def pinInstance (device : DeviceId) (hash : Digest) : LogState :=
  { s with deviceStoreInstance := s.deviceStoreInstance.orInsert device hash }

def recordUploaders (attachments : List AttachmentCap) : LogState :=
  { s with
    attachmentUploaders := attachments.foldl (fun m cap => m.orInsert cap.contentHash cap.uploader)
      s.attachmentUploaders }

def authorizeDevice (e : Event) (cert : DeviceCert) (devicePubkey : PublicKey) : LogState :=
  { s with
    devices := s.devices.insert e.core.device ⟨e.core.author, devicePubkey, cert.core.expiresAt⟩
    devicesByIdentity := s.devicesByIdentity.insert e.core.author
      (insert e.core.device (s.devicesOf e.core.author)) }

def requiresApproval (invite : EventRef) : Bool :=
  ((s.invites.lookup invite).map InviteRecord.requiresApproval).getD false

def joinMember (member : PublicKey) (invite : EventRef) : LogState :=
  { s with
    pending := if s.requiresApproval invite then insert member s.pending else s.pending
    members := if s.requiresApproval invite then s.members else insert member s.members
    invites := s.invites.adjust invite fun inv => { inv with useCount := inv.useCount + 1 } }

def removeMember (member : PublicKey) : LogState :=
  { s with
    members := s.members.erase member
    pending := s.pending.erase member
    capabilities := s.capabilities.erase member }

def createChannel (author : PublicKey) (p : ChannelCreated) : LogState :=
  { s with
    channels := s.channels.insert p.channelId ⟨p.name, p.kind, p.cls, p.parent, author⟩
    mlsGroups := if p.cls = .e2ee then s.mlsGroups.insert p.channelId MlsGroupRecord.new
      else s.mlsGroups }

/-- Expired refs of the device are pruned when a new one is published. -/
def publishKeyPackage (e : Event) (p : MlsKeyPackagePublished) : LogState :=
  let s := s.pinInstance e.core.device p.storeInstanceHash
  let entry := ((s.keyPackages.lookup e.leaf).getD ∅).retain fun _ exp => exp > s.logPos
  { s with keyPackages := s.keyPackages.insert e.leaf (entry.insert (e.hash K) p.expiresAtLogPos) }

def consumeKeyPackages (adds : List DeclaredAdd) : LogState :=
  let store := adds.foldl KeyPackageStore.consume ⟨s.keyPackages, s.consumedKeyPackages⟩
  { s with keyPackages := store.live, consumedKeyPackages := store.consumed }

/-- The staged leaves whose holder the fold no longer owes a leaf, judged before the
commit takes effect. -/
def voidObligations (channelId atTs : ℕ) : Finset Leaf :=
  ((s.mlsGroups.lookup channelId).map fun g =>
    g.resetWelcomed.filter fun l => ¬s.LeafHolderInGoodStanding l.1 l.2 atTs).getD ∅

def updateGroup (channelId : ℕ) (f : MlsGroupRecord → MlsGroupRecord) : Checked LogState := do
  let group ← expect (s.mlsGroups.lookup channelId) "authz verified the group exists"
  return { s with mlsGroups := s.mlsGroups.insert channelId (f group) }

def bumpGroup (channelId : ℕ) (f : MlsGroupRecord → MlsGroupRecord) : LogState :=
  { s with mlsGroups := s.mlsGroups.adjust channelId f }

def applyPayloadEffect (e : Event) (devicePubkey : PublicKey) : Checked LogState :=
  match e.core.payload with
  | .deviceAuthorized cert => return s.authorizeDevice e cert devicePubkey
  | .inviteCreated p =>
    return { s with
      invites := s.invites.insert (e.hash K) ⟨p.maxUses, p.expiresAt, 0, p.requiresApproval⟩ }
  | .memberJoined member invite => return s.joinMember member invite
  | .memberApproved member =>
    return { s with pending := s.pending.erase member, members := insert member s.members }
  | .messagePosted p =>
    return { s.recordUploaders p.attachments with
      plaintextHistoryChannels :=
        if p.channelId ∉ s.channels then insert p.channelId s.plaintextHistoryChannels
        else s.plaintextHistoryChannels }
  | .memberRemoved member => return s.removeMember member
  | .memberBanned member => return { s with banned := insert member s.banned }.removeMember member
  | .memberUnbanned member => return { s with banned := s.banned.erase member }
  | .permissionGranted member capability =>
    return { s with
      capabilities := s.capabilities.insert member
        (insert capability ((s.capabilities.lookup member).getD ∅)) }
  | .attachmentRedacted contentHash =>
    return { s with redactedAttachments := insert contentHash s.redactedAttachments }
  | .channelCreated p => return s.createChannel e.core.author p
  | .messageDeleted p =>
    -- A tombstone is a channel event for the reset clock; it spends no freshness.
    return { s with tombstones := insert p.target s.tombstones }.bumpGroup p.channelId
      MlsGroupRecord.bumpResetCounter
  | .deviceRevoked device => return { s with revokedDevices := insert device s.revokedDevices }
  | .mlsKeyPackagePublished p => return s.publishKeyPackage K e p
  | .mlsCommit p =>
    let void := s.voidObligations p.channelId e.core.timestamp
    ((s.pinInstance e.core.device p.storeInstanceHash).consumeKeyPackages p.adds).updateGroup
      p.channelId fun g => g.applyCommit e.leaf (e.hash K) p void
  | .mlsWelcome p => s.updateGroup p.channelId fun g => g.recordWelcome (e.hash K) p
  | .mlsLeafConfirmed p =>
    (s.pinInstance e.core.device p.storeInstanceHash).updateGroup p.channelId fun g =>
      g.confirmLeaf e.leaf
  | .messagePostedE2ee p =>
    return (s.recordUploaders p.attachments).bumpGroup p.channelId
      MlsGroupRecord.bumpChannelCounters
  | .messageEditedE2ee p =>
    return s.bumpGroup p.channelId MlsGroupRecord.bumpChannelCounters
  | .mlsGroupReset p => s.updateGroup p.channelId fun g => g.applyReset e.leaf p

def advanceChain (e : Event) : LogState :=
  { s with chains := s.chains.insert e.leaf ⟨e.core.seq, e.hash K⟩ }

/-- The bookkeeping of every accepted event, stale commits included: the author's chain
head, the log position, the author's clock floor and the log's corroborated clock. -/
def recordAccepted (e : Event) : LogState :=
  let s := s.advanceChain K e
  let identityClock := s.identityClock.insert e.core.author
    (max (s.identityFloor e.core.author) e.core.timestamp)
  { s with
    logPos := s.logPos + 1
    identityClock
    corroboratedClock := recomputeCorroboratedClock identityClock }

def checkEnvelope (e : Event) : Checked PublicKey := do
  ensure (e.core.serverId = s.serverId) "event server_id does not match this server"
  let devicePubkey ← s.resolveDevicePubkey K e
  withContext (e.verify K devicePubkey) "event signature is invalid"
  ensure (e.core.device ∉ s.revokedDevices) "device has been revoked"
  ensureIfSome (s.certExpiry e) (fun t => s.selfLivenessTs e.core.author e.core.timestamp ≤ t)
    "device cert has expired"
  ensure (¬s.IsBanned e.core.author) "author is banned"
  s.checkChain e
  return devicePubkey

def apply (e : Event) : Checked LogState := do
  let devicePubkey ← s.checkEnvelope K e
  let authorized ← s.checkPayloadAuthz e
  let s' ← if authorized = .apply then s.applyPayloadEffect K e devicePubkey else pure s
  return s'.recordAccepted K e

/-- Fold a log from genesis, rejecting on the first invalid event. -/
def replay (g : Genesis) (events : List Event) : Checked LogState :=
  events.foldlM (fun s e => s.apply K e) (fromGenesis K g)

end LogState
end EventLog
