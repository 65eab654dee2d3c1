import Farder.LogState

/-! # Payload authorization

The read-only half of the fold: the envelope checks and, for every payload, the rule that
decides whether its author may record it. Every rejection carries the source's message. -/
namespace EventLog

open Guarded

namespace LogState

variable (K : Crypto) (s : LogState)

/-- The signing device's key, derived only from a verified certificate. -/
def resolveDevicePubkey (e : Event) : Checked PublicKey :=
  match e.core.payload with
  | .deviceAuthorized cert => do
    withContext (cert.verify K) "device cert is invalid"
    ensure (cert.core.identity = e.core.author) "device cert identity does not match event author"
    ensure (cert.core.deviceId = e.core.device)
      "device cert device_id does not match event device"
    return cert.core.devicePubkey
  | _ => do
    let record ← context (s.devices.lookup e.core.device) "event signed by an unauthorized device"
    ensure (record.identity = e.core.author) "device is authorized to a different identity"
    return record.devicePubkey

/-- A new device brings its own expiry; any other event is bound by the recorded one. -/
def certExpiry (e : Event) : Option ℕ :=
  match e.core.payload with
  | .deviceAuthorized cert => cert.core.expiresAt
  | _ => s.expiryOf e.core.device

def checkChain (e : Event) : Checked Unit :=
  match s.chains.lookup e.leaf with
  | none => do
    ensure (e.core.seq = 0) "first event of a chain must have seq 0"
    ensure (e.core.prev = none) "first event of a chain must have prev = None"
  | some head => do
    ensure (e.core.seq = head.seq + 1) "non-contiguous seq (gap or fork)"
    ensure (e.core.prev = some head.hash) "prev does not link to the chain head (fork)"

def checkInstancePin (device : DeviceId) (hash : Digest) : Checked Unit :=
  ensureIfSome (s.deviceStoreInstance.lookup device) (fun pinned => pinned = hash)
    "store_instance_hash does not match this device's pinned instance (possible clone/restore)"

def checkParent (p : ChannelCreated) : Checked Unit :=
  match p.parent with
  | none => .ok ()
  | some parent => do
    let parentRecord ← context (s.channels.lookup parent)
      "thread parent channel is unknown to the log"
    ensure (parentRecord.cls = p.cls) "thread child must inherit its parent's class"

def checkChannelCreated (author : PublicKey) (p : ChannelCreated) : Checked Authorized := do
  ensure (s.IsOwner author) "only the owner may create channels"
  ensure (p.channelId ∉ s.channels) "channel_id already exists (channel identity is immutable)"
  ensure (p.channelId ∉ s.plaintextHistoryChannels)
    "channel already has plaintext history in the log (a legacy channel is permanently plaintext)"
  s.checkParent p
  return .apply

def checkDeleteReason (author : PublicKey) (reason : DeleteReason) : Checked Unit :=
  match reason with
  | .moderation => ensure (s.HasCapability author "kick") "missing 'kick' capability"
  | .author => ensure (s.IsMember author) "only members may delete their messages"

def checkMessageDeleted (author : PublicKey) (p : MessageDeleted) : Checked Authorized := do
  ensure (p.channelId ∈ s.channels) "MessageDeleted cites a channel unknown to the log"
  ensure (p.target ∉ s.tombstones) "target already tombstoned"
  s.checkDeleteReason author p.reason
  return .apply

def liveKeyPackages (leaf : Leaf) : ℕ :=
  ((s.keyPackages.lookup leaf).map fun m =>
    (m.values.filter fun exp => exp > s.logPos).card).getD 0

def checkKeyPackagePublished (e : Event) (p : MlsKeyPackagePublished) : Checked Authorized := do
  ensure (s.IsFullMember e.core.author) "only full members may publish key packages"
  s.checkInstancePin e.core.device p.storeInstanceHash
  ensure (p.expiresAtLogPos > s.logPos) "key package is already expired at its publish log position"
  ensure (s.liveKeyPackages e.leaf < maxLiveKeyPackagesPerDevice)
    "device already has the maximum number of live key packages"
  return .apply

def checkDeclaredAdd (e : Event) (group : MlsGroupRecord) (add : DeclaredAdd) : Checked Unit := do
  ensure (s.IsFullMember add.identity) "declared add of a non-member"
  ensure (¬s.IsBanned add.identity) "declared add of a banned identity"
  ensure (add.device ∈ s.judgedLiveDevices add.identity e.core.timestamp)
    "declared add of a device that is not live (unknown, revoked, or cert-expired)"
  ensure (add.keyPackage ∉ s.consumedKeyPackages) "declared add cites a consumed key package"
  ensure (∃ exp ∈ (s.keyPackages.lookup add.leaf).bind fun m => m.lookup add.keyPackage,
      exp > s.logPos)
    "declared add does not cite a live key package of exactly that (identity, device)"
  ensure (add.leaf ∉ group.leavesConfirmed ∧ add.leaf ∉ group.leavesPending)
    "declared add of a leaf that is already present or pending"
  ensure ((∃ leaf ∈ group.leavesConfirmed, leaf.1 = add.identity) → e.core.author = add.identity)
    "self-add rule: only the identity itself may add its additional devices"

/-- A confirmed leaf of a member in good standing is removed by that member only; a leaf
that was never confirmed is not a member of the tree and anybody in it may drop it. -/
def checkDeclaredRemove (e : Event) (group : MlsGroupRecord) (rem : DeclaredRemove) :
    Checked Unit := do
  ensure (rem.leaf ∈ group.leavesConfirmed ∨ rem.leaf ∈ group.leavesPending)
    "declared remove of an absent leaf"
  ensure (rem.leaf ∈ group.leavesConfirmed →
      ¬s.LeafHolderInGoodStanding rem.identity rem.device e.core.timestamp ∨
        e.core.author = rem.identity)
    "cannot remove a leaf of a member in good standing (except self-removal)"

/-- While nobody holds a confirmed leaf, the channel's creator speaks. -/
def checkCommitAuthor (e : Event) (p : MlsCommit) (group : MlsGroupRecord) : Checked Unit :=
  if group.leavesConfirmed = ∅ then
    ensure ((s.channels.lookup p.channelId).map ChannelRecord.creator = some e.core.author)
      "a generation's bootstrap commit must be authored by the channel's creator"
  else
    ensure (e.leaf ∈ group.leavesConfirmed) "commit author does not hold a confirmed leaf"

def checkCurrentCommit (e : Event) (p : MlsCommit) (group : MlsGroupRecord) :
    Checked Authorized := do
  s.checkInstancePin e.core.device p.storeInstanceHash
  ensure (s.IsFullMember e.core.author) "only full members may author MLS commits"
  s.checkCommitAuthor e p group
  ensureIfSome group.epochAuthenticator (fun expected => p.prevEpochAuthenticator = expected)
    "commit does not chain onto the previous commit's declared authenticator"
  forAll p.adds (s.checkDeclaredAdd e group)
  forAll p.removes (s.checkDeclaredRemove e group)
  ensure (s.CommitDischargesDrift e ∨ group.CeilingDemandsRekey ∨
      ∀ last ∈ group.lastCommitEpochByAuthor.lookup e.core.author,
        last + group.commitRateGap ≤ p.epoch)
    s!"commit-rate rule: a non-drift-discharging commit must be its author's first or at least {group.commitRateGap} epochs past their previous one"
  return .apply

def checkMlsCommit (e : Event) (p : MlsCommit) : Checked Authorized := do
  let group ← context (s.mlsGroups.lookup p.channelId)
    "MlsCommit cites a channel with no E2ee group"
  ensure (p.generation = group.generation) "commit generation does not match the group"
  -- One winner per epoch: a loser is recorded and ignored, before any other check.
  if p.epoch = group.epoch then s.checkCurrentCommit e p group else return .staleCommitNoOp

/-- The normal join flow in the current generation, or reset staging for the next one. -/
def checkWelcomeScope (e : Event) (p : MlsWelcome) (group : MlsGroupRecord) : Checked Unit :=
  if p.generation = group.generation then do
    ensure (e.leaf ∈ group.leavesConfirmed) "welcome author does not hold a confirmed leaf"
    ensure ((p.forMember, p.forDevice) ∈ group.leavesPending)
      "welcome target leaf is not pending"
    ensure (∃ c ∈ group.commitsByEpoch.values, c.eventHash = p.commit)
      "welcome cites a commit the fold has not recorded"
  else if p.generation = group.generation + 1 then
    ensure (s.IsOwner e.core.author) "next-generation (reset-staging) welcomes are owner-only"
  else
    .error (.rejected "welcome generation is neither the current one nor current + 1")

def checkMlsWelcome (e : Event) (p : MlsWelcome) : Checked Authorized := do
  let group ← context (s.mlsGroups.lookup p.channelId)
    "MlsWelcome cites a channel with no E2ee group"
  ensure (s.IsFullMember e.core.author) "only full members may author MLS welcomes"
  s.checkWelcomeScope e p group
  return .apply

/-- A confirmation quotes the tree of a recorded commit; only a leaf that the reset itself
staged may quote the tree that the resetter declared. -/
def checkConfirmedTree (leaf : Leaf) (group : MlsGroupRecord) (p : MlsLeafConfirmed) :
    Checked Unit :=
  match group.commitsByEpoch.lookup p.epoch with
  | some record =>
    ensure (record.postTreeHash = p.treeHash)
      "confirmed tree hash does not match the cited epoch's commit"
  | none =>
    match decide (leaf ∈ group.resetWelcomed), group.resetExpectedTreeHash with
    | true, some expected =>
      ensure (expected = p.treeHash)
        "confirmed tree hash does not match the tree hash the reset declared"
    | _, _ => .error (.rejected "leaf confirmation cites an epoch with no recorded commit")

def checkMlsLeafConfirmed (e : Event) (p : MlsLeafConfirmed) : Checked Authorized := do
  let group ← context (s.mlsGroups.lookup p.channelId)
    "MlsLeafConfirmed cites a channel with no E2ee group"
  ensure (s.IsFullMember e.core.author) "only full members may confirm an MLS leaf"
  ensure (p.generation = group.generation)
    "leaf confirmation generation does not match the group"
  ensure (e.leaf ∈ group.leavesPending)
    "leaf confirmation must come from the joining device of a pending leaf"
  s.checkInstancePin e.core.device p.storeInstanceHash
  checkConfirmedTree e.leaf group p
  return .apply

def checkSealedSend (e : Event) (channelId generation epoch : ℕ) : Checked Unit := do
  let cls ← context (s.channelClass channelId)
    "sealed content cites a channel unknown to the log"
  ensure (cls = .e2ee) "sealed content is invalid in a Plaintext channel"
  let group ← expect (s.mlsGroups.lookup channelId)
    "every E2ee channel is created with an MLS group"
  ensure (s.IsFullMember e.core.author) "only full members may send sealed content"
  ensure (e.leaf ∈ group.leavesConfirmed) "sealed content author does not hold a confirmed leaf"
  ensure (generation = group.generation) "sealed content generation does not match the group"
  ensure (epoch = group.epoch) "sealed content does not cite the group's current epoch"
  ensure (s.pendingRemovals channelId e.core.timestamp = ∅)
    "channel is sealed until a rekey discharges its pending removals"
  ensure (group.eventsSinceLastCommit < freshnessCeilingEvents)
    "freshness ceiling reached: the channel is sealed until somebody rekeys"
  ensure (¬group.ResetIncomplete)
    "group reset is incomplete: the channel is sealed until every welcomed leaf confirms or is removed"

/-- Resolve one staged Welcome of a reset; the accumulator holds the leaves welcomed and
the references seen so far. -/
def stageWelcome (group : MlsGroupRecord) (newGeneration : ℕ)
    (acc : Finset Leaf × Finset EventRef) (r : EventRef) :
    Checked (Finset Leaf × Finset EventRef) := do
  ensure (r ∉ acc.2) "reset welcomes contain a duplicate reference"
  let record ← context (group.welcomes.lookup r) "reset cites a welcome the fold has not recorded"
  ensure (record.generation = newGeneration)
    "reset cites a welcome staged for a different generation"
  return (insert record.leaf acc.1, insert r acc.2)

def checkMlsGroupReset (e : Event) (p : MlsGroupReset) : Checked Authorized := do
  ensure (s.IsOwner e.core.author) "only the owner may reset an MLS group"
  let group ← context (s.mlsGroups.lookup p.channelId)
    "MlsGroupReset cites a channel with no E2ee group"
  ensure (p.newGeneration = group.generation + 1)
    "a reset must advance the generation by exactly one"
  ensure (group.generation = 0 ∨ group.ResetIncomplete ∨
      resetMinChannelEvents ≤ group.channelEventsSinceReset)
    s!"reset rate limit: at most one reset per {resetMinChannelEvents} channel events"
  let staged ← p.welcomes.foldlM (stageWelcome group p.newGeneration) (∅, ∅)
  ensure (staged.1 = (s.memberLeafSet e.core.timestamp).erase e.leaf)
    "non-selective reset: welcomes must cover exactly the fold's members x live devices (minus the resetter's own device)"
  return .apply

def checkPayloadAuthz (e : Event) : Checked Authorized :=
  let author := e.core.author
  match e.core.payload with
  | .deviceAuthorized _ => do
    ensure ((s.liveDevices author e.core.timestamp).card < maxLiveDevicesPerIdentity)
      "identity already has the maximum number of live devices"
    return .apply
  | .inviteCreated _ => do
    ensure (s.HasCapability author "invite") "missing 'invite' capability"
    return .apply
  | .memberJoined member invite => do
    ensure (member = author) "MemberJoined must be self-authored"
    ensure (¬s.IsMember author) "already a member"
    ensure (¬s.IsPending author) "already pending approval"
    let inv ← context (s.invites.lookup invite) "join cites an unknown invite"
    ensure (inv.useCount < inv.maxUses) "invite has no uses left"
    ensure (e.core.timestamp ≤ inv.expiresAt) "invite has expired"
    return .apply
  | .memberApproved member => do
    ensure (s.HasCapability author "kick") "missing 'kick' capability"
    ensure (s.IsPending member) "target is not pending approval"
    return .apply
  | .messagePosted p => do
    ensure (s.IsMember author) "only members may post"
    ensureIfSome (s.channels.lookup p.channelId) (fun ch => ch.cls = .plaintext)
      "plaintext MessagePosted is invalid in an E2ee channel"
    return .apply
  | .memberRemoved member => do
    ensure (s.IsMember member ∨ s.IsPending member) "target is neither a member nor pending"
    ensure (member = author ∨ s.HasCapability author "kick")
      "must be the member (leave) or hold 'kick'"
    return .apply
  | .memberBanned member => do
    ensure (s.HasCapability author "ban") "missing 'ban' capability"
    ensure (¬s.IsOwner member) "the owner cannot be banned"
    return .apply
  | .memberUnbanned _ => do
    ensure (s.HasCapability author "ban") "missing 'ban' capability"
    return .apply
  | .permissionGranted member capability => do
    ensure (s.IsMember member) "grantee is not a member"
    ensure (s.IsOwner author ∨ s.HasCapability author capability)
      "cannot grant a capability you do not hold"
    return .apply
  | .attachmentRedacted contentHash => do
    let uploader ← context (s.attachmentUploaders.lookup contentHash)
      "redaction cites an unknown attachment"
    ensure (author = uploader ∨ s.HasCapability author "kick")
      "must be the uploader or hold 'kick'"
    ensure (contentHash ∉ s.redactedAttachments) "attachment already redacted"
    return .apply
  | .channelCreated p => s.checkChannelCreated author p
  | .messageDeleted p => s.checkMessageDeleted author p
  | .deviceRevoked device => do
    let record ← context (s.devices.lookup device) "revocation cites an unknown device"
    ensure (device ∉ s.revokedDevices) "device already revoked"
    ensure (author = record.identity ∨ s.IsOwner author)
      "only the owning identity or the server owner may revoke a device"
    return .apply
  | .mlsKeyPackagePublished p => s.checkKeyPackagePublished e p
  | .mlsCommit p => s.checkMlsCommit e p
  | .mlsWelcome p => s.checkMlsWelcome e p
  | .mlsLeafConfirmed p => s.checkMlsLeafConfirmed e p
  | .messagePostedE2ee p => do
    s.checkSealedSend e p.channelId p.generation p.epoch
    return .apply
  | .messageEditedE2ee p => do
    s.checkSealedSend e p.channelId p.generation p.epoch
    ensure (p.target ∉ s.tombstones) "edit target is tombstoned"
    return .apply
  | .mlsGroupReset p => s.checkMlsGroupReset e p

end LogState
end EventLog
