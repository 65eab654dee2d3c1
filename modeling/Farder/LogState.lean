import Farder.EventLog
import Farder.Support.FiniteMap
import Mathlib.Data.Finset.Union
import Mathlib.Data.Multiset.Fold

/-! # The authorization state

The state folded from a server's event log, and its queries. Hash sets are finite sets and
hash maps finite maps. The sorted vectors of device ids that the queries build hold each
id once and are only counted and searched, so they are finite sets too. -/
namespace EventLog

def maxLiveDevicesPerIdentity : ℕ := 8
def maxLiveKeyPackagesPerDevice : ℕ := 10
def commitRateMinEpochGap : ℕ := 4
/-- This close to the freshness ceiling the commit-rate rule stands aside. -/
def commitRateCeilingGraceEvents : ℕ := 50
/-- Sealed events since the last commit at which sealed content becomes invalid. -/
def freshnessCeilingEvents : ℕ := 500
/-- Channel events between two resets of one channel. -/
def resetMinChannelEvents : ℕ := 1000

/-- `u32::saturating_add`. -/
def saturatingAdd (a b : ℕ) : ℕ := min (a + b) (2 ^ 32 - 1)

structure DeviceRecord where
  identity : PublicKey
  devicePubkey : PublicKey
  expiresAt : Option ℕ
  deriving DecidableEq, Repr

/-- A channel known to the log. The class never changes: no event changes it. -/
structure ChannelRecord where
  name : String
  kind : String
  cls : ChannelClass
  parent : Option ℕ
  creator : PublicKey
  deriving DecidableEq, Repr

structure CommitRecord where
  eventHash : EventHash
  postTreeHash : Digest
  deriving DecidableEq, Repr

structure WelcomeRecord where
  generation : ℕ
  forMember : PublicKey
  forDevice : DeviceId
  deriving DecidableEq, Repr

def WelcomeRecord.leaf (w : WelcomeRecord) : Leaf := (w.forMember, w.forDevice)

/-- The control-plane record of one encrypted channel's group. The fold never runs MLS:
it chains the values that commits declare. -/
structure MlsGroupRecord where
  generation : ℕ
  epoch : ℕ
  commitHead : Option EventHash
  epochAuthenticator : Option Digest
  treeHash : Option Digest
  leavesConfirmed : Finset Leaf
  leavesPending : Finset Leaf
  eventsSinceLastCommit : ℕ
  lastCommitEpochByAuthor : FiniteMap PublicKey ℕ
  channelEventsSinceReset : ℕ
  resetWelcomed : Finset Leaf
  resetExpectedTreeHash : Option Digest
  commitsByEpoch : FiniteMap ℕ CommitRecord
  welcomes : FiniteMap EventHash WelcomeRecord

namespace MlsGroupRecord

def new : MlsGroupRecord where
  generation := 0
  epoch := 0
  commitHead := none
  epochAuthenticator := none
  treeHash := none
  leavesConfirmed := ∅
  leavesPending := ∅
  eventsSinceLastCommit := 0
  lastCommitEpochByAuthor := ∅
  channelEventsSinceReset := 0
  resetWelcomed := ∅
  resetExpectedTreeHash := none
  commitsByEpoch := ∅
  welcomes := ∅

def leaves (g : MlsGroupRecord) : Finset Leaf := g.leavesConfirmed ∪ g.leavesPending

def committingIdentities (g : MlsGroupRecord) : ℕ := (g.leavesConfirmed.image Prod.fst).card

def commitRateGap (g : MlsGroupRecord) : ℕ :=
  min commitRateMinEpochGap (max g.committingIdentities 1)

/-- Some leaf that the last reset staged is still unconfirmed. -/
def ResetIncomplete (g : MlsGroupRecord) : Prop :=
  ∃ leaf ∈ g.resetWelcomed, leaf ∉ g.leavesConfirmed

instance (g : MlsGroupRecord) : Decidable g.ResetIncomplete :=
  inferInstanceAs (Decidable (∃ leaf ∈ g.resetWelcomed, leaf ∉ g.leavesConfirmed))

def CeilingDemandsRekey (g : MlsGroupRecord) : Prop :=
  freshnessCeilingEvents ≤ saturatingAdd g.eventsSinceLastCommit commitRateCeilingGraceEvents

instance (g : MlsGroupRecord) : Decidable g.CeilingDemandsRekey :=
  inferInstanceAs (Decidable (_ ≤ _))

end MlsGroupRecord

/-- The verdict on a payload: a commit that lost the race for its epoch is accepted and
changes no group. -/
inductive Authorized where
  | apply
  | staleCommitNoOp
  deriving DecidableEq, Repr

structure InviteRecord where
  maxUses : ℕ
  expiresAt : ℕ
  useCount : ℕ
  requiresApproval : Bool
  deriving DecidableEq, Repr

structure ChainHead where
  seq : ℕ
  hash : EventHash
  deriving DecidableEq, Repr

structure LogState where
  serverId : ServerId
  owner : PublicKey
  members : Finset PublicKey
  pending : Finset PublicKey
  banned : Finset PublicKey
  capabilities : FiniteMap PublicKey (Finset String)
  devices : FiniteMap DeviceId DeviceRecord
  invites : FiniteMap EventHash InviteRecord
  chains : FiniteMap Leaf ChainHead
  attachmentUploaders : FiniteMap String PublicKey
  redactedAttachments : Finset String
  channels : FiniteMap ℕ ChannelRecord
  plaintextHistoryChannels : Finset ℕ
  tombstones : Finset EventRef
  revokedDevices : Finset DeviceId
  devicesByIdentity : FiniteMap PublicKey (Finset DeviceId)
  logPos : ℕ
  identityClock : FiniteMap PublicKey ℕ
  corroboratedClock : ℕ
  mlsGroups : FiniteMap ℕ MlsGroupRecord
  keyPackages : FiniteMap Leaf (FiniteMap EventRef ℕ)
  consumedKeyPackages : FiniteMap EventRef ℕ
  deviceStoreInstance : FiniteMap DeviceId Digest

namespace LogState

/-- The genesis owner is the sole member and the root of authority. -/
def fromGenesis (K : Crypto) (g : Genesis) : LogState where
  serverId := g.serverId K
  owner := g.owner
  members := {g.owner}
  pending := ∅
  banned := ∅
  capabilities := ∅
  devices := ∅
  invites := ∅
  chains := ∅
  attachmentUploaders := ∅
  redactedAttachments := ∅
  channels := ∅
  plaintextHistoryChannels := ∅
  tombstones := ∅
  revokedDevices := ∅
  devicesByIdentity := ∅
  logPos := 0
  identityClock := ∅
  corroboratedClock := 0
  mlsGroups := ∅
  keyPackages := ∅
  consumedKeyPackages := ∅
  deviceStoreInstance := ∅

variable (s : LogState)

abbrev IsOwner (pk : PublicKey) : Prop := pk = s.owner
abbrev IsMember (pk : PublicKey) : Prop := pk ∈ s.members
abbrev IsPending (pk : PublicKey) : Prop := pk ∈ s.pending
abbrev IsBanned (pk : PublicKey) : Prop := pk ∈ s.banned

abbrev IsFullMember (pk : PublicKey) : Prop := s.IsMember pk ∧ ¬s.IsPending pk

abbrev HasCapability (pk : PublicKey) (cap : String) : Prop :=
  s.IsOwner pk ∨ ∃ c ∈ s.capabilities.lookup pk, cap ∈ c

def channelClass (channelId : ℕ) : Option ChannelClass :=
  (s.channels.lookup channelId).map ChannelRecord.cls

def identityFloor (pk : PublicKey) : ℕ := (s.identityClock.lookup pk).getD 0

/-- The point at which an identity's own claim is judged. -/
def selfLivenessTs (pk : PublicKey) (atTs : ℕ) : ℕ := max atTs (s.identityFloor pk)

/-- The point at which one identity's devices are judged on another one's claim: no earlier
than its own floor and, above the floor, no later than the corroborated clock. -/
def judgedLivenessTs (pk : PublicKey) (atTs : ℕ) : ℕ :=
  max (s.identityFloor pk) (min atTs s.corroboratedClock)

def devicesOf (pk : PublicKey) : Finset DeviceId := (s.devicesByIdentity.lookup pk).getD ∅

def expiryOf (device : DeviceId) : Option ℕ :=
  (s.devices.lookup device).bind DeviceRecord.expiresAt

def liveDevicesAt (pk : PublicKey) (at_ : ℕ) : Finset DeviceId :=
  (s.devicesOf pk).filter fun d =>
    d ∉ s.revokedDevices ∧ ∀ t ∈ s.expiryOf d, at_ ≤ t

def liveDevices (pk : PublicKey) (atTs : ℕ) : Finset DeviceId :=
  s.liveDevicesAt pk (s.selfLivenessTs pk atTs)

def judgedLiveDevices (pk : PublicKey) (atTs : ℕ) : Finset DeviceId :=
  s.liveDevicesAt pk (s.judgedLivenessTs pk atTs)

/-- The fold still owes this leaf a place in the tree. -/
def LeafHolderInGoodStanding (identity : PublicKey) (device : DeviceId) (atTs : ℕ) : Prop :=
  s.IsMember identity ∧ ¬s.IsBanned identity ∧ device ∈ s.judgedLiveDevices identity atTs

instance (identity : PublicKey) (device : DeviceId) (atTs : ℕ) :
    Decidable (s.LeafHolderInGoodStanding identity device atTs) :=
  inferInstanceAs (Decidable (_ ∧ _ ∧ _))

def memberLeafSet (atTs : ℕ) : Finset Leaf :=
  s.members.biUnion fun m => (s.judgedLiveDevices m atTs).image fun d => (m, d)

def pendingRemovals (channelId atTs : ℕ) : Finset Leaf :=
  match s.mlsGroups.lookup channelId with
  | none => ∅
  | some group => group.leaves.filter fun leaf => leaf ∉ s.memberLeafSet atTs

def pendingAdds (channelId atTs : ℕ) : Finset Leaf :=
  match s.mlsGroups.lookup channelId with
  | none => ∅
  | some group => (s.memberLeafSet atTs).filter fun leaf =>
      leaf ∉ group.leavesConfirmed ∧ leaf ∉ group.leavesPending

def leavesConfirmed (channelId : ℕ) : Finset Leaf :=
  ((s.mlsGroups.lookup channelId).map MlsGroupRecord.leavesConfirmed).getD ∅

def pendingConfirmations (channelId : ℕ) : Finset Leaf :=
  ((s.mlsGroups.lookup channelId).map MlsGroupRecord.leavesPending).getD ∅

/-- A commit that adds a missing leaf or removes one that should not be there. -/
def CommitDischargesDrift (e : Event) : Prop :=
  match e.core.payload with
  | .mlsCommit p =>
    (∃ a ∈ p.adds, a.leaf ∈ s.pendingAdds p.channelId e.core.timestamp) ∨
      ∃ r ∈ p.removes, r.leaf ∈ s.pendingRemovals p.channelId e.core.timestamp
  | _ => False

instance (e : Event) : Decidable (s.CommitDischargesDrift e) := by
  unfold CommitDischargesDrift
  split <;> infer_instance

def topTwoStep (top : ℕ × ℕ) (v : ℕ) : ℕ × ℕ :=
  if v > top.1 then (v, top.1) else if v > top.2 then (top.1, v) else top

/-- The scan does not depend on the order in which a hash map yields its values. -/
instance : RightCommutative topTwoStep where
  right_comm := by
    rintro ⟨a, b⟩ v w
    simp only [topTwoStep]
    grind

/-- The greatest timestamp claimed by at least two identities. -/
def recomputeCorroboratedClock (identityClock : FiniteMap PublicKey ℕ) : ℕ :=
  (identityClock.values.foldl topTwoStep (0, 0)).2

end LogState
end EventLog
