import Farder.EventLog
import Farder.Support.FiniteMap

/-! # The group of a channel

A client keeps one MLS group for each encrypted channel. The ratchet tree, the key schedule and
all encryption are OpenMLS's, which is a parameter; here is what is done with it. A commit of the
client's own is merged when it is made, before anybody else has seen it. -/
namespace Client

open EventLog

/-- A leaf of a ratchet tree. `credential` is what the bytes of its credential decode to, and
`none` for a credential of another kind. -/
structure LeafNode where
  credential : Option Leaf
  signatureKey : List UInt8
  deriving DecidableEq, Repr

/-- A commit that a group has made itself and not merged yet. -/
structure OwnCommit (Message Staged : Type) where
  message : Message
  welcome : Option Message
  staged : Staged

/-- What a received message turns out to be. -/
inductive Content (Staged : Type) where
  | commit (staged : Staged)
  | application (bytes : List UInt8)
  | other

/-- A Welcome that a store has the keys for: the group it leads to, and the keys that are left. -/
structure StagedWelcome (Group Keys : Type) where
  epoch : ℕ
  treeHash : Digest
  group : Option Group
  keys : Keys

/-- What is used of OpenMLS. The random numbers that an operation draws are part of the state of
the group, or of the keys of the store. -/
structure OpenMls where
  Group : Type
  Staged : Type
  Message : Type
  KeyPackage : Type
  Keys : Type
  newGroup : String → LeafNode → Option Group
  groupId : Group → String
  epoch : Group → ℕ
  epochAuthenticator : Group → Digest
  exportTreeHash : Group → Option Digest
  members : Group → List (ℕ × LeafNode)
  addMembers : Group → List KeyPackage → Option (OwnCommit Message Staged)
  removeMembers : Group → List ℕ → Option (OwnCommit Message Staged)
  selfUpdate : Group → Option (OwnCommit Message Staged)
  stagedAdds : Staged → List LeafNode
  stagedRemoves : Staged → List ℕ
  stagedTreeHash : Staged → Digest
  stagedEpoch : Staged → ℕ
  merge : Group → Staged → Option Group
  processMessage : Group → List UInt8 → Option (Content Staged) × Group
  createMessage : Group → List UInt8 → Option Message × Group
  toBytes : Message → Option (List UInt8)
  noKeys : Keys
  generateKeyPackage : Keys → LeafNode → Option (List UInt8 × Keys)
  readKeyPackage : List UInt8 → Option KeyPackage
  keyPackageLeaf : KeyPackage → LeafNode
  stageWelcome : Keys → List UInt8 → Option (StagedWelcome Group Keys)

structure ActualLeaf where
  member : Leaf
  node : LeafNode
  deriving DecidableEq, Repr

def actualLeaf (node : LeafNode) : Except String ActualLeaf :=
  match node.credential with
  | some member => .ok ⟨member, node⟩
  | none => .error "member credential does not decode as a farder credential"

structure CommitOutcome where
  commitBytes : List UInt8
  welcomeBytes : Option (List UInt8)
  prevEpochAuthenticator : Digest
  postTreeHash : Digest
  epoch : ℕ
  adds : List Leaf
  removes : List Leaf
  deriving DecidableEq, Repr

structure ProcessedCommit where
  actualAdds : List ActualLeaf
  actualRemoves : List Leaf
  postTreeHash : Digest
  epoch : ℕ
  deriving DecidableEq, Repr

structure JoinInfo where
  epoch : ℕ
  treeHash : Digest
  deriving DecidableEq, Repr

structure MlsChannelGroup (M : OpenMls) where
  inner : M.Group
  treeHash : Digest

/-- The declared members of a commit are those it really adds or removes, in any order. -/
def verifyDeclaredMatchesActual (processed : ProcessedCommit)
    (declaredAdds declaredRemoves : List Leaf) (declaredPostTreeHash : Digest) :
    Except String Unit :=
  let adds := processed.actualAdds.map ActualLeaf.member
  if ¬adds.Perm declaredAdds then
    .error (s!"declared adds do not match actual adds (declared {declaredAdds.length}, " ++
      s!"actual {adds.length})")
  else if ¬processed.actualRemoves.Perm declaredRemoves then
    .error (s!"declared removes do not match actual removes (declared {declaredRemoves.length}, " ++
      s!"actual {processed.actualRemoves.length})")
  else if processed.postTreeHash ≠ declaredPostTreeHash then
    .error "declared post tree hash does not match the actual tree"
  else .ok ()

def contextOf {α : Type} (o : Option α) (message : String) : Except String α :=
  match o with
  | some a => .ok a
  | none => .error message

namespace MlsChannelGroup

variable {M : OpenMls} (g : MlsChannelGroup M)

def epoch : ℕ := M.epoch g.inner
def epochAuthenticator : Digest := M.epochAuthenticator g.inner

/-- The leaves of the tree; a credential of another kind is an error of the whole. -/
def leaves : Except String (List ActualLeaf) :=
  (M.members g.inner).mapM fun x => actualLeaf x.2

def members : Except String (List Leaf) := do
  let leaves ← g.leaves
  return leaves.map ActualLeaf.member

def removedMember (index : ℕ) : Except String Leaf := do
  let member ← contextOf ((M.members g.inner).find? fun x => x.1 = index)
    s!"remove proposal targets unknown leaf index {index}"
  let leaf ← actualLeaf member.2
  return leaf.member

def stagedCommitSummary (staged : M.Staged) : Except String ProcessedCommit := do
  let actualAdds ← (M.stagedAdds staged).mapM actualLeaf
  let actualRemoves ← (M.stagedRemoves staged).mapM g.removedMember
  if M.stagedEpoch staged = 0 then .error "staged commit moves the group into epoch 0"
  else return ⟨actualAdds, actualRemoves, M.stagedTreeHash staged, M.stagedEpoch staged - 1⟩

/-- A commit of one's own is merged at once. Once it is merged, no error takes it back. -/
def finishOwnCommit (own : OwnCommit M.Message M.Staged) :
    Except String CommitOutcome × MlsChannelGroup M :=
  match g.stagedCommitSummary own.staged with
  | .error e => (.error e, g)
  | .ok summary =>
    if summary.epoch ≠ g.epoch then
      (.error s!"staged commit epoch {summary.epoch} does not match group epoch {g.epoch}", g)
    else match M.merge g.inner own.staged with
      | none => (.error "merge pending commit", g)
      | some inner =>
        let merged : MlsChannelGroup M := ⟨inner, summary.postTreeHash⟩
        match M.toBytes own.message, own.welcome.map M.toBytes with
        | none, _ => (.error "serialize commit", merged)
        | some _, some none => (.error "serialize welcome", merged)
        | some commitBytes, welcomeBytes =>
          (.ok ⟨commitBytes, welcomeBytes.join, g.epochAuthenticator, summary.postTreeHash,
            g.epoch, summary.actualAdds.map ActualLeaf.member, summary.actualRemoves⟩, merged)

def commitOwn (own : Option (OwnCommit M.Message M.Staged)) (failed : String) :
    Except String CommitOutcome × MlsChannelGroup M :=
  match own with
  | none => (.error failed, g)
  | some own => g.finishOwnCommit own

def addMembers (keyPackages : List M.KeyPackage) :
    Except String CommitOutcome × MlsChannelGroup M :=
  g.commitOwn (M.addMembers g.inner keyPackages) "add members"

def selfUpdate : Except String CommitOutcome × MlsChannelGroup M :=
  g.commitOwn (M.selfUpdate g.inner) "self update"

/-- All leaves that claim to be the member. -/
def indicesOf (member : Leaf) : Except String (List ℕ) :=
  match (M.members g.inner).filterMap fun x =>
      if x.2.credential = some member then some x.1 else none with
  | [] => .error s!"no group member matches declared device {member.2}"
  | indices => .ok indices

def removeMembers (members : List Leaf) : Except String CommitOutcome × MlsChannelGroup M :=
  match members.mapM g.indicesOf with
  | .error e => (.error e, g)
  | .ok indices =>
    g.commitOwn (M.removeMembers g.inner (indices.flatten.mergeSort).dedup)
      "remove members"

/-- The first half of processing a commit, which changes nothing. -/
def stageCommit (commitBytes : List UInt8) :
    Except String (M.Staged × ProcessedCommit) × MlsChannelGroup M :=
  let processed := M.processMessage g.inner commitBytes
  let g : MlsChannelGroup M := { g with inner := processed.2 }
  match processed.1 with
  | none => (.error "process commit", g)
  | some (.commit staged) => ((g.stagedCommitSummary staged).map fun summary => (staged, summary), g)
  | some _ => (.error "message is not a commit", g)

def mergeStaged (staged : M.Staged) (summary : ProcessedCommit) :
    Except String ProcessedCommit × MlsChannelGroup M :=
  match M.merge g.inner staged with
  | none => (.error "merge staged commit", g)
  | some inner => (.ok summary, ⟨inner, summary.postTreeHash⟩)

def processCommitChecked (commitBytes : List UInt8) (declaredAdds declaredRemoves : List Leaf)
    (declaredPostTreeHash : Digest) : Except String ProcessedCommit × MlsChannelGroup M :=
  let staged := g.stageCommit commitBytes
  match staged.1 with
  | .error e => (.error e, staged.2)
  | .ok (commit, summary) =>
    match verifyDeclaredMatchesActual summary declaredAdds declaredRemoves declaredPostTreeHash with
    | .error _ => (.error
        "refusing to merge: declared commit metadata does not match the staged commit", staged.2)
    | .ok () => staged.2.mergeStaged commit summary

def create (groupId : String) (node : LeafNode) : Except String (MlsChannelGroup M) := do
  let inner ← contextOf (M.newGroup groupId node) "create group"
  let treeHash ← contextOf (M.exportTreeHash inner) "export group info"
  return ⟨inner, treeHash⟩

end MlsChannelGroup

def verifyLeafBinding (K : Crypto) (node : LeafNode) (cert : DeviceCert) : Except String Unit := do
  let member ← contextOf node.credential "leaf binding: credential identity does not decode"
  if member.1 ≠ cert.core.identity then
    .error "leaf binding: credential identity does not match device cert identity"
  else if member.2 ≠ cert.core.deviceId then
    .error "leaf binding: credential device id does not match device cert"
  else if node.signatureKey ≠ cert.core.devicePubkey.asBytes then
    .error "leaf binding: leaf signature key does not match certified device subkey"
  else match cert.verify K with
    | .ok () => .ok ()
    | .error _ => .error "leaf binding: device cert signature invalid"

end Client
