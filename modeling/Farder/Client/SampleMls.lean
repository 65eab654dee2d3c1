import Farder.Client.Session
import Farder.SampleLog

/-! # A sample of OpenMLS

A small instance of the parameter, on which clients can be evaluated. Nothing is encrypted: a
message says what it is, in which epoch it was made, and which leaves it brings, by their numbers
in a roster. -/
namespace SampleMls

open EventLog Client

structure Group where
  id : String
  epoch : ℕ
  own : ℕ
  members : List (ℕ × LeafNode)
  deriving DecidableEq, Repr

structure Staged where
  adds : List LeafNode
  removes : List ℕ
  replaced : List LeafNode
  epoch : ℕ
  members : List (ℕ × LeafNode)
  deriving DecidableEq, Repr

def leafOf (identity device : Keypair) : LeafNode :=
  ⟨some (SampleLog.key identity, SampleLog.device device), (SampleLog.key device).asBytes⟩

def groupIds : List String := ["1/7/generation-0"]

def roster : List LeafNode :=
  [leafOf SampleLog.alice SampleLog.a0, leafOf SampleLog.bob SampleLog.b0,
    leafOf SampleLog.alice SampleLog.a1]

def code (node : LeafNode) : UInt8 := UInt8.ofNat (roster.idxOf node)

def nodes (codes : List UInt8) : List LeafNode := codes.filterMap fun c => roster[c.toNat]?

def number (codes : List UInt8) : List ℕ := codes.map UInt8.toNat

def digest (n : ℕ) : Digest := BitVec.ofNat 256 n

namespace Group

variable (g : Group)

def stage (adds : List LeafNode) (removes : List ℕ) (replaced : List LeafNode)
    (members : List (ℕ × LeafNode)) : Staged :=
  ⟨adds, removes, replaced, g.epoch + 1, members⟩

def withAdds (adds : List LeafNode) : Staged :=
  g.stage adds [] [] (g.members ++ adds.mapIdx fun i node => (g.members.length + i, node))

def without (removes : List ℕ) : Staged :=
  g.stage [] removes [] (g.members.filter fun x => x.1 ∉ removes)

/-- The path of a commit brings a new leaf for its author. -/
def withLeaf (index : ℕ) (node : LeafNode) : Staged :=
  g.stage [] [] [node] (g.members.map fun x => if x.1 = index then (index, node) else x)

def message (kind : UInt8) (rest : List UInt8) : List UInt8 := kind :: UInt8.ofNat g.epoch :: rest

def ownLeaf : Option LeafNode := (g.members.find? fun x => x.1 = g.own).map Prod.snd

def sealedMessage (bytes : List UInt8) : Option (List UInt8) :=
  match g.ownLeaf with
  | none => none
  | some node =>
    if g.id ∈ groupIds ∧ node ∈ roster ∧ g.epoch < 256 then
      some (g.message 4 (UInt8.ofNat (groupIds.idxOf g.id) :: code node :: bytes))
    else none

def openSealed (epoch : UInt8) (rest : List UInt8) : Option (Content Staged) :=
  match rest with
  | group :: leaf :: bytes =>
    if groupIds[group.toNat]? = some g.id ∧ roster[leaf.toNat]?.isSome ∧ epoch.toNat ≤ g.epoch ∧
        g.epoch ≤ epoch.toNat + 3 then some (.application bytes)
    else none
  | _ => none

def read (bytes : List UInt8) : Option (Content Staged) :=
  match bytes with
  | kind :: epoch :: rest =>
    if kind = 4 then g.openSealed epoch rest
    else if epoch.toNat ≠ g.epoch then none
    else if kind = 0 then some (.commit (g.withAdds (nodes rest)))
    else if kind = 2 then some (.commit (g.without (number rest)))
    else match rest with
      | [index, c] => roster[c.toNat]?.map fun node => .commit (g.withLeaf index.toNat node)
      | _ => none
  | _ => none

end Group

def mls : OpenMls where
  Group := Group
  Staged := Staged
  Message := List UInt8
  KeyPackage := LeafNode
  Keys := List UInt8
  newGroup id node := some ⟨id, 0, 0, [(0, node)]⟩
  groupId := Group.id
  epoch := Group.epoch
  epochAuthenticator g := digest g.epoch
  exportTreeHash g := some (digest g.epoch)
  members := Group.members
  addMembers g keyPackages :=
    let staged := g.withAdds keyPackages
    some ⟨g.message 0 (keyPackages.map code),
      some (3 :: UInt8.ofNat staged.epoch :: staged.members.map fun x => code x.2), staged⟩
  removeMembers g indices :=
    some ⟨g.message 2 (indices.map UInt8.ofNat), none, g.without indices⟩
  selfUpdate g :=
    match g.members.find? fun x => x.1 = g.own with
    | some x => some ⟨g.message 1 [UInt8.ofNat g.own, code x.2], none, g.withLeaf g.own x.2⟩
    | none => none
  stagedAdds := Staged.adds
  stagedRemoves := Staged.removes
  stagedTreeHash staged := digest staged.epoch
  stagedEpoch := Staged.epoch
  merge g staged := some { g with epoch := staged.epoch, members := staged.members }
  processMessage g bytes := (g.read bytes, g)
  createMessage g bytes := (g.sealedMessage bytes, g)
  toBytes := some
  noKeys := []
  generateKeyPackage keys node := some ([code node], keys ++ [code node])
  readKeyPackage bytes := (nodes bytes).head?
  keyPackageLeaf := id
  stageWelcome keys bytes :=
    match bytes with
    | 3 :: epoch :: codes =>
      match codes.findIdx? (· ∈ keys) with
      | some own => some
        { epoch := epoch.toNat
          treeHash := digest epoch.toNat
          group := some ⟨"", epoch.toNat, own, (nodes codes).mapIdx fun i node => (i, node)⟩
          keys }
      | none => none
    | _ => none

end SampleMls
