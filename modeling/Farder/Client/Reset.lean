import Farder.Client.Commits
import Farder.Client.Desk

/-! # Resetting a group

The owner starts the next generation of a group with all members at once. The new group is local
until the log takes the reset; each member gets the same Welcome, in an event of its own. -/
namespace Client

open EventLog Effects

variable {M : OpenMls} {σ : Type} (K : Crypto) (T : Transport σ) (actor : Actor)

def resetWelcomeCommitSentinel : EventHash :=
  "0000000000000000000000000000000000000000000000000000000000000000"

structure ResetOutcome where
  eventHash : EventHash
  newGeneration : ℕ
  postTreeHash : Digest
  deriving DecidableEq, Repr

def missingForReset (member : Leaf) : E2eeError :=
  .chain s!"member {member.2} has no published key packages to reset into the new generation"

/-- The newest KeyPackage of a member's device. -/
def resetKeyPackage (member : Leaf) (events : List (Option Event)) :
    Except E2eeError M.KeyPackage := do
  let newest ← match events.getLast? with
    | some newest => .ok newest
    | none => .error (missingForReset member)
  let event ← match newest with
    | some event => .ok event
    | none => .error (.mls "decode key package event bytes")
  let published ← match event.core.payload with
    | .mlsKeyPackagePublished p => .ok p
    | _ => .error (.chain "fetch_key_packages returned a non-MlsKeyPackagePublished event")
  let keyPackage ← match M.readKeyPackage published.keyPackage with
    | some keyPackage => .ok keyPackage
    | none => .error (.mls "decode fetched key package (non-farder credential fails closed)")
  match (M.keyPackageLeaf keyPackage).credential with
  | none => .error (.mls "decode fetched key package (non-farder credential fails closed)")
  | some leaf =>
    if leaf = member then return keyPackage
    else .error (.chain "fetched key package credential does not match the member being reset")

def fetchResetPackage (member : Leaf) : Action M σ M.KeyPackage := do
  let events ← fetchKeyPackages T member
  Prog.ofExcept (resetKeyPackage member events)

/-- One commit adds all members; each of them gets its Welcome. -/
def stageMembers (channelId newGeneration : ℕ) (members : List Leaf) :
    Action M σ (List EventRef) := do
  let keyPackages ← Prog.collect members (fetchResetPackage T)
  let outcome ← onGroup (·.addMembers keyPackages) "add members to the reset generation's group"
  let welcome ← Prog.ofOption outcome.welcomeBytes
    (.mls "add_members produced no welcome for a non-empty member set")
  Prog.collect members fun member => do
    let event ← nextEvent K T actor actor.logServerId fun _ => .mlsWelcome
      ⟨channelId, newGeneration, resetWelcomeCommitSentinel, member.1, member.2, welcome⟩
    let accepted ← submitNext K T event
    return accepted.eventHash

/-- The group of the session becomes the one of the new generation. -/
def resetGroup (key : ChannelKey) (generation : ℕ) (members : List Leaf) :
    Action M σ ResetOutcome := do
  if 2 ^ 64 ≤ generation + 1 then
    Prog.fail (.chain "reset generation overflow: cannot advance past u64::MAX")
  else
    let newGeneration := generation + 1
    let fresh ← Prog.ofExcept ((MlsChannelGroup.create
      (channelGroupId key.logServerId key.channelId newGeneration)
      (credentialWithKey K actor)).mapError fun _ => .mls "create the reset generation's group")
    Prog.modify fun s => { s with group := fresh }
    let welcomes ← if members = [] then pure []
      else stageMembers K T actor key.channelId newGeneration members
    let postTreeHash := (← Prog.get).group.treeHash
    let event ← nextEvent K T actor actor.logServerId fun _ =>
      .mlsGroupReset ⟨key.channelId, newGeneration, welcomes, postTreeHash⟩
    let accepted ← submitNext K T event
    return ⟨accepted.eventHash, newGeneration, postTreeHash⟩

end Client

/-! ## Adding the members of a server

A steward adds every live device of every member, one commit each. A member for whom something is
missing is left out. -/
namespace Client

open EventLog Effects

variable {M : OpenMls} {σ : Type} (K : Crypto) (O : Outside σ) (actor : Actor)

inductive MemberOutcome where
  | added (member : Leaf) (epoch : ℕ)
  | skipped (identity : PublicKey) (device : Option DeviceId) (reason : String)
  deriving DecidableEq, Repr

def CommitContext.groupId (ctx : CommitContext) : String :=
  channelGroupId ctx.key.logServerId ctx.key.channelId ctx.generation

/-- Look at the newest KeyPackage before anything is merged. -/
def keyPackageGate (events : List (Option Event)) : Except String Unit := do
  let newest ← contextOf events.getLast? "no published key package"
  let event ← contextOf newest "decode key package event"
  let keyPackage ← match event.core.payload with
    | .mlsKeyPackagePublished p => .ok p.keyPackage
    | _ => .error "fetch_key_packages returned a non-key-package event"
  let decoded := (M.readKeyPackage keyPackage).bind fun kp => (M.keyPackageLeaf kp).credential
  let _ ← contextOf decoded "key package fails the farder-credential gate"
  return ()

theorem lawfulBEq_leaf : LawfulBEq Leaf := inferInstance

attribute [local instance] lawfulBEq_leaf

/-- Add one device. A refused add is reported and the loop goes on, but for one that has come too
late for its epoch. -/
def addDevice (ctx : CommitContext) (member : Leaf) : Command M σ MemberOutcome := do
  let skip (reason : String) : Command M σ MemberOutcome :=
    return .skipped member.1 (some member.2) reason
  match (← Prog.get).session.group.leaves with
  | .error e => Prog.fail s!"read group leaves: {e}"
  | .ok leaves =>
    if member ∈ leaves.map ActualLeaf.member then skip "already a member"
    else match ← Prog.attempt (offChannel (fetchKeyPackages O.toTransport member)) with
      | .error e => skip s!"fetch key packages: {e.describe}"
      | .ok events =>
        match keyPackageGate (M := M) events with
        | .error reason => skip reason
        | .ok () =>
          match ← Prog.attempt (onChannel ctx.key.channelId ctx.groupId
              (addMember K O.toTransport actor ctx member)) with
          | .ok outcome =>
            saveChain O
            saveMlsState O ctx.key.channelId
              (.fresh ctx.generation outcome.localEpoch ctx.storeInstanceHash true)
            return .added member outcome.localEpoch
          | .error e =>
            if e.isStaleEpochDiverged then
              Prog.fail s!"add member diverged (stale-epoch): {e.describe}"
            else skip s!"add member: {e.describe}"

def addIdentity (ctx : CommitContext) (identity : PublicKey) :
    Command M σ (List MemberOutcome) := do
  match ← Prog.attempt (offChannel (memberLiveLeaves K O.toTransport identity)) with
  | .error e => return [.skipped identity none s!"fetch device certs: {e.describe}"]
  | .ok [] => return [.skipped identity none "no authorized device"]
  | .ok leaves => Prog.collect leaves (addDevice K O actor ctx)

def addCurrentMembersToGroup (ctx : CommitContext) : Command M σ (List MemberOutcome) := do
  let members ← getMembers O
  let others := members.filter fun identity => identity ≠ K.publicKey actor.identity
  let outcomes ← Prog.collect others (addIdentity K O actor ctx)
  return outcomes.flatten

end Client
