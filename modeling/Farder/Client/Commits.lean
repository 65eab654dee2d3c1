import Farder.Client.Session

/-! # Commits

The four ways in which a client commits: to bootstrap a group, to add a member, to rekey and to
discharge drift. Each merges its commit first and submits it then. A commit of somebody else is
merged after the first of two gates, and the second one looks at the leaves that it has added. -/
namespace Client

open EventLog Effects

variable {M : OpenMls} {σ : Type} (K : Crypto) (T : Transport σ) (actor : Actor)

structure CommitContext where
  key : ChannelKey
  generation : ℕ
  storeInstanceHash : Digest
  deriving DecidableEq, Repr

/-- An accepted commit, with the state of the local group. -/
structure CommitSubmitted where
  eventHash : EventHash
  localEpoch : ℕ
  postEpochAuthenticator : Digest
  postTreeHash : Digest
  deriving DecidableEq, Repr

structure AddMemberOutcome where
  commitEventHash : EventHash
  welcomeEventHash : EventHash
  localEpoch : ℕ
  postEpochAuthenticator : Digest
  postTreeHash : Digest
  deriving DecidableEq, Repr

def declaredRemoves (outcome : CommitOutcome) : List DeclaredRemove :=
  outcome.removes.map fun m => ⟨m.1, m.2⟩

/-- What the log learns of a commit that the local group has merged. -/
def commitPayload (ctx : CommitContext) (authzHead : EventHash) (outcome : CommitOutcome)
    (adds : List DeclaredAdd) (removes : List DeclaredRemove) (group : MlsChannelGroup M) :
    MlsCommit where
  channelId := ctx.key.channelId
  generation := ctx.generation
  epoch := outcome.epoch
  mlsMessage := outcome.commitBytes
  adds := adds
  removes := removes
  prevEpochAuthenticator := outcome.prevEpochAuthenticator
  postEpochAuthenticator := group.epochAuthenticator
  postTreeHash := outcome.postTreeHash
  authzHead := authzHead
  storeInstanceHash := ctx.storeInstanceHash

def commitEvent (ctx : CommitContext) (authzHead : EventHash) (outcome : CommitOutcome)
    (adds : List DeclaredAdd) (removes : List DeclaredRemove) : Action M σ Event :=
  nextEvent K T actor ctx.key.logServerId fun group =>
    .mlsCommit (commitPayload ctx authzHead outcome adds removes group)

/-- A server that refuses the commit leaves the local group ahead. Without an answer, nothing is
said of the group. -/
def refusal (rateLimited : Bool) (err : TransportError) (localEpoch : ℕ) : E2eeError :=
  if err.isStaleEpoch then .staleEpochDiverged localEpoch
  else if rateLimited && err.isCommitRateLimited then .rekeyRateLimited err.rejectionReason
  else match err with
    | .serverRejected reason => .commitRejectedDiverged reason localEpoch
    | .transport _ => .transport err

def submitCommit (rateLimited : Bool) (e : Event) : Action M σ EventAccepted := do
  match ← submit T e with
  | .ok accepted =>
    advance K e
    return accepted
  | .error err => Prog.fail (refusal rateLimited err (← Prog.get).group.epoch)

def commitAndReport (ctx : CommitContext) (authzHead : EventHash) (rateLimited : Bool)
    (outcome : CommitOutcome) (removes : List DeclaredRemove) : Action M σ CommitSubmitted := do
  let postEpochAuthenticator := (← Prog.get).group.epochAuthenticator
  let event ← commitEvent K T actor ctx authzHead outcome [] removes
  let accepted ← submitCommit K T rateLimited event
  return ⟨accepted.eventHash, (← Prog.get).group.epoch, postEpochAuthenticator,
    outcome.postTreeHash⟩

/-- The commit that confirms the creator's own leaf, in the first generation. -/
def bootstrapGroup (key : ChannelKey) (storeInstanceHash : Digest) : Action M σ CommitSubmitted := do
  let head ← authzHead
    "bootstrap commit needs a prior event (ChannelCreated) to attest its folded head"
  let outcome ← onGroup MlsChannelGroup.selfUpdate "bootstrap self-update"
  commitAndReport K T actor ⟨key, 0, storeInstanceHash⟩ head false outcome []

def rekeyChannel (ctx : CommitContext) : Action M σ CommitSubmitted := do
  let head ← authzHead "rekey needs a prior event to attest its folded head"
  let outcome ← onGroup MlsChannelGroup.selfUpdate "rekey self-update"
  commitAndReport K T actor ctx head true outcome []

def dischargeDrift (ctx : CommitContext) (deadLeaves : List Leaf) : Action M σ CommitSubmitted := do
  let head ← authzHead "drift discharge needs a prior event to attest its folded head"
  if deadLeaves = [] then Prog.fail (.chain "drift discharge needs at least one dead leaf")
  else
    let outcome ← onGroup (·.removeMembers deadLeaves) "drift discharge remove-members"
    commitAndReport K T actor ctx head true outcome (declaredRemoves outcome)

/-! ## Adding a member -/

/-- The newest KeyPackage of a member's device, and the hash of its event. -/
def newestKeyPackage (member : Leaf) (events : List (Option Event)) :
    Except E2eeError (M.KeyPackage × EventHash) := do
  let newest ← match events.getLast? with
    | some newest => .ok newest
    | none => .error (.chain "member has no published key packages")
  let event ← match newest with
    | some event => .ok event
    | none => .error (.mls "decode key package event bytes")
  let published ← match event.core.payload with
    | .mlsKeyPackagePublished p => .ok p
    | _ => .error (.chain "fetch_key_packages returned a non-MlsKeyPackagePublished event")
  let keyPackage ← match M.readKeyPackage published.keyPackage with
    | some keyPackage => .ok keyPackage
    | none => .error (.mls "decode fetched key package")
  match (M.keyPackageLeaf keyPackage).credential with
  | none => .error (.mls "decode fetched key package (non-farder credential fails closed)")
  | some leaf =>
    if leaf = member then return (keyPackage, event.hash K)
    else .error (.chain "fetched key package credential does not match the member being added")

/-- The Welcome is a second event. It cites the commit, so it cannot go first. -/
def submitWelcome (ctx : CommitContext) (commit : EventHash) (member : Leaf)
    (welcome : List UInt8) : Action M σ EventAccepted := do
  let event ← nextEvent K T actor ctx.key.logServerId fun _ => .mlsWelcome
    { channelId := ctx.key.channelId
      generation := ctx.generation
      commit
      forMember := member.1
      forDevice := member.2
      welcome }
  submitNext K T event

def addMember (ctx : CommitContext) (member : Leaf) : Action M σ AddMemberOutcome := do
  let events ← fetchKeyPackages T member
  let (keyPackage, keyPackageHash) ← Prog.ofExcept (newestKeyPackage (M := M) K member events)
  let outcome ← onGroup (·.addMembers [keyPackage]) "add member"
  let welcome ← Prog.ofOption outcome.welcomeBytes
    (.mls "add_members produced no welcome for a single add")
  let postEpochAuthenticator := (← Prog.get).group.epochAuthenticator
  -- The group has merged the add by now.
  let head ← authzHead "add_member needs a prior event to attest its folded head"
  let commit ← commitEvent K T actor ctx head outcome [⟨member.1, member.2, keyPackageHash⟩]
    (declaredRemoves outcome)
  let accepted ← submitCommit K T false commit
  let welcomed ← submitWelcome K T actor ctx accepted.eventHash member welcome
  return ⟨accepted.eventHash, welcomed.eventHash, (← Prog.get).group.epoch,
    postEpochAuthenticator, outcome.postTreeHash⟩

/-! ## Commits of others -/

structure DeclaredCommit where
  epoch : ℕ
  adds : List DeclaredAdd
  removes : List DeclaredRemove
  postTreeHash : Digest
  deriving DecidableEq, Repr

inductive IncomingCommitOutcome where
  | applied (epoch : ℕ) (postTreeHash : Digest)
  | outOfOrder (currentEpoch receivedEpoch : ℕ)
  | leafBindingFailure (member : Leaf) (reason : String)
  deriving DecidableEq, Repr

abbrev CertResolver := PublicKey → DeviceId → Option DeviceCert

/-- The first added leaf that is not bound to a certificate, and why. -/
def unboundLeaf (certs : CertResolver) : List ActualLeaf → Option (Leaf × String)
  | [] => none
  | leaf :: rest =>
    match certs leaf.member.1 leaf.member.2 with
    | none => some (leaf.member,
        s!"no log-valid device cert for {leaf.member.1.text} / {leaf.member.2}")
    | some cert =>
      match verifyLeafBinding K leaf.node cert with
      | .error e => some (leaf.member, "leaf binding failed: " ++ e)
      | .ok () => unboundLeaf certs rest

/-- A commit of somebody else: in epoch order, then what it declares, then its leaves. -/
def processIncomingCommit (g : MlsChannelGroup M) (commitBytes : List UInt8)
    (declared : DeclaredCommit) (certs : CertResolver) :
    Except E2eeError IncomingCommitOutcome × MlsChannelGroup M :=
  if declared.epoch ≠ g.epoch then (.ok (.outOfOrder g.epoch declared.epoch), g)
  else
    let processed := g.processCommitChecked commitBytes (declared.adds.map DeclaredAdd.leaf)
      (declared.removes.map DeclaredRemove.leaf) declared.postTreeHash
    match processed.1 with
    | .error _ => (.error (.mls "process incoming commit"), processed.2)
    | .ok commit =>
      -- The commit is merged before its leaves are looked at.
      match unboundLeaf K certs commit.actualAdds with
      | some (member, reason) => (.ok (.leafBindingFailure member reason), processed.2)
      | none => (.ok (.applied processed.2.epoch commit.postTreeHash), processed.2)

end Client
