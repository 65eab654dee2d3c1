import Farder.Client.Commits
import Mathlib.Data.List.AList

/-! # Certificates and live devices

A client has no state of the log. What it needs to know of other members' devices it works out from
the events on these devices, and judges by its own clock. -/
namespace Client

open EventLog Effects

variable {M : OpenMls} {σ : Type} (K : Crypto) (T : Transport σ)

def decodeLifecycle (events : List (Option Event)) : Except E2eeError (List Event) :=
  events.mapM fun event =>
    match event with
    | some e => .ok e
    | none => .error (.mls "decode device-lifecycle event")

def revokedIn (events : List Event) : List DeviceId :=
  events.filterMap fun e =>
    match e.core.payload with
    | .deviceRevoked device => some device
    | _ => none

/-- The certificates that are the identity's own and that it has signed, of devices that are not
revoked; the oldest first. -/
def servedCerts (identity : PublicKey) (events : List Event) : List DeviceCert :=
  events.filterMap fun e =>
    match e.core.payload with
    | .deviceAuthorized cert =>
      if cert.core.identity = identity ∧ cert.core.deviceId ∉ revokedIn events ∧
          (cert.verify K).isOk = true then some cert
      else none
    | _ => none

def expiredAt (now : ℕ) (expiresAt : Option ℕ) : Bool := expiresAt.any fun t => t < now

/-- The newest certificate of a device, if the clock has not passed its expiry. -/
def resolveFrom (identity : PublicKey) (device : DeviceId) (events : List Event) (now : ℕ) :
    Option DeviceCert :=
  ((servedCerts K identity events).filter fun cert => cert.core.deviceId = device).getLast?.filter
    fun cert => !expiredAt now cert.core.expiresAt

def resolveDeviceCert (identity : PublicKey) (device : DeviceId) :
    Action M σ (Option DeviceCert) := do
  let events ← Prog.ofExcept (decodeLifecycle (← fetchDeviceCerts T identity))
  return resolveFrom K identity device events (T.now (← Prog.get).world)

def buildCertResolver : List Leaf → Action M σ CertResolver
  | [] => return fun _ _ => none
  | member :: rest => do
    let cert ← resolveDeviceCert K T member.1 member.2
    let certs ← buildCertResolver rest
    return fun identity device =>
      if (identity, device) = member ∧ cert.isSome then cert else certs identity device

def newestExpiry (identity : PublicKey) (events : List Event) :
    AList fun _ : DeviceId => Option ℕ :=
  (servedCerts K identity events).foldl
    (fun newest cert => newest.insert cert.core.deviceId cert.core.expiresAt) ∅

def liveLeavesFrom (identity : PublicKey) (events : List Event) (now : ℕ) : List Leaf :=
  let live := (newestExpiry K identity events).entries.filter fun x => !expiredAt now x.2
  ((live.map Sigma.fst).mergeSort fun a b => decide (a ≤ b)).map fun device => (identity, device)

/-- The devices of an identity that are live as far as the client can tell. -/
def memberLiveLeaves (identity : PublicKey) : Action M σ (List Leaf) := do
  let events ← Prog.ofExcept (decodeLifecycle (← fetchDeviceCerts T identity))
  return liveLeavesFrom K identity events (T.now (← Prog.get).world)

end Client

/-! ## The commands of the app

A command works on a session, with the files of the device beside it. A command reads the device's
chain from its file, and has to write it back before it returns. The stores of the groups are
written by each operation on a group. -/
namespace Client

open EventLog Effects

variable {M : OpenMls} {σ : Type}

structure DeviceState where
  nextSeq : ℕ
  lastEventHash : Option EventHash
  lamport : ℕ
  authorized : Bool
  joined : Bool
  deriving DecidableEq, Repr

structure MlsChannelState where
  generation : ℕ
  epoch : ℕ
  storeInstanceHash : Digest
  confirmed : Bool
  cursor : ℕ
  poisoned : Option String
  hasCommitted : Bool
  lastCommitEpoch : ℕ
  sealedSendsSinceLastCommit : ℕ
  lastRekeySecs : ℕ
  deriving DecidableEq, Repr

/-- A channel's store: a random id, the private halves of KeyPackages, and the groups. -/
structure ChannelStore (M : OpenMls) where
  instanceHash : Digest
  keys : M.Keys
  groups : FiniteMap String M.Group

structure Files (M : OpenMls) where
  deviceState : Option DeviceState
  mlsStates : FiniteMap ℕ MlsChannelState
  stores : FiniteMap ℕ (ChannelStore M)
  instanceHashes : FiniteMap ℕ Digest

/-- What a command meets besides the transport: the roster of the server, and a disk that may
refuse to be written. -/
structure Outside (σ : Type) extends Transport σ where
  getMembers : σ → Except String (List PublicKey) × σ
  writes : σ → Bool × σ

structure Desk (M : OpenMls) (σ : Type) where
  session : Session M σ
  ds : DeviceState
  files : Files M

abbrev Command (M : OpenMls) (σ : Type) (α : Type) := Prog (Desk M σ) String α

def channelGroupId (logServerId : ServerId) (channelId generation : ℕ) : String :=
  s!"{logServerId}/{channelId}/generation-{generation}"

def MlsChannelState.fresh (generation epoch : ℕ) (storeInstanceHash : Digest) (confirmed : Bool) :
    MlsChannelState :=
  ⟨generation, epoch, storeInstanceHash, confirmed, 0, none, false, 0, 0, 0⟩

def Files.putGroup (files : Files M) (channelId : ℕ) (groupId : String) (group : M.Group) :
    Files M :=
  { files with stores := FiniteMap.adjust files.stores channelId fun store =>
      { store with groups := store.groups.insert groupId group } }

variable (O : Outside σ)

/-- Run a function of the client on the group of a channel. The store has the group as the function
leaves it, even if the function fails. -/
def onChannel {α : Type} (channelId : ℕ) (groupId : String) (x : Action M σ α) :
    Prog (Desk M σ) E2eeError α := fun d =>
  let done := x d.session
  (done.1, { d with
    session := done.2
    files := d.files.putGroup channelId groupId done.2.group.inner })

/-- Run a function of the client that has to do with no group. -/
def offChannel {α : Type} (x : Action M σ α) : Prog (Desk M σ) E2eeError α := fun d =>
  let done := x d.session
  (done.1, { d with session := done.2 })

def getMembers : Command M σ (List PublicKey) := fun d =>
  let answer := O.getMembers d.session.world
  (answer.1, { d with session := { d.session with world := answer.2 } })

def write (f : Files M → Files M) : Command M σ Unit := fun d =>
  let written := O.writes d.session.world
  let session := { d.session with world := written.2 }
  if written.1 then (.ok (), { d with session, files := f d.files })
  else (.error "write", { d with session })

def saveChain : Command M σ Unit := do
  Prog.modify fun d => { d with
    ds := { d.ds with
      nextSeq := d.session.chain.nextSeq
      lastEventHash := d.session.chain.lastEventHash
      lamport := d.session.chain.lamport } }
  let ds := (← Prog.get).ds
  write O fun files => { files with deviceState := some ds }

def saveMlsState (channelId : ℕ) (state : MlsChannelState) : Command M σ Unit :=
  write O fun files => { files with mlsStates := files.mlsStates.insert channelId state }

end Client

/-! ## Stores

Each encrypted channel has a store of its own, with a random id that is drawn when it is created.
A store is created once, when the channel is created or the device publishes its first KeyPackage
for it, and resumed from then on. -/
namespace Client

open EventLog Effects

variable {M : OpenMls}

def ChannelStore.loadGroup (store : ChannelStore M) (groupId : String) :
    Except String (Option (MlsChannelGroup M)) :=
  match store.groups.lookup groupId with
  | none => .ok none
  | some inner => do
    let treeHash ← contextOf (M.exportTreeHash inner) "export group info"
    return some ⟨inner, treeHash⟩

/-- What a bug that has been fixed since wrote into the file of a channel. -/
def spuriousPoisonMarker : String := "proactive rekey diverged the group"

def MlsChannelState.healed (state : MlsChannelState) : MlsChannelState :=
  if state.poisoned.any fun reason => hasInfix reason spuriousPoisonMarker then
    { state with poisoned := none }
  else state

namespace Files

variable (files : Files M) (channelId : ℕ)

def resumeStore : Except E2eeError (ChannelStore M) :=
  match files.instanceHashes.lookup channelId with
  | none => .error (.mls "read instance hash")
  | some hash =>
    match files.stores.lookup channelId with
    | none => .error (.storeResumeTerminal "MLS store could not be read")
    | some store =>
      if store.instanceHash = hash then .ok store
      else .error (.storeResumeTerminal "MLS store instance id does not match the expected hash")

/-- The file of a channel, or what is assumed without one. -/
def loadMlsState (storeInstanceHash : Digest) : MlsChannelState :=
  ((files.mlsStates.lookup channelId).map MlsChannelState.healed).getD
    (.fresh 0 0 storeInstanceHash false)

def putStore (store : ChannelStore M) : Files M :=
  { files with stores := files.stores.insert channelId store }

end Files
end Client
