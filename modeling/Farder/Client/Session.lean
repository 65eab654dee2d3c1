import Farder.Client.Mls
import Farder.Support.Effects

/-! # The session of a client

What the functions of the client work on: the chain of the device's events, the group of the
channel, and the other side of the transport. The events that a server sends are represented by
what their bytes decode to, and `none` stands for bytes that are no event. -/
namespace Client

open EventLog Effects

structure ChainState where
  nextSeq : ℕ
  lastEventHash : Option EventHash
  lamport : ℕ
  deriving DecidableEq, Repr

structure ChannelKey where
  logServerId : ServerId
  channelId : ℕ
  deriving DecidableEq, Repr

structure Actor where
  device : Keypair
  identity : Keypair
  logServerId : ServerId
  deriving DecidableEq, Repr

inductive TransportError where
  /-- The server has answered, with this reason. -/
  | serverRejected (reason : String)
  /-- No answer, or none that was understood: what the server has done is not known. -/
  | transport (message : String)
  deriving DecidableEq, Repr

def hasInfix (s pattern : String) : Bool := decide (pattern.toList <:+: s.toList)

namespace TransportError

def isStaleEpoch : TransportError → Bool
  | .serverRejected reason => reason = "stale-epoch"
  | .transport _ => false

def rejectedWith (pattern : String) : TransportError → Bool
  | .serverRejected reason => hasInfix reason pattern
  | .transport _ => false

def isCommitRateLimited : TransportError → Bool := rejectedWith "commit-rate rule:"

def isFreshnessCeilingReached : TransportError → Bool := rejectedWith "freshness ceiling reached"

def isSealedPendingRemovals : TransportError → Bool :=
  rejectedWith "channel is sealed until a rekey discharges its pending removals"

def rejectionReason : TransportError → String
  | .serverRejected reason => reason
  | .transport message => message

end TransportError

inductive E2eeError where
  | transport (e : TransportError)
  | staleEpochDiverged (localEpoch : ℕ)
  | rekeyRateLimited (reason : String)
  | commitRejectedDiverged (reason : String) (localEpoch : ℕ)
  | channelIdBelowFloor (channelId : ℕ)
  | chain (message : String)
  | mls (message : String)
  | notConfirmed
  | sealedOverCap (reason : String)
  | storeResumeTerminal (reason : String)
  | resyncEquivocation (attempts lastEpoch : ℕ)
  | resyncPoisoned (member : Leaf) (reason : String)
  | deviceCapReached (reason : String)
  deriving DecidableEq, Repr

def TransportError.describe : TransportError → String
  | .serverRejected reason => s!"server rejected request: {reason}"
  | .transport message => s!"transport error: {message}"

namespace E2eeError

def describe : E2eeError → String
  | .transport e => e.describe
  | .staleEpochDiverged localEpoch =>
    s!"server rejected our commit as stale-epoch; the local group is now at epoch {localEpoch}, " ++
      "one ahead of the server — resync from the log before continuing"
  | .rekeyRateLimited reason =>
    s!"rekey refused by the commit-rate rule (not permitted yet): {reason}"
  | .commitRejectedDiverged reason localEpoch =>
    s!"server rejected our commit ({reason}); the local group is now at epoch {localEpoch}, " ++
      "one ahead of the server — recover before continuing"
  | .channelIdBelowFloor channelId => s!"channel id {channelId} is below the E2EE floor 4294967296"
  | .chain message => s!"event chain: {message}"
  | .mls message => s!"mls: {message}"
  | .notConfirmed => "cannot send sealed content before this device's leaf is confirmed"
  | .sealedOverCap reason => s!"sealed message over cap: {reason}"
  | .storeResumeTerminal reason => s!"MLS store resume is terminal: {reason}"
  | .resyncEquivocation attempts lastEpoch =>
    s!"resync gave up after {attempts} attempts (group still at epoch {lastEpoch}): " ++
      "the send kept losing the epoch race"
  | .resyncPoisoned member reason =>
    s!"resync hit an impostor leaf for {member.1.text} / {member.2} — the group is poisoned " ++
      s!"and cannot be rolled back: {reason}"
  | .deviceCapReached reason => s!"device authorization refused by the live-device cap: {reason}"

def isStaleEpochDiverged : E2eeError → Bool
  | .staleEpochDiverged _ => true
  | _ => false

def isFreshnessCeilingReached : E2eeError → Bool
  | .transport e => e.isFreshnessCeilingReached
  | _ => false

def isSealedPendingRemovals : E2eeError → Bool
  | .transport e => e.isSealedPendingRemovals
  | _ => false

/-- The local group may be ahead of the server's, and there is no way back. -/
def isDiverged : E2eeError → Bool
  | .staleEpochDiverged _ => true
  | .rekeyRateLimited _ => true
  | .commitRejectedDiverged _ _ => true
  | .resyncEquivocation _ _ => true
  | .resyncPoisoned _ _ => true
  | _ => false

end E2eeError

structure EventAccepted where
  eventHash : EventHash
  timestamp : ℕ
  deriving DecidableEq, Repr

/-- A page of the log of a channel's groups. -/
structure MlsControl where
  events : List (Option Event)
  nextAcceptSeq : ℕ
  more : Bool
  deriving DecidableEq, Repr

/-- The other side of the transport, in any state `σ`: a server that everybody else talks to as
well. `now` is the clock of the device. -/
structure Transport (σ : Type) where
  now : σ → ℕ
  submitEvent : Event → σ → Except TransportError EventAccepted × σ
  fetchMlsControl : ℕ → ℕ → σ → Except TransportError MlsControl × σ
  fetchKeyPackages : Leaf → σ → Except TransportError (List (Option Event)) × σ
  fetchDeviceCerts : PublicKey → σ → Except TransportError (List (Option Event)) × σ

structure Session (M : OpenMls) (σ : Type) where
  chain : ChainState
  group : MlsChannelGroup M
  world : σ

/-- A function of the client: it may fail, and what it has merged and submitted stays so. -/
abbrev Action (M : OpenMls) (σ : Type) (α : Type) := Prog (Session M σ) E2eeError α

def ChainState.advance (K : Crypto) (e : Event) : ChainState :=
  ⟨e.core.seq + 1, some (e.hash K), e.core.lamport⟩

def buildNextEvent (K : Crypto) (actor : Actor) (serverId : ServerId) (chain : ChainState)
    (timestamp : ℕ) (payload : EventPayload) : Event :=
  Event.sign K
    { serverId
      author := K.publicKey actor.identity
      device := deviceId K (K.publicKey actor.device)
      seq := chain.nextSeq
      prev := chain.lastEventHash
      lamport := chain.lamport + 1
      timestamp, payload } actor.device

def Actor.leaf (K : Crypto) (actor : Actor) : Leaf :=
  (K.publicKey actor.identity, deviceId K (K.publicKey actor.device))

def credentialWithKey (K : Crypto) (actor : Actor) : LeafNode :=
  ⟨some (actor.leaf K), (K.publicKey actor.device).asBytes⟩

variable {M : OpenMls} {σ : Type}

/-- An operation on the group; the group is what the operation leaves, even if it fails. -/
def onGroup {α : Type} (op : MlsChannelGroup M → Except String α × MlsChannelGroup M)
    (failed : String) : Action M σ α := fun s =>
  let done := op s.group
  (done.1.mapError fun _ => .mls failed, { s with group := done.2 })

/-- The next event of the device's chain, with a payload that may depend on the group. -/
def nextEvent (K : Crypto) (T : Transport σ) (actor : Actor) (serverId : ServerId)
    (payload : MlsChannelGroup M → EventPayload) : Action M σ Event := fun s =>
  (.ok (buildNextEvent K actor serverId s.chain (T.now s.world) (payload s.group)), s)

/-- Submit an event; nothing else happens to the session. -/
def submit (T : Transport σ) (e : Event) : Action M σ (Except TransportError EventAccepted) :=
  fun s =>
    let answer := T.submitEvent e s.world
    (.ok answer.1, { s with world := answer.2 })

def advance (K : Crypto) (e : Event) : Action M σ Unit :=
  Prog.modify fun s => { s with chain := ChainState.advance K e }

/-- Submit an event, and go on with the chain if it is accepted. -/
def submitNext (K : Crypto) (T : Transport σ) (e : Event) : Action M σ EventAccepted := do
  match ← submit T e with
  | .ok accepted =>
    advance K e
    return accepted
  | .error err => Prog.fail (.transport err)

/-- The head of the device's own chain, which a commit attests. -/
def authzHead (missing : String) : Action M σ EventHash := do
  Prog.ofOption (← Prog.get).chain.lastEventHash (.chain missing)

def fetchKeyPackages (T : Transport σ) (member : Leaf) : Action M σ (List (Option Event)) :=
  fun s =>
    let answer := T.fetchKeyPackages member s.world
    (answer.1.mapError .transport, { s with world := answer.2 })

def fetchMlsControl (T : Transport σ) (channelId sinceAcceptSeq : ℕ) : Action M σ MlsControl :=
  fun s =>
    let answer := T.fetchMlsControl channelId sinceAcceptSeq s.world
    (answer.1.mapError .transport, { s with world := answer.2 })

def fetchDeviceCerts (T : Transport σ) (identity : PublicKey) :
    Action M σ (List (Option Event)) := fun s =>
  let answer := T.fetchDeviceCerts identity s.world
  (answer.1.mapError .transport, { s with world := answer.2 })

end Client
