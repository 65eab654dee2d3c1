import Farder.Client.Join
import Farder.Client.Sealed

/-! # Catching up and sending again

A sealed message that comes too late for its epoch is sealed and sent again, after the commits that
have come before it are applied. This ends in one of two ways at the latest: when the epoch does not
advance for some attempts, or after so many attempts in all. -/
namespace Client

open EventLog Effects

def maxUnproductiveResyncAttempts : ℕ := 3
def maxTotalResyncAttempts : ℕ := 10

variable {M : OpenMls} {σ : Type} (K : Crypto) (C : EnvelopeCodec) (T : Transport σ) (actor : Actor)
  (certs : CertResolver)

structure ResyncOutcome where
  send : SealedSendOutcome
  nextAcceptSeq : ℕ
  deriving DecidableEq, Repr

/-- One event of the channel; only a commit does anything. -/
def applyFetched (e : Event) : Action M σ Unit := do
  match e.core.payload with
  | .mlsCommit p =>
    let processed := processIncomingCommit K (← Prog.get).group p.mlsMessage
      ⟨p.epoch, p.adds, p.removes, p.postTreeHash⟩ certs
    Prog.modify fun s => { s with group := processed.2 }
    match processed.1 with
    | .error err => Prog.fail err
    | .ok (.applied _ _) => return ()
    | .ok (.outOfOrder current received) =>
      -- A commit of an earlier epoch has been applied before.
      if received < current then return ()
      else Prog.fail (.chain (s!"resync: commit at epoch {received} arrived out of order — " ++
        "a gap blocks advancing the group"))
    | .ok (.leafBindingFailure member reason) => Prog.fail (.resyncPoisoned member reason)
  | _ => return ()

def applyCommits : List Event → Action M σ Unit
  | [] => return ()
  | e :: events => do
    applyFetched K certs e
    applyCommits events

def fetchControl (channelId pages cursor : ℕ) : Action M σ (List Event × ℕ) :=
  followPages (fetchMlsControl T channelId) decodeControl
    "fetch_mls_control returned more=true without advancing the cursor" pages cursor

/-- The loop, with its two counters, the epoch that the last attempt has left and the cursor. It is
not run for more than this many turns. -/
def resyncLoop (ctx : SealContext) (confirmed : Bool) (pages : ℕ) :
    (turns unproductive attempts lastEpoch cursor : ℕ) → Action M σ ResyncOutcome
  | 0, _, _, _, _ => Prog.fail (.chain "the loop goes on")
  | turns + 1, unproductive, attempts, lastEpoch, cursor => do
    match ← Prog.attempt (sendSealed C K T actor ctx confirmed) with
    | .ok send => return ⟨send, cursor⟩
    | .error (.transport e) =>
      if e.isStaleEpoch = false then Prog.fail (.transport e)
      else
        let (events, cursor) ← fetchControl T ctx.key.channelId pages cursor
        applyCommits K certs events
        let newEpoch := (← Prog.get).group.epoch
        let unproductive := if newEpoch = lastEpoch then unproductive + 1 else 0
        if newEpoch = lastEpoch ∧ maxUnproductiveResyncAttempts ≤ unproductive then
          Prog.fail (.resyncEquivocation (attempts + 1) newEpoch)
        else if maxTotalResyncAttempts ≤ attempts + 1 then
          Prog.fail (.resyncEquivocation (attempts + 1) newEpoch)
        else resyncLoop ctx confirmed pages turns unproductive (attempts + 1) newEpoch cursor
    | .error e => Prog.fail e

def sendSealedResync (ctx : SealContext) (confirmed : Bool) (turns pages sinceAcceptSeq : ℕ) :
    Action M σ ResyncOutcome := do
  resyncLoop K C T actor certs ctx confirmed pages turns 0 0 (← Prog.get).group.epoch sinceAcceptSeq

end Client
