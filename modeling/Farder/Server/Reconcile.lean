import Farder.Server.EventIngest

/-! # Reconciliation at start-up

A restart rebuilds the authorization state from the stored events, then repairs what drifted
from the log: the channel classes, the message rows with their edits and reply edges, and the
attachments. -/
namespace Server

open EventLog Guarded

variable (K : Crypto)

/-- `event_ingest::build_log_state`. -/
def buildLogState (db : Db) : Checked (Option LogState) :=
  match db.genesis with
  | none => return none
  | some g => some <$> withContext (LogState.replay K g db.events) "replay of stored events failed"

def isPosted (e : Event) : Bool :=
  match e.core.payload with
  | .messagePosted _ => true
  | .messagePostedE2ee _ => true
  | _ => false

/-- The channel of a posted message, and the message it cites. -/
def citedBy (e : Event) : Option (ℕ × EventRef) :=
  match e.core.payload with
  | .messagePosted p => p.replyTo.map fun target => (p.channelId, target)
  | .messagePostedE2ee p => p.replyTo.map fun target => (p.channelId, target)
  | _ => none

def deletedTarget (e : Event) : Option EventRef :=
  match e.core.payload with
  | .messageDeleted p => some p.target
  | _ => none

def storedTombstoneTargets (events : List Event) : List EventRef := events.filterMap deletedTarget

/-- Named by a stored tombstone, or by one of the authorization state. -/
def isTombstoned (events : List Event) (logState : Option LogState) (hash : EventHash) : Bool :=
  hash ∈ storedTombstoneTargets events ∨ ∃ s ∈ logState, hash ∈ s.tombstones

namespace Db

/-- Re-assert the class that the log declares for a channel; a channel that counts as
encrypted is never widened, and a missing one is not created again. -/
def reconcileChannelClass (db : Db) (e : Event) : Db :=
  match e.core.payload with
  | .channelCreated p =>
    match db.channelRow p.channelId with
    | none => db
    | some row =>
      if row.contentClass = some p.cls ∨ row.contentClass = some .e2ee then db
      else { db with channels := db.channels.map fun ch =>
              if ch.id = p.channelId then { ch with contentClass := some p.cls } else ch }
  | _ => db

def reconcileChannelClasses (db : Db) : Db := db.events.foldl reconcileChannelClass db

def deriveMissing (tombstoned : EventHash → Bool) (acc : Db × ℕ) (e : Event) :
    Checked (Db × ℕ) :=
  if tombstoned (e.hash K) then return acc
  else do
    let (db, derived) ← acc.1.deriveMessageRow K e
    return (db, if derived.isSome then acc.2 + 1 else acc.2)

/-- Delete a row that is still there although its message is tombstoned. -/
def sweepTombstoned (db : Db) (target : EventRef) : Checked Db :=
  match db.rowOfHash target with
  | none => return db
  | some (id, _) => do
    let (db, _) ← db.deleteMessage id
    return db

def replaySealedEdit (tombstoned : EventHash → Bool) (db : Db) (e : Event) : Checked Db :=
  match e.core.payload with
  | .messageEditedE2ee p =>
    if tombstoned p.target then return db
    else do
      match ← db.sealedEditTarget p.channelId p.target e.core.author false with
      | none => return db
      | some id => db.updateSealedRow id p.ciphertext e.core.timestamp
  | _ => return db

/-- Resolve the reply edge of a row again; the edge stays missing if its target does. -/
def repairReplyLink (db : Db) (x : Event × ℕ) : Db :=
  match citedBy x.1 with
  | none => db
  | some (channelId, target) =>
    match db.resolveReplyTarget channelId (some target) with
    | none => db
    | some targetId =>
      { db with messages := db.messages.modify x.2 fun row => { row with replyTo := some targetId } }

/-- The rows without a reply edge, each with the event it comes from. -/
def unlinkedRows (db : Db) : List (Event × ℕ) :=
  (db.events.filter isPosted).filterMap fun e =>
    (db.rowOfHash (e.hash K)).bind fun x => if x.2.replyTo = none then some (e, x.1) else none

def repairReplyLinks (db : Db) : Db := (db.unlinkedRows K).foldl repairReplyLink db

/-- `event_ingest::reconcile_messages`, with the number of rows it derived. -/
def reconcileMessages (db : Db) (logState : Option LogState) : Checked (Db × ℕ) := do
  let tombstoned := isTombstoned db.events logState
  let missing := db.events.filter fun e => isPosted e ∧ db.rowOfHash (e.hash K) = none
  let (db, repaired) ← missing.foldlM (deriveMissing K tombstoned) (db, 0)
  let db ← (storedTombstoneTargets db.events).foldlM sweepTombstoned db
  let db ← db.events.foldlM (replaySealedEdit tombstoned) db
  return (db.repairReplyLinks K, repaired)

/-- Materialize the missing valid attachments of every posted message that has a row. -/
def reconcileAttachments (db : Db) : Db :=
  match db.genesis with
  | none => db
  | some g =>
    let rows := (db.events.filter isPosted).filterMap fun e =>
      (db.rowOfHash (e.hash K)).map fun x => (e, x.1)
    rows.foldl (fun db x => db.deriveAttachments x.1 x.2 g.owner) db

def sweepRedactedBytes (db : Db) : Db :=
  { db with blobs := db.blobs.filter fun b =>
      ∀ x ∈ db.files.rows, x.2.hash = b.1 → x.2.redactedBy = none }

end Db

def ServerState.restart (st : ServerState) : Checked ServerState :=
  match st.db.genesis with
  | none => return { st with logState := none }
  | some _ => do
    let logState ← buildLogState K st.db
    let db := st.db.reconcileChannelClasses
    let (db, _) ← db.reconcileMessages K logState
    return { db := (db.reconcileAttachments K).sweepRedactedBytes, logState }

end Server
