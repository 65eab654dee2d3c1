import Farder.Server.StoreOps
import Mathlib.Data.List.AList

/-! # Widgets

Polls, giveaways and events, each with a card: a message of a channel whose `widget` column
points back to the row. Reminders are personal and have none. Here are the four tables, those of
the votes, entries and replies, and what is done to a row of each. -/
namespace Server

open EventLog Guarded Permissions

abbrev KeyedRows (κ ν : Type) := AList fun _ : κ => ν

namespace KeyedRows

variable {κ ν : Type} [DecidableEq κ]

/-- `INSERT … ON CONFLICT DO UPDATE`. -/
def upsert (t : KeyedRows κ ν) (k : κ) (v : ν) : KeyedRows κ ν :=
  if k ∈ t then t.replace k v else t.insert k v

def insertOrIgnore (t : KeyedRows κ ν) (k : κ) (v : ν) : KeyedRows κ ν :=
  if k ∈ t then t else t.insert k v

def rowsOf (t : KeyedRows (ℕ × PublicKey) ν) (id : ℕ) : List (PublicKey × ν) :=
  (t.entries.reverse.filter fun x => x.1.1 = id).map fun x => (x.1.2, x.2)

end KeyedRows

structure PollRow where
  channelId : ℕ
  messageId : ℕ
  creator : PublicKey
  question : String
  options : List String
  createdAt : ℕ
  closesAt : Option ℕ
  closedAt : Option ℕ
  deriving DecidableEq, Repr

inductive GiveawayStatus where
  | opened
  | ended
  | cancelled
  deriving DecidableEq, Repr

structure GiveawayRow where
  channelId : ℕ
  messageId : ℕ
  creator : PublicKey
  prize : String
  endsAt : ℕ
  status : GiveawayStatus
  winner : Option PublicKey
  createdAt : ℕ
  deriving DecidableEq, Repr

inductive EventStatus where
  | upcoming
  | started
  | cancelled
  deriving DecidableEq, Repr

structure EventRow where
  channelId : ℕ
  messageId : ℕ
  creator : PublicKey
  title : String
  description : Option String
  location : Option String
  startsAt : ℕ
  remindLead : Option ℕ
  remindedAt : Option ℕ
  status : EventStatus
  startedAt : Option ℕ
  cancelledAt : Option ℕ
  cancelNotifiedAt : Option ℕ
  createdAt : ℕ
  deriving DecidableEq, Repr

structure Rsvp where
  response : String
  updatedAt : ℕ
  deriving DecidableEq, Repr

inductive ReminderStatus where
  | pending
  | sent
  | cancelled
  deriving DecidableEq, Repr

structure ReminderRow where
  owner : PublicKey
  channelId : ℕ
  text : String
  createdAt : ℕ
  dueAt : ℕ
  status : ReminderStatus
  sentAt : Option ℕ
  deriving DecidableEq, Repr

/-- The tables of the widgets, and the column of the messages that points to them. -/
structure Widgets where
  polls : Table PollRow
  pollVotes : KeyedRows (ℕ × PublicKey) ℕ
  giveaways : Table GiveawayRow
  giveawayEntries : KeyedRows (ℕ × PublicKey) ℕ
  channelEvents : Table EventRow
  rsvps : KeyedRows (ℕ × PublicKey) Rsvp
  reminders : Table ReminderRow
  widget : FiniteMap ℕ WidgetRef

def maxPendingPerUser : ℕ := 20
def reminderDueBatch : ℕ := 200
def eventDueBatch : ℕ := 200
def attendeeNameCap : ℕ := 10
def minLeadSecs : ℕ := 60
def maxAheadSecs : ℕ := 365 * 86400
def remindLeads : List ℕ := [900, 3600, 86400]

namespace Widgets

def empty : Widgets :=
  ⟨.empty, ∅, .empty, ∅, .empty, ∅, .empty, ∅⟩

variable (w : Widgets)

/-- `polls::close`: only an open poll is closed. -/
def closePoll (id now : ℕ) : Widgets :=
  { w with polls := w.polls.modify id fun row =>
      if row.closedAt = none then { row with closedAt := some now } else row }

/-- The polls whose time is over, in the order in which the sweep closes them. -/
def duePolls (now : ℕ) : List ℕ :=
  (w.polls.rows.filter fun x => x.2.closedAt = none ∧ ∃ t ∈ x.2.closesAt, t ≤ now).map Prod.fst

/-- `giveaways::cancel`: only an open giveaway is cancelled. -/
def cancelGiveaway (id : ℕ) : Widgets :=
  { w with giveaways := w.giveaways.modify id fun row =>
      if row.status = .opened then { row with status := .cancelled } else row }

def endGiveaway (id : ℕ) (winner : Option PublicKey) : Widgets :=
  { w with giveaways := w.giveaways.modify id fun row =>
      if row.status = .opened then { row with status := .ended, winner } else row }

/-- `giveaways::reroll`: the winner of an ended giveaway changes. -/
def rerollWinner (id : ℕ) (winner : PublicKey) : Widgets :=
  { w with giveaways := w.giveaways.modify id fun row =>
      if row.status = .ended then { row with winner := some winner } else row }

def dueGiveaways (now : ℕ) : List (ℕ × GiveawayRow) :=
  w.giveaways.rows.filter fun x => x.2.status = .opened ∧ x.2.endsAt ≤ now

def entrants (id : ℕ) : List PublicKey :=
  ((w.giveawayEntries.rowsOf id).insertionSort fun x y =>
    x.2 < y.2 ∨ x.2 = y.2 ∧ x.1.bytes.toNat ≤ y.1.bytes.toNat).map Prod.fst

/-- `channel_events::cancel`: only an upcoming event is cancelled. -/
def cancelEvent (id now : ℕ) : Widgets :=
  { w with channelEvents := w.channelEvents.modify id fun row =>
      if row.status = .upcoming then { row with status := .cancelled, cancelledAt := some now }
      else row }

def startEvent (id now : ℕ) : Widgets :=
  { w with channelEvents := w.channelEvents.modify id fun row =>
      if row.status = .upcoming then { row with status := .started, startedAt := some now }
      else row }

structure EventEdit where
  title : String
  description : Option String
  location : Option String
  startsAt : ℕ
  remindLead : Option ℕ
  deriving DecidableEq, Repr

/-- `channel_events::edit`: with `rearm` the reminder before the start is due again. -/
def editEvent (id : ℕ) (edit : EventEdit) (rearm : Bool) : Widgets :=
  { w with channelEvents := w.channelEvents.modify id fun row =>
      if row.status = .upcoming then
        { row with
          title := edit.title
          description := edit.description
          location := edit.location
          startsAt := edit.startsAt
          remindLead := edit.remindLead
          remindedAt := if rearm then none else row.remindedAt }
      else row }

def markReminded (id now : ℕ) : Widgets :=
  { w with channelEvents := w.channelEvents.modify id fun row =>
      if row.remindedAt = none then { row with remindedAt := some now } else row }

def markCancelNotified (id now : ℕ) : Widgets :=
  { w with channelEvents := w.channelEvents.modify id fun row =>
      if row.cancelNotifiedAt = none then { row with cancelNotifiedAt := some now } else row }

def listReminderDue (now : ℕ) : List (ℕ × EventRow) :=
  (w.channelEvents.rows.filter fun x => x.2.status = .upcoming ∧ x.2.remindedAt = none ∧
    (∃ lead ∈ x.2.remindLead, x.2.startsAt ≤ now + lead) ∧ now < x.2.startsAt).take eventDueBatch

def listStartDue (now : ℕ) : List (ℕ × EventRow) :=
  (w.channelEvents.rows.filter fun x => x.2.status = .upcoming ∧ x.2.startsAt ≤ now).take
    eventDueBatch

def listCancelUnnotified : List (ℕ × EventRow) :=
  (w.channelEvents.rows.filter fun x => x.2.status = .cancelled ∧
    x.2.cancelNotifiedAt = none).take eventDueBatch

def replies (id : ℕ) : List (PublicKey × Rsvp) :=
  (w.rsvps.rowsOf id).insertionSort fun x y => x.2.updatedAt ≤ y.2.updatedAt

def responders (id : ℕ) (responses : List String) : List PublicKey :=
  ((w.replies id).filter fun x => x.2.response ∈ responses).map Prod.fst

/-- `reminders::cancel`: only the owner's own reminder, and only while it is pending. -/
def cancelReminder (id : ℕ) (owner : PublicKey) : Widgets :=
  { w with reminders := w.reminders.modify id fun row =>
      if row.owner = owner ∧ row.status = .pending then { row with status := .cancelled }
      else row }

def markSent (id now : ℕ) : Widgets :=
  { w with reminders := w.reminders.modify id fun row =>
      if row.status = .pending then { row with status := .sent, sentAt := some now } else row }

def countPending (owner : PublicKey) : ℕ :=
  w.reminders.rows.countP fun x => x.2.owner = owner ∧ x.2.status = .pending

def listDueReminders (now : ℕ) : List (ℕ × ReminderRow) :=
  ((w.reminders.rows.filter fun x => x.2.status = .pending ∧ x.2.dueAt ≤ now).insertionSort
    fun x y => x.2.dueAt ≤ y.2.dueAt).take reminderDueBatch

/-- The card of a deleted message is gone with its column. -/
def dropLinks (db : Db) : Widgets :=
  { w with widget := FiniteMap.retain w.widget fun id _ => (db.messages.get? id).isSome }

/-- Deleting a card closes its poll, or cancels its open giveaway or upcoming event. -/
def closeByCard (messageId now : ℕ) : Widgets :=
  match w.widget.lookup messageId with
  | some (.poll id) => w.closePoll id now
  | some (.giveaway id) => w.cancelGiveaway id
  | some (.event id) => w.cancelEvent id now
  | none => w

end Widgets
end Server
