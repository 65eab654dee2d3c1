import Farder.Server.WidgetSweep

/-! # Runs of a server with widgets

Requests, commands that are admitted and post later, sweeps, and the messages that a sweep has
left to be sent one by one; a restart loses these and the commands under way. -/
namespace Server

open EventLog Guarded Permissions Widgets Reports

inductive BoardOp where
  /-- What has no part in widgets, but for the deletion of a card. -/
  | store (op : StoreOp)
  | request (member : PublicKey) (isOwner : Bool) (pick : ℕ) (request : WidgetRequest)
  | runCommand (member : PublicKey) (isOwner : Bool) (channelId : ℕ)
  | findCommand (cmd : PendingCommand) (trigger : String)
  | checkModerator (cmd : PendingCommand)
  | reply (cmd : PendingCommand) (content : String)
  | createPoll (cmd : PendingCommand) (parsed : ParsedPoll)
  | createGiveaway (cmd : PendingCommand) (parsed : ParsedGiveaway)
  | createEvent (cmd : PendingCommand) (parsed : ParsedEvent)
  | createReminder (cmd : PendingCommand) (parsed : ParsedReminder)
  | sweep (chance : Chance)
  /-- The first message of the outbox is sent; a direct message is encrypted and stored, or it is
  dropped when that fails. -/
  | deliver (systemKey : PublicKey) (ciphertext : String)
  | drop
  | restart

/-- Commands and rerolls are modelled with the widgets, and a restart is one of the whole. -/
def StoreOp.isBare : StoreOp → Bool
  | .host (.request _ _ (.runCommand ..)) => false
  | .host (.continueCommand ..) => false
  | .host (.request _ _ (.rerollGiveaway ..)) => false
  | .reconcile => false
  | _ => true

namespace Board

variable (K : Crypto) (b : Board) (moment : Moment)

/-- The message that an accepted `DeleteMessage` deletes. -/
def deletedCard (op : StoreOp) : Option ℕ :=
  match op with
  | .host (.request member isOwner (.message (.deleteMessage id))) =>
    if b.host.Accepts K (moment, .request member isOwner (.message (.deleteMessage id))) then some id
    else none
  | _ => none

/-- What is told when a card is deleted whose widget was still open. -/
def closedByCard (messageId : ℕ) : List CardNotice :=
  let w := b.widgets.closeByCard messageId moment.now
  let closed := b.withWidgets w
  match b.widgets.widget.lookup messageId with
  | some (.poll id) => if (b.widgets.polls.get? id).any fun row => row.closedAt = none then
      (w.polls.get? id).toList.map fun row => .pollUpdated (closed.pollInfo id row) else []
  | some (.giveaway id) => if (b.widgets.giveaways.get? id).any fun row => row.status = .opened then
      (w.giveaways.get? id).toList.map fun row => .giveawayUpdated (closed.giveawayInfo id row)
    else []
  | some (.event id) => if (b.widgets.channelEvents.get? id).any fun row =>
        row.status = .upcoming then
      (w.channelEvents.get? id).toList.map fun row => .eventUpdated (closed.eventInfo id row)
    else []
  | none => []

def performStore (op : StoreOp) : Board × List CardNotice :=
  match b.host.performStore K moment op with
  | .error _ => (b, [])
  | .ok host =>
    let card := b.deletedCard K moment op
    let widgets := (card.map fun id => b.widgets.closeByCard id moment.now).getD b.widgets
    ({ b with host, widgets := widgets.dropLinks host.db },
      (card.map fun id => b.closedByCard moment id).getD [])

/-- `bots::send_system_dm`. -/
def sendSystemDm (systemKey recipient : PublicKey) (ciphertext : String) : Checked Board := do
  let (b, systemPk) ← b.getOrCreateSystemIdentity moment.now systemKey
  let opened := b.host.openDmChannel systemPk recipient
  let channel ← context (opened.findDmChannel systemPk recipient) "dm channel vanished after open"
  let db ← opened.db.insertMessage channel.id systemPk ciphertext none moment.now
  return { b with host := opened.withDb db }

def deliver (systemKey : PublicKey) (ciphertext : String) : Board :=
  match b.outbox with
  | [] => b
  | .dm _ recipient _ :: rest =>
    match { b with outbox := rest }.sendSystemDm moment systemKey recipient ciphertext with
    | .ok sent => sent
    | .error _ => { b with outbox := rest }
  | _ :: rest => { b with outbox := rest }

/-- A start of the server: the log is replayed, and what was only in memory is gone. -/
def restart : Board :=
  match b.host.performStore K moment .reconcile with
  | .ok host => { b with
      host
      widgets := b.widgets.dropLinks host.db
      commands := []
      outbox := [] }
  | .error _ => { b with commands := [], outbox := [] }

/-- An operation with what it leaves, and what it tells about widgets. The messages of a sweep are
told by it and sent later. -/
def perform (op : BoardOp) : Board × List CardNotice :=
  match op with
  | .store op => b.performStore K moment op
  | .request member isOwner pick request =>
    b.handleWidgetRequest K member isOwner moment pick request
  | .runCommand member isOwner channelId => b.admitCommand member isOwner moment channelId
  | .findCommand cmd trigger => b.attempt (·.findCommand cmd trigger)
  | .checkModerator cmd => b.attempt (·.checkModerator cmd)
  | .reply cmd content => b.attempt (·.reply moment cmd content)
  | .createPoll cmd parsed => b.attempt (·.createPollCard moment cmd parsed)
  | .createGiveaway cmd parsed => b.attempt (·.createGiveawayCard moment cmd parsed)
  | .createEvent cmd parsed => b.attempt (·.createEventCard moment cmd parsed)
  | .createReminder cmd parsed => b.attempt (·.createReminder moment cmd parsed)
  | .sweep chance =>
    let swept := b.sweepOnce chance moment.now
    ({ swept.1 with outbox := swept.2 }, swept.2)
  | .deliver systemKey ciphertext => (b.deliver moment systemKey ciphertext, [])
  | .drop => ({ b with outbox := b.outbox.tail }, [])
  | .restart => (b.restart K moment, [])

/-- The sweeper sends all that a sweep has left before it sweeps again. -/
def Admits : BoardOp → Prop
  | .store op => op.isBare = true
  | .sweep _ => b.outbox = []
  | _ => True

instance (op : BoardOp) : Decidable (b.Admits op) := by
  cases op <;> simp only [Admits] <;> infer_instance

/-- A server that is set up, without any widgets. -/
def firstRun (setup : Setup) : Board :=
  ⟨.firstRun setup, .empty, none, [], []⟩

end Board

def BoardStep (K : Crypto) (b : Board) (e : Moment × BoardOp) (b' : Board) : Prop :=
  b.Admits e.2 ∧ (b.perform K e.1 e.2).1 = b'

abbrev BoardRun (K : Crypto) := Execution (BoardStep K)

/-- What a transition tells about widgets. -/
def told (K : Crypto) (t : Transition Board (Moment × BoardOp)) : List CardNotice :=
  (t.pre.perform K t.event.1 t.event.2).2

/-- The messages of a sweep that a transition sends. -/
def sent (t : Transition Board (Moment × BoardOp)) : List CardNotice :=
  match t.event.2 with
  | .deliver .. => t.pre.outbox.head?.toList
  | _ => []

end Server
