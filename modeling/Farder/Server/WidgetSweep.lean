import Farder.Server.Board
import Farder.Support.Reports

/-! # The sweep over the widgets

One task goes over all widgets every few seconds: it closes polls, draws giveaways, and writes to
the owners of reminders and to those who replied to an event. It writes down what it has done
before anything is sent. Any write can fail, and a row that fails is left for the next time. -/
namespace Server

open EventLog Guarded Permissions Widgets Reports

inductive SweepPass where
  | poll
  | giveaway
  | reminder
  | lead
  | start
  | cancellation
  deriving DecidableEq, Repr

inductive SweepFault where
  | list (pass : SweepPass)
  | row (pass : SweepPass) (id : ℕ)
  | responders (eventId : ℕ)
  | systemIdentity
  deriving DecidableEq, Repr

/-- What a sweep draws at random, and what fails in it. -/
structure Chance where
  pick : ℕ → ℕ
  announceKey : ℕ → PublicKey
  systemKey : PublicKey
  fails : SweepFault → Bool

def systemBotLabel : String := "Farder"

namespace Board

variable (b : Board) (chance : Chance) (now : ℕ)

/-- The identity of the server is made when it is needed; its row among the members is made again
if it has gone. -/
def getOrCreateSystemIdentity (key : PublicKey) : Checked (Board × PublicKey) := do
  match b.system with
  | some pk =>
    if b.host.community.getMember pk = none then
      let community ← b.host.community.registerMember pk systemBotLabel true now
      return ({ b with host := b.host.withCommunity community }, pk)
    else return (b, pk)
  | none =>
    let community ← b.host.community.registerMember key systemBotLabel true now
    return ({ b with
      host := b.host.withCommunity { community with
        bots := community.bots.insert key systemBotKind }
      system := some key }, key)

def passRows {ρ : Type} (kind : SweepPass) (due : List (ℕ × ρ))
    (step : ℕ × ρ → Board → Checked (Board × List CardNotice)) : Board × List CardNotice :=
  forEach (fun x b => if chance.fails (.row kind x.1) then (b, []) else b.attempt (step x)) due b

/-- The passes of a sweep: the rows that are due, if they can be listed. -/
def pass {ρ : Type} (kind : SweepPass) (due : List (ℕ × ρ))
    (step : ℕ × ρ → Board → Checked (Board × List CardNotice)) : Board × List CardNotice :=
  if chance.fails (.list kind) then (b, []) else b.passRows chance kind due step

/-- `polls::close_due`: when a row fails, those before it are closed and nothing is sent. -/
def closeDue : Board × List CardNotice :=
  if chance.fails (.list .poll) then (b, [])
  else
    let due := b.widgets.duePolls now
    let done := due.takeWhile fun id => !chance.fails (.row .poll id)
    let closed := b.withWidgets (done.foldl (fun w id => w.closePoll id now) b.widgets)
    (closed, if done = due then done.filterMap fun id =>
      (closed.widgets.polls.get? id).map fun row => .pollUpdated (closed.pollInfo id row) else [])

def announce (author : PublicKey) (channelId messageId : ℕ) (text : String) (subject : Subject) :
    Checked (Board × CardNotice) := do
  let db ← b.host.db.insertMessage channelId author text (some messageId) now
  let announced : Board := { b with host := b.host.withDb db }
  let message ← context (announced.host.getMessage b.host.db.messages.next)
    "announcement vanished after insert"
  return (announced, .newMessage subject message)

def closeAndDraw (x : ℕ × GiveawayRow) (b : Board) : Checked (Board × List CardNotice) := do
  let winner := drawFrom (chance.pick x.1) (b.eligibleEntrants x.1)
  ensure ((b.widgets.giveaways.get? x.1).any fun row => row.status = .opened)
    s!"giveaway {x.1} is no longer open"
  let text := match winner with
    | some pk => s!"🎉 {b.nameFor pk} won: {x.2.prize}"
    | none => s!"🎉 Giveaway ended — no entries: {x.2.prize}"
  let ended := b.withWidgets (b.widgets.endGiveaway x.1 winner)
  let (announced, notice) ← ended.announce now (chance.announceKey x.1) x.2.channelId
    x.2.messageId text (.draw x.1)
  let row ← context (announced.widgets.giveaways.get? x.1) "giveaway row vanished during draw"
  return (announced, [.giveawayUpdated (announced.giveawayInfo x.1 row), notice])

/-- A channel that is not plaintext gets no message of the server; its widgets stay due. -/
def inPlaintext (channelId : ℕ) (write : Board → Checked (Board × List CardNotice)) (b : Board) :
    Checked (Board × List CardNotice) := do
  b.host.db.requirePlaintext channelId
  write b

def drawDue : Board × List CardNotice :=
  b.pass chance .giveaway (b.widgets.dueGiveaways now) fun x =>
    inPlaintext x.2.channelId (closeAndDraw chance now x)

def reminderDmText (row : ReminderRow) : String :=
  let channel := b.host.db.getChannel row.channelId
  if channel.any fun ch => ch.channelType = .dm then s!"⏰ {row.text}\n— set in a direct message"
  else
    let name := (channel.map ChannelRow.name).getD "a channel"
    s!"⏰ {row.text}\n— set in #{name} · farder://channel/{row.channelId}"

def sendReminder (x : ℕ × ReminderRow) (b : Board) : Checked (Board × List CardNotice) := do
  ensure ((b.widgets.reminders.get? x.1).any fun row => row.status = .pending) "already sent"
  return (b.withWidgets (b.widgets.markSent x.1 now),
    [.dm (.reminder x.1) x.2.owner (b.reminderDmText x.2)])

def sendReminders : Board × List CardNotice :=
  b.pass chance .reminder (b.widgets.listDueReminders now) (sendReminder now)

def eventDmText (head : String) (x : ℕ × EventRow) : String :=
  let place := (x.2.location.map fun l => "\n📍 " ++ l).getD ""
  head ++ place ++ s!"\nfarder://widget/event/{x.2.channelId}/{x.1}"

/-- One message for each who has replied so; an event's replies are not public. -/
def eventDms (id : ℕ) (subject : Subject) (responses : List String) (text : String) :
    List CardNotice :=
  if chance.fails (.responders id) then []
  else (b.widgets.responders id responses).map fun pk => .dm subject pk text

def remindOfStart (x : ℕ × EventRow) (b : Board) : Checked (Board × List CardNotice) := do
  ensure ((b.widgets.channelEvents.get? x.1).any fun row => row.remindedAt = none)
    "already reminded"
  let marked := b.withWidgets (b.widgets.markReminded x.1 now)
  return (marked, marked.eventDms chance x.1 (.lead x.1) ["going", "maybe"]
    (eventDmText s!"⏰ \"{x.2.title}\" starts soon." x))

def remindOfStarts : Board × List CardNotice :=
  b.pass chance .lead (b.widgets.listReminderDue now) (remindOfStart chance now)

def startAndAnnounce (systemPk : PublicKey) (x : ℕ × EventRow) (b : Board) :
    Checked (Board × List CardNotice) := do
  ensure ((b.widgets.channelEvents.get? x.1).any fun row => row.status = .upcoming)
    "no longer upcoming"
  let started := b.withWidgets (b.widgets.startEvent x.1 now)
  let (announced, notice) ← started.announce now systemPk x.2.channelId x.2.messageId
    s!"📅 {x.2.title} is starting now!" (.start x.1)
  let row ← context (announced.widgets.channelEvents.get? x.1) "event row vanished during start"
  return (announced, [.eventUpdated (announced.eventInfo x.1 row), notice] ++
    announced.eventDms chance x.1 (.start x.1) ["going"]
      (eventDmText s!"📅 \"{x.2.title}\" is starting now." x))

def startEvents : Board × List CardNotice :=
  if chance.fails (.list .start) then (b, [])
  else
    let due := b.widgets.listStartDue now
    if due = [] ∨ chance.fails .systemIdentity then (b, [])
    else match b.getOrCreateSystemIdentity now chance.systemKey with
      | .error _ => (b, [])
      | .ok (b, systemPk) => b.passRows chance .start due fun x =>
          inPlaintext x.2.channelId (startAndAnnounce chance now systemPk x)

def notifyCancelled (x : ℕ × EventRow) (b : Board) : Checked (Board × List CardNotice) := do
  ensure ((b.widgets.channelEvents.get? x.1).any fun row => row.cancelNotifiedAt = none)
    "already notified"
  let marked := b.withWidgets (b.widgets.markCancelNotified x.1 now)
  return (marked, marked.eventDms chance x.1 (.cancellation x.1) ["going"]
    s!"❌ \"{x.2.title}\" was cancelled.")

def notifyCancellations : Board × List CardNotice :=
  b.pass chance .cancellation b.widgets.listCancelUnnotified (notifyCancelled chance now)

/-- `widgets::sweep_once`. -/
def sweepOnce : Board × List CardNotice :=
  andThen (closeDue · chance now) (andThen (drawDue · chance now)
    (andThen (sendReminders · chance now) (andThen (remindOfStarts · chance now)
      (andThen (startEvents · chance now) (notifyCancellations · chance now))))) b

/-! ## What the passes keep -/

variable {b chance now} {P : Board → Prop} {write : Board → Checked (Board × List CardNotice)}

theorem attempt_keeps (h : P b) (hwrite : ∀ x, write b = .ok x → P x.1) : P (b.attempt write).1 := by
  unfold attempt
  split
  · exact hwrite _ ‹_›
  · exact h

theorem passRows_keeps {ρ : Type} {kind : SweepPass} {due : List (ℕ × ρ)}
    {step : ℕ × ρ → Board → Checked (Board × List CardNotice)} (h : P b)
    (hstep : ∀ x ∈ due, ∀ b', P b' → ∀ y, step x b' = .ok y → P y.1) :
    P (b.passRows chance kind due step).1 := by
  have hchain : Chain fun (b : Board) (_ : List CardNotice) b' => P b → P b' :=
    .of_trans (fun _ => id) fun _ _ _ h h' => h' ∘ h
  refine hchain.forEach (fun x hx _ b' hl hb' => ?_) h
  split_ifs
  · exact hb'
  · exact attempt_keeps hb' (hstep x hx b' hb')

theorem pass_keeps {ρ : Type} {kind : SweepPass} {due : List (ℕ × ρ)}
    {step : ℕ × ρ → Board → Checked (Board × List CardNotice)} (h : P b)
    (hstep : ∀ x ∈ due, ∀ b', P b' → ∀ y, step x b' = .ok y → P y.1) :
    P (b.pass chance kind due step).1 := by
  unfold pass
  split_ifs
  · exact h
  · exact passRows_keeps h hstep

theorem inPlaintext_eq_ok {channelId : ℕ} {x : Board × List CardNotice} :
    inPlaintext channelId write b = .ok x ↔
      b.host.db.resolve channelId = .plaintext ∧ write b = .ok x := by
  simp only [inPlaintext, Db.requirePlaintext, bind_eq_ok, ensure_eq_ok, exists_const]

theorem systemIdentity_eq_ok {key : PublicKey} {x : Board × PublicKey}
    (h : b.getOrCreateSystemIdentity now key = .ok x) :
    x.1.widgets = b.widgets ∧ x.1.host.db = b.host.db := by
  unfold getOrCreateSystemIdentity at h
  split at h
  · split_ifs at h
    · simp only [bind_eq_ok, pure_eq_ok] at h
      obtain ⟨community, -, rfl⟩ := h
      exact ⟨rfl, rfl⟩
    · obtain rfl := pure_eq_ok.mp h
      exact ⟨rfl, rfl⟩
  · simp only [bind_eq_ok, pure_eq_ok] at h
    obtain ⟨community, -, rfl⟩ := h
    exact ⟨rfl, rfl⟩

end Board
end Server
