import Farder.Server.Widgets

/-! # A server with its widgets

The requests about widgets, and the commands that post their cards. A command is checked first
and posts later, and in between the server answers others. -/
namespace Server

open EventLog Guarded Permissions Widgets

structure PollInfo where
  id : ℕ
  row : PollRow
  counts : List ℕ
  deriving DecidableEq, Repr

structure GiveawayInfo where
  id : ℕ
  row : GiveawayRow
  entryCount : ℕ
  winnerName : Option String
  deriving DecidableEq, Repr

/-- For each reply how many have given it, and the names of the first of them. -/
structure EventInfo where
  id : ℕ
  row : EventRow
  going : ℕ × List String
  maybe : ℕ × List String
  no : ℕ × List String
  deriving DecidableEq, Repr

/-- What a message that the server writes is about. -/
inductive Subject where
  | card (ref : WidgetRef)
  | draw (giveawayId : ℕ)
  | reroll (giveawayId : ℕ)
  | lead (eventId : ℕ)
  | start (eventId : ℕ)
  | cancellation (eventId : ℕ)
  | reminder (reminderId : ℕ)
  deriving DecidableEq, Repr

/-- What is sent out about widgets: to the subscribers of a channel, or to one member. -/
inductive CardNotice where
  | pollUpdated (poll : PollInfo)
  | giveawayUpdated (giveaway : GiveawayInfo)
  | eventUpdated (event : EventInfo)
  | newMessage (subject : Subject) (message : MessageInfo)
  | dm (subject : Subject) (recipient : PublicKey) (text : String)
  deriving DecidableEq

/-- A command that has passed the check of its channel and has not posted yet. -/
structure PendingCommand where
  member : PublicKey
  isOwner : Bool
  channelId : ℕ
  command : Option CommandRow
  moderator : Bool
  deriving DecidableEq

/-- A server with its widgets, the commands under way, and what the sweeper has yet to send. -/
structure Board where
  host : Host
  widgets : Widgets
  system : Option PublicKey
  commands : List PendingCommand
  outbox : List CardNotice

inductive WidgetRequest where
  | votePoll (pollId optionIndex : ℕ)
  | retractVote (pollId : ℕ)
  | closePoll (pollId : ℕ)
  | enterGiveaway (giveawayId : ℕ)
  | leaveGiveaway (giveawayId : ℕ)
  | cancelGiveaway (giveawayId : ℕ)
  | rerollGiveaway (giveawayId : ℕ)
  | rsvpEvent (eventId : ℕ) (response : String)
  | clearRsvp (eventId : ℕ)
  | cancelEvent (eventId : ℕ)
  | editEvent (eventId : ℕ) (edit : EventEdit)
  | cancelReminder (reminderId : ℕ)

structure ParsedPoll where
  question : String
  options : List String
  durationSecs : Option ℕ

structure ParsedGiveaway where
  durationSecs : ℕ
  prize : String

inductive WhenSpec where
  | relative (secs : ℕ)
  | absolute (secs : ℕ)

structure ParsedEvent where
  title : String
  start : WhenSpec
  location : Option String
  description : Option String
  remindLead : Option ℕ

structure ParsedReminder where
  delaySecs : ℕ
  text : String

def isWhiteSpace (c : Char) : Bool :=
  let n := c.toNat
  (9 ≤ n ∧ n ≤ 13) ∨ n ∈ [0x20, 0x85, 0xa0, 0x1680, 0x2028, 0x2029, 0x202f, 0x205f, 0x3000] ∨
    (0x2000 ≤ n ∧ n ≤ 0x200a)

def trim (s : String) : String :=
  String.ofList ((s.toList.dropWhile isWhiteSpace).reverse.dropWhile isWhiteSpace).reverse

def validateEventFields (title : String) (description location : Option String) :
    Checked Unit := do
  ensure (title ≠ "" ∧ title.length ≤ 120) "title must be 1-120 characters"
  ensureIfSome location (fun l => l.length ≤ 120) "location must be at most 120 characters"
  ensureIfSome description (fun d => d.length ≤ 500) "description must be at most 500 characters"

def saturatingAdd (a b : ℕ) : ℕ := min (a + b) (2 ^ 64 - 1)

def resolveStart (start : WhenSpec) (now : ℕ) : Checked ℕ := do
  let startsAt := match start with
    | .relative secs => saturatingAdd now secs
    | .absolute secs => secs
  ensure (saturatingAdd now minLeadSecs ≤ startsAt)
    "the event must start at least a minute from now"
  ensure (startsAt ≤ saturatingAdd now maxAheadSecs) "an event can be at most a year out"
  return startsAt

/-- A number with zeros in front. -/
def padded (width n : ℕ) : String :=
  String.ofList (List.replicate (width - (toString n).length) '0') ++ toString n

/-- The date and the time of a moment, by the civil calendar. -/
def formatUtc (secs : ℕ) : String :=
  let rem := secs % 86400
  let z := secs / 86400 + 719468
  let era := z / 146097
  let doe := z % 146097
  let yoe := (doe - doe / 1460 + doe / 36524 - doe / 146096) / 365
  let doy := doe - (365 * yoe + yoe / 4 - yoe / 100)
  let mp := (5 * doy + 2) / 153
  let day := doy - (153 * mp + 2) / 5 + 1
  let month := if mp < 10 then mp + 3 else mp - 9
  let year := yoe + era * 400 + if month ≤ 2 then 1 else 0
  let date := padded 4 year ++ "-" ++ padded 2 month ++ "-" ++ padded 2 day
  date ++ " " ++ padded 2 (rem / 3600) ++ ":" ++ padded 2 (rem % 3600 / 60) ++ " UTC"

/-- The key of a member as it is shown in place of a name. -/
def shortKey (pk : PublicKey) : String := "vk_" ++ hexEncode (pk.asBytes.take 4)

namespace Board

variable (K : Crypto) (b : Board) (member : PublicKey) (isOwner : Bool) (moment : Moment)

/-! ## Widgets as clients see them -/

def pollInfo (id : ℕ) (row : PollRow) : PollInfo :=
  ⟨id, row, (List.range row.options.length).map fun i =>
    (b.widgets.pollVotes.rowsOf id).countP fun x => x.2 = i⟩

def displayName (pk : PublicKey) : Option String :=
  (b.host.community.getMember pk).map MemberRow.displayName

def giveawayInfo (id : ℕ) (row : GiveawayRow) : GiveawayInfo :=
  ⟨id, row, (b.widgets.giveawayEntries.rowsOf id).length, row.winner.bind b.displayName⟩

/-- Members who have left are counted, and are not named. -/
def replySummary (id : ℕ) (response : String) : ℕ × List String :=
  let keys := b.widgets.responders id [response]
  (keys.length, (keys.filterMap b.displayName).take attendeeNameCap)

def eventInfo (id : ℕ) (row : EventRow) : EventInfo :=
  ⟨id, row, b.replySummary id "going", b.replySummary id "maybe", b.replySummary id "no"⟩

/-- Who has entered and may still win. -/
def eligibleEntrants (id : ℕ) : List PublicKey :=
  (b.widgets.entrants id).filter fun pk =>
    (b.host.community.getMember pk).any fun m => !m.banned && !m.revoked

/-- A write that is refused leaves nothing behind. -/
def attempt (write : Board → Checked (Board × List CardNotice)) : Board × List CardNotice :=
  match write b with
  | .ok written => written
  | .error _ => (b, [])

def expireTimeout : Board := { b with host := b.host.expireTimeout member moment.nowMs }

def interact (write : Board → Checked (Board × List CardNotice)) : Board × List CardNotice :=
  match b.host.contentBlockReason member with
  | some _ => (b, [])
  | none => (b.expireTimeout member moment).attempt fun b => do
      b.host.requireNotTimedOut member moment.nowMs
      write b

/-- Most of them are also limited in how often a member makes them. -/
def interactLimited (write : Board → Checked (Board × List CardNotice)) :
    Board × List CardNotice :=
  if moment.admitted then b.interact member moment write else (b, [])

/-- The row of a widget in a channel that the member sees; no other answer tells the cases of a
refusal apart. -/
def visibleRow {ρ : Type} (table : Table ρ) (channelId : ρ → ℕ) (notFound : String) (id : ℕ) :
    Checked ρ := do
  let row ← context (table.get? id) notFound
  ensure (b.host.widgetChannelVisible member isOwner (channelId row)) notFound
  return row

def visiblePoll (id : ℕ) : Checked PollRow :=
  b.visibleRow member isOwner b.widgets.polls PollRow.channelId "poll not found" id

def visibleGiveaway (id : ℕ) : Checked GiveawayRow :=
  b.visibleRow member isOwner b.widgets.giveaways GiveawayRow.channelId "giveaway not found" id

def visibleEvent (id : ℕ) : Checked EventRow :=
  b.visibleRow member isOwner b.widgets.channelEvents EventRow.channelId "event not found" id

/-- Who did not create the widget has to manage the server. -/
def requireCreator (creator : PublicKey) : Checked Unit :=
  if creator = member then .ok ()
  else b.host.requireBasePerm member isOwner manageServer "MANAGE_SERVER"

def withWidgets (widgets : Widgets) : Board := { b with widgets }

def requireOpenPoll (row : PollRow) : Checked Unit :=
  ensure (row.closedAt = none ∧ ∀ t ∈ row.closesAt, moment.now < t) "poll is closed"

def votePoll (id optionIndex : ℕ) : Checked (Board × List CardNotice) := do
  let row ← b.visiblePoll member isOwner id
  requireOpenPoll moment row
  ensure (optionIndex < row.options.length) "invalid option"
  let voted := b.withWidgets { b.widgets with
    pollVotes := b.widgets.pollVotes.upsert (id, member) optionIndex }
  return (voted, [.pollUpdated (voted.pollInfo id row)])

def retractVote (id : ℕ) : Checked (Board × List CardNotice) := do
  let row ← b.visiblePoll member isOwner id
  requireOpenPoll moment row
  let retracted := b.withWidgets { b.widgets with
    pollVotes := b.widgets.pollVotes.erase (id, member) }
  return (retracted, if (id, member) ∈ b.widgets.pollVotes then
    [.pollUpdated (retracted.pollInfo id row)] else [])

def closePoll (id : ℕ) : Checked (Board × List CardNotice) := do
  let row ← b.visiblePoll member isOwner id
  ensure (row.closedAt = none) "poll already closed"
  b.requireCreator member isOwner row.creator
  let closed := b.withWidgets (b.widgets.closePoll id moment.now)
  let row ← context (closed.widgets.polls.get? id) "poll row vanished during close"
  return (closed, [.pollUpdated (closed.pollInfo id row)])

def enterGiveaway (id : ℕ) : Checked (Board × List CardNotice) := do
  let row ← b.visibleGiveaway member isOwner id
  ensure (row.status ≠ .cancelled) "this giveaway was cancelled"
  ensure (row.status = .opened ∧ moment.now < row.endsAt) "this giveaway has ended"
  let entered := b.withWidgets { b.widgets with
    giveawayEntries := b.widgets.giveawayEntries.insertOrIgnore (id, member) moment.now }
  return (entered, if (id, member) ∈ b.widgets.giveawayEntries then []
    else [.giveawayUpdated (entered.giveawayInfo id row)])

def leaveGiveaway (id : ℕ) : Checked (Board × List CardNotice) := do
  let row ← b.visibleGiveaway member isOwner id
  ensure (row.status ≠ .cancelled) "this giveaway was cancelled"
  ensure (row.status = .opened) "this giveaway has ended"
  let left := b.withWidgets { b.widgets with
    giveawayEntries := b.widgets.giveawayEntries.erase (id, member) }
  return (left, if (id, member) ∈ b.widgets.giveawayEntries then
    [.giveawayUpdated (left.giveawayInfo id row)] else [])

def cancelGiveaway (id : ℕ) : Checked (Board × List CardNotice) := do
  let row ← b.visibleGiveaway member isOwner id
  ensure (row.creator = member ∨
      has (b.host.resolveMemberServerPerms member isOwner) manageServer = true)
    "only the creator or a moderator can cancel"
  ensure (row.status = .opened) "giveaway already ended"
  let cancelled := b.withWidgets (b.widgets.cancelGiveaway id)
  let row ← context (cancelled.widgets.giveaways.get? id) "giveaway row vanished during cancel"
  return (cancelled, [.giveawayUpdated (cancelled.giveawayInfo id row)])

def requireNotStarted (row : EventRow) : Checked Unit := do
  ensure (row.status ≠ .cancelled) "this event was cancelled"
  ensure (row.status = .upcoming ∧ moment.now < row.startsAt) "this event has already started"

def rsvpEvent (id : ℕ) (response : String) : Checked (Board × List CardNotice) := do
  let row ← b.visibleEvent member isOwner id
  ensure (response ∈ ["going", "maybe", "no"]) "invalid RSVP"
  requireNotStarted moment row
  let replied := b.withWidgets { b.widgets with
    rsvps := b.widgets.rsvps.upsert (id, member) ⟨response, moment.now⟩ }
  return (replied, [.eventUpdated (replied.eventInfo id row)])

def clearRsvp (id : ℕ) : Checked (Board × List CardNotice) := do
  let row ← b.visibleEvent member isOwner id
  requireNotStarted moment row
  let cleared := b.withWidgets { b.widgets with rsvps := b.widgets.rsvps.erase (id, member) }
  return (cleared, if (id, member) ∈ b.widgets.rsvps then
    [.eventUpdated (cleared.eventInfo id row)] else [])

def cancelEvent (id : ℕ) : Checked (Board × List CardNotice) := do
  let row ← b.visibleEvent member isOwner id
  ensure (row.status = .upcoming) "event already ended or cancelled"
  b.requireCreator member isOwner row.creator
  let cancelled := b.withWidgets (b.widgets.cancelEvent id moment.now)
  let row ← context (cancelled.widgets.channelEvents.get? id) "event row vanished during cancel"
  return (cancelled, [.eventUpdated (cancelled.eventInfo id row)])

def trimmed (text : Option String) : Option String := (text.map trim).filter (· ≠ "")

/-- An edit replaces all fields; one that moves the start arms the reminder again. -/
def editEvent (id : ℕ) (edit : EventEdit) : Checked (Board × List CardNotice) := do
  let row ← b.visibleEvent member isOwner id
  ensure (row.status = .upcoming) "only an upcoming event can be edited"
  b.requireCreator member isOwner row.creator
  let edit := { edit with
    title := trim edit.title
    description := trimmed edit.description
    location := trimmed edit.location }
  validateEventFields edit.title edit.description edit.location
  let _ ← resolveStart (.absolute edit.startsAt) moment.now
  ensureIfSome edit.remindLead (· ∈ remindLeads) "invalid reminder lead"
  let edited := b.withWidgets (b.widgets.editEvent id edit (edit.startsAt ≠ row.startsAt))
  let row ← context (edited.widgets.channelEvents.get? id) "event row vanished during edit"
  return (edited, [.eventUpdated (edited.eventInfo id row)])

def cancelReminder (id : ℕ) : Board × List CardNotice :=
  match b.host.contentBlockReason member with
  | some _ => (b, [])
  | none => (b.withWidgets (b.widgets.cancelReminder id member), [])

/-- The one that is drawn from a list; `pick` stands for the random number. -/
def drawFrom (pick : ℕ) (eligible : List PublicKey) : Option PublicKey :=
  eligible[pick % eligible.length]?

def nameFor (pk : PublicKey) : String := (b.displayName pk).getD (shortKey pk)

/-- A new winner is drawn from all who are eligible now. -/
def rerollGiveaway (id pick : ℕ) : Board × List CardNotice :=
  let row := b.widgets.giveaways.get? id
  let winner := drawFrom pick (b.eligibleEntrants id)
  let view := row.map fun row =>
    ⟨id, row.channelId, row.messageId, row.creator, row.status = .ended, row.winner⟩
  let text := winner.bind fun pk => row.map fun row =>
    s!"🎉 Reroll — {b.nameFor pk} won: {row.prize}"
  let handled := b.host.handleRequest K member isOwner moment (.rerollGiveaway view text)
  match handled.2, winner with
  | .ok _, some pk =>
    let rerolled := { b with host := handled.1, widgets := b.widgets.rerollWinner id pk }
    (rerolled, (rerolled.widgets.giveaways.get? id).toList.map (fun row =>
        .giveawayUpdated (rerolled.giveawayInfo id row)) ++
      (handled.1.getMessage b.host.db.messages.next).toList.map (.newMessage (.reroll id)))
  | _, _ => ({ b with host := handled.1 }, [])

def handleWidgetRequest (pick : ℕ) (request : WidgetRequest) : Board × List CardNotice :=
  match request with
  | .votePoll id i => b.interactLimited member moment (·.votePoll member isOwner moment id i)
  | .retractVote id => b.interactLimited member moment (·.retractVote member isOwner moment id)
  | .closePoll id => b.interact member moment (·.closePoll member isOwner moment id)
  | .enterGiveaway id =>
    b.interactLimited member moment (·.enterGiveaway member isOwner moment id)
  | .leaveGiveaway id => b.interactLimited member moment (·.leaveGiveaway member isOwner id)
  | .cancelGiveaway id => b.interact member moment (·.cancelGiveaway member isOwner id)
  | .rerollGiveaway id => b.rerollGiveaway K member isOwner moment id pick
  | .rsvpEvent id response =>
    b.interactLimited member moment (·.rsvpEvent member isOwner moment id response)
  | .clearRsvp id => b.interactLimited member moment (·.clearRsvp member isOwner moment id)
  | .cancelEvent id => b.interactLimited member moment (·.cancelEvent member isOwner moment id)
  | .editEvent id edit =>
    b.interactLimited member moment (·.editEvent member isOwner moment id edit)
  | .cancelReminder id => b.cancelReminder member id

/-- The limit on commands and the check of the channel, at which a command is admitted. -/
def admitCommand (channelId : ℕ) : Board × List CardNotice :=
  match b.host.contentBlockReason member with
  | some _ => (b, [])
  | none =>
    if moment.admitted then
      (b.expireTimeout member moment).attempt fun b => do
        b.host.checkRunCommandChannelAuth member isOwner moment channelId
        let admitted : PendingCommand := ⟨member, isOwner, channelId, none, false⟩
        return ({ b with commands := admitted :: b.commands }, [])
    else (b, [])

variable (cmd : PendingCommand)

def without : Board := { b with commands := b.commands.erase cmd }

def findCommand (trigger : String) : Checked (Board × List CardNotice) := do
  ensure (cmd ∈ b.commands) "no such command"
  let row ← context (b.host.community.findByTrigger trigger) s!"unknown command /{trigger}"
  return ({ b.without cmd with
    commands := { cmd with command := some row.2 } :: (b.without cmd).commands }, [])

def checkModerator : Checked (Board × List CardNotice) := do
  ensure (cmd ∈ b.commands) "no such command"
  ensure (has (b.host.resolveMemberServerPerms cmd.member cmd.isOwner) manageServer)
    "giveaways can only be started by moderators (missing MANAGE_SERVER)"
  return ({ b.without cmd with
    commands := { cmd with moderator := true } :: (b.without cmd).commands }, [])

def requireKind (kind : String) : Checked Unit := do
  ensure (cmd ∈ b.commands) "no such command"
  ensure (cmd.command.any fun row => row.kind = kind) "command misconfigured"

/-- A message of a command, with the rows that go with it: all are written, or none. -/
def postAs (author : PublicKey) (content : String) (write : ℕ → Widgets → Widgets) :
    Checked (Board × MessageInfo) := do
  let messageId := b.host.db.messages.next
  let db ← b.host.db.insertMessage cmd.channelId author content none moment.now
  let posted : Board := { b.without cmd with
    host := b.host.withDb db
    widgets := write messageId b.widgets }
  let message ← context (posted.host.getMessage messageId) "card message vanished after insert"
  return (posted, message)

/-- The reply of a command of kind `text` or `api`. -/
def reply (content : String) : Checked (Board × List CardNotice) := do
  ensure (cmd ∈ b.commands) "no such command"
  let row ← context (cmd.command.filter fun row => row.kind ∈ ["text", "api"])
    "command misconfigured"
  let posted ← b.postAs moment cmd row.publicKey content fun _ w => w
  return (posted.1, [])

def createPollCard (parsed : ParsedPoll) : Checked (Board × List CardNotice) := do
  b.requireKind cmd "poll"
  let id := b.widgets.polls.next
  let content := parsed.options.foldl (fun s opt => s ++ "\n- " ++ opt)
    ("📊 Poll: " ++ parsed.question)
  let (posted, message) ← b.postAs moment cmd cmd.member content fun messageId w => { w with
    polls := w.polls.insert ⟨cmd.channelId, messageId, cmd.member, parsed.question,
      parsed.options, moment.now, parsed.durationSecs.map (moment.now + ·), none⟩
    widget := w.widget.insert messageId (.poll id) }
  let row ← context (posted.widgets.polls.get? id) "poll row vanished after insert"
  return (posted, [.newMessage (.card (.poll id)) message, .pollUpdated (posted.pollInfo id row)])

def createGiveawayCard (parsed : ParsedGiveaway) : Checked (Board × List CardNotice) := do
  b.requireKind cmd "giveaway"
  ensure (cmd.moderator = true)
    "giveaways can only be started by moderators (missing MANAGE_SERVER)"
  let id := b.widgets.giveaways.next
  let endsAt := moment.now + parsed.durationSecs
  let content := s!"🎉 Giveaway: {parsed.prize} — ends {formatUtc endsAt}"
  let (posted, message) ← b.postAs moment cmd cmd.member content fun messageId w => { w with
    giveaways := w.giveaways.insert ⟨cmd.channelId, messageId, cmd.member, parsed.prize, endsAt,
      .opened, none, moment.now⟩
    widget := w.widget.insert messageId (.giveaway id) }
  let row ← context (posted.widgets.giveaways.get? id) "giveaway row vanished after insert"
  return (posted, [.newMessage (.card (.giveaway id)) message,
    .giveawayUpdated (posted.giveawayInfo id row)])

def createEventCard (parsed : ParsedEvent) : Checked (Board × List CardNotice) := do
  b.requireKind cmd "event"
  let startsAt ← resolveStart parsed.start moment.now
  let id := b.widgets.channelEvents.next
  let place := (parsed.location.map fun l => "\n📍 " ++ l).getD ""
  let details := (parsed.description.map fun d => "\n" ++ d).getD ""
  let content := s!"📅 {parsed.title} — {formatUtc startsAt}" ++ place ++ details
  let (posted, message) ← b.postAs moment cmd cmd.member content fun messageId w => { w with
    channelEvents := w.channelEvents.insert ⟨cmd.channelId, messageId, cmd.member, parsed.title,
      parsed.description, parsed.location, startsAt, parsed.remindLead, none, .upcoming, none,
      none, none, moment.now⟩
    widget := w.widget.insert messageId (.event id) }
  let row ← context (posted.widgets.channelEvents.get? id) "event row vanished after insert"
  return (posted, [.newMessage (.card (.event id)) message,
    .eventUpdated (posted.eventInfo id row)])

def createReminder (parsed : ParsedReminder) : Checked (Board × List CardNotice) := do
  b.requireKind cmd "reminder"
  ensure (b.widgets.countPending cmd.member < maxPendingPerUser)
    "you already have 20 reminders pending — cancel one first"
  return ({ b.without cmd with
    widgets := { b.widgets with
      reminders := b.widgets.reminders.insert ⟨cmd.member, cmd.channelId, parsed.text,
        moment.now, moment.now + parsed.delaySecs, .pending, none⟩ } }, [])

end Board
end Server
