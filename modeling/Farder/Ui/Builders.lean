import Farder.Server.Slash

/-! # Builders of slash commands

The dialogs that write the arguments of a poll, an event, a giveaway or a reminder. They check the
fields as the server will, in their own notions of a blank and of a length. -/
namespace Ui.Builders

open Guarded Text Server Slash

/-- What `trim` takes off: U+FEFF belongs to it, and U+0085 does not. -/
def isBlank (c : Char) : Bool := c = '\uFEFF' ∨ isWhiteSpace c ∧ c ≠ '\u0085'

def trim (s : List Char) : List Char := trimMatches isBlank s

/-- `length`, in units of UTF-16. -/
def length (s : List Char) : ℕ := Widths.width (fun c => if c.toNat < 0x10000 then 1 else 2) s

/-- A bar would end the segment on the server. -/
def stripPipes (s : List Char) : List Char := s.map fun c => if c = '|' then '/' else c

def join (segments : List (List Char)) : List Char := " | ".toList.intercalate segments

inductive TimeUnit where
  | m
  | h
  | d
  deriving DecidableEq, Repr

def TimeUnit.letter : TimeUnit → Char
  | m => 'm'
  | h => 'h'
  | d => 'd'

def TimeUnit.secs : TimeUnit → ℕ
  | m => 60
  | h => 3600
  | d => 86400

/-- The value of the list of durations: a fixed token, or a number and a unit of one's own. -/
inductive Duration where
  | preset (amount : ℕ) (unit : TimeUnit)
  | custom (amount : ℕ) (unit : TimeUnit)
  deriving DecidableEq, Repr

def token (amount : ℕ) (unit : TimeUnit) : List Char := Nat.toDigits 10 amount ++ [unit.letter]

def resolveDurationToken : Duration → Option (List Char)
  | .preset amount unit => some (token amount unit)
  | .custom amount unit =>
    if amount < 1 ∨ 9999 < amount then none
    else if amount * unit.secs < minDurationSecs ∨ maxDurationSecs < amount * unit.secs then none
    else some (token amount unit)

def Duration.secs : Duration → ℕ
  | preset amount unit => amount * unit.secs
  | custom amount unit => amount * unit.secs

def badDuration : String := "Duration must be between 1 minute and 30 days"

/-- Digits and a unit, as the server reads a duration. -/
def looksLikeDuration (s : List Char) : Bool :=
  match s.getLast? with
  | none => false
  | some unit =>
    let digits := s.dropLast
    unit.toLower ∈ ['m', 'h', 'd'] ∧ 1 ≤ digits.length ∧ digits.length ≤ 4 ∧
      digits.all Char.isDigit = true

def pollDurations : List Duration :=
  [.preset 30 .m, .preset 1 .h, .preset 6 .h, .preset 1 .d, .preset 3 .d, .preset 7 .d]

/-- What has been typed and chosen. The dialog has two to ten options, and no end time is one of the
durations. -/
structure PollForm where
  question : List Char
  options : List (List Char)
  duration : Option Duration
  two_le : 2 ≤ options.length
  le_ten : options.length ≤ 10
  listed : ∀ amount unit, duration = some (.preset amount unit) →
    .preset amount unit ∈ pollDurations

def firstRepeat (lower : String → String) (seen : List String) :
    List (List Char) → Option (List Char)
  | [] => none
  | option :: options =>
    if lower (.ofList option) ∈ seen then some option
    else firstRepeat lower (lower (.ofList option) :: seen) options

def PollForm.asked (form : PollForm) : List Char := trim (stripPipes form.question)

def PollForm.offered (form : PollForm) : List (List Char) :=
  form.options.map fun option => trim (stripPipes option)

def PollForm.token (form : PollForm) : Checked (Option (List Char)) :=
  match form.duration with
  | none => return none
  | some duration => some <$> context (resolveDurationToken duration) badDuration

/-- `handleCreate`, up to the request. -/
def PollForm.args (lower : String → String) (form : PollForm) : Checked (List Char) := do
  let question := form.asked
  ensure (question ≠ []) "Question is required"
  ensure (length question ≤ 256) "Question must be at most 256 characters"
  let options := form.offered
  ensure (∀ o ∈ options, o ≠ []) "Options cannot be empty"
  ensure (∀ o ∈ options, length o ≤ 100) "Options must be at most 100 characters"
  ensure (firstRepeat lower [] options = none)
    ("Duplicate option: \"" ++ .ofList ((firstRepeat lower [] options).getD []) ++ "\"")
  let token ← form.token
  let last := options.getLast?.getD []
  ensure (token ≠ none ∨ looksLikeDuration last = false)
    ("\"" ++ .ofList last ++ "\" can't be the last option without an end time (it reads as a " ++
      "duration) — reorder the options or pick an end time")
  return join (question :: options ++ token.toList)

/-! ## Giveaways and reminders -/

def giveawayDurations : List Duration := pollDurations

def reminderDurations : List Duration :=
  [.preset 15 .m, .preset 30 .m, .preset 1 .h, .preset 3 .h, .preset 1 .d, .preset 3 .d,
    .preset 7 .d]

/-- A text with a duration out of a list. -/
structure TimedForm (durations : List Duration) where
  text : List Char
  duration : Duration
  listed : ∀ amount unit, duration = .preset amount unit → .preset amount unit ∈ durations

def giveawayArgs (form : TimedForm giveawayDurations) : Checked (List Char) := do
  let prize := trim form.text
  ensure (prize ≠ []) "Prize is required"
  ensure (length prize ≤ 200) "Prize must be at most 200 characters"
  let token ← context (resolveDurationToken form.duration) badDuration
  return token ++ ' ' :: prize

def reminderArgs (form : TimedForm reminderDurations) : Checked (List Char) := do
  let token ← context (resolveDurationToken form.duration) badDuration
  let body := trim form.text
  ensure (body ≠ []) "Reminder text is required"
  ensure (length body ≤ 500) "Reminder text must be at most 500 characters"
  return token ++ ' ' :: body

inductive Lead where
  | none
  | quarter
  | hour
  | day
  deriving DecidableEq, Repr

def Lead.value : Lead → List Char
  | none => []
  | quarter => "15m".toList
  | hour => "1h".toList
  | day => "1d".toList

def Lead.secs : Lead → Option ℕ
  | none => .none
  | quarter => some 900
  | hour => some 3600
  | day => some 86400

/-- The fields of the dialog. Once a date and a time are there, `start` is the second that they
stand for, unless they are not valid. -/
structure EventForm where
  title : List Char
  start : Option (Option ℕ)
  location : List Char
  description : List Char
  lead : Lead

def EventForm.named (form : EventForm) : List Char := trim (stripPipes form.title)

def EventForm.place (form : EventForm) : List Char := trim (stripPipes form.location)

def EventForm.details (form : EventForm) : List Char := trim (stripPipes form.description)

/-- The location is written, possibly empty, whenever there is a description. -/
def EventForm.segments (form : EventForm) (startsAt : ℕ) : List (List Char) :=
  [form.named, '@' :: Nat.toDigits 10 startsAt] ++
    (if form.place ≠ [] ∨ form.details ≠ [] then [form.place] else []) ++
    (if form.details ≠ [] then [form.details] else []) ++
    (if form.lead ≠ .none then ["remind ".toList ++ form.lead.value] else [])

/-- `handleSubmit` of a new event, up to the request. -/
def EventForm.args (form : EventForm) (now : ℕ) : Checked (List Char) := do
  ensure (form.named ≠ []) "Title is required"
  ensure (length form.named ≤ 120) "Title must be at most 120 characters"
  let start ← context form.start "Pick a date and a time"
  ensure (length form.place ≤ 120) "Location must be at most 120 characters"
  ensure (length form.details ≤ 500) "Description must be at most 500 characters"
  let startsAt ← context start "That date and time isn't valid"
  ensure (now + 60 < startsAt) "Pick a time in the future"
  ensure (startsAt ≤ now + 365 * 86400) "Events can be at most a year out"
  return join (form.segments startsAt)

end Ui.Builders
