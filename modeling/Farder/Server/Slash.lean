import Farder.Server.Board
import Farder.Support.Text
import Farder.Support.Widths

/-! # The arguments of slash commands

The text behind a command is cut into segments or words, and one of them read as a duration. A
slice off a character's boundary, an index out of range and an overflow are panics. -/
namespace Server.Slash

open Guarded Text

attribute [local instance] decidableExistsMem

def pollUsage : String := "usage: /<trigger> Question | option A | option B [| 30m|2h|1d]"

def giveawayUsage : String :=
  "usage: /<trigger> <duration> <prize> — duration 1m–30d (e.g. 30m, 24h, 7d)"

def eventUsage : String :=
  "usage: /<trigger> Title | 3d [| location] [| description] [| remind 1h]"

def reminderUsage : String :=
  "usage: /<trigger> <duration> <text> — e.g. /remind 90m take the pizza out (1m–30d)"

def whenHint : String := "use the event builder for a date and time, or a relative time like `3d`"

def minDurationSecs : ℕ := 60

def maxDurationSecs : ℕ := 30 * 86400

/-- The length in bytes. -/
def len (s : List Char) : ℕ := Widths.width Char.utf8Size s

def splitAt (s : List Char) (mid : ℕ) : Checked (List Char × List Char) :=
  expect (Widths.cut Char.utf8Size s mid) "failed to slice string"

def trimmed (s : List Char) : List Char := trimMatches isWhiteSpace s

def segments (args : List Char) : List (List Char) := (args.splitOn '|').map trimmed

/-- `splitn(2, char::is_whitespace)` of the trimmed arguments. -/
def words (args : List Char) : List Char × List Char :=
  let s := trimmed args
  (s.takeWhile fun c => !isWhiteSpace c, (s.dropWhile fun c => !isWhiteSpace c).tail)

/-- `parse::<u64>` of digits. -/
def parseU64 (digits : List Char) : Option ℕ :=
  let n := digits.foldl (fun n c => 10 * n + (c.toNat - 48)) 0
  if n < 2 ^ 64 then some n else none

def checkedMul (a b : ℕ) : Option ℕ := if a * b < 2 ^ 64 then some (a * b) else none

def mulU64 (a b : ℕ) : Checked ℕ := expect (checkedMul a b) "attempt to multiply with overflow"

def unitSecs (unit : List Char) : Option ℕ :=
  match unit.head?.map Char.toLower with
  | some 'm' => some 60
  | some 'h' => some 3600
  | some 'd' => some 86400
  | _ => none

/-- The number and the unit of a duration, cut apart before the last byte. -/
def durationParts (fits : List Char → Bool) (s : List Char) : Checked (Option (ℕ × ℕ)) := do
  if len s < 2 then return none
  let (digits, unit) ← splitAt s (len s - 1)
  if digits = [] ∨ fits digits = false ∨ digits.all Char.isDigit = false then return none
  return do return (← parseU64 digits, ← unitSecs unit)

/-- The same in polls, events and reminders; the range is checked by the caller. -/
def durationTokenSecs (s : List Char) : Checked (Option ℕ) := do
  match ← durationParts (fun digits => len digits ≤ 4) s with
  | none => return none
  | some (n, mult) => some <$> mulU64 n mult

def parseGiveawayDuration (s : List Char) : Checked (Option ℕ) := do
  match ← durationParts (fun _ => true) s with
  | none => return none
  | some (n, mult) =>
    return (checkedMul n mult).filter fun secs => minDurationSecs ≤ secs ∧ secs ≤ maxDurationSecs

def checkDuration (secs : ℕ) : Checked Unit :=
  ensure (minDurationSecs ≤ secs ∧ secs ≤ maxDurationSecs) "duration must be between 1m and 30d"

/-- The duration that a last segment is, and the segments without it. -/
def takeDuration (segments : List (List Char)) : Checked (Option ℕ × List (List Char)) := do
  match segments.getLast? with
  | none => return (none, segments)
  | some last =>
    match ← durationTokenSecs last with
    | none => return (none, segments)
    | some secs =>
      checkDuration secs
      return (some secs, segments.dropLast)

/-- `lower` is `to_lowercase`. -/
def parsePollArgs (lower : String → String) (args : String) : Checked ParsedPoll := do
  let (durationSecs, segments) ← takeDuration (segments args.toList)
  ensure (∀ s ∈ segments, s ≠ []) pollUsage
  ensure (3 ≤ segments.length)
    (if segments.length = 2 then "a poll needs 2-10 options" else pollUsage)
  let question ← expect segments.head? "removal index (is 0) should be < len (is 0)"
  ensure (question ≠ [] ∧ question.length ≤ 256) "question must be 1-256 characters"
  let options := segments.tail
  ensure (2 ≤ options.length ∧ options.length ≤ 10) "a poll needs 2-10 options"
  ensure (∀ o ∈ options, o ≠ [] ∧ o.length ≤ 100) "options must be 1-100 characters"
  let options := options.map String.ofList
  ensure (options.map lower).Nodup "duplicate options are not allowed"
  return ⟨.ofList question, options, durationSecs⟩

/-! ## Giveaways and reminders -/

def parseGiveawayArgs (args : String) : Checked ParsedGiveaway := do
  let (first, rest) := words args.toList
  let durationSecs ← context (← parseGiveawayDuration first) giveawayUsage
  let prize := trimmed rest
  ensure (prize ≠ [] ∧ prize.length ≤ 200) "prize must be 1–200 characters"
  return ⟨durationSecs, .ofList prize⟩

def parseReminderArgs (args : String) : Checked ParsedReminder := do
  let (first, rest) := words args.toList
  let delaySecs ← context (← durationTokenSecs first) reminderUsage
  checkDuration delaySecs
  let text := trimmed rest
  ensure (text ≠ []) reminderUsage
  ensure (text.length ≤ 500) "reminder text must be 1-500 characters"
  return ⟨delaySecs, .ofList text⟩

/-- The lead of a last segment such as `remind 1h`; `remind none` is one without a lead. -/
def remindToken (s : List Char) : Option (Option ℕ) := do
  let rest ← (s.map Char.toLower).dropPrefix? "remind".toList
  guard (∃ c ∈ rest.head?, isWhiteSpace c = true)
  match String.ofList (trimmed rest) with
  | "15m" => some (some 900)
  | "1h" => some (some 3600)
  | "1d" => some (some 86400)
  | "none" => some none
  | _ => none

/-- `in 3d` is another way to say `3d`. -/
def whenBody (s : List Char) : Checked (List Char) :=
  let s := trimmed s
  if "in ".toList.isPrefixOf (s.map Char.toLower) then (fun x => trimmed x.2) <$> splitAt s 3
  else return s

/-- The seconds of an absolute time, from nine to twelve digits. -/
def absoluteSecs (digits : List Char) : Option ℕ :=
  if 9 ≤ len digits ∧ len digits ≤ 12 ∧ digits.all Char.isDigit then parseU64 digits else none

def parseWhen (s : List Char) : Checked WhenSpec := do
  match ← whenBody s with
  | '@' :: digits => .absolute <$> context (absoluteSecs digits) whenHint
  | body => .relative <$> context (← durationTokenSecs body) whenHint

/-- The lead that a last segment asks for, and the segments without it. -/
def takeLead (segments : List (List Char)) : Option ℕ × List (List Char) :=
  match segments.getLast?.bind remindToken with
  | none => (none, segments)
  | some lead => (lead, segments.dropLast)

def optionalSegment (segments : List (List Char)) (i : ℕ) : Option String :=
  (segments[i]?.filter (· ≠ [])).map String.ofList

def parseEventArgs (args : String) : Checked ParsedEvent := do
  let (remindLead, segments) := takeLead (segments args.toList)
  ensure (2 ≤ segments.length ∧ segments.length ≤ 4) eventUsage
  let title ← expect segments[0]? "index out of bounds"
  let start ← expect segments[1]? "index out of bounds"
  ensure (start ≠ []) eventUsage
  let start ← parseWhen start
  let location := optionalSegment segments 2
  let description := optionalSegment segments 3
  validateEventFields (.ofList title) description location
  return ⟨.ofList title, start, location, description, remindLead⟩

end Server.Slash
