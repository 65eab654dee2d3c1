import Farder.Server.Slash

/-! # Slash commands that panic

The unit of a duration is cut off one byte before its end, which is inside of the last character
if that takes more than one. -/
namespace Server.Slash

open Guarded Text Widths

attribute [local instance] decidableExistsMem

/-- The last character takes more than one byte. -/
def EndsWide (s : List Char) : Prop := ∃ c ∈ s.getLast?, 1 < c.utf8Size

instance (s : List Char) : Decidable (EndsWide s) :=
  inferInstanceAs (Decidable (∃ c ∈ s.getLast?, 1 < c.utf8Size))

variable {s digits unit : List Char} {c : Char} {n mult : ℕ} {fits : List Char → Bool}
  {lower : String → String} {args : String}

@[simp] theorem not_endsWide_nil : ¬EndsWide [] := by
  rintro ⟨c, hc, -⟩
  cases hc

@[simp] theorem endsWide_concat : EndsWide (s ++ [c]) ↔ 1 < c.utf8Size := by
  simp [EndsWide]

theorem panics_splitAt_last :
    Panics (splitAt (s ++ [c]) (len (s ++ [c]) - 1)) ↔ EndsWide (s ++ [c]) := by
  rw [splitAt, panics_expect, len, cut_last Char.utf8Size_pos, endsWide_concat]
  have hpos := c.utf8Size_pos
  by_cases hone : c.utf8Size = 1
  · rw [if_pos hone]
    exact iff_of_false nofun (by omega)
  · rw [if_neg hone]
    exact iff_of_true rfl (by omega)

/-- Shorter texts than two bytes are no durations, and do not end in a wide character either. -/
theorem durationParts_panics : Panics (durationParts fits s) ↔ EndsWide s := by
  rcases List.eq_nil_or_concat' s with rfl | ⟨s, c, rfl⟩
  · exact iff_of_false nofun not_endsWide_nil
  · unfold durationParts
    by_cases hshort : len (s ++ [c]) < 2
    · rw [if_pos hshort, endsWide_concat]
      have hwidth : len (s ++ [c]) = len s + c.utf8Size := by simp [len]
      exact iff_of_false nofun (by omega)
    · rw [if_neg hshort, panics_bind, panics_splitAt_last, or_iff_left]
      rintro ⟨⟨digits, unit⟩, -, hpanics⟩
      dsimp only at hpanics
      split at hpanics
      · exact panics_pure _ hpanics
      · exact panics_pure _ hpanics

theorem toNat_le_of_isDigit (h : c.isDigit = true) : c.toNat ≤ 57 := by
  simp only [Char.isDigit, Bool.and_eq_true, decide_eq_true_eq] at h
  exact UInt32.le_iff_toNat_le.mp h.2

theorem parseU64_lt (h : parseU64 digits = some n) (hdigits : digits.all Char.isDigit = true) :
    n < 10 ^ digits.length := by
  have hfold : ∀ k, digits.foldl (fun n c => 10 * n + (c.toNat - 48)) k <
      (k + 1) * 10 ^ digits.length := by
    clear h
    induction digits with
    | nil => simp
    | cons c digits ih =>
      intro k
      rw [List.all_cons, Bool.and_eq_true] at hdigits
      have hdigit := toNat_le_of_isDigit hdigits.1
      rw [List.foldl_cons, List.length_cons]
      calc _ < (10 * k + (c.toNat - 48) + 1) * 10 ^ digits.length := ih hdigits.2 _
        _ ≤ ((k + 1) * 10) * 10 ^ digits.length := Nat.mul_le_mul_right _ (by omega)
        _ = (k + 1) * 10 ^ (digits.length + 1) := by rw [Nat.pow_succ', Nat.mul_assoc]
  unfold parseU64 at h
  dsimp only at h
  split_ifs at h
  rw [← Option.some.inj h]
  simpa using hfold 0

theorem unitSecs_le (h : unitSecs unit = some mult) : mult ≤ 86400 := by
  unfold unitSecs at h
  split at h
  · cases h
    decide
  · cases h
    decide
  · cases h
    decide
  · cases h

theorem durationParts_eq_some (h : durationParts fits s = .ok (some (n, mult))) :
    ∃ digits, fits digits = true ∧ digits.all Char.isDigit = true ∧ parseU64 digits = some n ∧
      mult ≤ 86400 := by
  unfold durationParts at h
  by_cases hshort : len s < 2
  · rw [if_pos hshort] at h
    cases h
  · rw [if_neg hshort] at h
    obtain ⟨⟨digits, unit⟩, -, h⟩ := bind_eq_ok.mp h
    dsimp only at h
    split_ifs at h with hbad
    · cases h
    · push Not at hbad
      obtain ⟨-, hfits, hdigits⟩ := hbad
      obtain ⟨n', hn, h⟩ := Option.bind_eq_some_iff.mp (pure_eq_ok.mp h)
      obtain ⟨mult', hmult, h⟩ := Option.bind_eq_some_iff.mp h
      obtain ⟨rfl, rfl⟩ := Prod.mk.inj (Option.some.inj h)
      exact ⟨digits, by simpa using hfits, by simpa using hdigits, hn, unitSecs_le hmult⟩

theorem durationTokenSecs_panics : Panics (durationTokenSecs s) ↔ EndsWide s := by
  rw [durationTokenSecs, panics_bind, durationParts_panics, or_iff_left]
  rintro ⟨parts, hparts, hpanics⟩
  cases parts with
  | none => exact panics_pure _ hpanics
  | some parts =>
    obtain ⟨n, mult⟩ := parts
    obtain ⟨digits, hfits, hdigits, hn, hmult⟩ := durationParts_eq_some hparts
    have hlength : digits.length ≤ 4 :=
      (length_le_width Char.utf8Size_pos).trans (of_decide_eq_true hfits)
    have hlt : n < 10 ^ 4 :=
      (parseU64_lt hn hdigits).trans_le (Nat.pow_le_pow_right (by decide) hlength)
    have hmul : n * mult ≤ 10 ^ 4 * 86400 := Nat.mul_le_mul hlt.le hmult
    rw [panics_map, mulU64, panics_expect, checkedMul, if_pos (by omega)] at hpanics
    cases hpanics

theorem parseGiveawayDuration_panics : Panics (parseGiveawayDuration s) ↔ EndsWide s := by
  rw [parseGiveawayDuration, panics_bind, durationParts_panics, or_iff_left]
  rintro ⟨parts, -, hpanics⟩
  cases parts with
  | none => exact panics_pure _ hpanics
  | some parts => exact panics_pure _ hpanics

@[simp] theorem panics_checkDuration : ¬Panics (checkDuration n) := panics_ensure _ _

theorem takeDuration_panics {segments : List (List Char)} :
    Panics (takeDuration segments) ↔ EndsWide (segments.getLast?.getD []) := by
  unfold takeDuration
  cases segments.getLast? with
  | none => exact iff_of_false (panics_pure _) not_endsWide_nil
  | some last =>
    rw [Option.getD_some, panics_bind, durationTokenSecs_panics, or_iff_left]
    rintro ⟨secs, -, hpanics⟩
    cases secs with
    | none => exact panics_pure _ hpanics
    | some secs => simp at hpanics

theorem parsePollArgs_panics :
    Panics (parsePollArgs lower args) ↔ EndsWide ((segments args.toList).getLast?.getD []) := by
  rw [parsePollArgs, panics_bind, takeDuration_panics, or_iff_left]
  rintro ⟨⟨durationSecs, segments⟩, -, hpanics⟩
  simp only [panics_bind, panics_ensure, panics_expect, panics_pure, false_or, ensure_eq_ok,
    expect_eq_ok, and_false, exists_false, or_false] at hpanics
  obtain ⟨⟨⟩, -, ⟨⟩, hlength, hnone⟩ := hpanics
  rw [List.head?_eq_none_iff] at hnone
  rw [hnone] at hlength
  exact absurd hlength (by decide)

theorem parseGiveawayArgs_panics :
    Panics (parseGiveawayArgs args) ↔ EndsWide (words args.toList).1 := by
  simp [parseGiveawayArgs, parseGiveawayDuration_panics]

theorem parseReminderArgs_panics :
    Panics (parseReminderArgs args) ↔ EndsWide (words args.toList).1 := by
  simp [parseReminderArgs, durationTokenSecs_panics]

/-- What a segment says about the beginning, after a leading `in `. -/
def afterIn (s : List Char) : List Char :=
  let s := trimmed s
  if "in ".toList.isPrefixOf (s.map Char.toLower) then trimmed (s.drop 3) else s

theorem utf8Size_of_toLower (h : c.toLower.utf8Size = 1) : c.utf8Size = 1 := by
  by_cases hupper : c.val ≥ 'A'.val ∧ c.val ≤ 'Z'.val
  · exact Char.utf8Size_eq_one_iff.mpr (UInt32.le_trans hupper.2 (by decide))
  · have hsame : c.toLower = c := dif_neg hupper
    rwa [hsame] at h

/-- Letters are as wide as they are in lower case, so behind some there is a boundary. -/
theorem splitAt_of_prefix {letters : List Char} (hletters : ∀ c ∈ letters, c.utf8Size = 1)
    (h : letters.isPrefixOf (s.map Char.toLower) = true) :
    splitAt s letters.length = .ok (s.take letters.length, s.drop letters.length) := by
  have htake : (s.take letters.length).map Char.toLower = letters := by
    rw [List.map_take, ← List.prefix_iff_eq_take.mp (List.isPrefixOf_iff_prefix.mp h)]
  have hlength : (s.take letters.length).length = letters.length := by
    rw [← List.length_map Char.toLower, htake]
  refine expect_eq_ok.mpr ((cut_eq_some Char.utf8Size_pos).mpr
    ⟨(List.take_append_drop _ _).symm, ?_⟩)
  refine (width_eq_length fun c hc => ?_).trans hlength
  refine utf8Size_of_toLower (hletters _ ?_)
  rw [← htake]
  exact List.mem_map_of_mem hc

theorem whenBody_eq : whenBody s = .ok (afterIn s) := by
  unfold whenBody afterIn
  dsimp only
  by_cases hin : "in ".toList.isPrefixOf ((trimmed s).map Char.toLower) = true
  · rw [if_pos hin, if_pos hin]
    have hall : ("in ".toList.all fun c => c.utf8Size = 1) = true := rfl
    have hletters : ∀ c ∈ "in ".toList, c.utf8Size = 1 := fun c hc =>
      of_decide_eq_true (List.all_eq_true.mp hall c hc)
    have hslice : splitAt (trimmed s) 3 = .ok ((trimmed s).take 3, (trimmed s).drop 3) :=
      splitAt_of_prefix hletters hin
    rw [hslice]
    rfl
  · rw [if_neg hin, if_neg hin]
    rfl

theorem parseWhen_panics :
    Panics (parseWhen s) ↔ (afterIn s).head? ≠ some '@' ∧ EndsWide (afterIn s) := by
  rw [parseWhen, whenBody_eq]
  generalize afterIn s = body
  show Panics (pure body >>= _) ↔ _
  rw [pure_bind]
  split
  · next digits => simp
  · next hat =>
    have hhead : body.head? ≠ some '@' := by
      intro hhead
      obtain ⟨digits, rfl⟩ := List.head?_eq_some_iff.mp hhead
      exact hat digits rfl
    rw [and_iff_right hhead]
    simp [durationTokenSecs_panics]

/-- What an event reads as a duration, if it comes to that. -/
def eventDuration (args : List Char) : List Char :=
  let segments := (takeLead (segments args)).2
  let body := afterIn (segments[1]?.getD [])
  if segments.length ≤ 4 ∧ body.head? ≠ some '@' then body else []

theorem parseEventArgs_panics :
    Panics (parseEventArgs args) ↔ EndsWide (eventDuration args.toList) := by
  unfold parseEventArgs eventDuration
  generalize takeLead (segments args.toList) = taken
  obtain ⟨remindLead, segments⟩ := taken
  dsimp only
  match segments with
  | [] => exact iff_of_false (by simp) not_endsWide_nil
  | [title] => exact iff_of_false (by simp) not_endsWide_nil
  | title :: start :: rest =>
    have hstart : EndsWide (afterIn start) → start ≠ [] := by
      rintro hwide rfl
      exact not_endsWide_nil hwide
    refine Iff.trans (b := (title :: start :: rest).length ≤ 4 ∧ start ≠ [] ∧
      (afterIn start).head? ≠ some '@' ∧ EndsWide (afterIn start))
      (by simp [parseWhen_panics, validateEventFields]) ?_
    change _ ↔ EndsWide (if (title :: start :: rest).length ≤ 4 ∧
      (afterIn start).head? ≠ some '@' then afterIn start else [])
    by_cases hread : (title :: start :: rest).length ≤ 4 ∧ (afterIn start).head? ≠ some '@'
    · rw [if_pos hread]
      exact ⟨fun h => h.2.2.2, fun hwide => ⟨hread.1, hstart hwide, hread.2, hwide⟩⟩
    · rw [if_neg hread]
      exact iff_of_false (fun h => hread ⟨h.1, h.2.2.1⟩) not_endsWide_nil

/-! ## All of them -/

inductive SlashCommand where
  | poll
  | giveaway
  | event
  | reminder

/-- The arguments are parsed or refused. -/
def SlashCommand.Returns (lower : String → String) (args : String) : SlashCommand → Prop
  | poll => ¬Panics (parsePollArgs lower args)
  | giveaway => ¬Panics (parseGiveawayArgs args)
  | event => ¬Panics (parseEventArgs args)
  | reminder => ¬Panics (parseReminderArgs args)

/-- The text that is read as a duration: the last segment of a poll, the first word of a giveaway
or a reminder, and what an event says about its beginning. -/
def SlashCommand.durationText (args : List Char) : SlashCommand → List Char
  | poll => (segments args).getLast?.getD []
  | giveaway => (words args).1
  | event => eventDuration args
  | reminder => (words args).1

/-- Parsing returns exactly if the text that is read as a duration does not end in a character of
more than one byte. -/
theorem returns_iff {command : SlashCommand} :
    command.Returns lower args ↔ ¬EndsWide (command.durationText args.toList) := by
  cases command with
  | poll => exact not_congr parsePollArgs_panics
  | giveaway => exact not_congr parseGiveawayArgs_panics
  | event => exact not_congr parseEventArgs_panics
  | reminder => exact not_congr parseReminderArgs_panics

/-- The last option of a poll is a word that ends in an accent. -/
theorem poll_of_accent_panics : ¬∀ command args, SlashCommand.Returns id args command := by
  intro h
  exact h .poll "Lunch? | pizza | café" (by decide +kernel)

end Server.Slash
