import Farder.SlashPanics
import Farder.Ui.Builders

/-! # What a builder sends is what the server reads

The two sides have one grammar and two notions of a blank. Apart from U+0085, which only the server
takes off, the server reads the fields as they stand in the dialog. -/
namespace Ui.Builders

open Guarded Text Widths Server Slash

variable {s t digits : List Char} {c : Char} {lower : String → String} {segs : List (List Char)}
  {amount : ℕ} {unit : TimeUnit}

theorem trimmed_of_trim (h : '\u0085' ∉ s) : Trimmed isWhiteSpace (trim s) := by
  have hends := trimMatches_trimmed (p := isBlank) (s := s)
  have hblank : ∀ c ∈ trim s, isBlank c = false → isWhiteSpace c = false := by
    intro c hc hblank
    have hne : c ≠ '\u0085' := fun heq => h (heq ▸ mem_of_mem_trimMatches hc)
    simp only [isBlank, decide_eq_false_iff_not, not_or, not_and, ne_eq, not_not] at hblank
    exact Bool.eq_false_iff.mpr fun hspace => hne (hblank.2 hspace)
  constructor
  · intro c hc
    exact hblank c (List.mem_of_mem_head? hc) (hends.first c hc)
  · intro c hc
    exact hblank c (List.mem_of_mem_getLast? hc) (hends.last c hc)

theorem trimmed_trim (h : '\u0085' ∉ s) : trimmed (trim s) = trim s :=
  trimMatches_of_trimmed (trimmed_of_trim h)

theorem not_mem_stripPipes : '|' ∉ trim (stripPipes s) := by
  intro hmem
  obtain ⟨c, -, hc⟩ := List.mem_map.mp (mem_of_mem_trimMatches hmem)
  split_ifs at hc with hbar
  · exact absurd hc (by decide)
  · exact hbar hc

/-- Between the bars the server finds the segments that were joined, with blanks around them. -/
theorem splitOn_join (pre : List Char) (hpre : ∀ c ∈ pre, isWhiteSpace c = true)
    (hpreBars : '|' ∉ pre) (hne : segs ≠ []) (hbars : ∀ s ∈ segs, '|' ∉ s) :
    ((pre ++ join segs).splitOn '|').map trimmed = segs.map trimmed := by
  have hno {s : List Char} (hs : '|' ∉ s) : ∀ c ∈ s, (c == '|') = false := by
    intro c hc
    exact beq_eq_false_iff_ne.mpr fun heq => hs (heq ▸ hc)
  have hblank : ∀ c ∈ [' '], isWhiteSpace c = true := List.forall_mem_singleton.mpr (by decide)
  induction segs generalizing pre with
  | nil => exact absurd rfl hne
  | cons s rest ih =>
    have hs := hbars s List.mem_cons_self
    cases rest with
    | nil =>
      have hjoin : pre ++ join [s] = pre ++ (s ++ []) := by simp [join, List.intercalate]
      have hsplit : (pre ++ (s ++ [])).splitOn '|' = [pre ++ (s ++ [])] :=
        List.splitOnP_eq_singleton (hno (by simp [hpreBars, hs]))
      rw [hjoin, hsplit]
      exact congrArg (· :: []) (trimMatches_append hpre nofun)
    | cons t rest =>
      have hjoin : pre ++ join (s :: t :: rest) =
          (pre ++ (s ++ [' '])) ++ '|' :: ([' '] ++ join (t :: rest)) := by
        simp [join, List.intercalate, List.intersperse]
      have hsplit : ((pre ++ (s ++ [' '])) ++ '|' :: ([' '] ++ join (t :: rest))).splitOn '|' =
          (pre ++ (s ++ [' '])) :: ([' '] ++ join (t :: rest)).splitOn '|' :=
        List.splitOnP_append_cons_of_forall_mem (hno (by simp [hpreBars, hs])) '|' rfl _
      rw [hjoin, hsplit, List.map_cons, List.map_cons]
      have hrest := ih [' '] hblank (by decide) (List.cons_ne_nil _ _)
        fun s hs => hbars s (List.mem_cons_of_mem _ hs)
      rw [hrest]
      exact congrArg (· :: _) (trimMatches_append hpre hblank)

theorem segments_join (hne : segs ≠ []) (hbars : ∀ s ∈ segs, '|' ∉ s)
    (htrimmed : ∀ s ∈ segs, trimmed s = s) : Slash.segments (join segs) = segs :=
  (splitOn_join [] nofun nofun hne hbars).trans (by
    rw [List.map_congr_left htrimmed, List.map_id'])

theorem durationParts_concat {fits : List Char → Bool} (hc : c.utf8Size = 1) (hne : digits ≠ []) :
    durationParts fits (digits ++ [c]) =
      .ok (if fits digits = true ∧ digits.all Char.isDigit = true then do
        return (← parseU64 digits, ← unitSecs [c]) else none) := by
  have hlen : ¬len (digits ++ [c]) < 2 := by
    have hpos := List.length_pos_iff.mpr hne
    have hle := length_le_width (s := digits) Char.utf8Size_pos
    have hwidth : len (digits ++ [c]) = width Char.utf8Size digits + c.utf8Size := by simp [len]
    omega
  have hsplit : splitAt (digits ++ [c]) (len (digits ++ [c]) - 1) = .ok (digits, [c]) := by
    rw [splitAt, len, cut_last Char.utf8Size_pos, if_pos hc]
    rfl
  rw [durationParts, if_neg hlen, hsplit]
  by_cases hdigits : fits digits = true ∧ digits.all Char.isDigit = true
  · rw [if_pos hdigits]
    exact if_neg (by simp [hne, hdigits.1, hdigits.2])
  · rw [if_neg hdigits]
    refine if_pos (.inr ?_)
    rcases not_and_or.mp hdigits with h | h
    · exact .inl (Bool.eq_false_iff.mpr h)
    · exact .inr (Bool.eq_false_iff.mpr h)

theorem parseU64_toDigits (h : amount < 2 ^ 64) : parseU64 (Nat.toDigits 10 amount) = some amount := by
  have hvalue : (Nat.toDigits 10 amount).foldl (fun n c => 10 * n + (c.toNat - 48)) 0 = amount :=
    Nat.ofDigitChars_ten_toDigits
  simp only [parseU64, hvalue, if_pos h]

theorem unitSecs_letter : unitSecs [unit.letter] = some unit.secs := by
  cases unit <;> decide

theorem all_isDigit_toDigits : (Nat.toDigits 10 amount).all Char.isDigit = true :=
  List.all_eq_true.mpr fun _ hc => Nat.isDigit_of_mem_toDigits (by decide) (by decide) hc

theorem utf8Size_of_isDigit (h : c.isDigit = true) : c.utf8Size = 1 := by
  refine Char.utf8Size_eq_one_iff.mpr (UInt32.le_iff_toNat_le.mpr ?_)
  exact (toNat_le_of_isDigit h).trans (by decide)

theorem len_of_digits (h : digits.all Char.isDigit = true) : len digits = digits.length :=
  width_eq_length fun c hc => utf8Size_of_isDigit (List.all_eq_true.mp h c hc)

theorem toDigits_ne_nil : Nat.toDigits 10 amount ≠ [] :=
  List.length_pos_iff.mp Nat.length_toDigits_pos

theorem durationTokenSecs_token (h : amount ≤ 9999) :
    durationTokenSecs (token amount unit) = .ok (some (amount * unit.secs)) := by
  have hletter : unit.letter.utf8Size = 1 := by cases unit <;> decide
  have hlen : len (Nat.toDigits 10 amount) ≤ 4 := by
    rw [len_of_digits all_isDigit_toDigits]
    exact (Nat.length_toDigits_le_iff (by decide) (by decide)).mpr (by omega)
  have hmul : amount * unit.secs ≤ 9999 * 86400 :=
    Nat.mul_le_mul h (by cases unit <;> decide)
  rw [durationTokenSecs, token, durationParts_concat hletter toDigits_ne_nil,
    if_pos ⟨decide_eq_true hlen, all_isDigit_toDigits⟩, parseU64_toDigits (by omega),
    unitSecs_letter]
  have hchecked : checkedMul amount unit.secs = some (amount * unit.secs) := if_pos (by omega)
  simp [mulU64, hchecked, expect]

/-- What does not look like a duration is none to the server, unless it panics. -/
theorem durationTokenSecs_of_other (hwide : ¬EndsWide s) (hlooks : looksLikeDuration s = false) :
    durationTokenSecs s = .ok none := by
  rcases List.eq_nil_or_concat' s with rfl | ⟨digits, c, rfl⟩
  · rfl
  · have hc : c.utf8Size = 1 := by
      have hpos := c.utf8Size_pos
      rw [endsWide_concat] at hwide
      omega
    rcases eq_or_ne digits [] with rfl | hne
    · have hshort : len [c] < 2 := by simp [len, hc]
      rw [durationTokenSecs, durationParts, List.nil_append, if_pos hshort]
      rfl
    · rw [durationTokenSecs, durationParts_concat hc hne]
      by_cases hdigits : decide (len digits ≤ 4) = true ∧ digits.all Char.isDigit = true
      · have hunit : unitSecs [c] = none := by
          have hlen := len_of_digits hdigits.2
          have hfour := of_decide_eq_true hdigits.1
          have hpos := List.length_pos_iff.mpr hne
          simp only [looksLikeDuration, List.getLast?_concat, List.dropLast_concat,
            decide_eq_false_iff_not] at hlooks
          have hletter : c.toLower ∉ ['m', 'h', 'd'] :=
            fun hmem => hlooks ⟨hmem, hpos, hlen ▸ hfour, hdigits.2⟩
          simp only [List.mem_cons, List.not_mem_nil, or_false, not_or] at hletter
          simp [unitSecs, hletter]
        rw [if_pos hdigits, hunit]
        cases parseU64 digits <;> rfl
      · rw [if_neg hdigits]
        rfl

/-- A listed duration is one that the server takes. -/
def InRange (duration : Duration) : Bool :=
  match duration with
  | .preset amount unit =>
    amount ≤ 9999 ∧ minDurationSecs ≤ amount * unit.secs ∧ amount * unit.secs ≤ maxDurationSecs
  | .custom _ _ => true

theorem inRange_of_listed (durations : List Duration) {duration : Duration}
    (hall : durations.all InRange = true)
    (hlisted : ∀ amount unit, duration = .preset amount unit → .preset amount unit ∈ durations) :
    InRange duration = true := by
  cases duration with
  | preset amount unit => exact List.all_eq_true.mp hall _ (hlisted amount unit rfl)
  | custom => rfl

/-- Whatever token a dialog writes, it stands for the seconds that were chosen, which are in the
server's range. -/
theorem resolved_token {duration : Duration} (hrange : InRange duration = true)
    (h : resolveDurationToken duration = some s) :
    minDurationSecs ≤ duration.secs ∧ duration.secs ≤ maxDurationSecs ∧
      ∃ amount unit, s = token amount unit ∧ amount ≤ 9999 ∧ amount * unit.secs = duration.secs := by
  cases duration with
  | preset amount unit =>
    obtain rfl := Option.some.inj h
    obtain ⟨hamount, hmin, hmax⟩ := of_decide_eq_true hrange
    exact ⟨hmin, hmax, amount, unit, rfl, hamount, rfl⟩
  | custom amount unit =>
    simp only [resolveDurationToken] at h
    split_ifs at h with hamount hsecs
    obtain rfl := Option.some.inj h
    push Not at hamount hsecs
    exact ⟨hsecs.1, hsecs.2, amount, unit, rfl, hamount.2, rfl⟩

theorem le_toNat_of_isDigit (h : c.isDigit = true) : 48 ≤ c.toNat := by
  simp only [Char.isDigit, Bool.and_eq_true, decide_eq_true_eq] at h
  exact UInt32.le_iff_toNat_le.mp h.1

theorem isWhiteSpace_of_isDigit (h : c.isDigit = true) : isWhiteSpace c = false := by
  have hle := toNat_le_of_isDigit h
  have hge := le_toNat_of_isDigit h
  simp only [isWhiteSpace, decide_eq_false_iff_not, List.mem_cons, List.not_mem_nil, or_false]
  omega

theorem mem_token (hc : c ∈ token amount unit) : c.isDigit = true ∨ c = unit.letter := by
  rcases List.mem_append.mp hc with hc | hc
  · exact .inl (List.all_eq_true.mp all_isDigit_toDigits c hc)
  · exact .inr (List.mem_singleton.mp hc)

theorem token_no_bar : '|' ∉ token amount unit := by
  intro hmem
  rcases mem_token hmem with h | h
  · exact absurd h (by decide)
  · cases unit <;> exact absurd h (by decide)

theorem token_no_blank : ∀ c ∈ token amount unit, isWhiteSpace c = false := by
  intro c hc
  rcases mem_token hc with h | rfl
  · exact isWhiteSpace_of_isDigit h
  · cases unit <;> decide

theorem trimmed_of_no_blank (h : ∀ c ∈ s, isWhiteSpace c = false) : trimmed s = s :=
  trimMatches_of_trimmed ⟨fun c hc => h c (List.mem_of_mem_head? hc),
    fun c hc => h c (List.mem_of_mem_getLast? hc)⟩

theorem firstRepeat_eq_none {seen : List String} {options : List (List Char)} :
    firstRepeat lower seen options = none ↔
      (options.map fun o => lower (.ofList o)).Nodup ∧
        ∀ o ∈ options, lower (.ofList o) ∉ seen := by
  induction options generalizing seen with
  | nil => simp [firstRepeat]
  | cons option options ih =>
    by_cases hseen : lower (.ofList option) ∈ seen
    · simp [firstRepeat, hseen]
    · rw [firstRepeat, if_neg hseen, ih, List.map_cons, List.nodup_cons, List.forall_mem_cons]
      simp only [List.mem_cons, not_or, List.mem_map, not_exists, not_and]
      constructor
      · rintro ⟨hnodup, hrest⟩
        exact ⟨⟨fun o ho => (hrest o ho).1, hnodup⟩, hseen, fun o ho => (hrest o ho).2⟩
      · rintro ⟨⟨hnew, hnodup⟩, -, hrest⟩
        exact ⟨hnodup, fun o ho => ⟨hnew o ho, hrest o ho⟩⟩

theorem length_le : s.length ≤ length s := by
  refine length_le_width fun c => ?_
  split_ifs <;> decide

theorem not_mem_nel (h : '\u0085' ∉ s) : '\u0085' ∉ stripPipes s := by
  intro hmem
  obtain ⟨c, hc, heq⟩ := List.mem_map.mp hmem
  split_ifs at heq with hbar
  · exact absurd heq (by decide)
  · exact h (heq ▸ hc)

theorem parsePollArgs_of_taken {args : String} {secs : Option ℕ} {question : List Char}
    {options : List (List Char)}
    (htake : takeDuration (Slash.segments args.toList) = .ok (secs, question :: options))
    (hne : ∀ s ∈ question :: options, s ≠ []) (hquestion : question.length ≤ 256)
    (hcount : 2 ≤ options.length ∧ options.length ≤ 10) (hoptions : ∀ o ∈ options, o.length ≤ 100)
    (hnodup : (options.map fun o => lower (.ofList o)).Nodup) :
    parsePollArgs lower args = .ok ⟨.ofList question, options.map .ofList, secs⟩ := by
  have hlower : ((options.map String.ofList).map lower).Nodup := by
    rw [List.map_map]
    exact hnodup
  have hthree : 3 ≤ (question :: options).length := Nat.succ_le_succ hcount.1
  rw [parsePollArgs, htake]
  simp only [bind_eq_ok, ensure_eq_ok, expect_eq_ok, pure_eq_ok]
  exact ⟨_, rfl, (), hne, (), hthree, question, rfl, (), ⟨hne _ List.mem_cons_self, hquestion⟩, (),
    hcount, (), fun o ho => ⟨hne o (List.mem_cons_of_mem _ ho), hoptions o ho⟩, (), hlower, rfl⟩

/-- What the server reads of a poll is what its dialog shows, exactly if an end time has been chosen
or the last option does not end in a character of more than one byte. -/
theorem poll_read_iff {form : PollForm} {args : List Char} (hargs : form.args lower = .ok args)
    (hquestion : '\u0085' ∉ form.question) (hoptions : ∀ o ∈ form.options, '\u0085' ∉ o) :
    parsePollArgs lower (.ofList args) =
        .ok ⟨.ofList form.asked, form.offered.map .ofList, form.duration.map Duration.secs⟩ ↔
      form.duration ≠ none ∨ ¬EndsWide (form.offered.getLast?.getD []) := by
  simp only [PollForm.args, bind_eq_ok, ensure_eq_ok, pure_eq_ok] at hargs
  obtain ⟨⟨⟩, hasked, ⟨⟩, hlength, ⟨⟩, hoffered, ⟨⟩, hlengths, ⟨⟩, hrepeat, token, htoken, ⟨⟩,
    hlooks, rfl⟩ := hargs
  have hplain : ∀ s ∈ form.asked :: form.offered, '|' ∉ s ∧ trimmed s = s := by
    intro s hs
    rcases List.mem_cons.mp hs with rfl | hs
    · exact ⟨not_mem_stripPipes, trimmed_trim (not_mem_nel hquestion)⟩
    · obtain ⟨o, ho, rfl⟩ := List.mem_map.mp hs
      exact ⟨not_mem_stripPipes, trimmed_trim (not_mem_nel (hoptions o ho))⟩
  have hcount : 2 ≤ form.offered.length ∧ form.offered.length ≤ 10 := by
    rw [PollForm.offered, List.length_map]
    exact ⟨form.two_le, form.le_ten⟩
  have hread {secs : Option ℕ} {segs : List (List Char)}
      (htake : takeDuration segs = .ok (secs, form.asked :: form.offered))
      (hsegs : Slash.segments (join (form.asked :: form.offered ++ token.toList)) = segs) :
      parsePollArgs lower (.ofList (join (form.asked :: form.offered ++ token.toList))) =
        .ok ⟨.ofList form.asked, form.offered.map .ofList, secs⟩ := by
    refine parsePollArgs_of_taken ?_ (List.forall_mem_cons.mpr ⟨hasked, hoffered⟩)
      (length_le.trans hlength) hcount (fun o ho => length_le.trans (hlengths o ho))
      (firstRepeat_eq_none.mp hrepeat).1
    rw [String.toList_ofList, hsegs, htake]
  cases hduration : form.duration with
  | none =>
    obtain rfl : token = none := by
      rw [PollForm.token, hduration] at htoken
      exact (pure_eq_ok.mp htoken).symm
    have hsegs : Slash.segments (join (form.asked :: form.offered ++ (none : Option _).toList)) =
        form.asked :: form.offered := by
      rw [Option.toList_none, List.append_nil]
      exact segments_join (List.cons_ne_nil _ _) (fun s hs => (hplain s hs).1)
        fun s hs => (hplain s hs).2
    have hlast : (form.asked :: form.offered).getLast? =
        some (form.offered.getLast?.getD []) := by
      have hne : form.offered ≠ [] := List.length_pos_iff.mp (by omega)
      rw [List.getLast?_cons, List.getLast?_eq_some_getLast hne]
      rfl
    by_cases hwide : EndsWide (form.offered.getLast?.getD [])
    · refine iff_of_false (fun hok => ?_) (by simp [hwide])
      have hpanics : Panics (parsePollArgs lower (.ofList (join
          (form.asked :: form.offered ++ (none : Option _).toList)))) := by
        rw [parsePollArgs_panics, String.toList_ofList, hsegs, hlast]
        exact hwide
      rw [hok] at hpanics
      exact panics_ok _ hpanics
    · refine iff_of_true (hread ?_ hsegs) (.inr hwide)
      have hnone := durationTokenSecs_of_other hwide (hlooks.resolve_left (· rfl))
      rw [takeDuration, hlast]
      simp only [hnone]
      rfl
  | some duration =>
    obtain ⟨tok, htok, rfl⟩ : ∃ tok, resolveDurationToken duration = some tok ∧
        some tok = token := by
      rw [PollForm.token, hduration] at htoken
      simpa using htoken
    have hrange : InRange duration = true :=
      inRange_of_listed pollDurations (by decide) fun amount unit h =>
        form.listed amount unit (hduration.trans (congrArg some h))
    obtain ⟨hmin, hmax, amount, unit, rfl, hamount, hsecs⟩ := resolved_token hrange htok
    have hread' : durationTokenSecs (token amount unit) = _ := durationTokenSecs_token hamount
    rw [hsecs] at hread'
    have hsegs : Slash.segments (join (form.asked :: form.offered ++
        (some (token amount unit)).toList)) = form.asked :: form.offered ++ [token amount unit] := by
      refine segments_join (List.cons_ne_nil _ _) (fun s hs => ?_) fun s hs => ?_
      · rcases List.mem_append.mp hs with hs | hs
        · exact (hplain s hs).1
        · exact List.mem_singleton.mp hs ▸ token_no_bar
      · rcases List.mem_append.mp hs with hs | hs
        · exact (hplain s hs).2
        · exact List.mem_singleton.mp hs ▸ trimmed_of_no_blank token_no_blank
    refine iff_of_true (hread ?_ hsegs) (.inl (Option.some_ne_none _))
    rw [takeDuration, List.getLast?_concat]
    have hcheck : checkDuration duration.secs = .ok () := ensure_eq_ok.mpr ⟨hmin, hmax⟩
    simp only [hread', bind, Except.bind, hcheck, List.dropLast_concat]
    rfl

def lunch : PollForm where
  question := "Lunch? ".toList
  options := ["soup|salad".toList, "pizza".toList]
  duration := none
  two_le := by decide
  le_ten := by decide
  listed := nofun

theorem lunch_read : parsePollArgs id (.ofList (join
      ["Lunch?".toList, "soup/salad".toList, "pizza".toList])) =
    .ok ⟨.ofList lunch.asked, lunch.offered.map .ofList, lunch.duration.map Duration.secs⟩ :=
  (poll_read_iff (by decide +kernel) (by decide) (by decide)).mpr (.inr (by decide))

/-! ## Giveaways and reminders -/

theorem words_token (htrimmed : Trimmed isWhiteSpace s) (hne : s ≠ []) :
    words (token amount unit ++ ' ' :: s) = (token amount unit, s) := by
  have htoken : token amount unit ≠ [] := List.append_ne_nil_of_right_ne_nil _ (List.cons_ne_nil _ _)
  have hblank (c : Char) (hc : c ∈ token amount unit) : (!isWhiteSpace c) = true := by
    rw [token_no_blank c hc]
    rfl
  have hwhole : trimmed (token amount unit ++ ' ' :: s) = token amount unit ++ ' ' :: s := by
    refine trimMatches_of_trimmed ⟨first_append htoken fun c hc =>
      token_no_blank c (List.mem_of_mem_head? hc), fun c hc => htrimmed.last c ?_⟩
    rwa [List.append_cons, List.getLast?_append_of_ne_nil _ hne] at hc
  have hspace : (!isWhiteSpace ' ') = false := by decide
  rw [words, hwhole, List.takeWhile_append_of_pos hblank, List.dropWhile_append_of_pos hblank]
  simp [hspace]

theorem parseGiveawayDuration_token (hamount : amount ≤ 9999)
    (hmin : minDurationSecs ≤ amount * unit.secs) (hmax : amount * unit.secs ≤ maxDurationSecs) :
    parseGiveawayDuration (token amount unit) = .ok (some (amount * unit.secs)) := by
  have hletter : unit.letter.utf8Size = 1 := by cases unit <;> decide
  have hmul : amount * unit.secs < 2 ^ 64 := hmax.trans_lt (by decide)
  rw [parseGiveawayDuration, token, durationParts_concat hletter toDigits_ne_nil,
    if_pos ⟨rfl, all_isDigit_toDigits⟩, parseU64_toDigits (by omega), unitSecs_letter]
  have hchecked : checkedMul amount unit.secs = some (amount * unit.secs) := if_pos hmul
  simp [hchecked, hmin, hmax]

/-- A giveaway and a reminder are read as their dialogs show them. -/
theorem timed_read :
    (∀ (form : TimedForm giveawayDurations) (args : List Char), giveawayArgs form = .ok args →
      '\u0085' ∉ form.text →
      parseGiveawayArgs (.ofList args) = .ok ⟨form.duration.secs, .ofList (trim form.text)⟩) ∧
    ∀ (form : TimedForm reminderDurations) (args : List Char), reminderArgs form = .ok args →
      '\u0085' ∉ form.text →
      parseReminderArgs (.ofList args) = .ok ⟨form.duration.secs, .ofList (trim form.text)⟩ := by
  constructor
  · intro form args hargs hnel
    simp only [giveawayArgs, bind_eq_ok, ensure_eq_ok, context_eq_ok, pure_eq_ok] at hargs
    obtain ⟨⟨⟩, hne, ⟨⟩, hlength, token, htoken, rfl⟩ := hargs
    have hrange : InRange form.duration = true :=
      inRange_of_listed giveawayDurations (by decide) form.listed
    obtain ⟨hmin, hmax, amount, unit, rfl, hamount, hsecs⟩ := resolved_token hrange htoken
    rw [← hsecs] at hmin hmax ⊢
    rw [parseGiveawayArgs, String.toList_ofList, words_token (trimmed_of_trim hnel) hne]
    simp only [parseGiveawayDuration_token hamount hmin hmax, bind_eq_ok, context_eq_ok,
      ensure_eq_ok, pure_eq_ok, trimmed_trim hnel]
    exact ⟨_, rfl, _, rfl, (), ⟨hne, length_le.trans hlength⟩, rfl⟩
  · intro form args hargs hnel
    simp only [reminderArgs, bind_eq_ok, ensure_eq_ok, context_eq_ok, pure_eq_ok] at hargs
    obtain ⟨token, htoken, ⟨⟩, hne, ⟨⟩, hlength, rfl⟩ := hargs
    have hrange : InRange form.duration = true :=
      inRange_of_listed reminderDurations (by decide) form.listed
    obtain ⟨hmin, hmax, amount, unit, rfl, hamount, hsecs⟩ := resolved_token hrange htoken
    rw [← hsecs] at hmin hmax ⊢
    rw [parseReminderArgs, String.toList_ofList, words_token (trimmed_of_trim hnel) hne]
    simp only [durationTokenSecs_token hamount, checkDuration, bind_eq_ok, context_eq_ok,
      ensure_eq_ok, pure_eq_ok, trimmed_trim hnel]
    exact ⟨_, rfl, _, rfl, (), ⟨hmin, hmax⟩, (), hne, (), length_le.trans hlength, rfl⟩

/-- Two days and a half in hours, for a prize and for a reminder. -/
theorem timed_read_of_hours :
    parseGiveawayArgs (.ofList "60h a key".toList) = .ok ⟨216000, "a key"⟩ ∧
      parseReminderArgs (.ofList "60h a key".toList) = .ok ⟨216000, "a key"⟩ := by
  have hread := timed_read
  exact ⟨hread.1 ⟨"a key ".toList, .custom 60 .h, nofun⟩ _ (by decide +kernel) (by decide),
    hread.2 ⟨"a key ".toList, .custom 60 .h, nofun⟩ _ (by decide +kernel) (by decide)⟩

def EventForm.lastText (form : EventForm) : List Char :=
  if form.details ≠ [] then form.details else form.place

theorem remindToken_nil : remindToken [] = none := by decide

theorem toLower_at : '@'.toLower = '@' := by decide

theorem remindToken_at : remindToken ('@' :: s) = none := by
  simp [remindToken, List.dropPrefix?, toLower_at]

theorem remindToken_lead {lead : Lead} (h : lead ≠ .none) :
    remindToken ("remind ".toList ++ lead.value) = some lead.secs := by
  cases lead with
  | none => exact absurd rfl h
  | quarter => decide +kernel
  | hour => decide +kernel
  | day => decide +kernel

theorem parseWhen_at {startsAt : ℕ} (hmin : 10 ^ 8 ≤ startsAt) (hmax : startsAt < 10 ^ 12) :
    parseWhen ('@' :: Nat.toDigits 10 startsAt) = .ok (.absolute startsAt) := by
  have hplain : ∀ c ∈ '@' :: Nat.toDigits 10 startsAt, isWhiteSpace c = false := by
    refine List.forall_mem_cons.mpr ⟨by decide, fun c hc => ?_⟩
    exact isWhiteSpace_of_isDigit (List.all_eq_true.mp all_isDigit_toDigits c hc)
  have hbody : afterIn ('@' :: Nat.toDigits 10 startsAt) = '@' :: Nat.toDigits 10 startsAt := by
    simp [afterIn, trimmed_of_no_blank hplain, toLower_at]
  have hnine : 9 ≤ len (Nat.toDigits 10 startsAt) := by
    rw [len_of_digits all_isDigit_toDigits]
    by_contra hlt
    have hlt := (Nat.length_toDigits_le_iff (b := 10) (k := 8) (n := startsAt) (by decide)
      (by decide)).mp (by omega)
    omega
  have htwelve : len (Nat.toDigits 10 startsAt) ≤ 12 := by
    rw [len_of_digits all_isDigit_toDigits]
    exact (Nat.length_toDigits_le_iff (by decide) (by decide)).mpr hmax
  have hsecs : absoluteSecs (Nat.toDigits 10 startsAt) = some startsAt := by
    rw [absoluteSecs, if_pos ⟨hnine, htwelve, all_isDigit_toDigits⟩,
      parseU64_toDigits (by omega)]
  rw [parseWhen, whenBody_eq, hbody]
  simp [bind, Except.bind, hsecs, context]

/-- A text that may be left out. -/
def optional (s : List Char) : Option String := if s = [] then none else some (.ofList s)

/-- The segments besides a lead. -/
def EventForm.base (form : EventForm) (startsAt : ℕ) : List (List Char) :=
  form.named :: ('@' :: Nat.toDigits 10 startsAt) ::
    if form.details ≠ [] then [form.place, form.details]
    else if form.place ≠ [] then [form.place] else []

variable {form : EventForm} {startsAt : ℕ}

theorem segments_eq_base : form.segments startsAt = form.base startsAt ++
    if form.lead ≠ .none then ["remind ".toList ++ form.lead.value] else [] := by
  unfold EventForm.segments EventForm.base
  generalize (if form.lead ≠ Lead.none then ["remind ".toList ++ form.lead.value] else []) = lead
  by_cases hdetails : form.details = []
  · by_cases hplace : form.place = []
    · simp [hdetails, hplace]
    · simp [hdetails, hplace]
  · simp [hdetails]

theorem base_last : (form.base startsAt).getLast?.bind remindToken = remindToken form.lastText := by
  by_cases hdetails : form.details = []
  · by_cases hplace : form.place = []
    · simp [EventForm.base, EventForm.lastText, hdetails, hplace, remindToken_at, remindToken_nil]
    · simp [EventForm.base, EventForm.lastText, hdetails, hplace]
  · simp [EventForm.base, EventForm.lastText, hdetails]

theorem takeLead_segments : takeLead (form.segments startsAt) =
    if form.lead ≠ .none then (form.lead.secs, form.base startsAt)
    else match remindToken form.lastText with
      | none => (none, form.base startsAt)
      | some lead => (lead, (form.base startsAt).dropLast) := by
  rw [segments_eq_base, takeLead]
  by_cases hlead : form.lead = .none
  · rw [if_neg (not_not_intro hlead), if_neg (not_not_intro hlead), List.append_nil]
    exact congrArg (fun last => match last with
      | none => (none, form.base startsAt)
      | some lead => (lead, (form.base startsAt).dropLast)) base_last
  · rw [if_pos hlead, if_pos hlead, List.getLast?_concat, List.dropLast_concat]
    simp only [Option.bind_some, remindToken_lead hlead]

theorem parseEventArgs_fields {args : String} {parsed : ParsedEvent}
    (h : parseEventArgs args = .ok parsed) :
    parsed.location = optionalSegment (takeLead (Slash.segments args.toList)).2 2 ∧
      parsed.description = optionalSegment (takeLead (Slash.segments args.toList)).2 3 := by
  simp only [parseEventArgs, bind_eq_ok, pure_eq_ok] at h
  obtain ⟨-, -, title, -, start, -, -, -, start', -, -, -, rfl⟩ := h
  exact ⟨rfl, rfl⟩

theorem parseEventArgs_of_taken {args : String} {lead : Option ℕ}
    (htake : takeLead (Slash.segments args.toList) = (lead, form.base startsAt))
    (hnamed : form.named ≠ []) (htitle : form.named.length ≤ 120)
    (hplace : form.place.length ≤ 120) (hdetails : form.details.length ≤ 500)
    (hmin : 10 ^ 8 ≤ startsAt) (hmax : startsAt < 10 ^ 12) :
    parseEventArgs args = .ok ⟨.ofList form.named, .absolute startsAt, optional form.place,
      optional form.details, lead⟩ := by
  have hlength : 2 ≤ (form.base startsAt).length ∧ (form.base startsAt).length ≤ 4 := by
    unfold EventForm.base
    split_ifs <;> simp
  have hlocation : optionalSegment (form.base startsAt) 2 = optional form.place := by
    unfold EventForm.base optional optionalSegment
    split_ifs <;> simp_all
  have hdescription : optionalSegment (form.base startsAt) 3 = optional form.details := by
    unfold EventForm.base optional optionalSegment
    split_ifs <;> simp_all
  have hvalid : validateEventFields (.ofList form.named) (optional form.details)
      (optional form.place) = .ok () := by
    simp only [validateEventFields, bind_eq_ok, ensure_eq_ok, ensureIfSome_eq_ok]
    refine ⟨(), ⟨by simpa using hnamed, by simpa using htitle⟩, (), ?_, ?_⟩
    · unfold optional
      split_ifs <;> simp [hplace]
    · unfold optional
      split_ifs <;> simp [hdetails]
  rw [parseEventArgs, htake]
  simp only [bind_eq_ok, ensure_eq_ok, expect_eq_ok, pure_eq_ok, hlocation, hdescription]
  exact ⟨(), hlength, form.named, rfl, _, rfl, (), List.cons_ne_nil _ _, _,
    parseWhen_at hmin hmax, (), hvalid, rfl⟩

theorem segments_plain (htitle : '\u0085' ∉ form.title) (hlocation : '\u0085' ∉ form.location)
    (hdescription : '\u0085' ∉ form.description) :
    ∀ s ∈ form.segments startsAt, '|' ∉ s ∧ trimmed s = s := by
  have htext {s : List Char} (h : '\u0085' ∉ s) :
      '|' ∉ trim (stripPipes s) ∧ trimmed (trim (stripPipes s)) = trim (stripPipes s) :=
    ⟨not_mem_stripPipes, trimmed_trim (not_mem_nel h)⟩
  have htime : '|' ∉ '@' :: Nat.toDigits 10 startsAt ∧
      trimmed ('@' :: Nat.toDigits 10 startsAt) = '@' :: Nat.toDigits 10 startsAt := by
    have hdigit : ∀ c ∈ Nat.toDigits 10 startsAt, c.isDigit = true :=
      List.all_eq_true.mp all_isDigit_toDigits
    refine ⟨fun hmem => ?_, trimmed_of_no_blank (List.forall_mem_cons.mpr
      ⟨by decide, fun c hc => isWhiteSpace_of_isDigit (hdigit c hc)⟩)⟩
    rcases List.mem_cons.mp hmem with h | h
    · exact absurd h (by decide)
    · exact absurd (hdigit _ h) (by decide)
  have hlead : ∀ lead : Lead, '|' ∉ "remind ".toList ++ lead.value ∧
      (lead ≠ .none → trimmed ("remind ".toList ++ lead.value) = "remind ".toList ++ lead.value) := by
    intro lead
    cases lead <;> decide +kernel
  intro s hs
  rw [segments_eq_base, List.mem_append] at hs
  rcases hs with hs | hs
  · rcases List.mem_cons.mp hs with rfl | hs
    · exact htext htitle
    · rcases List.mem_cons.mp hs with rfl | hs
      · exact htime
      · split_ifs at hs with hdetails hplace
        · rcases List.mem_cons.mp hs with rfl | hs
          · exact htext hlocation
          · exact List.mem_singleton.mp hs ▸ htext hdescription
        · exact List.mem_singleton.mp hs ▸ htext hlocation
        · cases hs
  · split_ifs at hs with hnone
    · obtain rfl := List.mem_singleton.mp hs
      exact ⟨(hlead form.lead).1, (hlead form.lead).2 hnone⟩
    · cases hs

/-- What the server reads of an event is what its dialog shows, exactly if a lead has been chosen or
the last text does not itself read as one. -/
theorem event_read_iff {args : List Char} {now : ℕ} (hargs : form.args now = .ok args)
    (hstart : form.start = some (some startsAt)) (hnow : 10 ^ 8 ≤ now)
    (hend : now + 365 * 86400 < 10 ^ 12) (htitle : '\u0085' ∉ form.title)
    (hlocation : '\u0085' ∉ form.location) (hdescription : '\u0085' ∉ form.description) :
    parseEventArgs (.ofList args) = .ok ⟨.ofList form.named, .absolute startsAt,
        optional form.place, optional form.details, form.lead.secs⟩ ↔
      form.lead ≠ .none ∨ remindToken form.lastText = none := by
  simp only [EventForm.args, bind_eq_ok, ensure_eq_ok, context_eq_ok, hstart,
    pure_eq_ok] at hargs
  obtain ⟨⟨⟩, hnamed, ⟨⟩, hnamedLength, _, ⟨⟩, ⟨⟩, hplaceLength, ⟨⟩, hdetailsLength, _, ⟨⟩, ⟨⟩,
    hfuture, ⟨⟩, hyear, rfl⟩ := hargs
  have hne : form.segments startsAt ≠ [] := by
    rw [segments_eq_base]
    exact List.append_ne_nil_of_left_ne_nil (List.cons_ne_nil _ _) _
  have hsegs : Slash.segments (join (form.segments startsAt)) = form.segments startsAt :=
    segments_join hne (fun s hs => (segments_plain htitle hlocation
      hdescription s hs).1) fun s hs => (segments_plain htitle hlocation hdescription s hs).2
  have htake : takeLead (form.segments startsAt) = _ := takeLead_segments
  have hread {lead : Option ℕ} (h : takeLead (form.segments startsAt) =
      (lead, form.base startsAt)) : parseEventArgs (.ofList (join (form.segments startsAt))) =
        .ok ⟨.ofList form.named, .absolute startsAt, optional form.place,
          optional form.details, lead⟩ := by
    refine parseEventArgs_of_taken ?_ hnamed (length_le.trans hnamedLength)
      (length_le.trans hplaceLength) (length_le.trans hdetailsLength) (by omega) (by omega)
    rw [String.toList_ofList, hsegs, h]
  by_cases hlead : form.lead = .none
  · rw [if_neg (not_not_intro hlead)] at htake
    cases hlast : remindToken form.lastText with
    | none =>
      rw [hlast] at htake
      rw [hlead]
      exact iff_of_true (hread htake) (.inr rfl)
    | some lead =>
      rw [hlast] at htake
      refine iff_of_false (fun hok => ?_) (by simp [hlead])
      obtain ⟨hplace, hdetails⟩ := parseEventArgs_fields hok
      rw [String.toList_ofList, hsegs, htake] at hplace hdetails
      by_cases hnone : form.details = []
      · by_cases hnowhere : form.place = []
        · have hnil : form.lastText = [] := by simp [EventForm.lastText, hnone, hnowhere]
          rw [hnil, remindToken_nil] at hlast
          cases hlast
        · simp [EventForm.base, hnone, hnowhere, optional, optionalSegment] at hplace
      · simp [EventForm.base, hnone, optional, optionalSegment] at hdetails
  · rw [if_pos hlead] at htake
    exact iff_of_true (hread htake) (.inl hlead)

def party : EventForm := ⟨"Party".toList, some (some 1800000000), [], "remind 1h".toList, .none⟩

/-- A description that reads as a lead is taken for one. -/
theorem party_misread : parseEventArgs (.ofList (join (party.segments 1800000000))) ≠
    .ok ⟨.ofList party.named, .absolute 1800000000, optional party.place, optional party.details,
      party.lead.secs⟩ := by
  intro hread
  have hargs : party.args 1790000000 = .ok (join (party.segments 1800000000)) := by
    decide +kernel
  have hiff := (event_read_iff hargs rfl (by decide) (by decide) (by decide) (by decide)
    (by decide)).mp hread
  exact absurd hiff (by decide +kernel)

end Ui.Builders
