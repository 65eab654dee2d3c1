import Farder.Client.FilePolicy
import Mathlib.Data.List.Basic
import Mathlib.Tactic.Common

/-! # Safe file names

A name that is let through stays in the directory it is joined to, looks like what it is, and has a
known extension. It can still start with a dot: each trim is made once. -/
namespace FilePolicy

open Text

inductive Platform where
  | unix
  | windows
  deriving DecidableEq, Repr

inductive Component where
  | drive (letter : Char)
  | rootDir
  | curDir
  | parentDir
  | normal (name : List Char)
  deriving DecidableEq, Repr

namespace Platform

variable (P : Platform)

def isSeparator (c : Char) : Bool :=
  match P with
  | .unix => c = '/'
  | .windows => c = '/' ∨ c = '\\'

def mainSeparator : Char :=
  match P with
  | .unix => '/'
  | .windows => '\\'

def drive (path : List Char) : Option Char × List Char :=
  match P, path with
  | .windows, c :: d :: rest =>
    if c.isAlpha ∧ d = ':' then (some c, rest) else (none, c :: d :: rest)
  | _, path => (none, path)

def pieces (path : List Char) : List (List Char) := path.splitOnP P.isSeparator

/-- Repeated separators and dots in the middle do not count. -/
def component (piece : List Char) : Option Component :=
  match piece with
  | [] => none
  | ['.'] => none
  | ['.', '.'] => some .parentDir
  | name => some (.normal name)

/-- What a path without its drive starts with, apart from names. -/
def start (path : List Char) : List Component :=
  if path.head?.any P.isSeparator then [.rootDir]
  else if (P.pieces path).head? = some ['.'] then [.curDir]
  else []

def steps (path : List Char) : List Component := P.start path ++ (P.pieces path).filterMap component

def components (path : List Char) : List Component :=
  (P.drive path).1.toList.map .drive ++ P.steps (P.drive path).2

/-- A path that is not relative replaces the directory, or what comes after its drive. -/
def join (dir path : List Char) : List Char :=
  if (P.drive path).1.isSome then path
  else if path.head?.any P.isSeparator then
    ((P.drive dir).1.toList.flatMap fun c => [c, ':']) ++ path
  else if dir.getLast?.any (fun c => !P.isSeparator c) ∧
      ¬((P.drive dir).1.isSome ∧ (P.drive dir).2 = []) then dir ++ P.mainSeparator :: path
  else dir ++ path

variable {P} {dir path s t : List Char}

theorem isSeparator_mainSeparator : P.isSeparator P.mainSeparator = true := by
  cases P <;> decide

theorem mainSeparator_ne_colon : P.mainSeparator ≠ ':' := by
  cases P <;> decide

theorem drive_cons_of_ne {c d : Char} (h : d ≠ ':') :
    P.drive (c :: d :: path) = (none, c :: d :: path) := by
  cases P with
  | unix => rfl
  | windows => exact if_neg fun hdrive => h hdrive.2

theorem drive_singleton (c : Char) : P.drive [c] = (none, [c]) := by
  cases P <;> rfl

theorem drive_of_no_colon (h : ':' ∉ path) : P.drive path = (none, path) := by
  match path, h with
  | [], _ => cases P <;> rfl
  | [c], _ => exact drive_singleton c
  | c :: d :: rest, h => exact drive_cons_of_ne fun hd => h (by simp [hd])

theorem drive_append (h : ':' ∉ t) :
    P.drive (dir ++ t) = ((P.drive dir).1, (P.drive dir).2 ++ t) := by
  match dir, t, h with
  | [], t, h =>
    rw [List.nil_append, drive_of_no_colon h]
    cases P <;> rfl
  | [c], [], _ => rw [List.append_nil, drive_singleton]; rfl
  | [c], d :: t, h =>
    rw [drive_singleton]
    exact drive_cons_of_ne fun hd => h (by simp [hd])
  | c :: d :: rest, t, h =>
    cases P with
    | unix => rfl
    | windows =>
      by_cases hdrive : c.isAlpha = true ∧ d = ':'
      · simp [drive, hdrive]
      · simp [drive, hdrive]

theorem drive_split (P : Platform) (dir : List Char) :
    dir = ((P.drive dir).1.toList.flatMap fun c => [c, ':']) ++ (P.drive dir).2 := by
  match dir with
  | [] => cases P <;> rfl
  | [c] => rw [drive_singleton]; rfl
  | c :: d :: rest =>
    cases P with
    | unix => rfl
    | windows =>
      by_cases hdrive : c.isAlpha = true ∧ d = ':'
      · simp [drive, hdrive]
      · simp [drive, hdrive]

/-! ### A name below a directory -/

variable (P) in
/-- A text that a path has as it is. -/
structure IsName (s : List Char) : Prop where
  nonempty : s ≠ []
  dotless : ∀ c ∈ s.head?, c ≠ '.'
  whole : ∀ c ∈ s, P.isSeparator c = false
  plain : ':' ∉ s

theorem IsName.pieces (h : P.IsName s) : P.pieces s = [s] := List.splitOnP_eq_singleton h.whole

theorem IsName.component (h : P.IsName s) : component s = some (.normal s) := by
  match s, h with
  | [], h => exact absurd rfl h.nonempty
  | c :: s, h =>
    have hc : c ≠ '.' := h.dotless c rfl
    unfold Platform.component
    split
    · rename_i heq
      cases heq
    · rename_i heq
      exact absurd (List.cons.inj heq).1 hc
    · rename_i heq
      exact absurd (List.cons.inj heq).1 hc
    · rfl

theorem IsName.first (h : P.IsName s) : s.head?.any P.isSeparator = false := by
  match s, h with
  | [], h => exact absurd rfl h.nonempty
  | c :: s, h => exact h.whole c (List.mem_cons_self)

theorem IsName.steps (h : P.IsName s) : P.steps s = [.normal s] := by
  have hne : s ≠ ['.'] := fun hdot => h.dotless '.' (by rw [hdot]; rfl) rfl
  rw [Platform.steps, start, h.first, h.pieces]
  simp [hne, h.component]

variable {d : Char}

theorem steps_nil : P.steps [] = [] := by
  simp [steps, start, pieces, component]

theorem pieces_append (hd : P.isSeparator d = true) :
    P.pieces (dir ++ d :: t) = P.pieces dir ++ P.pieces t :=
  List.splitOnP_append_cons _ _ hd

theorem start_append (hd : P.isSeparator d = true) (hdir : dir ≠ []) :
    P.start (dir ++ d :: t) = P.start dir := by
  have hfirst : (P.pieces dir ++ P.pieces t).head? = (P.pieces dir).head? :=
    List.head?_append_of_ne_nil _ (List.splitOnP_ne_nil _ _)
  rw [start, pieces_append hd, hfirst, List.head?_append_of_ne_nil _ hdir, start]

theorem start_separator (hd : P.isSeparator d = true) : P.start (d :: t) = [.rootDir] := by
  simp [start, hd]

theorem steps_separator (hd : P.isSeparator d = true) (hdir : dir ≠ []) :
    P.steps (dir ++ [d]) = P.steps dir := by
  rw [steps, start_append hd hdir, pieces_append hd, List.filterMap_append, steps]
  simp [pieces, component]

theorem IsName.steps_append (h : P.IsName s) (hd : P.isSeparator d = true) :
    P.steps (dir ++ d :: s) = P.steps (dir ++ [d]) ++ [.normal s] := by
  have hstart : P.start (dir ++ d :: s) = P.start (dir ++ [d]) := by
    cases dir with
    | nil => rw [List.nil_append, List.nil_append, start_separator hd, start_separator hd]
    | cons c dir => rw [start_append hd (by simp), start_append hd (by simp)]
  rw [Platform.steps, Platform.steps, hstart, pieces_append hd, pieces_append hd, h.pieces]
  have hstep : [s].filterMap Platform.component = [.normal s] := by simp [h.component]
  rw [List.filterMap_append, hstep]
  simp [Platform.pieces, Platform.component]

theorem IsName.components_join (h : P.IsName s) (dir : List Char) :
    P.components (P.join dir s) = P.components dir ++ [.normal s] := by
  have hdrive : (P.drive s).1.isSome = false := by rw [drive_of_no_colon h.plain]; rfl
  have hbelow (t : List Char) (ht : ':' ∉ t)
      (hsteps : P.steps ((P.drive dir).2 ++ t) = P.steps (P.drive dir).2 ++ [.normal s]) :
      P.components (dir ++ t) = P.components dir ++ [.normal s] := by
    rw [components, drive_append ht, hsteps, components, List.append_assoc]
  rw [join, hdrive, h.first, if_neg Bool.false_ne_true, if_neg Bool.false_ne_true]
  by_cases hsep : dir.getLast?.any (fun c => !P.isSeparator c) = true ∧
      ¬((P.drive dir).1.isSome ∧ (P.drive dir).2 = [])
  · rw [if_pos hsep]
    have hrest : (P.drive dir).2 ≠ [] := by
      intro hnil
      have hlast := hsep.1
      cases hletter : (P.drive dir).1 with
      | some c => exact hsep.2 ⟨by rw [hletter]; rfl, hnil⟩
      | none =>
        rw [drive_split P dir, hletter, hnil] at hlast
        cases hlast
    refine hbelow _ (by simpa using ⟨mainSeparator_ne_colon.symm, h.plain⟩) ?_
    rw [h.steps_append isSeparator_mainSeparator, steps_separator isSeparator_mainSeparator hrest]
  · rw [if_neg hsep]
    refine hbelow _ h.plain ?_
    rcases List.eq_nil_or_concat (P.drive dir).2 with hnil | ⟨rest, d, hrest⟩
    · rw [hnil, List.nil_append, h.steps, steps_nil, List.nil_append]
    · rw [List.concat_eq_append] at hrest
      have hd : P.isSeparator d = true := by
        have hlast : dir.getLast? = some d := by
          rw [drive_split P dir, hrest, ← List.append_assoc, List.getLast?_concat]
        by_contra hd
        exact hsep ⟨by simpa [hlast] using hd, fun hbare => by simp [hrest] at hbare⟩
      rw [hrest, List.append_assoc, List.singleton_append, h.steps_append hd]

end Platform

def isSeparator (c : Char) : Bool := c = '/' ∨ c = '\\'

structure Safe (s : List Char) : Prop where
  nonempty : s ≠ []
  short : len s ≤ maxFilenameLen
  plain : ∀ c ∈ s,
    isSeparator c = false ∧ c ≠ ':' ∧ isControl c = false ∧ isBidiControl c = false
  dots : Trimmed isDot s
  blanks : Trimmed isWhitespace s
  typed : ∃ stem ext, s = stem ++ '.' :: ext ∧ '.' ∉ ext ∧ ext.map Char.toLower ∈ allowedExtensions
  child : ∀ (P : Platform) (dir : List Char),
    P.components (P.join dir s) = P.components dir ++ [.normal s]

/-- Once white space and dots are taken off the start of the name, white space is left there and
after it a dot. -/
def DottedAgain (raw : List Char) : Prop :=
  ∃ blanks dots blanks' rest, clean raw = blanks ++ (dots ++ (blanks' ++ '.' :: rest)) ∧
    dots ≠ [] ∧ blanks' ≠ [] ∧ (∀ c ∈ blanks, isWhitespace c = true) ∧
    (∀ c ∈ dots, isDot c = true) ∧ ∀ c ∈ blanks', isWhitespace c = true

variable {raw s : List Char}

theorem isDot_iff {c : Char} : isDot c = true ↔ c = '.' := decide_eq_true_iff

theorem extension_mem_iff : extension s ∈ allowedExtensions ↔
    ∃ stem ext, s = stem ++ '.' :: ext ∧ '.' ∉ ext ∧ ext.map Char.toLower ∈ allowedExtensions := by
  constructor
  · intro h
    cases hlast : afterLast isDot s with
    | none =>
      rw [extension, hlast] at h
      exact absurd h (by decide)
    | some ext =>
      obtain ⟨stem, d, rfl, hd, hext⟩ := afterLast_eq_some.mp hlast
      rw [isDot_iff.mp hd]
      refine ⟨stem, ext, rfl, fun hmem => ?_, by rwa [extension, hlast] at h⟩
      exact absurd (hext _ hmem) (by decide)
  · rintro ⟨stem, ext, rfl, hext, hallowed⟩
    have hlast : afterLast isDot (stem ++ '.' :: ext) = some ext :=
      afterLast_eq_some.mpr ⟨stem, '.', rfl, rfl, fun c hc =>
        Bool.eq_false_iff.mpr fun hdot => hext (isDot_iff.mp hdot ▸ hc)⟩
    rwa [extension, hlast]

theorem last_of_extension (h : extension s ∈ allowedExtensions) :
    ∀ c ∈ s.getLast?, isDot c = false := by
  obtain ⟨stem, ext, rfl, hext, hallowed⟩ := extension_mem_iff.mp h
  have hne : ext ≠ [] := by
    rintro rfl
    exact absurd hallowed (by decide)
  intro c hc
  rw [List.append_cons, List.getLast?_append_of_ne_nil _ hne] at hc
  exact Bool.eq_false_iff.mpr fun hdot => hext (isDot_iff.mp hdot ▸ List.mem_of_getLast? hc)

theorem isName_of_plain (hne : s ≠ []) (hplain : ∀ c ∈ s,
    isSeparator c = false ∧ c ≠ ':' ∧ isControl c = false ∧ isBidiControl c = false)
    (hdots : Trimmed isDot s) (P : Platform) : P.IsName s where
  nonempty := hne
  dotless c hc hdot := by
    have hfirst := hdots.first c hc
    rw [isDot_iff.mpr hdot] at hfirst
    cases hfirst
  whole c hc := by
    have hsep := (hplain c hc).1
    cases P with
    | unix => simp_all [isSeparator, Platform.isSeparator]
    | windows => exact hsep
  plain hcolon := (hplain _ hcolon).2.1 rfl

theorem safe_of_accepted (h : safeFilename raw = .ok s) (hfirst : ∀ c ∈ s.head?, isDot c = false) :
    Safe s := by
  obtain ⟨⟨hslash, hback, hcolon, -⟩, hs, hne, hlen, hext⟩ := safeFilename_eq_ok.mp h
  have hmem (c : Char) (hc : c ∈ s) : c ∈ clean raw := by
    rw [hs] at hc
    exact mem_of_mem_trimMatches (mem_of_mem_trimMatches (mem_of_mem_trimMatches hc))
  have hplain (c : Char) (hc : c ∈ s) :
      isSeparator c = false ∧ c ≠ ':' ∧ isControl c = false ∧ isBidiControl c = false := by
    have hclean := hmem c hc
    refine ⟨?_, fun hc' => hcolon (hc' ▸ hclean), (mem_clean.mp hclean).2⟩
    have hne : c ≠ '/' ∧ c ≠ '\\' :=
      ⟨fun hc' => hslash (hc' ▸ hclean), fun hc' => hback (hc' ▸ hclean)⟩
    simp [isSeparator, hne]
  have hdots : Trimmed isDot s := ⟨hfirst, last_of_extension hext⟩
  exact ⟨hne, hlen, hplain, hdots, hs ▸ trimMatches_trimmed, extension_mem_iff.mp hext,
    fun P => (isName_of_plain hne hplain hdots P).components_join⟩

theorem Safe.accepted (h : Safe raw) : safeFilename raw = .ok raw := by
  have hclean : clean raw = raw := List.filter_eq_self.mpr fun c hc => by
    simp [(h.plain c hc).2.2]
  have htrim : raw = trim raw := by
    rw [trim, trimMatches_of_trimmed h.blanks, trimMatches_of_trimmed h.dots,
      trimMatches_of_trimmed h.blanks]
  have hdots : raw ≠ ['.', '.'] := by
    rintro rfl
    exact absurd (h.dots.first '.' rfl) (by decide)
  refine safeFilename_eq_ok.mpr ?_
  rw [hclean]
  exact ⟨⟨fun hc => absurd (h.plain _ hc).1 (by decide),
    fun hc => absurd (h.plain _ hc).1 (by decide), fun hc => (h.plain _ hc).2.1 rfl, hdots⟩,
    htrim, h.nonempty, h.short, extension_mem_iff.mpr h.typed⟩

/-- A dot is left in front exactly if white space comes between the dots of the name. -/
theorem first_dot_iff (hs : s = trim (clean raw)) (hne : s ≠ []) :
    (∃ c ∈ s.head?, isDot c = true) ↔ DottedAgain raw := by
  have hfirst₁ := (trimMatches_trimmed (p := isWhitespace) (s := clean raw)).first
  obtain ⟨a₁, z₁, h₁, ha₁, -⟩ := trimMatches_split isWhitespace (clean raw)
  rw [trim] at hs
  generalize trimMatches isWhitespace (clean raw) = t₁ at hs hfirst₁ h₁
  have hfirst₂ := (trimMatches_trimmed (p := isDot) (s := t₁)).first
  obtain ⟨a₂, z₂, h₂, ha₂, -⟩ := trimMatches_split isDot t₁
  generalize trimMatches isDot t₁ = t₂ at hs hfirst₂ h₂
  have hfirst := (trimMatches_trimmed (p := isWhitespace) (s := t₂)).first
  obtain ⟨a₃, z₃, h₃, ha₃, -⟩ := trimMatches_split isWhitespace t₂
  rw [← hs] at hfirst h₃
  have hdot_ne_blank {c : Char} (hdot : isDot c = true) : isWhitespace c = false := by
    rw [isDot_iff.mp hdot]
    decide
  obtain ⟨c, r, rfl⟩ := List.exists_cons_of_ne_nil hne
  constructor
  · rintro ⟨_, ⟨rfl⟩, hdot⟩
    have hblanks : a₃ ≠ [] := by
      rintro rfl
      exact absurd (hfirst₂ c (by rw [h₃]; rfl)) (by rw [hdot]; decide)
    have hdots : a₂ ≠ [] := by
      rintro rfl
      obtain ⟨b, a₃, rfl⟩ := List.exists_cons_of_ne_nil hblanks
      exact absurd (hfirst₁ b (by rw [h₂, h₃]; rfl)) (by rw [ha₃ b (List.mem_cons_self)]; decide)
    refine ⟨a₁, a₂, a₃, r ++ z₃ ++ z₂ ++ z₁, ?_, hdots, hblanks, ha₁, ha₂, ha₃⟩
    rw [h₁, h₂, h₃, isDot_iff.mp hdot]
    simp
  · rintro ⟨b₁, b₂, b₃, rest, heq, hb₂, hb₃, hblanks, hdots, hblanks'⟩
    have hne₂ : t₂ ≠ [] := by simp [h₃]
    have hne₁ : t₁ ≠ [] := by simp [h₂, hne₂]
    obtain ⟨-, hrest⟩ := append_unique (heq.symm.trans h₁) hblanks ha₁
      (first_append hb₂ fun d hd => hdot_ne_blank (hdots d (List.mem_of_mem_head? hd)))
      (first_append hne₁ hfirst₁)
    rw [h₂, List.append_assoc, List.append_assoc] at hrest
    obtain ⟨-, hrest⟩ := append_unique hrest hdots ha₂
      (first_append hb₃ fun d hd => Bool.eq_false_iff.mpr fun hdot => by
        have hblank := hblanks' d (List.mem_of_mem_head? hd)
        rw [hdot_ne_blank hdot] at hblank
        cases hblank)
      (first_append hne₂ hfirst₂)
    rw [h₃, List.append_assoc, List.append_assoc] at hrest
    obtain ⟨-, hrest⟩ := append_unique hrest hblanks' ha₃ (by rintro _ ⟨rfl⟩; decide)
      (first_append hne hfirst)
    obtain ⟨rfl, -⟩ := List.cons.inj hrest
    exact ⟨'.', rfl, rfl⟩

/-- A name that is let through is safe, and let through as it is, exactly if no dot is left in front
by the trims; and a safe name is let through as it is. -/
theorem safe_filename (raw : List Char) :
    (∀ s, safeFilename raw = .ok s →
      (Safe s ∧ safeFilename s = .ok s ↔ ¬DottedAgain raw)) ∧
    (Safe raw → safeFilename raw = .ok raw) := by
  refine ⟨fun s h => ?_, Safe.accepted⟩
  obtain ⟨-, hs, hne, -⟩ := safeFilename_eq_ok.mp h
  rw [← first_dot_iff hs hne]
  constructor
  · rintro ⟨hsafe, -⟩ ⟨c, hc, hdot⟩
    exact absurd (hsafe.dots.first c hc) (by rw [hdot]; decide)
  · intro hfirst
    push Not at hfirst
    have hsafe := safe_of_accepted h fun c hc => Bool.eq_false_iff.mpr (hfirst c hc)
    exact ⟨hsafe, hsafe.accepted⟩

/-- A name that comes out with a dot in front, and goes in again to lose it. -/
theorem safe_filename_dotted :
    ¬∀ raw s, safeFilename raw = .ok s → Safe s ∧ safeFilename s = .ok s := by
  intro h
  obtain ⟨-, hagain⟩ := h ". .a.png".toList ".a.png".toList (by decide +kernel)
  exact absurd hagain (by decide +kernel)

end FilePolicy
