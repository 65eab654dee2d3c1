import Mathlib.Data.List.DropRight

/-! # Text

The characters of one kind can be taken off both ends of a text, and a text can be read up to the
last character of a kind. -/
namespace Text

variable {α : Type} {p : α → Bool} {s a a' x x' : List α} {c : α}

/-- A character at an end can be looked at, without a search through all characters. -/
abbrev decidableExistsMem {P : Char → Prop} [DecidablePred P] (o : Option Char) :
    Decidable (∃ c ∈ o, P c) := Option.decidableExistsMem o

/-- The text without the characters of the kind at both ends. -/
def trimMatches (p : α → Bool) (s : List α) : List α := (s.dropWhile p).rdropWhile p

/-- Starts and ends with another character than one of the kind. -/
structure Trimmed (p : α → Bool) (s : List α) : Prop where
  first : ∀ c ∈ s.head?, p c = false
  last : ∀ c ∈ s.getLast?, p c = false

theorem dropWhile_of_first (h : ∀ c ∈ s.head?, p c = false) : s.dropWhile p = s := by
  cases s with
  | nil => rfl
  | cons c s => rw [List.dropWhile_cons_of_neg (by simp [h c rfl])]

theorem first_dropWhile : ∀ c ∈ (s.dropWhile p).head?, p c = false := by
  intro c hc
  have hfirst := List.head?_dropWhile_not p s
  rwa [Option.mem_def.mp hc] at hfirst

theorem first_append (hne : x ≠ []) (h : ∀ c ∈ x.head?, p c = false) :
    ∀ c ∈ (x ++ s).head?, p c = false := by
  rwa [List.head?_append_of_ne_nil _ hne]

theorem dropWhile_append_of_first (ha : ∀ c ∈ a, p c = true) (hx : ∀ c ∈ x.head?, p c = false) :
    (a ++ x).dropWhile p = x := by
  rw [List.dropWhile_append_of_pos ha, dropWhile_of_first hx]

theorem append_unique (heq : a ++ x = a' ++ x') (ha : ∀ c ∈ a, p c = true)
    (ha' : ∀ c ∈ a', p c = true) (hx : ∀ c ∈ x.head?, p c = false)
    (hx' : ∀ c ∈ x'.head?, p c = false) : a = a' ∧ x = x' := by
  have hrest : x = x' := by
    rw [← dropWhile_append_of_first ha hx, heq, dropWhile_append_of_first ha' hx']
  subst hrest
  exact ⟨List.append_cancel_right heq, rfl⟩

theorem trimMatches_trimmed : Trimmed p (trimMatches p s) := by
  constructor
  · intro c hc
    obtain ⟨z, hz⟩ := List.rdropWhile_prefix p (s.dropWhile p)
    refine first_dropWhile (s := s) c ?_
    rw [← hz, List.head?_append_of_ne_nil]
    · exact hc
    · rintro hnil
      rw [trimMatches, hnil] at hc
      cases hc
  · intro c hc
    have hne : trimMatches p s ≠ [] := by
      rintro hnil
      rw [hnil] at hc
      cases hc
    have hlast := List.rdropWhile_last_not p (s.dropWhile p) hne
    rw [List.getLast?_eq_some_getLast hne, Option.mem_some_iff] at hc
    rw [← hc]
    exact Bool.eq_false_iff.mpr hlast

theorem trimMatches_of_trimmed (h : Trimmed p s) : trimMatches p s = s := by
  rw [trimMatches, dropWhile_of_first h.first, List.rdropWhile_eq_self_iff]
  intro hne
  simp [h.last _ (List.getLast?_eq_some_getLast hne)]

theorem trimMatches_split (p : α → Bool) (s : List α) :
    ∃ a z, s = a ++ (trimMatches p s ++ z) ∧ (∀ c ∈ a, p c = true) ∧ ∀ c ∈ z, p c = true :=
  ⟨s.takeWhile p, (s.dropWhile p).rtakeWhile p, by
    rw [trimMatches, List.rdropWhile_append_rtakeWhile, List.takeWhile_append_dropWhile],
    fun _ => List.mem_takeWhile_imp, fun _ => List.mem_rtakeWhile_imp⟩

theorem trimMatches_append {z : List α} (ha : ∀ c ∈ a, p c = true) (hz : ∀ c ∈ z, p c = true) :
    trimMatches p (a ++ (s ++ z)) = trimMatches p s := by
  have hrest : ∀ x : List α, (x ++ z).rdropWhile p = x.rdropWhile p := by
    intro x
    rw [List.rdropWhile, List.reverse_append,
      List.dropWhile_append_of_pos fun c hc => hz c (List.mem_reverse.mp hc)]
    rfl
  unfold trimMatches
  rw [List.dropWhile_append_of_pos ha, List.dropWhile_append]
  by_cases hnil : (s.dropWhile p).isEmpty
  · rw [if_pos hnil, List.isEmpty_iff.mp hnil, List.dropWhile_eq_nil_iff.mpr hz]
  · rw [if_neg hnil, hrest]

theorem mem_of_mem_trimMatches (h : c ∈ trimMatches p s) : c ∈ s :=
  (List.dropWhile_sublist p).mem ((List.rdropWhile_prefix p _).mem h)

/-! ## The last part -/

def afterLast (p : α → Bool) (s : List α) : Option (List α) :=
  if s.any p then some (s.rtakeWhile fun c => !p c) else none

theorem afterLast_eq_some :
    afterLast p s = some x ↔ ∃ stem d, s = stem ++ d :: x ∧ p d = true ∧ ∀ c ∈ x, p c = false := by
  constructor
  · intro h
    by_cases hany : s.any p = true
    · rw [afterLast, if_pos hany, Option.some_inj] at h
      obtain ⟨c, hc, hpc⟩ := List.any_eq_true.mp hany
      have hstem : s.rdropWhile (fun c => !p c) ≠ [] := fun hnil => by
        have hnone := List.rdropWhile_eq_nil_iff.mp hnil c hc
        simp [hpc] at hnone
      have hlast := List.rdropWhile_last_not _ s hstem
      subst h
      refine ⟨(s.rdropWhile fun c => !p c).dropLast, _, ?_, by simpa using hlast, fun d hd => ?_⟩
      · rw [List.append_cons, List.dropLast_append_getLast, List.rdropWhile_append_rtakeWhile]
      · simpa using List.mem_rtakeWhile_imp hd
    · rw [afterLast, if_neg hany] at h
      cases h
  · rintro ⟨stem, d, rfl, hd, hx⟩
    have hany : (stem ++ d :: x).any p = true := by simp [hd]
    have hrest : ∀ c ∈ x.reverse, (!p c) = true := fun c hc => by
      simp [hx c (List.mem_reverse.mp hc)]
    rw [afterLast, if_pos hany, List.rtakeWhile, List.reverse_append, List.reverse_cons,
      List.append_assoc, List.takeWhile_append_of_pos hrest]
    simp [hd]

end Text
