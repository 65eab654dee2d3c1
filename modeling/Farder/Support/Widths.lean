import Mathlib.Algebra.BigOperators.Group.List.Defs
import Mathlib.Algebra.Order.Ring.Nat
import Mathlib.Data.List.Basic
import Mathlib.Tactic.Common

/-! # Lists of items of different widths

A list whose items have widths, such as the characters of an encoded text, can be cut at an
offset only if the offset is the end of an item. -/
namespace Widths

variable {α : Type} {w : α → ℕ} {s a b : List α} {c : α} {n : ℕ}

def width (w : α → ℕ) (s : List α) : ℕ := (s.map w).sum

/-- The parts before and after an offset, unless it is inside of an item. -/
def cut (w : α → ℕ) : List α → ℕ → Option (List α × List α)
  | s, 0 => some ([], s)
  | [], _ + 1 => none
  | c :: s, n + 1 =>
    if w c ≤ n + 1 then (cut w s (n + 1 - w c)).map fun x => (c :: x.1, x.2) else none

@[simp] theorem width_nil : width w [] = 0 := rfl

@[simp] theorem width_cons : width w (c :: s) = w c + width w s := by
  simp [width]

@[simp] theorem width_append : width w (a ++ b) = width w a + width w b := by
  simp [width]

theorem length_le_width (hpos : ∀ c, 0 < w c) : s.length ≤ width w s := by
  induction s with
  | nil => exact le_rfl
  | cons c s ih =>
    have hc := hpos c
    rw [List.length_cons, width_cons]
    omega

theorem width_eq_length (h : ∀ c ∈ s, w c = 1) : width w s = s.length := by
  rw [width, List.sum_eq_card_nsmul (s.map w) 1]
  · simp
  · intro n hn
    obtain ⟨c, hc, rfl⟩ := List.mem_map.mp hn
    exact h c hc

theorem width_eq_zero (hpos : ∀ c, 0 < w c) : width w s = 0 ↔ s = [] := by
  constructor
  · intro h
    have hlength := length_le_width (s := s) hpos
    exact List.length_eq_zero_iff.mp (by omega)
  · rintro rfl
    rfl

theorem le_width_of_getLast? (h : c ∈ s.getLast?) : w c ≤ width w s := by
  obtain ⟨stem, rfl⟩ := List.getLast?_eq_some_iff.mp h
  simp

theorem cut_eq_some (hpos : ∀ c, 0 < w c) :
    cut w s n = some (a, b) ↔ s = a ++ b ∧ width w a = n := by
  fun_induction cut w s n generalizing a with
  | case1 s =>
    rw [width_eq_zero hpos, Option.some_inj, Prod.mk.injEq]
    constructor
    · rintro ⟨rfl, rfl⟩
      exact ⟨rfl, rfl⟩
    · rintro ⟨rfl, rfl⟩
      exact ⟨rfl, rfl⟩
  | case2 n =>
    refine iff_of_false nofun ?_
    rintro ⟨hnil, hwidth⟩
    rw [(List.append_eq_nil_iff.mp hnil.symm).1] at hwidth
    cases hwidth
  | case3 c s n hle ih =>
    cases a with
    | nil => simp
    | cons d a =>
      simp only [Option.map_eq_some_iff, Prod.mk.injEq, Prod.exists, List.cons_append,
        List.cons.injEq, width_cons]
      constructor
      · rintro ⟨x, y, hcut, ⟨rfl, rfl⟩, rfl⟩
        obtain ⟨rfl, hwidth⟩ := ih.mp hcut
        exact ⟨⟨rfl, rfl⟩, by omega⟩
      · rintro ⟨⟨rfl, rfl⟩, hwidth⟩
        exact ⟨a, b, ih.mpr ⟨rfl, by omega⟩, ⟨rfl, rfl⟩, rfl⟩
  | case4 c s n hlt =>
    refine iff_of_false nofun ?_
    rintro ⟨heq, hwidth⟩
    cases a with
    | nil => cases hwidth
    | cons d a =>
      obtain ⟨rfl, -⟩ := List.cons.inj heq
      rw [width_cons] at hwidth
      omega

/-- One unit before the end there is a cut exactly if the last item is that wide. -/
theorem cut_last (hpos : ∀ c, 0 < w c) :
    cut w (a ++ [c]) (width w (a ++ [c]) - 1) = if w c = 1 then some (a, [c]) else none := by
  by_cases hone : w c = 1
  · rw [if_pos hone]
    refine (cut_eq_some hpos).mpr ⟨rfl, ?_⟩
    simp [hone]
  · rw [if_neg hone]
    cases hcut : cut w (a ++ [c]) (width w (a ++ [c]) - 1) with
    | none => rfl
    | some x =>
      obtain ⟨heq, hwidth⟩ := (cut_eq_some hpos).mp hcut
      have hrest : x.2 ≠ [] := by
        intro hnil
        rw [hnil, List.append_nil] at heq
        rw [← heq] at hwidth
        have hwide := hpos c
        simp only [width_append, width_cons, width_nil] at hwidth
        omega
      have hlast : c ∈ x.2.getLast? := by
        have hend := congrArg List.getLast? heq
        rw [List.getLast?_append_of_ne_nil _ hrest, List.getLast?_concat] at hend
        exact hend.symm
      have hle := le_width_of_getLast? (w := w) hlast
      have hsum := congrArg (width w) heq
      have hwide := hpos c
      rw [width_append (a := x.1)] at hsum
      omega

end Widths
