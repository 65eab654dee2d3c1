import Farder.Support.Text
import Mathlib.Algebra.GroupWithZero.Nat
import Mathlib.Data.Nat.Basic
import Mathlib.Tactic.Common

/-! # The name of a received file

The name comes from inside a sealed message, so that nobody but the receiver can look at it. A text
is the list of its characters. -/
namespace FilePolicy

open Text

/-! ## Kinds of characters -/

def isControl (c : Char) : Bool := c.toNat < 0x20 ∨ (0x7F ≤ c.toNat ∧ c.toNat ≤ 0x9F)

def isWhitespace (c : Char) : Bool :=
  (0x09 ≤ c.toNat ∧ c.toNat ≤ 0x0D) ∨ (0x2000 ≤ c.toNat ∧ c.toNat ≤ 0x200A) ∨
    c.toNat ∈ [0x20, 0x85, 0xA0, 0x1680, 0x2028, 0x2029, 0x202F, 0x205F, 0x3000]

def isBidiControl (c : Char) : Bool :=
  (0x202A ≤ c.toNat ∧ c.toNat ≤ 0x202E) ∨ (0x2066 ≤ c.toNat ∧ c.toNat ≤ 0x2069) ∨
    c.toNat ∈ [0x200E, 0x200F, 0x061C]

def isDot (c : Char) : Bool := c = '.'

/-- The length in bytes. -/
def len (s : List Char) : ℕ := (s.map Char.utf8Size).sum

inductive FileRefused where
  | pathInName
  | emptyName
  | nameTooLong
  | extensionNotAllowed (ext : List Char)
  deriving DecidableEq, Repr

def maxFilenameLen : ℕ := 120

def allowedExtensions : List (List Char) :=
  ["png", "jpg", "jpeg", "gif", "webp", "wav", "mp3", "ogg", "m4a", "flac", "webm", "mp4", "mov",
    "pdf", "txt", "md", "csv", "json", "log", "zip"].map String.toList

/-- Take out what makes a name look like another. -/
def clean (raw : List Char) : List Char := raw.filter fun c => !isControl c && !isBidiControl c

/-- White space, then dots, then white space again: once each. -/
def trim (s : List Char) : List Char :=
  trimMatches isWhitespace (trimMatches isDot (trimMatches isWhitespace s))

/-- What comes after the last dot, in ASCII lower case. -/
def extension (s : List Char) : List Char :=
  ((afterLast isDot s).map fun ext => ext.map Char.toLower).getD []

def refuseIf (p : Prop) [Decidable p] (refused : FileRefused) : Except FileRefused Unit :=
  if p then .error refused else .ok ()

def safeFilename (raw : List Char) : Except FileRefused (List Char) := do
  refuseIf ('/' ∈ clean raw ∨ '\\' ∈ clean raw) .pathInName
  refuseIf (':' ∈ clean raw ∨ clean raw = ['.', '.'] ∨ ['.', '.', '/'] <+: clean raw) .pathInName
  let trimmed := trim (clean raw)
  refuseIf (trimmed = []) .emptyName
  refuseIf (maxFilenameLen < len trimmed) .nameTooLong
  refuseIf (extension trimmed = []) (.extensionNotAllowed [])
  refuseIf (extension trimmed ∉ allowedExtensions) (.extensionNotAllowed (extension trimmed))
  return trimmed

/-! ## What it lets through -/

variable {raw s : List Char} {c : Char} {p : Prop} [Decidable p] {refused : FileRefused}

@[simp] theorem refuseIf_bind_eq_ok {α : Type} {f : Unit → Except FileRefused α} {a : α} :
    (refuseIf p refused >>= f) = .ok a ↔ ¬p ∧ f () = .ok a := by
  by_cases hp : p
  · simp [refuseIf, hp, bind, Except.bind]
  · simp [refuseIf, hp, bind, Except.bind]

theorem mem_clean : c ∈ clean raw ↔ c ∈ raw ∧ isControl c = false ∧ isBidiControl c = false := by
  simp [clean]

theorem extension_ne_nil_of_mem (h : extension s ∈ allowedExtensions) : extension s ≠ [] := by
  intro hnil
  rw [hnil] at h
  exact absurd h (by decide)

theorem safeFilename_eq_ok : safeFilename raw = .ok s ↔
    ('/' ∉ clean raw ∧ '\\' ∉ clean raw ∧ ':' ∉ clean raw ∧ clean raw ≠ ['.', '.']) ∧
      s = trim (clean raw) ∧ s ≠ [] ∧ len s ≤ maxFilenameLen ∧ extension s ∈ allowedExtensions := by
  simp only [safeFilename, refuseIf_bind_eq_ok, pure, Except.pure, Except.ok.injEq, not_or, not_not,
    not_lt]
  constructor
  · rintro ⟨⟨hslash, hback⟩, ⟨hcolon, hdots, -⟩, hne, hlen, -, hext, rfl⟩
    exact ⟨⟨hslash, hback, hcolon, hdots⟩, rfl, hne, hlen, hext⟩
  · rintro ⟨⟨hslash, hback, hcolon, hdots⟩, rfl, hne, hlen, hext⟩
    have htraversal : ¬['.', '.', '/'] <+: clean raw := fun hstart =>
      hslash (List.IsPrefix.subset hstart (by simp))
    exact ⟨⟨hslash, hback⟩, ⟨hcolon, hdots, htraversal⟩, hne, hlen, extension_ne_nil_of_mem hext,
      hext, rfl⟩

end FilePolicy
