import Mathlib.Algebra.Group.Nat.Defs
import Mathlib.Tactic.Common

/-! # Address blocks

Blocks of addresses of a fixed width: the addresses that agree with a network in its first
bits. -/
namespace AddressBlocks

structure Block (w : ℕ) where
  network : ℕ
  length : ℕ
  deriving DecidableEq, Repr

/-- The number that parts of equal width make up, from the most significant one on; what is
missing at the end is zero. -/
def ofParts (bits : ℕ) (w : ℕ) (parts : List ℕ) : ℕ :=
  match parts with
  | [] => 0
  | part :: parts => part * 2 ^ (w - bits) + ofParts bits (w - bits) parts

def block4 (octets : List ℕ) (length : ℕ) : Block 32 := ⟨ofParts 8 32 octets, length⟩

def block6 (segments : List ℕ) (length : ℕ) : Block 128 := ⟨ofParts 16 128 segments, length⟩

variable {w : ℕ}

def Block.Contains (b : Block w) (a : BitVec w) : Prop :=
  a.toNat / 2 ^ (w - b.length) = b.network / 2 ^ (w - b.length)

instance (b : Block w) (a : BitVec w) : Decidable (b.Contains a) :=
  inferInstanceAs (Decidable (_ = _))

/-- One of the blocks contains the address. -/
def Listed (blocks : List (Block w)) (a : BitVec w) : Prop := ∃ b ∈ blocks, b.Contains a

instance (blocks : List (Block w)) (a : BitVec w) : Decidable (Listed blocks a) :=
  inferInstanceAs (Decidable (∃ b ∈ blocks, b.Contains a))

/-- One of the parts of equal width that an address is made of. -/
def part (bits : ℕ) (a : BitVec w) (i : ℕ) : ℕ := a.toNat / 2 ^ (w - bits * (i + 1)) % 2 ^ bits

variable {blocks : List (Block w)} {b : Block w} {a : BitVec w}

@[simp] theorem listed_nil : ¬Listed [] a := by simp [Listed]

@[simp] theorem listed_cons : Listed (b :: blocks) a ↔ b.Contains a ∨ Listed blocks a := by
  simp [Listed]

theorem part_lt (bits : ℕ) (i : ℕ) : part bits a i < 2 ^ bits := Nat.mod_lt _ (Nat.two_pow_pos bits)

theorem mask_eq_iff (k n : ℕ) {x value : ℕ} (hx : x < 2 ^ (k + n)) (hvalue : value % 2 ^ k = 0) :
    x &&& (2 ^ n - 1) * 2 ^ k = value ↔ x / 2 ^ k = value / 2 ^ k := by
  have hpos := Nat.two_pow_pos k
  have hdiv : (x &&& (2 ^ n - 1) * 2 ^ k) / 2 ^ k = x / 2 ^ k := by
    rw [Nat.and_div_two_pow, Nat.mul_div_cancel _ hpos, Nat.and_two_pow_sub_one_eq_mod]
    refine Nat.mod_eq_of_lt (Nat.div_lt_of_lt_mul ?_)
    rwa [← Nat.pow_add]
  have hmod : (x &&& (2 ^ n - 1) * 2 ^ k) % 2 ^ k = 0 := by
    rw [Nat.and_mod_two_pow, Nat.mul_mod_left, Nat.and_zero]
  constructor
  · rintro rfl
    exact hdiv.symm
  · intro h
    calc x &&& (2 ^ n - 1) * 2 ^ k
        = 2 ^ k * (value / 2 ^ k) + value % 2 ^ k := by
          rw [← Nat.div_add_mod (x &&& (2 ^ n - 1) * 2 ^ k) (2 ^ k), hdiv, hmod, h, hvalue]
      _ = value := Nat.div_add_mod value (2 ^ k)

end AddressBlocks
