import Mathlib.Data.List.Induction
import Mathlib.Order.Bounds.Defs
import Mathlib.Order.Nat
import Mathlib.Tactic.Common
import Mathlib.Tactic.Ring

/-! # Numbers and chunks of bytes

A number of a fixed width goes into bytes with the most significant one first. A long list goes
into chunks of one size, of which the last may be shorter. -/
namespace Bytes

def toBigEndian : ℕ → ℕ → List UInt8
  | 0, _ => []
  | width + 1, n => toBigEndian width (n / 256) ++ [.ofNat n]

def ofBigEndian (bytes : List UInt8) : ℕ := bytes.foldl (fun n b => 256 * n + b.toNat) 0

variable {width n : ℕ} {bytes : List UInt8} {b : UInt8}

@[simp] theorem length_toBigEndian (width n : ℕ) : (toBigEndian width n).length = width := by
  induction width generalizing n with
  | zero => rfl
  | succ width ih => simp [toBigEndian, ih]

@[simp] theorem ofBigEndian_nil : ofBigEndian [] = 0 := rfl

@[simp] theorem ofBigEndian_snoc : ofBigEndian (bytes ++ [b]) = 256 * ofBigEndian bytes + b.toNat := by
  simp [ofBigEndian]

theorem ofBigEndian_toBigEndian (h : n < 256 ^ width) :
    ofBigEndian (toBigEndian width n) = n := by
  induction width generalizing n with
  | zero =>
    rw [Nat.pow_zero] at h
    exact (Nat.lt_one_iff.mp h).symm
  | succ width ih =>
    have hdiv : n / 256 < 256 ^ width := by
      rw [Nat.div_lt_iff_lt_mul (by decide)]
      rwa [Nat.pow_succ] at h
    rw [toBigEndian, ofBigEndian_snoc, ih hdiv, UInt8.toNat_ofNat']
    exact Nat.div_add_mod n 256

theorem toBigEndian_ofBigEndian (bytes : List UInt8) :
    toBigEndian bytes.length (ofBigEndian bytes) = bytes := by
  induction bytes using List.reverseRecOn with
  | nil => rfl
  | append_singleton bytes b ih =>
    have hb := b.toNat_lt
    have hdiv : (256 * ofBigEndian bytes + b.toNat) / 256 = ofBigEndian bytes := by omega
    have hlast : UInt8.ofNat (256 * ofBigEndian bytes + b.toNat) = b := by
      refine UInt8.toNat_inj.mp ?_
      rw [UInt8.toNat_ofNat']
      omega
    rw [List.length_append, List.length_singleton, toBigEndian, ofBigEndian_snoc, hdiv, ih, hlast]

theorem ofBigEndian_lt (bytes : List UInt8) : ofBigEndian bytes < 256 ^ bytes.length := by
  induction bytes using List.reverseRecOn with
  | nil => decide
  | append_singleton bytes b ih =>
    have hb := b.toNat_lt
    rw [ofBigEndian_snoc, List.length_append, List.length_singleton, Nat.pow_succ]
    omega

theorem ofBigEndian_take_lt (bytes : List UInt8) (width : ℕ) :
    ofBigEndian (bytes.take width) < 256 ^ width :=
  (ofBigEndian_lt _).trans_le (Nat.pow_le_pow_right (by decide) (List.length_take_le _ _))

theorem toBigEndian_of_length (h : bytes.length = width) :
    toBigEndian width (ofBigEndian bytes) = bytes :=
  h ▸ toBigEndian_ofBigEndian bytes

variable {α : Type*} {size : ℕ} {l : List α}

def chunk (size : ℕ) (l : List α) (i : ℕ) : List α := (l.drop (i * size)).take size

/-- `chunks`: nothing for an empty list. -/
def chunks (size : ℕ) (l : List α) : List (List α) :=
  (List.range ((l.length + size - 1) / size)).map (chunk size l)

theorem flatMap_chunk (size : ℕ) (l : List α) (k : ℕ) :
    (List.range k).flatMap (chunk size l) = l.take (k * size) := by
  induction k with
  | zero => simp
  | succ k ih =>
    rw [List.range_succ, List.flatMap_append, ih, List.flatMap_singleton, chunk, Nat.succ_mul,
      List.take_add]

theorem flatMap_chunk_eq {k : ℕ} (h : l.length ≤ k * size) :
    (List.range k).flatMap (chunk size l) = l := by
  rw [flatMap_chunk, List.take_of_length_le h]

theorem length_le_chunks (hsize : 0 < size) (n : ℕ) : n ≤ (n + size - 1) / size * size := by
  have hdiv := Nat.div_add_mod (n + size - 1) size
  have hmod := Nat.mod_lt (n + size - 1) hsize
  rw [Nat.mul_comm] at hdiv
  omega

/-! ## Ladders

A size is rounded up to the first step of an ascending ladder that it fits. -/

variable {ladder : List ℕ} {step : ℕ}

theorem find?_ladder (hasc : ladder.Pairwise (· < ·)) (h : ladder.find? (n ≤ ·) = some step) :
    IsLeast {c | c ∈ ladder ∧ n ≤ c} step := by
  obtain ⟨hle, before, after, rfl, hbefore⟩ := List.find?_eq_some_iff_append.mp h
  refine ⟨⟨by simp, of_decide_eq_true hle⟩, ?_⟩
  rintro c ⟨hmem, hc⟩
  rcases List.mem_append.mp hmem with hmem | hmem
  · have hsmall := hbefore c hmem
    simp only [Bool.not_eq_true', decide_eq_false_iff_not] at hsmall
    exact absurd hc hsmall
  · rcases List.mem_cons.mp hmem with rfl | hmem
    · exact le_rfl
    · exact ((List.pairwise_cons.mp (List.pairwise_append.mp hasc).2.1).1 c hmem).le

theorem exists_find?_ladder : (∃ step, ladder.find? (n ≤ ·) = some step) ↔ ∃ c ∈ ladder, n ≤ c := by
  rw [← Option.isSome_iff_exists, List.find?_isSome]
  simp

end Bytes
