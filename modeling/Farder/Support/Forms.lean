import Farder.Support.Bytes
import Mathlib.Algebra.Order.BigOperators.Group.List
import Mathlib.Algebra.Order.Group.Nat

/-! # Forms and formats

A form is how data of a type goes into a value and comes out of it again; forms of the parts make a
form of the whole. A format is how values go into bytes; what is proved here holds in every one. -/
namespace Forms

open Bytes

inductive Value where
  | nil
  | bool (b : Bool)
  | uint (n : ℕ)
  | str (s : String)
  | array (items : List Value)
  | variant (name : String) (body : Value)

mutual

/-- Every number, string and array is within what a format can write. -/
def Value.fits : Value → Bool
  | .uint n => n < 2 ^ 64
  | .str s => s.utf8ByteSize < 2 ^ 32
  | .array items => items.length < 2 ^ 32 && allFit items
  | .variant name body => name.utf8ByteSize < 2 ^ 32 && body.fits
  | _ => true

def allFit : List Value → Bool
  | [] => true
  | v :: vs => v.fits && allFit vs

end

mutual

def Value.depth : Value → ℕ
  | .array items => deepest items + 1
  | .variant _ body => body.depth + 1
  | _ => 0

def deepest : List Value → ℕ
  | [] => 0
  | v :: vs => max v.depth (deepest vs)

end

theorem allFit_iff {vs : List Value} : allFit vs = true ↔ ∀ v ∈ vs, v.fits = true := by
  induction vs with
  | nil => simp [allFit]
  | cons v vs ih => simp [allFit, ih]

theorem deepest_le {vs : List Value} {d : ℕ} (h : ∀ v ∈ vs, v.depth ≤ d) : deepest vs ≤ d := by
  induction vs with
  | nil => exact Nat.zero_le d
  | cons v vs ih =>
    obtain ⟨hv, hvs⟩ := List.forall_mem_cons.mp h
    exact max_le hv (ih hvs)

theorem depth_array {items : List Value} {d : ℕ} (h : ∀ v ∈ items, v.depth ≤ d) :
    (Value.array items).depth ≤ d + 1 := by
  rw [Value.depth]
  exact Nat.succ_le_succ (deepest_le h)

theorem depth_variant {name : String} {items : List Value} {d : ℕ}
    (h : ∀ v ∈ items, v.depth ≤ d) : (Value.variant name (.array items)).depth ≤ d + 2 := by
  rw [Value.depth]
  exact Nat.succ_le_succ (depth_array h)

theorem fits_array {items : List Value} (hlength : items.length < 2 ^ 32)
    (h : ∀ v ∈ items, v.fits = true) : (Value.array items).fits = true := by
  rw [Value.fits, Bool.and_eq_true, allFit_iff]
  exact ⟨decide_eq_true hlength, h⟩

theorem fits_variant {name : String} {body : Value} (hname : name.utf8ByteSize < 2 ^ 32)
    (h : body.fits = true) : (Value.variant name body).fits = true := by
  rw [Value.fits, Bool.and_eq_true]
  exact ⟨decide_eq_true hname, h⟩

/-- Values nested deeper than this need not be read. -/
def maxDepth : ℕ := 64

/-- How values go into bytes. Bytes are read as the value that they begin with, and all of a value
that is nested little enough is read. An array takes more bytes than its items, each of which takes
some, and it begins with a byte of the upper half. -/
structure Format where
  encode : Value → List UInt8
  decode : List UInt8 → Option Value
  decode_encode : ∀ v rest, v.fits = true → v.depth ≤ maxDepth →
    decode (encode v ++ rest) = some v
  fits_of_decode : ∀ bytes v, decode bytes = some v → v.fits = true
  nonempty : ∀ v, v.fits = true → encode v ≠ []
  longer : ∀ items, (Value.array items).fits = true →
    (items.map fun v => (encode v).length).sum < (encode (.array items)).length
  marked : ∀ items, (Value.array items).fits = true →
    ∃ b rest, encode (.array items) = b :: rest ∧ 128 ≤ b.toNat

namespace Format

variable (F : Format) {v w : Value} {items : List Value}

theorem encode_injective (hv : v.fits = true) (hdepth : v.depth ≤ maxDepth) (hw : w.fits = true)
    (hdepth' : w.depth ≤ maxDepth) (h : F.encode v = F.encode w) : v = w := by
  have hread := F.decode_encode v [] hv hdepth
  rw [h, F.decode_encode w [] hw hdepth'] at hread
  exact (Option.some.inj hread).symm

theorem length_lt_of_mem (h : (Value.array items).fits = true) (hv : v ∈ items) :
    (F.encode v).length < (F.encode (.array items)).length :=
  (List.le_sum_of_mem (List.mem_map_of_mem hv)).trans_lt (F.longer items h)

theorem length_lt_encode (h : (Value.array items).fits = true) :
    items.length < (F.encode (.array items)).length := by
  have hsum : items.length ≤ (items.map fun v => (F.encode v).length).sum := by
    have hlength : (items.map fun v => (F.encode v).length).length = items.length :=
      List.length_map _
    rw [← hlength]
    refine List.length_le_sum_of_one_le _ fun n hn => ?_
    obtain ⟨v, hv, rfl⟩ := List.mem_map.mp hn
    have hfits := h
    rw [Value.fits, Bool.and_eq_true, allFit_iff] at hfits
    exact List.length_pos_iff.mpr (F.nonempty v (hfits.2 v hv))
  exact hsum.trans_lt (F.longer items h)

end Format

/-- How data of a type goes into a value and comes out of it. What fits comes back, and what has
come out fits. -/
structure Form (α : Type*) where
  put : α → Value
  get : Value → Option α
  fits : α → Bool
  depth : ℕ
  fits_put : ∀ a, fits a = true → (put a).fits = true
  get_put : ∀ a, fits a = true → get (put a) = some a
  fits_get : ∀ v a, v.fits = true → get v = some a → fits a = true
  depth_put : ∀ a, (put a).depth ≤ depth

namespace Form

variable {α β : Type*} (f : Form α) {a a' : α}

def toBytes (F : Format) (a : α) : List UInt8 := F.encode (f.put a)

/-- The first value, whatever follows it. -/
def fromBytes (F : Format) (bytes : List UInt8) : Option α := (F.decode bytes).bind f.get

theorem fromBytes_toBytes {F : Format} (hdepth : f.depth ≤ maxDepth) (h : f.fits a = true)
    (rest : List UInt8) : f.fromBytes F (f.toBytes F a ++ rest) = some a := by
  rw [fromBytes, toBytes, F.decode_encode _ rest (f.fits_put a h) ((f.depth_put a).trans hdepth),
    Option.bind_some, f.get_put a h]

/-- Whoever wrote the bytes: what has been read can be written and read again. -/
theorem fits_of_fromBytes {F : Format} {bytes : List UInt8} (h : f.fromBytes F bytes = some a) :
    f.fits a = true := by
  obtain ⟨v, hdecode, hget⟩ := Option.bind_eq_some_iff.mp h
  exact f.fits_get v a (F.fits_of_decode bytes v hdecode) hget

theorem toBytes_injective {F : Format} (hdepth : f.depth ≤ maxDepth) (h : f.fits a = true)
    (h' : f.fits a' = true) (heq : f.toBytes F a = f.toBytes F a') : a = a' := by
  have hread := f.fromBytes_toBytes (F := F) hdepth h []
  rw [heq, f.fromBytes_toBytes hdepth h'] at hread
  exact (Option.some.inj hread).symm

/-- A number of so many bits. -/
def uint (bits : ℕ) (h : bits ≤ 64) : Form ℕ where
  put := .uint
  get
    | .uint n => if n < 2 ^ bits then some n else none
    | _ => none
  fits n := n < 2 ^ bits
  depth := 0
  fits_put n hn := by
    have hlt : n < 2 ^ 64 := (of_decide_eq_true hn).trans_le (Nat.pow_le_pow_right two_pos h)
    rw [Value.fits]
    exact decide_eq_true hlt
  get_put n hn := if_pos (of_decide_eq_true hn)
  fits_get v n _ hn := by
    cases v with
    | uint m =>
      dsimp only at hn
      split_ifs at hn with hlt
      obtain rfl := Option.some.inj hn
      exact decide_eq_true hlt
    | _ => cases hn
  depth_put _ := Nat.zero_le 0

def flag : Form Bool where
  put := .bool
  get
    | .bool b => some b
    | _ => none
  fits _ := true
  depth := 0
  fits_put _ _ := rfl
  get_put _ _ := rfl
  fits_get _ _ _ _ := rfl
  depth_put _ := Nat.zero_le 0

def text : Form String where
  put := .str
  get
    | .str s => some s
    | _ => none
  fits s := s.utf8ByteSize < 2 ^ 32
  depth := 0
  fits_put _ h := h
  get_put _ _ := rfl
  fits_get v s hfits hs := by
    cases v with
    | str s' =>
      obtain rfl := Option.some.inj hs
      exact hfits
    | _ => cases hs
  depth_put _ := Nat.zero_le 0

/-- Nothing, or a value of a form that never writes nothing. -/
def option (hnil : ∀ a, f.put a ≠ .nil) : Form (Option α) where
  put
    | none => .nil
    | some a => f.put a
  get
    | .nil => some none
    | v => (f.get v).map some
  fits a := a.all f.fits
  depth := f.depth
  fits_put
    | none, _ => rfl
    | some a, h => f.fits_put a h
  get_put
    | none, _ => rfl
    | some a, h => by
      have hget := f.get_put a h
      have hne := hnil a
      simp only
      generalize f.put a = v at hget hne
      cases v <;> simp_all
  fits_get v a hfits ha := by
    cases a with
    | none => rfl
    | some a =>
      have hget : f.get v = some a := by
        cases v <;> simp_all
      exact f.fits_get v a hfits hget
  depth_put
    | none => Nat.zero_le _
    | some a => f.depth_put a

theorem of_mapM {g : α → Option β} {l : List α} {l' : List β} (h : l.mapM g = some l') :
    l'.length = l.length ∧ ∀ b ∈ l', ∃ a ∈ l, g a = some b := by
  induction l generalizing l' with
  | nil =>
    obtain rfl := Option.some.inj h
    exact ⟨rfl, fun _ hb => absurd hb List.not_mem_nil⟩
  | cons a l ih =>
    simp only [List.mapM_cons, Option.bind_eq_bind, Option.bind_eq_some_iff] at h
    obtain ⟨b, hb, l', hl, heq⟩ := h
    obtain rfl := Option.some.inj heq
    obtain ⟨hlength, hmem⟩ := ih hl
    refine ⟨congrArg Nat.succ hlength, List.forall_mem_cons.mpr ⟨⟨a, List.mem_cons_self, hb⟩, ?_⟩⟩
    intro b' hb'
    obtain ⟨a', ha', hget⟩ := hmem b' hb'
    exact ⟨a', List.mem_cons_of_mem _ ha', hget⟩

def list : Form (List α) where
  put l := .array (l.map f.put)
  get
    | .array vs => vs.mapM f.get
    | _ => none
  fits l := l.length < 2 ^ 32 && l.all f.fits
  depth := f.depth + 1
  fits_put l h := by
    rw [Bool.and_eq_true, List.all_eq_true] at h
    rw [Value.fits, List.length_map, h.1, Bool.true_and, allFit_iff]
    intro v hv
    obtain ⟨a, ha, rfl⟩ := List.mem_map.mp hv
    exact f.fits_put a (h.2 a ha)
  get_put l h := by
    rw [Bool.and_eq_true, List.all_eq_true] at h
    obtain ⟨-, h⟩ := h
    induction l with
    | nil => rfl
    | cons a l ih => simp_all [f.get_put]
  fits_get v l hfits hl := by
    cases v with
    | array items =>
      rw [Value.fits, Bool.and_eq_true, allFit_iff] at hfits
      obtain ⟨hlength, hread⟩ := of_mapM hl
      rw [Bool.and_eq_true, List.all_eq_true, hlength]
      refine ⟨hfits.1, fun a ha => ?_⟩
      obtain ⟨v, hv, hget⟩ := hread a ha
      exact f.fits_get v a (hfits.2 v hv) hget
    | _ => cases hl
  depth_put l := by
    refine depth_array fun v hv => ?_
    obtain ⟨a, -, rfl⟩ := List.mem_map.mp hv
    exact f.depth_put a

/-- The same values, read and written as data of another type. -/
def as (out : β → α) (get : α → Option β) (h : ∀ b, get (out b) = some b)
    (hfits : ∀ a b, f.fits a = true → get a = some b → f.fits (out b) = true) : Form β where
  put b := f.put (out b)
  get v := (f.get v).bind get
  fits b := f.fits (out b)
  depth := f.depth
  fits_put b hb := f.fits_put (out b) hb
  get_put b hb := by rw [f.get_put (out b) hb, Option.bind_some, h]
  fits_get v b hv hb := by
    obtain ⟨a, ha, hb⟩ := Option.bind_eq_some_iff.mp hb
    exact hfits a b (f.fits_get v a hv ha) hb
  depth_put b := f.depth_put (out b)

/-- The bytes as numbers. -/
def octets : Form (List ℕ) := (uint 8 (by decide)).list

theorem octets_fits {bytes : List UInt8} :
    octets.fits (bytes.map UInt8.toNat) = decide (bytes.length < 2 ^ 32) := by
  have hall : (bytes.map UInt8.toNat).all (uint 8 (by decide)).fits = true := by
    rw [List.all_map, List.all_eq_true]
    exact fun b _ => decide_eq_true b.toNat_lt
  simp only [octets, list, List.length_map, hall, Bool.and_true]

theorem holds_of_octets {l : List ℕ} (h : octets.fits l = true) :
    decide (l.length < 2 ^ 32) = true :=
  (Bool.and_eq_true_iff.mp h).1

def bytes : Form (List UInt8) :=
  octets.as (List.map UInt8.toNat) (fun l => some (l.map .ofNat))
    (fun bytes => by simp [Function.comp_def])
    (fun l bytes h heq => by
      obtain rfl := Option.some.inj heq
      rw [octets_fits, List.length_map]
      exact holds_of_octets h)

/-- An array of so many bytes, most significant first. -/
def fixed (n : ℕ) : Form (BitVec (8 * n)) :=
  octets.as (fun x => (toBigEndian n x.toNat).map UInt8.toNat)
    (fun l => if l.length = n then some (.ofNat _ (ofBigEndian (l.map .ofNat))) else none)
    (fun x => by
      have hlt : x.toNat < 256 ^ n := by
        have h := x.isLt
        rwa [Nat.pow_mul] at h
      rw [if_pos (by simp), List.map_map]
      simp [Function.comp_def, ofBigEndian_toBigEndian hlt])
    (fun l x h heq => by
      split_ifs at heq with hlength
      rw [octets_fits, length_toBigEndian, ← hlength]
      exact holds_of_octets h)

end Form

structure Fields (α : Type*) where
  arity : ℕ
  put : α → List Value
  get : List Value → Option α
  fits : α → Bool
  depth : ℕ
  length_put : ∀ a, (put a).length ≤ arity
  fits_put : ∀ a, fits a = true → ∀ v ∈ put a, v.fits = true
  get_put : ∀ a, fits a = true → get (put a) = some a
  fits_get : ∀ vs a, (∀ v ∈ vs, v.fits = true) → get vs = some a → fits a = true
  depth_put : ∀ a, ∀ v ∈ put a, v.depth ≤ depth

namespace Fields

variable {α β : Type*}

/-- The last field. -/
def one (f : Form α) : Fields α where
  arity := 1
  put a := [f.put a]
  get
    | [v] => f.get v
    | _ => none
  fits := f.fits
  depth := f.depth
  length_put _ := le_rfl
  fits_put a h _ hv := List.mem_singleton.mp hv ▸ f.fits_put a h
  get_put := f.get_put
  fits_get
    | [v], a, hvs, h => f.fits_get v a (hvs v List.mem_cons_self) h
  depth_put a _ hv := List.mem_singleton.mp hv ▸ f.depth_put a

def cons (f : Form α) (rest : Fields β) : Fields (α × β) where
  arity := rest.arity + 1
  put x := f.put x.1 :: rest.put x.2
  get
    | [] => none
    | v :: vs => (f.get v).bind fun a => (rest.get vs).map fun b => (a, b)
  fits x := f.fits x.1 && rest.fits x.2
  depth := max f.depth rest.depth
  length_put x := Nat.succ_le_succ (rest.length_put x.2)
  fits_put x h v hv := by
    rw [Bool.and_eq_true] at h
    rcases List.mem_cons.mp hv with rfl | hv
    · exact f.fits_put x.1 h.1
    · exact rest.fits_put x.2 h.2 v hv
  get_put x h := by
    rw [Bool.and_eq_true] at h
    simp [f.get_put x.1 h.1, rest.get_put x.2 h.2]
  fits_get
    | v :: vs, x, hvs, h => by
      obtain ⟨a, ha, h⟩ := Option.bind_eq_some_iff.mp h
      obtain ⟨b, hb, rfl⟩ := Option.map_eq_some_iff.mp h
      rw [f.fits_get v a (hvs v List.mem_cons_self) ha,
        rest.fits_get vs b (fun v hv => hvs v (List.mem_cons_of_mem _ hv)) hb, Bool.and_self]
  depth_put x v hv := by
    rcases List.mem_cons.mp hv with rfl | hv
    · exact (f.depth_put x.1).trans (le_max_left _ _)
    · exact (rest.depth_put x.2 v hv).trans (le_max_right _ _)

/-- A last field with a default: it is written always, and may be missing in what is read. -/
def defaulted (f : Form α) (default : α) (h : f.fits default = true) : Fields α where
  arity := 1
  put a := [f.put a]
  get
    | [] => some default
    | [v] => f.get v
    | _ => none
  fits := f.fits
  depth := f.depth
  length_put _ := le_rfl
  fits_put a h _ hv := List.mem_singleton.mp hv ▸ f.fits_put a h
  get_put := f.get_put
  fits_get
    | [], _, _, heq => Option.some.inj heq ▸ h
    | [v], a, hvs, heq => f.fits_get v a (hvs v List.mem_cons_self) heq
  depth_put a _ hv := List.mem_singleton.mp hv ▸ f.depth_put a

/-- A last field that is left out if there is nothing in it. -/
def skipped (f : Form α) (hnil : ∀ a, f.put a ≠ .nil) : Fields (Option α) where
  arity := 1
  put
    | none => []
    | some a => [f.put a]
  get
    | [] => some none
    | [v] => (f.option hnil).get v
    | _ => none
  fits a := a.all f.fits
  depth := f.depth
  length_put
    | none => Nat.zero_le 1
    | some _ => le_rfl
  fits_put
    | some a, h, _, hv => List.mem_singleton.mp hv ▸ f.fits_put a h
  get_put
    | none, _ => rfl
    | some a, h => (f.option hnil).get_put (some a) h
  fits_get
    | [], _, _, heq => Option.some.inj heq ▸ rfl
    | [v], a, hvs, heq => (f.option hnil).fits_get v a (hvs v List.mem_cons_self) heq
  depth_put
    | none, _, hv => absurd hv List.not_mem_nil
    | some a, _, hv => List.mem_singleton.mp hv ▸ f.depth_put a

/-- The fields of a structure. -/
def as (fs : Fields α) (out : β → α) (make : α → β)
    (h : ∀ b, make (out b) = b := by exact fun _ => rfl)
    (hout : ∀ a, out (make a) = a := by exact fun _ => rfl) : Fields β where
  arity := fs.arity
  put b := fs.put (out b)
  get vs := (fs.get vs).map make
  fits b := fs.fits (out b)
  depth := fs.depth
  length_put b := fs.length_put (out b)
  fits_put b hb := fs.fits_put (out b) hb
  get_put b hb := by rw [fs.get_put (out b) hb, Option.map_some, h]
  fits_get vs b hvs hb := by
    obtain ⟨a, ha, rfl⟩ := Option.map_eq_some_iff.mp hb
    rw [hout]
    exact fs.fits_get vs a hvs ha
  depth_put b := fs.depth_put (out b)

variable (fs : Fields α)

/-- The fields as an array: one that is missing without a default is an error, and so is one
more. -/
def record (harity : fs.arity < 2 ^ 32) : Form α where
  put a := .array (fs.put a)
  get
    | .array vs => fs.get vs
    | _ => none
  fits := fs.fits
  depth := fs.depth + 1
  fits_put a h := fits_array ((fs.length_put a).trans_lt harity) (fs.fits_put a h)
  get_put := fs.get_put
  fits_get v a hfits ha := by
    cases v with
    | array items =>
      rw [Value.fits, Bool.and_eq_true, allFit_iff] at hfits
      exact fs.fits_get items a hfits.2 ha
    | _ => cases ha
  depth_put a := depth_array (fs.depth_put a)

end Fields

end Forms
