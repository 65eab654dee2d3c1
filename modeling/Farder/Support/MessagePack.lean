import Farder.Support.Forms

/-! # MessagePack

A value goes into bytes behind the shortest head that holds its number or its length, and is read
back with what follows it left over. -/
namespace MessagePack

open Bytes Forms

/-- Numbers below the limit are in one byte with the tag; wider ones come after the mark of their
width. -/
structure Heading where
  tag : ℕ
  limit : ℕ
  marks : List (UInt8 × ℕ)
  byte : tag + limit ≤ 256
  apart : ∀ m ∈ marks, m.1.toNat < tag ∨ tag + limit ≤ m.1.toNat
  distinct : (marks.map Prod.fst).Nodup

/-- The first width that holds the number. -/
def sized : List (UInt8 × ℕ) → ℕ → List UInt8
  | [], _ => []
  | (mark, width) :: marks, n =>
    if n < 256 ^ width then mark :: toBigEndian width n else sized marks n

def unsized (marks : List (UInt8 × ℕ)) (b : UInt8) (rest : List UInt8) :
    Option (ℕ × List UInt8) :=
  (marks.lookup b).bind fun width =>
    if rest.length < width then none else some (ofBigEndian (rest.take width), rest.drop width)

namespace Heading

variable (h : Heading)

def write (n : ℕ) : List UInt8 :=
  if n < h.limit then [.ofNat (h.tag + n)] else sized h.marks n

/-- The heads that the heading writes begin with one of these bytes. -/
def owns (b : UInt8) : Bool :=
  h.tag ≤ b.toNat && b.toNat < h.tag + h.limit || (h.marks.lookup b).isSome

def read : List UInt8 → Option (ℕ × List UInt8)
  | [] => none
  | b :: rest =>
    if h.tag ≤ b.toNat ∧ b.toNat < h.tag + h.limit then some (b.toNat - h.tag, rest)
    else unsized h.marks b rest

def holds (n : ℕ) : Bool := n < h.limit || h.marks.any fun m => n < 256 ^ m.2

variable {h} {n : ℕ} {b : UInt8} {rest : List UInt8} {marks : List (UInt8 × ℕ)}

theorem sized_cases (hholds : ∃ m ∈ marks, n < 256 ^ m.2) :
    ∃ m ∈ marks, n < 256 ^ m.2 ∧ sized marks n = m.1 :: toBigEndian m.2 n := by
  induction marks with
  | nil => simp at hholds
  | cons m marks ih =>
    by_cases hm : n < 256 ^ m.2
    · exact ⟨m, List.mem_cons_self, hm, by rw [sized, if_pos hm]⟩
    · obtain ⟨m', hmem, hlt⟩ := hholds
      have hne : m' ∈ marks := (List.mem_cons.mp hmem).resolve_left fun heq => hm (heq ▸ hlt)
      obtain ⟨m', hmem, hlt, hsized⟩ := ih ⟨m', hne, hlt⟩
      exact ⟨m', List.mem_cons_of_mem _ hmem, hlt, by rw [sized, if_neg hm, hsized]⟩

theorem lookup_of_mem {m : UInt8 × ℕ} (hdistinct : (marks.map Prod.fst).Nodup) (hm : m ∈ marks) :
    marks.lookup m.1 = some m.2 := by
  induction marks with
  | nil => simp at hm
  | cons m' marks ih =>
    obtain ⟨hfirst, hdistinct⟩ := List.nodup_cons.mp hdistinct
    rcases List.mem_cons.mp hm with rfl | hm
    · rw [List.lookup_cons_self]
    · have hne : (m.1 == m'.1) = false :=
        beq_false_of_ne fun heq => hfirst (heq ▸ List.mem_map_of_mem hm)
      rw [List.lookup_cons, hne, ih hdistinct hm]

theorem mem_of_lookup {width : ℕ} (h : marks.lookup b = some width) : (b, width) ∈ marks := by
  induction marks with
  | nil => cases h
  | cons m marks ih =>
    rw [List.lookup_cons] at h
    split at h
    · next hb =>
      obtain rfl := Option.some.inj h
      exact List.mem_cons.mpr (.inl (Prod.ext (eq_of_beq hb) rfl))
    · exact List.mem_cons_of_mem _ (ih h)

/-- A head begins with a byte of its heading, and what is read of it is what was written. -/
theorem write_cases (hholds : h.holds n = true) :
    ∃ b t, h.write n = b :: t ∧ h.owns b = true ∧
      ∀ rest, h.read (b :: t ++ rest) = some (n, rest) := by
  by_cases hshort : n < h.limit
  · have hbyte := h.byte
    have htoNat : (UInt8.ofNat (h.tag + n)).toNat = h.tag + n := by
      rw [UInt8.toNat_ofNat']
      exact Nat.mod_eq_of_lt (by omega)
    have hwrite : h.write n = [.ofNat (h.tag + n)] := if_pos hshort
    generalize UInt8.ofNat (h.tag + n) = b at htoNat hwrite
    refine ⟨b, [], hwrite, ?_, fun rest => ?_⟩
    · simp [owns, htoNat, hshort]
    · simp [read, htoNat, hshort]
  · simp only [holds, Bool.or_eq_true, decide_eq_true_eq, List.any_eq_true] at hholds
    obtain ⟨m, hm, hlt, hsized⟩ := sized_cases (hholds.resolve_left hshort)
    have hlookup := lookup_of_mem h.distinct hm
    have houtside : ¬(h.tag ≤ m.1.toNat ∧ m.1.toNat < h.tag + h.limit) := by
      have hapart := h.apart m hm
      omega
    refine ⟨m.1, toBigEndian m.2 n, (if_neg hshort).trans hsized, ?_, fun rest => ?_⟩
    · simp [owns, hlookup]
    · rw [List.cons_append, read, if_neg houtside, unsized, hlookup, Option.bind_some]
      simp [ofBigEndian_toBigEndian hlt]

end Heading

def uintHeading : Heading where
  tag := 0
  limit := 128
  marks := [(0xcc, 1), (0xcd, 2), (0xce, 4), (0xcf, 8)]
  byte := by decide
  apart := by decide
  distinct := by decide

def strHeading : Heading where
  tag := 0xa0
  limit := 32
  marks := [(0xd9, 1), (0xda, 2), (0xdb, 4)]
  byte := by decide
  apart := by decide
  distinct := by decide

def arrayHeading : Heading where
  tag := 0x90
  limit := 16
  marks := [(0xdc, 2), (0xdd, 4)]
  byte := by decide
  apart := by decide
  distinct := by decide

def utf8 (s : String) : List UInt8 := s.toByteArray.data.toList

def ofUtf8 (bytes : List UInt8) : Option String := String.fromUTF8? bytes.toByteArray

@[simp] theorem ofUtf8_utf8 (s : String) : ofUtf8 (utf8 s) = some s := by
  have hbytes : (utf8 s).toByteArray = s.toByteArray := by
    apply ByteArray.ext
    rw [utf8, List.data_toByteArray]
  rw [ofUtf8, hbytes, String.fromUTF8?, dif_pos s.isValidUTF8]
  rfl

theorem utf8_of_ofUtf8 {bytes : List UInt8} {s : String} (h : ofUtf8 bytes = some s) :
    utf8 s = bytes := by
  rw [ofUtf8, String.fromUTF8?] at h
  split_ifs at h
  obtain rfl := Option.some.inj h
  simp [utf8, String.fromUTF8]

def encodeStr (s : String) : List UInt8 := strHeading.write (utf8 s).length ++ utf8 s

def decodeStr (bytes : List UInt8) : Option (String × List UInt8) :=
  (strHeading.read bytes).bind fun (length, rest) =>
    if rest.length < length then none
    else (ofUtf8 (rest.take length)).map fun s => (s, rest.drop length)

mutual

def encode : Value → List UInt8
  | .nil => [0xc0]
  | .bool b => [if b then 0xc3 else 0xc2]
  | .uint n => uintHeading.write n
  | .str s => encodeStr s
  | .array items => arrayHeading.write items.length ++ encodeAll items
  | .variant name body => 0x81 :: (encodeStr name ++ encode body)

def encodeAll : List Value → List UInt8
  | [] => []
  | v :: vs => encode v ++ encodeAll vs

end

def readAll (read : List UInt8 → Option (Value × List UInt8)) :
    ℕ → List UInt8 → Option (List Value × List UInt8)
  | 0, bytes => some ([], bytes)
  | n + 1, bytes => do
    let (v, rest) ← read bytes
    let (vs, rest) ← readAll read n rest
    return (v :: vs, rest)

/-- The first value, if it is nested no deeper than the fuel. -/
def decode : ℕ → List UInt8 → Option (Value × List UInt8)
  | 0, _ => none
  | _ + 1, [] => none
  | fuel + 1, b :: rest =>
    if b = 0xc0 then some (.nil, rest)
    else if b = 0xc2 then some (.bool false, rest)
    else if b = 0xc3 then some (.bool true, rest)
    else if b = 0x81 then do
      let (name, rest) ← decodeStr rest
      let (body, rest) ← decode fuel rest
      return (.variant name body, rest)
    else if uintHeading.owns b then (uintHeading.read (b :: rest)).map fun x => (.uint x.1, x.2)
    else if strHeading.owns b then (decodeStr (b :: rest)).map fun x => (.str x.1, x.2)
    else if arrayHeading.owns b then do
      let (length, rest) ← arrayHeading.read (b :: rest)
      let (items, rest) ← readAll (decode fuel) length rest
      return (.array items, rest)
    else none
theorem uint_holds {n : ℕ} : uintHeading.holds n = true ↔ n < 2 ^ 64 := by
  rw [Heading.holds, Bool.or_eq_true, decide_eq_true_eq]
  simp [uintHeading]
  omega

theorem str_holds {n : ℕ} : strHeading.holds n = true ↔ n < 2 ^ 32 := by
  rw [Heading.holds, Bool.or_eq_true, decide_eq_true_eq]
  simp [strHeading]
  omega

theorem array_holds {n : ℕ} : arrayHeading.holds n = true ↔ n < 2 ^ 32 := by
  rw [Heading.holds, Bool.or_eq_true, decide_eq_true_eq]
  simp [arrayHeading]
  omega

theorem length_utf8 (s : String) : (utf8 s).length = s.utf8ByteSize := rfl

theorem fits_uint {n : ℕ} : (Value.uint n).fits = true ↔ uintHeading.holds n = true := by
  rw [Value.fits, uint_holds, decide_eq_true_eq]

theorem fits_str {s : String} :
    (Value.str s).fits = true ↔ strHeading.holds (utf8 s).length = true := by
  rw [Value.fits, str_holds, decide_eq_true_eq, length_utf8]

theorem fits_items {items : List Value} : (Value.array items).fits = true ↔
    arrayHeading.holds items.length = true ∧ allFit items = true := by
  rw [Value.fits, Bool.and_eq_true, array_holds, decide_eq_true_eq]

theorem fits_body {name : String} {body : Value} : (Value.variant name body).fits = true ↔
    strHeading.holds (utf8 name).length = true ∧ body.fits = true := by
  rw [Value.fits, Bool.and_eq_true, str_holds, decide_eq_true_eq, length_utf8]

/-- Is the byte one of those that begin no head? -/
def single (b : UInt8) : Bool := [0xc0, 0xc2, 0xc3, 0x81].contains b

theorem forall_byte {P : UInt8 → Bool} (h : ∀ n < 256, P (.ofNat n) = true) (b : UInt8) :
    P b = true := by
  simpa using h b.toNat b.toNat_lt

theorem uint_apart (b : UInt8) : (!uintHeading.owns b || !single b) = true :=
  forall_byte (P := fun b => !uintHeading.owns b || !single b) (by decide +kernel) b

theorem str_apart (b : UInt8) :
    (!strHeading.owns b || !single b && !uintHeading.owns b) = true :=
  forall_byte (P := fun b => !strHeading.owns b || !single b && !uintHeading.owns b)
    (by decide +kernel) b

theorem array_apart (b : UInt8) :
    (!arrayHeading.owns b || !single b && !uintHeading.owns b && !strHeading.owns b) = true :=
  forall_byte
    (P := fun b => !arrayHeading.owns b || !single b && !uintHeading.owns b && !strHeading.owns b)
    (by decide +kernel) b

theorem decodeStr_encodeStr {s : String} (h : strHeading.holds (utf8 s).length = true)
    (rest : List UInt8) : decodeStr (encodeStr s ++ rest) = some (s, rest) := by
  obtain ⟨b, t, hwrite, -, hread⟩ := Heading.write_cases h
  rw [encodeStr, decodeStr, hwrite, List.append_assoc, hread, Option.bind_some]
  simp

theorem encode_ne_nil {v : Value} (h : v.fits = true) : encode v ≠ [] := by
  cases v with
  | uint n =>
    obtain ⟨b, t, hwrite, -⟩ := Heading.write_cases (fits_uint.mp h)
    simp [encode, hwrite]
  | str s =>
    obtain ⟨b, t, hwrite, -⟩ := Heading.write_cases (fits_str.mp h)
    simp [encode, encodeStr, hwrite]
  | array items =>
    obtain ⟨b, t, hwrite, -⟩ := Heading.write_cases (fits_items.mp h).1
    simp [encode, hwrite]
  | _ => simp [encode]

section

variable {b : UInt8} {fuel : ℕ} {rest : List UInt8}

theorem decode_of_uint (h : uintHeading.owns b = true) : decode (fuel + 1) (b :: rest) =
    (uintHeading.read (b :: rest)).map fun x => (.uint x.1, x.2) := by
  have hapart := uint_apart b
  simp only [h, single] at hapart
  rw [decode]
  simp_all

theorem decode_of_str (h : strHeading.owns b = true) : decode (fuel + 1) (b :: rest) =
    (decodeStr (b :: rest)).map fun x => (.str x.1, x.2) := by
  have hapart := str_apart b
  simp only [h, single] at hapart
  rw [decode]
  simp_all

theorem decode_of_array (h : arrayHeading.owns b = true) : decode (fuel + 1) (b :: rest) = do
    let (length, rest) ← arrayHeading.read (b :: rest)
    let (items, rest) ← readAll (decode fuel) length rest
    return (.array items, rest) := by
  have hapart := array_apart b
  simp only [h, single] at hapart
  rw [decode]
  simp_all

end

mutual

theorem decode_encode : ∀ {v : Value} {fuel : ℕ}, v.fits = true → (encode v).length ≤ fuel →
    ∀ rest, decode fuel (encode v ++ rest) = some (v, rest)
  | v, 0, h, hfuel, _ =>
    absurd (List.length_eq_zero_iff.mp (Nat.le_zero.mp hfuel)) (encode_ne_nil h)
  | .nil, fuel + 1, _, _, rest => by simp [encode, decode]
  | .bool true, fuel + 1, _, _, rest => by simp [encode, decode]
  | .bool false, fuel + 1, _, _, rest => by simp [encode, decode]
  | .uint n, fuel + 1, h, hfuel, rest => by
    obtain ⟨b, t, hwrite, howns, hread⟩ := Heading.write_cases (fits_uint.mp h)
    rw [encode, hwrite, List.cons_append, decode_of_uint howns, ← List.cons_append, hread]
    rfl
  | .str s, fuel + 1, h, hfuel, rest => by
    have hstr := decodeStr_encodeStr (fits_str.mp h) rest
    obtain ⟨b, t, hwrite, howns, -⟩ := Heading.write_cases (fits_str.mp h)
    rw [encodeStr, hwrite, List.cons_append] at hstr
    rw [encode, encodeStr, hwrite, List.cons_append, List.cons_append, decode_of_str howns,
      ← List.cons_append, hstr]
    rfl
  | .array items, fuel + 1, h, hfuel, rest => by
    obtain ⟨hlength, hfit⟩ := fits_items.mp h
    obtain ⟨b, t, hwrite, howns, hread⟩ := Heading.write_cases hlength
    have hitems : (encodeAll items).length ≤ fuel := by
      rw [encode, hwrite, List.length_append, List.length_cons] at hfuel
      omega
    rw [encode, hwrite, List.append_assoc, List.cons_append, decode_of_array howns,
      ← List.cons_append, hread]
    simp [readAll_encodeAll hfit hitems]
  | .variant name body, fuel + 1, h, hfuel, rest => by
    have h := fits_body.mp h
    have hbody : (encode body).length ≤ fuel := by
      rw [encode, List.length_cons, List.length_append] at hfuel
      omega
    rw [encode, List.cons_append, decode, List.append_assoc, decodeStr_encodeStr h.1]
    simp [decode_encode h.2 hbody]

theorem readAll_encodeAll : ∀ {vs : List Value} {fuel : ℕ}, allFit vs = true →
    (encodeAll vs).length ≤ fuel →
    ∀ rest, readAll (decode fuel) vs.length (encodeAll vs ++ rest) = some (vs, rest)
  | [], _, _, _, rest => by simp [encodeAll, readAll]
  | v :: vs, fuel, h, hfuel, rest => by
    rw [allFit, Bool.and_eq_true] at h
    rw [encodeAll, List.length_append] at hfuel
    rw [encodeAll, List.append_assoc, List.length_cons, readAll,
      decode_encode h.1 (Nat.le_of_add_right_le hfuel)]
    simp [readAll_encodeAll h.2 (Nat.le_of_add_left_le hfuel)]

end

section

variable {h : Heading} {n fuel : ℕ} {name : String} {v : Value} {items : List Value}
  {bytes rest : List UInt8}

theorem Heading.holds_of_read (h' : h.read bytes = some (n, rest)) : h.holds n = true := by
  cases bytes with
  | nil => cases h'
  | cons b bytes =>
    rw [read] at h'
    rw [holds, Bool.or_eq_true, decide_eq_true_eq, List.any_eq_true]
    split_ifs at h' with hshort
    · obtain ⟨rfl, -⟩ := Prod.mk.inj (Option.some.inj h')
      left
      omega
    · obtain ⟨width, hlookup, hread⟩ := Option.bind_eq_some_iff.mp h'
      split_ifs at hread
      obtain ⟨rfl, -⟩ := Prod.mk.inj (Option.some.inj hread)
      exact .inr ⟨(b, width), mem_of_lookup hlookup, decide_eq_true (ofBigEndian_take_lt _ _)⟩

theorem holds_of_decodeStr (h : decodeStr bytes = some (name, rest)) :
    strHeading.holds (utf8 name).length = true := by
  obtain ⟨⟨length, bytes'⟩, hread, hrest⟩ := Option.bind_eq_some_iff.mp h
  have hholds := Heading.holds_of_read hread
  dsimp only at hrest
  split_ifs at hrest with hlength
  obtain ⟨s, hs, heq⟩ := Option.map_eq_some_iff.mp hrest
  obtain ⟨rfl, -⟩ := Prod.mk.inj heq
  rwa [utf8_of_ofUtf8 hs, List.length_take, min_eq_left (not_lt.mp hlength)]

theorem fits_of_readAll {read : List UInt8 → Option (Value × List UInt8)}
    (hread : ∀ bytes v rest, read bytes = some (v, rest) → v.fits = true)
    (h : readAll read n bytes = some (items, rest)) : items.length = n ∧ allFit items = true := by
  induction n generalizing bytes items rest with
  | zero =>
    obtain ⟨rfl, -⟩ := Prod.mk.inj (Option.some.inj h)
    exact ⟨rfl, rfl⟩
  | succ n ih =>
    simp only [readAll, Option.bind_eq_bind, Option.bind_eq_some_iff, Prod.exists] at h
    obtain ⟨v, rest', hv, vs, rest'', hvs, heq⟩ := h
    obtain ⟨rfl, -⟩ := Prod.mk.inj (Option.some.inj heq)
    obtain ⟨hlength, hfit⟩ := ih hvs
    exact ⟨congrArg Nat.succ hlength, by rw [allFit, hread _ _ _ hv, hfit, Bool.and_self]⟩

theorem fits_of_decode (h : decode fuel bytes = some (v, rest)) : v.fits = true := by
  induction fuel generalizing bytes v rest with
  | zero => cases h
  | succ fuel ih =>
    cases bytes with
    | nil => cases h
    | cons b bytes =>
      rw [decode] at h
      split_ifs at h
      · obtain ⟨rfl, -⟩ := Prod.mk.inj (Option.some.inj h)
        rfl
      · obtain ⟨rfl, -⟩ := Prod.mk.inj (Option.some.inj h)
        rfl
      · obtain ⟨rfl, -⟩ := Prod.mk.inj (Option.some.inj h)
        rfl
      · simp only [Option.bind_eq_bind, Option.bind_eq_some_iff, Prod.exists] at h
        obtain ⟨name, rest', hname, body, rest'', hbody, heq⟩ := h
        obtain ⟨rfl, -⟩ := Prod.mk.inj (Option.some.inj heq)
        exact fits_body.mpr ⟨holds_of_decodeStr hname, ih hbody⟩
      · obtain ⟨⟨n, rest'⟩, hread, heq⟩ := Option.map_eq_some_iff.mp h
        obtain ⟨rfl, -⟩ := Prod.mk.inj heq
        exact fits_uint.mpr (Heading.holds_of_read hread)
      · obtain ⟨⟨s, rest'⟩, hread, heq⟩ := Option.map_eq_some_iff.mp h
        obtain ⟨rfl, -⟩ := Prod.mk.inj heq
        exact fits_str.mpr (holds_of_decodeStr hread)
      · simp only [Option.bind_eq_bind, Option.bind_eq_some_iff, Prod.exists] at h
        obtain ⟨length, rest', hread, items, rest'', hitems, heq⟩ := h
        obtain ⟨rfl, -⟩ := Prod.mk.inj (Option.some.inj heq)
        obtain ⟨rfl, hfit⟩ := fits_of_readAll (fun _ _ _ => ih) hitems
        exact fits_items.mpr ⟨Heading.holds_of_read hread, hfit⟩

end

theorem length_encodeAll (items : List Value) :
    (encodeAll items).length = (items.map fun v => (encode v).length).sum := by
  induction items with
  | nil => rfl
  | cons v items ih => rw [encodeAll, List.length_append, ih, List.map_cons, List.sum_cons]

theorem array_owns (b : UInt8) : (!arrayHeading.owns b || decide (128 ≤ b.toNat)) = true :=
  forall_byte (P := fun b => !arrayHeading.owns b || decide (128 ≤ b.toNat)) (by decide +kernel) b

theorem encode_array {items : List Value} (h : (Value.array items).fits = true) :
    ∃ b rest, encode (.array items) = b :: (rest ++ encodeAll items) ∧ 128 ≤ b.toNat := by
  obtain ⟨b, t, hwrite, howns, -⟩ := Heading.write_cases (fits_items.mp h).1
  have hmark := array_owns b
  rw [howns, Bool.not_true, Bool.false_or, decide_eq_true_eq] at hmark
  exact ⟨b, t, by rw [encode, hwrite, List.cons_append], hmark⟩

/-- Values of any depth are read. -/
def format : Format where
  encode := encode
  decode bytes := (decode bytes.length bytes).map Prod.fst
  decode_encode v rest h _ := by
    have hlength : (encode v).length ≤ (encode v ++ rest).length := by
      rw [List.length_append]
      exact Nat.le_add_right _ _
    rw [decode_encode h hlength, Option.map_some]
  fits_of_decode bytes v h := by
    obtain ⟨⟨v, rest⟩, hdecode, rfl⟩ := Option.map_eq_some_iff.mp h
    exact fits_of_decode hdecode
  nonempty _ := encode_ne_nil
  longer items h := by
    obtain ⟨b, rest, hencode, -⟩ := encode_array h
    rw [hencode, ← length_encodeAll, List.length_cons, List.length_append]
    omega
  marked items h := by
    obtain ⟨b, rest, hencode, hmark⟩ := encode_array h
    exact ⟨b, _, hencode, hmark⟩

end MessagePack
