import Farder.Server.MediaStream
import Farder.Support.Bytes

/-! # Media datagrams

A sealed frame goes out in one or more datagrams, each with a header that says which frame it is
of, which fragment, and of how many. Everybody on the way reads the header without any key. -/
namespace Media

open Server Bytes

inductive MediaDgramError where
  | tooShort
  | badVersion (version : UInt8)
  | badTrackKind (kind : UInt8)
  | badFragmentation
  deriving DecidableEq

def trackKindToByte : TrackKind → UInt8
  | .audio => 0x01
  | .video => 0x02
  | .screenAudio => 0x03

theorem byteToTrackKind_eq_some {byte : UInt8} {kind : TrackKind} :
    byteToTrackKind byte = some kind ↔ byte = trackKindToByte kind := by
  unfold byteToTrackKind
  cases kind <;> split_ifs <;> simp_all [trackKindToByte]

/-- The fields of the header have their widths. -/
structure Sized (h : OuterHeader) : Prop where
  sessionId : h.sessionId.length = 16
  frameId : h.frameId < 2 ^ 32
  fragIndex : h.fragIndex < 2 ^ 16
  fragCount : h.fragCount < 2 ^ 16

/-- A header that `parse` may return: the fragment is one of those that it counts. -/
structure Valid (h : OuterHeader) : Prop extends Sized h where
  index_lt : h.fragIndex < h.fragCount

/-- `OuterHeader::write_to`, on an empty buffer. -/
def write (h : OuterHeader) : List UInt8 :=
  [mediaDgramVersion, trackKindToByte h.trackKind] ++ h.sessionId ++ toBigEndian 4 h.frameId ++
    toBigEndian 2 h.fragIndex ++ toBigEndian 2 h.fragCount

/-- `OuterHeader::parse`, with what is left of the buffer. -/
def parse (buf : List UInt8) : Except MediaDgramError (OuterHeader × List UInt8) :=
  if buf.length < mediaDgramHeaderLen then .error .tooShort
  else
    let byte := fun i => buf[i]?.getD 0
    let field := fun start len => (buf.drop start).take len
    if byte 0 ≠ mediaDgramVersion then .error (.badVersion (byte 0))
    else match byteToTrackKind (byte 1) with
      | none => .error (.badTrackKind (byte 1))
      | some trackKind =>
        let fragIndex := ofBigEndian (field 22 2)
        let fragCount := ofBigEndian (field 24 2)
        if fragCount = 0 ∨ fragIndex ≥ fragCount then .error .badFragmentation
        else .ok (⟨trackKind, field 2 16, ofBigEndian (field 18 4), fragIndex, fragCount⟩,
          buf.drop mediaDgramHeaderLen)

theorem length_write {h : OuterHeader} (hsized : Sized h) :
    (write h).length = mediaDgramHeaderLen := by
  simp [write, hsized.sessionId, mediaDgramHeaderLen]

theorem fields_eq (buf : List UInt8) : buf = buf.take 2 ++ (buf.drop 2).take 16 ++
    (buf.drop 18).take 4 ++ (buf.drop 22).take 2 ++ (buf.drop 24).take 2 ++ buf.drop 26 := by
  rw [← List.take_add, ← List.take_add, ← List.take_add, ← List.take_add, List.take_append_drop]

theorem fields_of_append {a b c d e f buf : List UInt8} (ha : a.length = 2) (hb : b.length = 16)
    (hc : c.length = 4) (hd : d.length = 2) (he : e.length = 2)
    (hbuf : buf = a ++ b ++ c ++ d ++ e ++ f) : buf.take 2 = a ∧ (buf.drop 2).take 16 = b ∧
      (buf.drop 18).take 4 = c ∧ (buf.drop 22).take 2 = d ∧ (buf.drop 24).take 2 = e ∧
      buf.drop 26 = f := by
  subst hbuf
  simp [List.drop_append, List.drop_of_length_le, ha, hb, hc, hd, he]

theorem parse_write {h : OuterHeader} (hvalid : Valid h) (payload : List UInt8) :
    parse (write h ++ payload) = .ok (h, payload) := by
  obtain ⟨-, hsession, hframe, hindex, hcount, hrest⟩ := fields_of_append
    (b := h.sessionId) (c := toBigEndian 4 h.frameId) (d := toBigEndian 2 h.fragIndex)
    (e := toBigEndian 2 h.fragCount) (f := payload) rfl hvalid.sessionId
    (length_toBigEndian _ _) (length_toBigEndian _ _) (length_toBigEndian _ _)
    (rfl : write h ++ payload = _)
  have hlength : ¬(write h ++ payload).length < mediaDgramHeaderLen := by
    rw [List.length_append, length_write hvalid.toSized]
    omega
  have hversion : (write h ++ payload)[0]?.getD 0 = mediaDgramVersion := rfl
  have hkind : byteToTrackKind ((write h ++ payload)[1]?.getD 0) = some h.trackKind :=
    byteToTrackKind_eq_some.mpr rfl
  have hfragment : ¬(h.fragCount = 0 ∨ h.fragIndex ≥ h.fragCount) := by
    have hlt := hvalid.index_lt
    omega
  have hframe' : ofBigEndian (toBigEndian 4 h.frameId) = h.frameId :=
    ofBigEndian_toBigEndian hvalid.frameId
  have hindex' : ofBigEndian (toBigEndian 2 h.fragIndex) = h.fragIndex :=
    ofBigEndian_toBigEndian hvalid.fragIndex
  have hcount' : ofBigEndian (toBigEndian 2 h.fragCount) = h.fragCount :=
    ofBigEndian_toBigEndian hvalid.fragCount
  rw [parse, if_neg hlength]
  simp only [hversion, ne_eq, not_true, if_false, hkind, hsession, hframe, hindex, hcount,
    mediaDgramHeaderLen, hrest, hframe', hindex', hcount', if_neg hfragment]

theorem parse_eq_ok {buf rest : List UInt8} {h : OuterHeader} (hparse : parse buf = .ok (h, rest)) :
    Valid h ∧ buf = write h ++ rest := by
  by_cases hlength : buf.length < mediaDgramHeaderLen
  · rw [parse, if_pos hlength] at hparse
    cases hparse
  rw [parse, if_neg hlength] at hparse
  dsimp only at hparse
  by_cases hversion : buf[0]?.getD 0 = mediaDgramVersion
  · rw [if_neg (not_not.mpr hversion)] at hparse
    cases hkind : byteToTrackKind (buf[1]?.getD 0) with
    | none => simp [hkind] at hparse
    | some kind =>
      rw [hkind] at hparse
      dsimp only at hparse
      split_ifs at hparse with hfragment
      obtain ⟨rfl, rfl⟩ := Prod.mk.inj (Except.ok.inj hparse)
      have hbytes : 26 ≤ buf.length := Nat.le_of_not_lt hlength
      have hfield {start width : ℕ} (hend : start + width ≤ 26) :
          ((buf.drop start).take width).length = width := by
        rw [List.length_take, List.length_drop]
        omega
      refine ⟨⟨⟨hfield (by decide), ofBigEndian_take_lt _ 4, ofBigEndian_take_lt _ 2,
        ofBigEndian_take_lt _ 2⟩, ?_⟩, ?_⟩
      · dsimp only
        omega
      · have hhead : buf.take 2 = [mediaDgramVersion, trackKindToByte kind] := by
          rw [byteToTrackKind_eq_some] at hkind
          rw [← hversion, ← hkind]
          obtain _ | ⟨a, _ | ⟨b, tail⟩⟩ := buf
          · simp at hbytes
          · simp at hbytes
          · rfl
        have hcut := fields_eq buf
        rw [hhead] at hcut
        rw [write, toBigEndian_of_length (hfield (by decide)),
          toBigEndian_of_length (hfield (by decide)), toBigEndian_of_length (hfield (by decide))]
        exact hcut
  · rw [if_pos hversion] at hparse
    cases hparse

theorem parse_toOption (buf : List UInt8) :
    (parse buf).toOption.map Prod.fst = OuterHeader.parse buf := by
  unfold parse OuterHeader.parse
  by_cases hlength : buf.length < mediaDgramHeaderLen
  · rw [if_pos hlength, if_pos hlength]
    rfl
  rw [if_neg hlength, if_neg hlength]
  obtain ⟨version, byte, tail, rfl⟩ : ∃ version byte tail, buf = version :: byte :: tail := by
    obtain _ | ⟨a, _ | ⟨b, tail⟩⟩ := buf
    · simp [mediaDgramHeaderLen] at hlength
    · simp [mediaDgramHeaderLen] at hlength
    · exact ⟨a, b, tail, rfl⟩
  by_cases hversion : version = mediaDgramVersion
  · subst hversion
    simp only [List.getElem?_cons_zero, List.getElem?_cons_succ, Option.getD_some, ne_eq, not_true,
      if_false]
    cases hkind : byteToTrackKind byte with
    | none => simp [hkind, Except.toOption]
    | some kind =>
      simp only [hkind, Option.bind_eq_bind, Option.bind_some]
      split_ifs <;> rfl
  · simp [hversion, Except.toOption]

/-- `fragment`; more than 65535 fragments would not be told apart. -/
def fragment (trackKind : TrackKind) (sessionId : SessionId) (frameId : ℕ) (sealed : List UInt8)
    (maxPayload : ℕ) : List (List UInt8) :=
  let maxPayload := max maxPayload 1
  let fragCount := max ((sealed.length + maxPayload - 1) / maxPayload) 1
  let fragCountU16 := min fragCount (2 ^ 16 - 1)
  let out := (chunks maxPayload sealed).zipIdx.map fun x =>
    write ⟨trackKind, sessionId, frameId, x.2 % 2 ^ 16, fragCountU16⟩ ++ x.1
  -- An empty frame is still one datagram.
  if out = [] then [write ⟨trackKind, sessionId, frameId, 0, 1⟩] else out

/-- A sealed frame, and how it is sent: in no more fragments than the header can count. -/
structure SentFrame where
  trackKind : TrackKind
  sessionId : SessionId
  frameId : ℕ
  sealed : List UInt8
  maxPayload : ℕ
  sessionId_length : sessionId.length = 16
  frameId_lt : frameId < 2 ^ 32
  fits : (sealed.length + max maxPayload 1 - 1) / max maxPayload 1 ≤ 2 ^ 16 - 1

namespace SentFrame

variable (f : SentFrame) {i : ℕ}

def size : ℕ := max f.maxPayload 1

def count : ℕ := max ((f.sealed.length + f.size - 1) / f.size) 1

def part (i : ℕ) : List UInt8 := chunk f.size f.sealed i

def header (i : ℕ) : OuterHeader := ⟨f.trackKind, f.sessionId, f.frameId, i, f.count⟩

def datagram (i : ℕ) : List UInt8 := write (f.header i) ++ f.part i

def datagrams : List (List UInt8) :=
  fragment f.trackKind f.sessionId f.frameId f.sealed f.maxPayload

theorem count_lt : f.count < 2 ^ 16 := by
  have hfits := f.fits
  rw [count, size]
  omega

theorem size_pos : 0 < f.size := by
  rw [size]
  omega

theorem flatMap_part : (List.range f.count).flatMap f.part = f.sealed := by
  refine flatMap_chunk_eq ((length_le_chunks f.size_pos _).trans ?_)
  exact Nat.mul_le_mul_right _ (Nat.le_max_left _ _)

/-- The pieces with their headers, before an empty frame is looked at. -/
def pieces : List (List UInt8) :=
  (chunks f.size f.sealed).zipIdx.map fun x =>
    write ⟨f.trackKind, f.sessionId, f.frameId, x.2 % 2 ^ 16, min f.count (2 ^ 16 - 1)⟩ ++ x.1

theorem pieces_eq : f.pieces =
    (List.range ((f.sealed.length + f.size - 1) / f.size)).map f.datagram := by
  refine List.ext_getElem (by simp [pieces, chunks]) fun i hi hi' => ?_
  have hlt : i < f.count := by
    rw [List.length_map, List.length_range] at hi'
    exact hi'.trans_le (Nat.le_max_left _ _)
  have hindex : i % 65536 = i := Nat.mod_eq_of_lt (hlt.trans f.count_lt)
  have hcount : min f.count 65535 = f.count := Nat.min_eq_left (Nat.le_pred_of_lt f.count_lt)
  simp [pieces, chunks, datagram, header, part, hindex, hcount]

theorem datagrams_eq : f.datagrams = (List.range f.count).map f.datagram := by
  have hdef : f.datagrams = if f.pieces = [] then
      [write ⟨f.trackKind, f.sessionId, f.frameId, 0, 1⟩] else f.pieces := rfl
  have hnone : f.pieces = [] ↔ (f.sealed.length + f.size - 1) / f.size = 0 := by
    rw [pieces_eq, List.map_eq_nil_iff, List.range_eq_nil]
  rw [hdef]
  by_cases hempty : (f.sealed.length + f.size - 1) / f.size = 0
  · have hsealed : f.sealed = [] := by
      refine List.eq_nil_of_length_eq_zero (Nat.le_zero.mp ?_)
      have hle := length_le_chunks f.size_pos f.sealed.length
      rwa [hempty, Nat.zero_mul] at hle
    have hcount : f.count = 1 := by
      rw [count, hempty]
      rfl
    rw [if_pos (hnone.mpr hempty), hcount, List.range_one, List.map_singleton, datagram, header, hcount, part,
      hsealed]
    simp [chunk]
  · rw [if_neg (mt hnone.mp hempty), pieces_eq, count, Nat.max_eq_left (Nat.one_le_iff_ne_zero.mpr hempty)]

variable {f}

theorem header_valid (hi : i < f.count) : Valid (f.header i) where
  sessionId := f.sessionId_length
  frameId := f.frameId_lt
  fragIndex := hi.trans f.count_lt
  fragCount := f.count_lt
  index_lt := hi

theorem parse_datagram (hi : i < f.count) : parse (f.datagram i) = .ok (f.header i, f.part i) :=
  parse_write (header_valid hi) _

theorem mem_datagrams {d : List UInt8} : d ∈ f.datagrams ↔ ∃ i < f.count, f.datagram i = d := by
  simp [datagrams_eq]

end SentFrame
end Media
