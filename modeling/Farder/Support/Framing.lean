import Mathlib.Algebra.Order.Group.Nat
import Mathlib.Tactic.Common

/-! # Length-prefixed frames

A frame is its payload after the payload's length, in four bytes. A reader takes a frame off a
byte stream in two exact reads, the length and then the payload; it may find too few bytes and
be polled again later, and until then its progress lives only in itself. -/
namespace Framing

/-- The four bytes of a length, most significant first. -/
def toBytes (n : ℕ) : List UInt8 :=
  [.ofNat (n / 2 ^ 24), .ofNat (n / 2 ^ 16), .ofNat (n / 2 ^ 8), .ofNat n]

def ofBytes (bytes : List UInt8) : ℕ := bytes.foldl (fun n b => n * 2 ^ 8 + b.toNat) 0

def frame (payload : List UInt8) : List UInt8 := toBytes payload.length ++ payload

def stream (payloads : List (List UInt8)) : List UInt8 := payloads.flatMap frame

@[simp] theorem length_toBytes (n : ℕ) : (toBytes n).length = 4 := rfl

@[simp] theorem stream_nil : stream [] = [] := rfl

@[simp] theorem stream_cons (p : List UInt8) (ps : List (List UInt8)) :
    stream (p :: ps) = frame p ++ stream ps := rfl

@[simp] theorem length_frame (p : List UInt8) : (frame p).length = 4 + p.length := by
  simp [frame]

theorem ofBytes_toBytes {n : ℕ} (h : n < 2 ^ 32) : ofBytes (toBytes n) = n := by
  simp only [ofBytes, toBytes, List.foldl_cons, List.foldl_nil, UInt8.toNat_ofNat']
  omega

/-- A read of `n` bytes of which it has got some: the bytes it has then, and those it leaves. -/
def readExact (n : ℕ) (got incoming : List UInt8) : List UInt8 × List UInt8 :=
  (got ++ incoming.take (n - got.length), incoming.drop (n - got.length))

/-- The progress of a reader: within the length, or within the payload that it announced. -/
inductive Reader where
  | length (got : List UInt8)
  | payload (header got : List UInt8)
  deriving DecidableEq, Repr

inductive Poll where
  | done (payload rest : List UInt8)
  | pending (reader : Reader)
  | tooLarge (length : ℕ)
  deriving DecidableEq, Repr

namespace Reader

def fresh : Reader := .length []

/-- The bytes that the reader has taken off the stream. -/
def consumed : Reader → List UInt8
  | .length got => got
  | .payload header got => header ++ got

def pollPayload (header got incoming : List UInt8) : Poll :=
  let read := readExact (ofBytes header) got incoming
  if read.1.length < ofBytes header then .pending (.payload header read.1)
  else .done read.1 read.2

/-- Poll the reader on the bytes that are there: it takes them all, unless a frame ends within
them. -/
def poll (max : ℕ) (reader : Reader) (incoming : List UInt8) : Poll :=
  match reader with
  | .length got =>
    let read := readExact 4 got incoming
    if read.1.length < 4 then .pending (.length read.1)
    else if max < ofBytes read.1 then .tooLarge (ofBytes read.1)
    else pollPayload read.1 [] read.2
  | .payload header got => pollPayload header got incoming

def Waiting : Reader → Prop
  | .length got => got.length < 4
  | .payload header got => header.length = 4 ∧ got.length < ofBytes header

@[simp] theorem consumed_fresh : fresh.consumed = [] := rfl

theorem waiting_fresh : fresh.Waiting := Nat.zero_lt_succ 3

end Reader

variable {n max : ℕ} {got incoming future header payload tail : List UInt8} {r : Reader}

theorem readExact_cases (incoming : List UInt8) (h : got.length ≤ n) :
    (readExact n got incoming = (got ++ incoming, []) ∧ (got ++ incoming).length < n) ∨
      ∃ full rest, readExact n got incoming = (full, rest) ∧ full.length = n ∧
        full ++ rest = got ++ incoming := by
  unfold readExact
  by_cases hlt : incoming.length < n - got.length
  · refine .inl ⟨?_, ?_⟩
    · rw [List.take_of_length_le (by omega), List.drop_of_length_le (by omega)]
    · rw [List.length_append]
      omega
  · refine .inr ⟨_, _, rfl, ?_, ?_⟩
    · rw [List.length_append, List.length_take]
      omega
    · rw [List.append_assoc, List.take_append_drop]

theorem poll_pending {r' : Reader} (hr : r.Waiting) (h : r.poll max incoming = .pending r') :
    r'.Waiting ∧ r'.consumed = r.consumed ++ incoming := by
  have hpayload {header got incoming : List UInt8} (hheader : header.length = 4)
      (hgot : got.length ≤ ofBytes header)
      (h : Reader.pollPayload header got incoming = .pending r') :
      r'.Waiting ∧ r'.consumed = header ++ (got ++ incoming) := by
    unfold Reader.pollPayload at h
    rcases readExact_cases incoming hgot with ⟨hread, hlt⟩ | ⟨full, rest, hread, hfull, -⟩
    · rw [hread, if_pos hlt] at h
      obtain rfl := Poll.pending.inj h
      exact ⟨⟨hheader, hlt⟩, rfl⟩
    · rw [hread, if_neg (by simp [hfull])] at h
      cases h
  cases r with
  | length got =>
    rcases readExact_cases incoming (Nat.le_of_lt hr) with
      ⟨hread, hshort⟩ | ⟨full, rest, hread, hfull, heq⟩
    · simp only [Reader.poll, hread, if_pos hshort] at h
      obtain rfl := Poll.pending.inj h
      exact ⟨hshort, rfl⟩
    · simp only [Reader.poll, hread, hfull, Nat.lt_irrefl, if_false] at h
      split_ifs at h
      obtain ⟨hwaiting, hconsumed⟩ := hpayload hfull (Nat.zero_le _) h
      exact ⟨hwaiting, hconsumed.trans heq⟩
  | payload header got =>
    obtain ⟨hwaiting, hconsumed⟩ := hpayload hr.1 (Nat.le_of_lt hr.2) h
    exact ⟨hwaiting, hconsumed.trans (List.append_assoc ..).symm⟩

theorem pollPayload_frame (hlen : ofBytes header = payload.length)
    (hgot : got.length ≤ payload.length) (h : got ++ incoming ++ future = payload ++ tail) :
    (∃ rest, Reader.pollPayload header got incoming = .done payload rest ∧ rest ++ future = tail) ∨
      ∃ r, Reader.pollPayload header got incoming = .pending r ∧
        (got ++ incoming).length < payload.length := by
  unfold Reader.pollPayload
  rw [hlen]
  rcases readExact_cases incoming hgot with ⟨hread, hlt⟩ | ⟨full, rest, hread, hfull, heq⟩
  · exact .inr ⟨.payload header (got ++ incoming), by simp only [hread, if_pos hlt], hlt⟩
  · rw [← heq, List.append_assoc] at h
    obtain ⟨rfl, hrest⟩ := List.append_inj h hfull
    exact .inl ⟨rest, by simp [hread], hrest⟩

/-- A poll while the next frame of the stream is the payload's: if the frame has arrived whole,
the reader returns it and leaves the rest; otherwise it waits. -/
theorem poll_frame (hr : r.Waiting) (hmax : payload.length ≤ max) (hlt : max < 2 ^ 32)
    (h : r.consumed ++ incoming ++ future = frame payload ++ tail) :
    (∃ rest, r.poll max incoming = .done payload rest ∧ rest ++ future = tail) ∨
      ∃ r', r.poll max incoming = .pending r' ∧
        (r.consumed ++ incoming).length < (frame payload).length := by
  have hsmall : ofBytes (toBytes payload.length) = payload.length := ofBytes_toBytes (by omega)
  cases r with
  | length got =>
    have hgot : got.length ≤ 4 := Nat.le_of_lt hr
    simp only [Reader.consumed] at h ⊢
    rcases readExact_cases incoming hgot with ⟨hread, hshort⟩ | ⟨full, rest, hread, hfull, heq⟩
    · refine .inr ⟨.length (got ++ incoming), by simp only [Reader.poll, hread, if_pos hshort], ?_⟩
      rw [length_frame]
      exact Nat.lt_add_right _ hshort
    · rw [← heq, frame, List.append_assoc, List.append_assoc] at h
      obtain ⟨rfl, htail⟩ := List.append_inj h hfull
      have hpoll : (Reader.length got).poll max incoming =
          Reader.pollPayload (toBytes payload.length) [] rest := by
        simp [Reader.poll, hread, hsmall, Nat.not_lt.mpr hmax]
      have hread : [] ++ rest ++ future = payload ++ tail := htail
      have hcases := pollPayload_frame hsmall (Nat.zero_le _) hread
      rw [hpoll, ← heq]
      refine hcases.imp id fun ⟨r', hr', hshort⟩ => ⟨r', hr', ?_⟩
      simpa [frame] using hshort
  | payload header got =>
    obtain ⟨hheader, hgot⟩ := hr
    simp only [Reader.consumed] at h ⊢
    rw [frame, List.append_assoc, List.append_assoc, List.append_assoc] at h
    obtain ⟨rfl, htail⟩ := List.append_inj h hheader
    have hread : got ++ incoming ++ future = payload ++ tail := by simpa using htail
    have hcases := pollPayload_frame hsmall (hsmall ▸ Nat.le_of_lt hgot) hread
    refine hcases.imp id fun ⟨r', hr', hshort⟩ => ⟨r', hr', ?_⟩
    simpa [frame] using hshort

theorem poll_nil (hr : r.Waiting) : r.poll max [] = .pending r := by
  cases r with
  | length got =>
    have hgot : got.length < 4 := hr
    simp [Reader.poll, readExact, hgot]
  | payload header got => simp [Reader.poll, Reader.pollPayload, readExact, hr.2]

def HasFrame (bytes : List UInt8) : Prop :=
  ∃ payload rest, payload.length < 2 ^ 32 ∧ bytes = frame payload ++ rest

theorem frame_inj {p q a b : List UInt8} (hp : p.length < 2 ^ 32) (hq : q.length < 2 ^ 32)
    (h : frame p ++ a = frame q ++ b) : p = q ∧ a = b := by
  rw [frame, frame, List.append_assoc, List.append_assoc] at h
  obtain ⟨hlen, h⟩ := List.append_inj h rfl
  have hlen := congrArg ofBytes hlen
  rw [ofBytes_toBytes hp, ofBytes_toBytes hq] at hlen
  exact List.append_inj h hlen

theorem not_hasFrame {bytes : List UInt8} (hp : payload.length < 2 ^ 32)
    (h : bytes ++ future = frame payload ++ tail) (hshort : bytes.length < (frame payload).length) :
    ¬HasFrame bytes := by
  rintro ⟨q, rest, hq, rfl⟩
  rw [List.append_assoc] at h
  obtain ⟨rfl, -⟩ := frame_inj hq hp h
  rw [List.length_append] at hshort
  omega

end Framing
