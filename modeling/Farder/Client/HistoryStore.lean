import Farder.Support.Bytes
import Farder.Support.Keyset
import Mathlib.Data.List.Infix
import Mathlib.Data.List.Sort
import Mathlib.Data.UInt
import Mathlib.Tactic.Common

/-! # The local history store

The sealed rows of the messages that a client has opened, for all servers in one file. The rows are
ordered, paged and purged by what is in the clear; the rest is sealed, and bound to where the row
belongs. -/
namespace History

structure HistoryAttachment where
  keyHex : List Char
  fileName : List Char
  mimeType : List Char
  deriving DecidableEq, Repr

/-- The hash is kept as bytes, a text as its characters. -/
structure HistoryRecord where
  channelId : UInt64
  messageId : UInt64
  eventHash : List UInt8
  timestamp : UInt64
  author : List UInt8
  content : List Char
  replyTo : Option (List Char)
  attachments : List HistoryAttachment
  deriving DecidableEq, Repr

structure SealedPayload where
  author : List UInt8
  content : List Char
  replyTo : Option (List Char)
  attachments : List HistoryAttachment
  deriving DecidableEq, Repr

def HistoryRecord.payload (rec : HistoryRecord) : SealedPayload :=
  ⟨rec.author, rec.content, rec.replyTo, rec.attachments⟩

def HistoryRecord.key (rec : HistoryRecord) : UInt64 × UInt64 × List UInt8 :=
  (rec.channelId, rec.messageId, rec.eventHash)

/-- An unsigned number as the database stores it, and back. -/
def asI64 (n : UInt64) : ℤ := n.toInt64.toInt

def asU64 (n : ℤ) : UInt64 := (Int64.ofInt n).toUInt64

def maxI64 : ℤ := 2 ^ 63 - 1

/-- The sealing of payloads and the blind index of authors, both under the keys of the identity. -/
structure RowCipher (Blob : Type) where
  sealPayload : List UInt8 → List UInt8 → SealedPayload → Blob
  unsealPayload : List UInt8 → List UInt8 → Blob → Option SealedPayload
  authorTag : List UInt8 → List UInt8

/-- A payload opens under the nonce and the associated data that it was sealed with, under no other
associated data, and authors have different tags. -/
structure RowCipher.Ideal {Blob : Type} (C : RowCipher Blob) : Prop where
  opens : ∀ nonce aad payload,
    C.unsealPayload nonce aad (C.sealPayload nonce aad payload) = some payload
  bound : ∀ nonce nonce' aad aad' payload, aad' ≠ aad →
    C.unsealPayload nonce' aad' (C.sealPayload nonce aad payload) = none
  tags : Function.Injective C.authorTag

def aad (channelId messageId : UInt64) (eventHash : List UInt8) : List UInt8 :=
  Bytes.toBigEndian 8 channelId.toNat ++ Bytes.toBigEndian 8 messageId.toNat ++ eventHash

structure HistoryRow (Blob : Type) where
  channelId : ℤ
  messageId : ℤ
  eventHash : List UInt8
  timestamp : ℤ
  authorTag : List UInt8
  nonce : List UInt8
  sealed : Blob

structure HistoryStore (Blob : Type) where
  rows : List (HistoryRow Blob)

variable {Blob : Type} (C : RowCipher Blob) (lower : List Char → List Char)

def sealRow (rec : HistoryRecord) (nonce : List UInt8) : HistoryRow Blob where
  channelId := asI64 rec.channelId
  messageId := asI64 rec.messageId
  eventHash := rec.eventHash
  timestamp := asI64 rec.timestamp
  authorTag := C.authorTag rec.author
  nonce := nonce
  sealed := C.sealPayload nonce (aad rec.channelId rec.messageId rec.eventHash) rec.payload

def openRow (channelId messageId : UInt64) (row : HistoryRow Blob) : Option HistoryRecord :=
  (C.unsealPayload row.nonce (aad channelId messageId row.eventHash) row.sealed).map fun p =>
    ⟨channelId, messageId, row.eventHash, asU64 row.timestamp, p.author, p.content, p.replyTo,
      p.attachments⟩

namespace HistoryStore

variable (s : HistoryStore Blob)

def empty : HistoryStore Blob := ⟨[]⟩

/-- A row with the same primary key is replaced. -/
def put (rec : HistoryRecord) (nonce : List UInt8) : HistoryStore Blob :=
  ⟨s.rows.filter (fun row => ¬(row.channelId = asI64 rec.channelId ∧
    row.messageId = asI64 rec.messageId ∧ row.eventHash = rec.eventHash)) ++ [sealRow C rec nonce]⟩

/-- The order of the primary key within a channel; hashes compare byte by byte. -/
def KeyLe (a b : HistoryRow Blob) : Prop :=
  a.messageId < b.messageId ∨ a.messageId = b.messageId ∧ a.eventHash ≤ b.eventHash

instance (a b : HistoryRow Blob) : Decidable (KeyLe a b) :=
  inferInstanceAs (Decidable (_ ∨ _ ∧ _))

/-- The rows of a channel as the table holds them. -/
def inKeyOrder (channelId : UInt64) : List (HistoryRow Blob) :=
  (s.rows.filter fun row => row.channelId = asI64 channelId).insertionSort KeyLe

/-- The rows of a channel, newest first: the table read from its end, so that of two rows of one
message id the one with the greater hash comes first. -/
def newestFirst (channelId : UInt64) : List (HistoryRow Blob) := (s.inKeyOrder channelId).reverse

/-- One message, by the first of its rows in the table; `none` is an error. -/
def get (channelId messageId : UInt64) : Option (Option HistoryRecord) :=
  match (s.inKeyOrder channelId).find? fun row => row.messageId = asI64 messageId with
  | none => some none
  | some row => (openRow C channelId messageId row).map some

def page (channelId : UInt64) (beforeId : Option UInt64) (limit : ℕ) :
    Option (List HistoryRecord) :=
  (Keyset.page HistoryRow.messageId (s.newestFirst channelId) limit
    ((beforeId.map asI64).getD maxI64)).mapM fun row =>
      openRow C channelId (asU64 row.messageId) row

/-- The matches of a page, up to where there are as many as asked for. -/
def scan (needle : List Char) (limit : ℕ) (out : List HistoryRecord) :
    List HistoryRecord → List HistoryRecord × Bool
  | [] => (out, false)
  | rec :: page =>
    if needle <:+: lower rec.content then
      if limit ≤ out.length + 1 then (out ++ [rec], true) else scan needle limit (out ++ [rec]) page
    else scan needle limit out page

/-- Page after page; `fuel` bounds their number. -/
def searchFrom (channelId : UInt64) (needle : List Char) (limit : ℕ) :
    ℕ → Option UInt64 → List HistoryRecord → Option (List HistoryRecord)
  | 0, _, out => some out
  | fuel + 1, beforeId, out => do
    let page ← s.page C channelId beforeId 500
    match page.getLast? with
    | none => return out
    | some last =>
      match scan lower needle limit out page with
      | (out, true) => return out
      | (out, false) => searchFrom channelId needle limit fuel (some last.messageId) out

def search (channelId : UInt64) (query : List Char) (limit : ℕ) : Option (List HistoryRecord) :=
  if lower query = [] then some []
  else s.searchFrom C lower channelId (lower query) limit (s.rows.length + 1) none []

def purgeMessage (channelId messageId : UInt64) : HistoryStore Blob :=
  ⟨s.rows.filter fun row =>
    ¬(row.channelId = asI64 channelId ∧ row.messageId = asI64 messageId)⟩

def purgeBefore (channelId beforeTs : UInt64) : HistoryStore Blob :=
  ⟨s.rows.filter fun row => ¬(row.channelId = asI64 channelId ∧ row.timestamp < asI64 beforeTs)⟩

def purgeAuthor (author : List UInt8) : HistoryStore Blob :=
  ⟨s.rows.filter fun row => row.authorTag ≠ C.authorTag author⟩

def redactAttachment (channelId messageId : UInt64) (keyHex : List Char) (nonce : List UInt8) :
    HistoryStore Blob :=
  match s.get C channelId messageId with
  | some (some rec) =>
    let kept := rec.attachments.filter (·.keyHex ≠ keyHex)
    if kept.length = rec.attachments.length then s
    else s.put C { rec with attachments := kept } nonce
  | _ => s

end HistoryStore

/-- A write brings the random nonce of its sealing. -/
inductive HistoryOp where
  | put (rec : HistoryRecord) (nonce : List UInt8)
  | redactAttachment (channelId messageId : UInt64) (keyHex : List Char) (nonce : List UInt8)
  | purgeMessage (channelId messageId : UInt64)
  | purgeBefore (channelId beforeTs : UInt64)
  | purgeAuthor (author : List UInt8)
  deriving DecidableEq

def HistoryStore.next (s : HistoryStore Blob) : HistoryOp → HistoryStore Blob
  | .put rec nonce => s.put C rec nonce
  | .redactAttachment channelId messageId keyHex nonce =>
    s.redactAttachment C channelId messageId keyHex nonce
  | .purgeMessage channelId messageId => s.purgeMessage channelId messageId
  | .purgeBefore channelId beforeTs => s.purgeBefore channelId beforeTs
  | .purgeAuthor author => s.purgeAuthor C author

def storeAfter (ops : List HistoryOp) : HistoryStore Blob := ops.foldl (·.next C) .empty

end History
