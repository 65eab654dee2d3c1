import Farder.LogApply
import Farder.Support.Table

/-! # The server's database

The tables behind messages, channels, files and the event log. A table whose key is
AUTOINCREMENT is a `Table`; the stored events are a list in acceptance order. -/
namespace Server

open EventLog Guarded

def deletedUserKey : PublicKey := ⟨0⟩

structure MessageRow where
  channelId : ℕ
  author : PublicKey
  content : String
  timestamp : ℕ
  editedAt : Option ℕ
  replyTo : Option ℕ
  eventHash : Option EventHash
  sealed : Option (List UInt8)
  isE2ee : Bool
  deriving DecidableEq, Repr

inductive ChannelType where
  | text
  | announcement
  | thread
  | dm
  | voice
  deriving DecidableEq, Repr

/-- A channel; its content class is `none` when the column holds no known value. -/
structure ChannelRow where
  id : ℕ
  name : String
  channelType : ChannelType
  position : ℕ
  retentionSecs : Option ℕ
  deleted : Bool
  contentClass : Option ChannelClass
  deriving DecidableEq, Repr

/-- What an upload declares about an image or a recording; the duration is the bit pattern
of a 64-bit float. -/
structure MediaInfo where
  width : Option ℕ
  height : Option ℕ
  durationSecs : Option UInt64
  deriving DecidableEq, Repr

structure FileRow where
  hash : String
  size : ℕ
  mimeType : String
  originalName : String
  uploadedBy : PublicKey
  uploadedAt : ℕ
  refCount : ℕ
  media : MediaInfo
  redactedBy : Option PublicKey
  deriving DecidableEq, Repr

structure AttachmentRow where
  messageId : ℕ
  fileId : ℕ
  position : ℕ
  originalName : String
  media : MediaInfo
  deriving DecidableEq, Repr

structure ReactionRow where
  messageId : ℕ
  userKey : PublicKey
  emoji : String
  fileId : ℕ
  createdAt : ℕ
  deriving DecidableEq, Repr

structure DeletionRequest where
  memberKey : PublicKey
  requestedAt : ℕ
  expiresAt : ℕ
  deriving DecidableEq, Repr

/-- The database, with the bytes that the storage directory holds under each hash. -/
structure Db where
  genesis : Option Genesis
  events : List Event
  messages : Table MessageRow
  messagesFts : List (ℕ × String)
  channels : List ChannelRow
  nextChannel : ℕ
  files : Table FileRow
  blobs : List (String × List UInt8)
  attachments : Table AttachmentRow
  reactions : List ReactionRow
  deletionRequests : List DeletionRequest

structure ServerState where
  db : Db
  logState : Option LogState

namespace Db

def empty : Db where
  genesis := none
  events := []
  messages := .empty
  messagesFts := []
  channels := []
  nextChannel := 1
  files := .empty
  blobs := []
  attachments := .empty
  reactions := []
  deletionRequests := []

variable (db : Db)

/-- A 64-bit id as the database stores it, as a signed number. -/
def rowId (id : ℕ) : ℤ :=
  if id % 2 ^ 64 < 2 ^ 63 then ((id % 2 ^ 64 : ℕ) : ℤ) else ((id % 2 ^ 64 : ℕ) : ℤ) - 2 ^ 64

/-- The table of channels has an id left to give. -/
def HasRowId : Prop := db.nextChannel < 2 ^ 63

instance : Decidable db.HasRowId := inferInstanceAs (Decidable (_ < _))

def requireRowId : Checked Unit := ensure db.HasRowId "database or disk is full"

def nextAfter (id : ℕ) : ℕ := max db.nextChannel (rowId id + 1).toNat

def rowOfHash (hash : EventHash) : Option (ℕ × MessageRow) :=
  db.messages.find? fun x => x.2.eventHash = some hash

/-- `channels::get_channel`. -/
def getChannel (id : ℕ) : Option ChannelRow :=
  db.channels.find? fun ch => ch.id = id ∧ ch.deleted = false

/-! ## The content class of a channel -/

inductive ChannelWriteClass where
  | plaintext
  | e2ee
  /-- No row, or a value the server does not know: treated as encrypted. -/
  | unresolvable
  deriving DecidableEq, Repr

def e2eeRefused : String := "not available in encrypted channels"

def channelRow (id : ℕ) : Option ChannelRow := db.channels.find? fun ch => ch.id = id

def channelRowExists (id : ℕ) : Bool := (db.channelRow id).isSome

def resolve (channelId : ℕ) : ChannelWriteClass :=
  match (db.channelRow channelId).bind ChannelRow.contentClass with
  | some .plaintext => .plaintext
  | some .e2ee => .e2ee
  | none => .unresolvable

def requirePlaintext (channelId : ℕ) : Checked Unit :=
  ensure (db.resolve channelId = .plaintext)
    s!"{e2eeRefused} (channel {channelId})"

/-- The guard of the plaintext door of the log: a channel without a row is let through. -/
def requirePlaintextForDerived (channelId : ℕ) : Checked Unit :=
  match db.resolve channelId with
  | .plaintext => .ok ()
  | .e2ee => .error (.rejected s!"{e2eeRefused} (channel {channelId})")
  | .unresolvable =>
    ensure (db.channelRowExists channelId = false) s!"{e2eeRefused} (channel {channelId})"

def requireE2ee (channelId : ℕ) : Checked Unit :=
  ensure (db.resolve channelId = .e2ee)
    s!"sealed content is only accepted in encrypted channels (channel {channelId})"

end Db
end Server
