import Farder.Support.Execution
import Farder.Ui.SealedDecrypt

/-! # The local history

What the client has opened is kept in a store on the device, one for all servers. It is written,
purged and read by commands that run in any order; a server's events are heard only while the server
is shown. -/
namespace Ui

open EventLog Server

structure Message where
  server : ℕ
  channelId : ℕ
  id : ℕ
  author : PublicKey
  eventHash : Option EventHash
  deriving DecidableEq

/-- `HistoryRecord`. The store does not know of which server the message is. -/
structure HistoryRecord where
  server : ℕ
  channelId : ℕ
  messageId : ℕ
  eventHash : EventHash
  author : PublicKey
  content : String
  deriving DecidableEq

namespace HistoryRecord

variable (r : HistoryRecord)

def key : ℕ × ℕ × EventHash := (r.channelId, r.messageId, r.eventHash)

def version : ℕ × ℕ × ℕ × EventHash := (r.server, r.key)

def message : ℕ × ℕ × ℕ := (r.server, r.channelId, r.messageId)

/-- A missing event hash is stored as an empty one. -/
def restoredHash : Option EventHash := if r.eventHash = "" then none else some r.eventHash

end HistoryRecord

inductive Purge where
  | message (channelId messageId : ℕ)
  | author (pk : PublicKey)
  deriving DecidableEq

def Purge.hits (r : HistoryRecord) : Purge → Bool
  | message channelId messageId => r.channelId = channelId ∧ r.messageId = messageId
  | author pk => r.author = pk

/-- `INSERT OR REPLACE`. -/
def putRecord (store : List HistoryRecord) (r : HistoryRecord) : List HistoryRecord :=
  store.filter (fun x => x.key ≠ r.key) ++ [r]

def purge (store : List HistoryRecord) (p : Purge) : List HistoryRecord :=
  store.filter fun r => !p.hits r

/-- The most that is read of a channel. -/
def hydrateLimit : ℕ := 200

/-- Records of a channel in the order in which they are read, the newest first; of one message they
come in any order. -/
def ReadOrder (store : List HistoryRecord) (channelId : ℕ) (rows : List HistoryRecord) : Prop :=
  rows.Perm (store.filter fun r => r.channelId = channelId) ∧
    rows.Pairwise fun a b => b.messageId ≤ a.messageId

instance {store : List HistoryRecord} {channelId : ℕ} {rows : List HistoryRecord} :
    Decidable (ReadOrder store channelId rows) :=
  inferInstanceAs (Decidable (_ ∧ _))

structure Opening where
  server : ℕ
  channelId : ℕ
  row : MessageInfo

/-- The client, with the commands that have not ended. `written` and `deleted` are the messages that
its servers have had, and those that have been deleted there; `landed` is all that has ever been
stored. -/
structure App where
  active : Option ℕ
  servers : ℕ → PerServer
  openings : List Opening
  puts : List HistoryRecord
  purges : List Purge
  store : List HistoryRecord
  written : List Message
  deleted : List (ℕ × ℕ × ℕ)
  landed : List HistoryRecord

inductive AppOp where
  | posted (message : Message)
  | sealedMessage (server : ℕ) (row : MessageInfo)
  | loaded (server channelId : ℕ) (scrolled : Bool) (rows : List MessageInfo)
  | messageDeleted (server channelId messageId : ℕ)
  | memberDataDeleted (server : ℕ) (author : PublicKey)
  | activate (server : ℕ)
  | sent (server : ℕ) (eventHash : EventHash) (content : String)
  | hydrate (channelId : ℕ) (rows : Option (List HistoryRecord))
  | scan (channelId i : ℕ)
  | settle (i : ℕ) (content : Option String)
  | putDone (i : ℕ) (ok : Bool)
  | purgeDone (i : ℕ) (ok : Bool)
  | restart

/-- What is put into the store of a row that is shown in a channel. -/
def MessageInfo.record (server channelId : ℕ) (m : MessageInfo) (content : String) :
    HistoryRecord where
  server := server
  channelId := channelId
  messageId := m.id
  eventHash := m.eventHash.getD ""
  author := m.author
  content := content

namespace App

variable (ownPk : PublicKey) (s : App)

def initial : App := ⟨none, fun _ => .initial, [], [], [], [], [], [], []⟩

def onServer (server : ℕ) (f : PerServer → PerServer) : App :=
  { s with servers := Function.update s.servers server (f (s.servers server)) }

/-- A server's row of a message; when its author's data is deleted, the row loses the author. -/
def HasRow (server channelId : ℕ) (row : MessageInfo) : Prop :=
  ∃ m ∈ s.written, m.server = server ∧ m.channelId = channelId ∧ m.id = row.id ∧
    m.eventHash = row.eventHash ∧ (row.author = m.author ∨ row.author = deletedUserKey)

instance (server channelId : ℕ) (row : MessageInfo) : Decidable (s.HasRow server channelId row) :=
  inferInstanceAs (Decidable (∃ m ∈ _, _))

def isOpening (server : ℕ) (m : MessageInfo) : Bool :=
  s.openings.any fun o => o.server = server ∧ o.row.id = m.id ∧ o.row.eventHash = m.eventHash

def messagesOf (server : ℕ) (author : PublicKey) : List (ℕ × ℕ × ℕ) :=
  (s.written.filter fun m => m.server = server ∧ m.author = author).map
    fun m => (m.server, m.channelId, m.id)

def scanRow (server channelId : ℕ) (m : MessageInfo) : App :=
  match (s.servers server).pass ownPk (s.isOpening server m) m with
  | .skip => s
  | .own content =>
    { s.onServer server (·.setDecrypt m.id (.decrypted content m.eventHash)) with
      puts := s.puts ++ [m.record server channelId content] }
  | .opens _ => { s with openings := s.openings ++ [⟨server, channelId, m⟩] }

/-- What has been opened is shown, and goes into the store. -/
def settle (o : Opening) : Option String → App
  | some content =>
    { s.onServer o.server (·.setDecrypt o.row.id (.decrypted content o.row.eventHash)) with
      puts := s.puts ++ [o.row.record o.server o.channelId content] }
  | none => s.onServer o.server (·.setDecrypt o.row.id (.undecryptable o.row.eventHash))

/-- What has been read of the store is shown. -/
def restore (server : ℕ) (rows : List HistoryRecord) : App :=
  s.onServer server fun v =>
    rows.foldl (fun v r => v.setDecrypt r.messageId (.decrypted r.content r.restoredHash)) v

def step : AppOp → Option App
  | .posted message =>
    if ∀ m ∈ s.written, m.server = message.server → m.id ≠ message.id then
      some { s with written := s.written ++ [message] }
    else none
  | .sealedMessage server row =>
    if s.HasRow server row.channelId row then
      if s.active = some server then some (s.onServer server (·.dispatch (.addOrUpdateMessage row)))
      else some s
    else none
  | .loaded server channelId scrolled rows =>
    if ∀ row ∈ rows, s.HasRow server channelId row then
      some (s.onServer server (·.dispatch
        (if scrolled then .prependMessages channelId rows else .setMessages channelId rows)))
    else none
  | .messageDeleted server channelId messageId =>
    let s := { s with deleted := s.deleted ++ [(server, channelId, messageId)] }
    if s.active = some server then
      some { s.onServer server (·.dispatch (.messageDeleted channelId messageId)) with
        purges := s.purges ++ [.message channelId messageId] }
    else some s
  | .memberDataDeleted server author =>
    let s := { s with deleted := s.deleted ++ s.messagesOf server author }
    if s.active = some server then some { s with purges := s.purges ++ [.author author] }
    else some s
  | .activate server => some { s with active := some server }
  | .sent server eventHash content =>
    some (s.onServer server fun v =>
      { v with ownSealedSends := Function.update v.ownSealedSends eventHash (some content) })
  | .hydrate channelId rows =>
    match s.active with
    | none => none
    | some server =>
      if (s.servers server).historyHydrated channelId then none
      else match rows with
        | none => some (s.onServer server (·.hydrated channelId))
        | some rows =>
          if ReadOrder s.store channelId rows then
            some ((s.restore server (rows.take hydrateLimit)).onServer server (·.hydrated channelId))
          else none
  | .scan channelId i =>
    match s.active with
    | none => none
    | some server =>
      if (s.servers server).historyHydrated channelId then
        (((s.servers server).messages channelId)[i]?).map (s.scanRow ownPk server channelId)
      else none
  | .settle i content =>
    s.openings[i]?.map fun o => { s with openings := s.openings.eraseIdx i }.settle o content
  | .putDone i ok =>
    s.puts[i]?.map fun r =>
      let s := { s with puts := s.puts.eraseIdx i }
      if ok then { s with store := putRecord s.store r, landed := s.landed ++ [r] } else s
  | .purgeDone i ok =>
    s.purges[i]?.map fun p =>
      let s := { s with purges := s.purges.eraseIdx i }
      if ok then { s with store := purge s.store p } else s
  | .restart => some
      { s with
        active := none, servers := fun _ => .initial, openings := [], puts := [], purges := [] }

end App

abbrev AppRun (ownPk : PublicKey) := Execution fun s op t => App.step ownPk s op = some t

end Ui
