import Farder.Support.Execution
import Farder.Support.Feed
import Farder.Ui.Messages

/-! # The open channel of a client

The server tells of every change of a channel's messages, in order. The client fetches pages of the
history meanwhile, and puts them into its list when they come. In a direct channel it decrypts what it
shows. -/
namespace Ui

/-- `dmDecrypt` fails on what was not encrypted. -/
inductive ChannelKind where
  | text
  | e2ee
  | dm (dmDecrypt : String → Option String)

structure Channel where
  id : ℕ
  kind : ChannelKind

/-- What the server tells of a channel. -/
inductive Notice where
  | newMessage (message : MessageInfo)
  | sealedMessage (message : MessageInfo)
  | messageEdited (messageId : ℕ) (newContent : String) (editedAt : ℕ)
  | sealedMessageEdited (message : MessageInfo)
  | messageDeleted (messageId : ℕ)
  | messagePinChanged (messageId : ℕ) (pinned : Bool)

namespace Notice

def messageId : Notice → ℕ
  | newMessage message => message.id
  | sealedMessage message => message.id
  | messageEdited messageId .. => messageId
  | sealedMessageEdited message => message.id
  | messageDeleted messageId => messageId
  | messagePinChanged messageId _ => messageId

def posts : Notice → Bool
  | newMessage _ => true
  | sealedMessage _ => true
  | _ => false

def deletes (id : ℕ) : Notice → Bool
  | messageDeleted messageId => messageId = id
  | _ => false

/-- Only an end-to-end encrypted channel has sealed messages, and it has no others. -/
def isSealed : Notice → Option Bool
  | newMessage _ => some false
  | messageEdited .. => some false
  | sealedMessage _ => some true
  | sealedMessageEdited _ => some true
  | _ => none

/-- The rows of the channel on the server. -/
def record (rows : List MessageInfo) : Notice → List MessageInfo
  | newMessage message => rows ++ [message]
  | sealedMessage message => rows ++ [message]
  | messageEdited messageId newContent editedAt => rows.map fun m =>
      if m.id = messageId then { m with content := newContent, editedAt := some editedAt } else m
  | sealedMessageEdited message => rows.map fun m => if m.id = message.id then message else m
  | messageDeleted messageId => rows.filter fun m => m.id ≠ messageId
  | messagePinChanged messageId pinned => rows.map fun m =>
      if m.id = messageId then { m with pinned } else m

end Notice

def ids (rows : List MessageInfo) : List ℕ := rows.map MessageInfo.id

def history (log : List Notice) : List MessageInfo := log.foldl Notice.record []

def pageSize : ℕ := 50

/-- `fetch_history`: the newest messages first. -/
def fetchHistory (rows : List MessageInfo) (beforeId : Option ℕ) : List MessageInfo :=
  (rows.filter fun m => beforeId.all fun before => m.id < before).reverse.take pageSize

/-- Why a page is fetched: the channel is selected, a direct channel is opened in its panel, or the
list is scrolled up to its oldest message. -/
inductive Purpose where
  | select
  | dmPanel
  | scroll (oldest : ℕ)
  deriving DecidableEq

def Purpose.beforeId : Purpose → Option ℕ
  | scroll oldest => some oldest
  | _ => none

/-- A page, and how many notices the server had sent when it was read. -/
structure Page where
  taken : ℕ
  rows : List MessageInfo

/-- A request for a page; `asked` counts the notices that had come before it was made. -/
structure Fetch where
  purpose : Purpose
  asked : ℕ
  answer : Option Page

/-- The server's notices, of which some have come to the client, and the client's list. Messages of a
direct channel wait in `decrypts`. The list goes back to at least what came after `since`. -/
structure Timeline where
  log : List Notice
  delivered : ℕ
  messages : List MessageInfo
  decrypts : List MessageInfo
  fetches : List Fetch
  since : ℕ

inductive Op where
  | notice (n : Notice)
  | select
  | dmPanel
  | scroll
  | snapshot (i : ℕ)
  | answered (i : ℕ)
  | deliver
  | decrypted (i : ℕ)

namespace Channel

variable (ch : Channel)

/-- A content that cannot be decrypted is shown as it is. -/
def opened (content : String) : String :=
  match ch.kind with
  | .dm dmDecrypt => (dmDecrypt content).getD content
  | _ => content

def shown (m : MessageInfo) : MessageInfo := { m with content := ch.opened m.content }

/-- Ids are given in order, and what is changed is there. -/
def Allows (log : List Notice) (n : Notice) : Prop :=
  n.isSealed ≠ some (match ch.kind with | .e2ee => false | _ => true) ∧
    if n.posts then ∀ n' ∈ log, n'.messageId < n.messageId else n.messageId ∈ ids (history log)

instance (log : List Notice) (n : Notice) : Decidable (ch.Allows log n) :=
  inferInstanceAs (Decidable (_ ∧ _))

/-- The listeners. -/
def hear (s : Timeline) : Notice → Timeline
  | .newMessage message =>
    match ch.kind with
    | .dm _ => { s with decrypts := s.decrypts ++ [message] }
    | _ => { s with messages := reduce (.newMessage message) s.messages }
  | .sealedMessage message =>
    { s with messages := reduce (.addOrUpdateMessage message) s.messages }
  | .sealedMessageEdited message =>
    { s with messages := reduce (.addOrUpdateMessage message) s.messages }
  | .messageEdited messageId newContent editedAt =>
    { s with messages := reduce (.messageEdited ch.id messageId newContent editedAt) s.messages }
  | .messageDeleted messageId =>
    { s with messages := reduce (.messageDeleted ch.id messageId) s.messages }
  | .messagePinChanged messageId pinned =>
    { s with messages := reduce (.messagePinChanged ch.id messageId pinned) s.messages }

/-- What comes of a page. Only the panel of a direct channel decrypts it. -/
def receive (s : Timeline) (f : Fetch) (page : Page) : Timeline :=
  match f.purpose with
  | .select =>
    { s with messages := reduce (.setMessages ch.id page.rows.reverse) s.messages, since := f.asked }
  | .dmPanel =>
    { s with
      messages := reduce (.setMessages ch.id (page.rows.map ch.shown).reverse) s.messages
      since := f.asked }
  | .scroll _ =>
    if page.rows = [] then s
    else { s with messages := reduce (.prependMessages ch.id page.rows.reverse) s.messages }

def step (s : Timeline) : Op → Option Timeline
  | .notice n => if ch.Allows s.log n then some { s with log := s.log ++ [n] } else none
  | .select => some { s with fetches := s.fetches ++ [⟨.select, s.delivered, none⟩] }
  | .dmPanel => some { s with fetches := s.fetches ++ [⟨.dmPanel, s.delivered, none⟩] }
  | .scroll => s.messages.head?.map fun oldest =>
      { s with fetches := s.fetches ++ [⟨.scroll oldest.id, s.delivered, none⟩] }
  | .snapshot i =>
    match s.fetches[i]? with
    | some ⟨purpose, asked, none⟩ =>
      let page := ⟨s.log.length, fetchHistory (history s.log) purpose.beforeId⟩
      some { s with fetches := s.fetches.set i ⟨purpose, asked, some page⟩ }
    | _ => none
  | .answered i =>
    match s.fetches[i]? with
    | some ⟨purpose, asked, some page⟩ =>
      some (ch.receive { s with fetches := s.fetches.eraseIdx i } ⟨purpose, asked, some page⟩ page)
    | _ => none
  | .deliver =>
    match s.log[s.delivered]? with
    | some n => some (ch.hear { s with delivered := s.delivered + 1 } n)
    | none => none
  | .decrypted i =>
    match s.decrypts[i]? with
    | some message =>
      some { s with
        decrypts := s.decrypts.eraseIdx i
        messages := reduce (.newMessage (ch.shown message)) s.messages }
    | none => none

abbrev TimelineRun := Execution fun s op t => ch.step s op = some t

end Channel

/-- What the server has sent of a channel since it was created. -/
inductive Channel.Log (ch : Channel) : List Notice → Prop where
  | nil : Channel.Log ch []
  | snoc {log : List Notice} {n : Notice} : Channel.Log ch log → ch.Allows log n →
      Channel.Log ch (log ++ [n])

theorem Channel.Log.of_append {ch : Channel} {a b : List Notice} (h : ch.Log (a ++ b)) : ch.Log a := by
  induction b using List.reverseRecOn with
  | nil => rwa [List.append_nil] at h
  | append_singleton b n ih =>
    rw [← List.append_assoc] at h
    generalize hc : a ++ b ++ [n] = c at h
    cases h with
    | nil => simp at hc
    | snoc h _ =>
      obtain ⟨rfl, -⟩ := List.append_singleton_inj.mp hc
      exact ih h

/-- A channel that has just been opened, whatever has happened in it. -/
structure Timeline.Opened (ch : Channel) (s : Timeline) : Prop where
  log : ch.Log s.log
  delivered : s.delivered ≤ s.log.length
  messages : s.messages = []
  decrypts : s.decrypts = []
  fetches : s.fetches = []
  since : s.since = s.delivered

/-- Nothing is pending. -/
structure Timeline.Quiet (s : Timeline) : Prop where
  delivered : s.delivered = s.log.length
  decrypts : s.decrypts = []
  fetches : s.fetches = []

end Ui
