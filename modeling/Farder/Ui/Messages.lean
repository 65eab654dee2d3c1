import Farder.Server.HostRun

/-! # The messages that a client shows

The reducer of the client, for the list of messages that it keeps of each channel, and the listeners
that turn the events of a server into actions. -/
namespace Ui

open EventLog Server

/-- A message in the list: the fields that the reducer and its hooks read. -/
structure MessageInfo where
  id : ℕ
  channelId : ℕ
  author : PublicKey
  content : String
  timestamp : ℕ
  editedAt : Option ℕ
  pinned : Bool
  reactions : List ReactionGroup
  isE2ee : Bool
  sealed : Option (List UInt8)
  eventHash : Option EventHash
  deriving DecidableEq

inductive Action where
  | setMessages (channelId : ℕ) (messages : List MessageInfo)
  | prependMessages (channelId : ℕ) (messages : List MessageInfo)
  | newMessage (message : MessageInfo)
  | addOrUpdateMessage (message : MessageInfo)
  | messageEdited (channelId messageId : ℕ) (newContent : String) (editedAt : ℕ)
  | messageDeleted (channelId messageId : ℕ)
  | messagePinChanged (channelId messageId : ℕ) (pinned : Bool)
  | reactionAdded (channelId messageId : ℕ) (emoji : String) (me : Bool) (fileId : Option ℕ)
  | reactionRemoved (channelId messageId : ℕ) (emoji : String) (fileId : Option ℕ)

def Action.channelId : Action → ℕ
  | .setMessages channelId _ => channelId
  | .prependMessages channelId _ => channelId
  | .newMessage message => message.channelId
  | .addOrUpdateMessage message => message.channelId
  | .messageEdited channelId .. => channelId
  | .messageDeleted channelId _ => channelId
  | .messagePinChanged channelId .. => channelId
  | .reactionAdded channelId .. => channelId
  | .reactionRemoved channelId .. => channelId

namespace MessageInfo

variable (m : MessageInfo)

def sameGroup (emoji : String) (fileId : Option ℕ) (r : ReactionGroup) : Bool :=
  r.emoji = emoji ∧ r.fileId = fileId

def addReaction (emoji : String) (me : Bool) (fileId : Option ℕ) : MessageInfo :=
  match m.reactions.find? (sameGroup emoji fileId) with
  | some existing =>
    if me && existing.me then m
    else { m with reactions := m.reactions.map fun r =>
             if sameGroup emoji fileId r then { r with count := r.count + 1, me := me || r.me }
             else r }
  | none => { m with reactions := m.reactions ++ [⟨emoji, 1, me, fileId⟩] }

def removeReaction (emoji : String) (fileId : Option ℕ) : MessageInfo :=
  { m with
    reactions := (m.reactions.map fun r =>
      if sameGroup emoji fileId r then { r with count := r.count - 1 } else r).filter fun r =>
        decide (0 < r.count) }

end MessageInfo

/-- A message is put in its place in the list, or at its end. -/
def addOrUpdate (message : MessageInfo) (messages : List MessageInfo) : List MessageInfo :=
  if messages.any fun m => m.id = message.id then
    messages.modify (messages.findIdx fun m => m.id = message.id) fun _ => message
  else messages ++ [message]

theorem mem_addOrUpdate {message x : MessageInfo} {messages : List MessageInfo}
    (h : x ∈ addOrUpdate message messages) : x ∈ messages ∨ x = message := by
  unfold addOrUpdate at h
  split_ifs at h
  · obtain ⟨i, hi⟩ := List.mem_iff_getElem?.mp h
    rw [List.getElem?_modify] at hi
    obtain ⟨y, hy, rfl⟩ := Option.map_eq_some_iff.mp hi
    split_ifs
    · exact .inr rfl
    · exact .inl (List.mem_of_getElem? hy)
  · exact (List.mem_append.mp h).imp_right List.mem_singleton.mp

/-- The list of the channel that the action is about. -/
def reduce (action : Action) (messages : List MessageInfo) : List MessageInfo :=
  match action with
  | .setMessages _ answer => answer
  | .prependMessages _ answer => answer ++ messages
  | .newMessage message =>
    if messages.any fun m => m.id = message.id then messages else messages ++ [message]
  | .addOrUpdateMessage message => addOrUpdate message messages
  | .messageEdited _ messageId newContent editedAt => messages.map fun m =>
      if m.id = messageId then { m with content := newContent, editedAt := some editedAt } else m
  | .messageDeleted _ messageId => messages.filter fun m => m.id ≠ messageId
  | .messagePinChanged _ messageId pinned => messages.map fun m =>
      if m.id = messageId then { m with pinned } else m
  | .reactionAdded _ messageId emoji me fileId => messages.map fun m =>
      if m.id = messageId then m.addReaction emoji me fileId else m
  | .reactionRemoved _ messageId emoji fileId => messages.map fun m =>
      if m.id = messageId then m.removeReaction emoji fileId else m

def reduceChannel (channelId : ℕ) (messages : List MessageInfo) (action : Action) :
    List MessageInfo :=
  if action.channelId = channelId then reduce action messages else messages

/-- The listeners for reactions, on a client that knows its own key and shows the server. -/
def reactionAction (ownPk : PublicKey) (event : ServerEvent) : Option Action :=
  match event with
  | .reactionAdded messageId channelId emoji member fileId =>
    some (.reactionAdded channelId messageId emoji (member = ownPk) fileId)
  | .reactionRemoved messageId channelId emoji _ fileId =>
    some (.reactionRemoved channelId messageId emoji fileId)
  | _ => none

end Ui
