import Farder.Server.MemberRequests

/-! # Requests about messages

Posting, editing and deleting, threads and reactions, and the opening of a direct message. A
request that asks whether somebody is timed out clears a timeout that it finds expired. -/
namespace Server

open EventLog Guarded Permissions

inductive MessageRequest where
  | sendMessage (channelId : ℕ) (content : String) (replyTo : Option ℕ) (attachmentIds : List ℕ)
  | editMessage (messageId : ℕ) (newContent : String)
  | deleteMessage (messageId : ℕ)
  | pinMessage (messageId : ℕ)
  | unpinMessage (messageId : ℕ)
  | createThread (messageId : ℕ) (name : Option String)
  | addReaction (messageId : ℕ) (emoji : String) (fileId : Option ℕ)
  | removeReaction (messageId : ℕ) (emoji : String) (fileId : Option ℕ)
  | openDm (targetKey : PublicKey)
  | reportMessage (channelId messageId : ℕ) (eventHash : Option String) (reason : String)
      (evidence : Option String)

def customEmoji : String := ":custom:"

namespace Db

variable (db : Db)

/-- `messages::insert_message`. -/
def insertMessage (channelId : ℕ) (author : PublicKey) (content : String) (replyTo : Option ℕ)
    (now : ℕ) : Checked Db := do
  db.requirePlaintext channelId
  db.insertRow ⟨channelId, author, content, now, none, replyTo, none, none, false⟩

def reactionGroups (messageId : ℕ) : List (String × ℕ) :=
  ((db.reactions.filter fun r => r.messageId = messageId).map fun r => (r.emoji, r.fileId)).dedup

def checkReaction (messageId : ℕ) (emoji : String) (fileId : Option ℕ) : Checked Unit := do
  ensure (emoji ≠ "") "emoji cannot be empty"
  ensure (emoji.utf8ByteSize ≤ 32) "emoji too long (max 32 bytes)"
  ensure (emoji = customEmoji → fileId ≠ none) "custom emoji reaction requires file_id"
  ensure (emoji ≠ customEmoji → fileId = none) "non-custom emoji must not include file_id"
  ensure ((emoji, fileId.getD 0) ∈ db.reactionGroups messageId ∨
      (db.reactionGroups messageId).length < 20)
    "maximum 20 unique reactions per message"

def isReaction (messageId : ℕ) (user : PublicKey) (emoji : String) (fileId : Option ℕ)
    (r : ReactionRow) : Bool :=
  r.messageId = messageId ∧ r.userKey = user ∧ r.emoji = emoji ∧ r.fileId = fileId.getD 0

def hasReaction (messageId : ℕ) (user : PublicKey) (emoji : String) (fileId : Option ℕ) : Bool :=
  db.reactions.any (isReaction messageId user emoji fileId)

def addReaction (messageId : ℕ) (user : PublicKey) (emoji : String) (fileId : Option ℕ)
    (now : ℕ) : Checked Db := do
  db.checkReaction messageId emoji fileId
  return { db with reactions :=
            if db.hasReaction messageId user emoji fileId then db.reactions
            else db.reactions ++ [⟨messageId, user, emoji, fileId.getD 0, now⟩] }

def removeReaction (messageId : ℕ) (user : PublicKey) (emoji : String) (fileId : Option ℕ) : Db :=
  { db with reactions := db.reactions.filter fun r => !isReaction messageId user emoji fileId r }

end Db

def threadName (name : Option String) (content : String) : String :=
  name.getD <|
    let start := String.ofList (content.toList.take 50)
    if start = "" then "Thread" else start

namespace Host

variable (host : Host) (member : PublicKey) (isOwner : Bool) (moment : Moment)

def expireTimeout (pk : PublicKey) (nowMs : ℕ) : Host :=
  host.withCommunity (host.community.expireTimeout pk nowMs)

/-- The rule of a direct message, or `SEND_MESSAGES` in any other channel. -/
def requirePosting (channelId : ℕ) : Checked Unit := do
  let channel ← context (host.db.getChannel channelId) "channel not found"
  if channel.channelType = .dm then do
    ensure (host.community.isDmParticipant member channelId) "not a participant in this DM"
    ensureIfSome (host.community.dmPartner member channelId)
      (fun other => host.community.isBlocked member other = false) "this user is blocked"
  else host.requirePerm member isOwner channelId sendMessages "SEND_MESSAGES"

def postMessage (channelId : ℕ) (content : String) (replyTo : Option ℕ)
    (attachmentIds : List ℕ) : Checked Host := do
  host.requireNotTimedOut member moment.nowMs
  host.requirePlaintextChannel member channelId
  ensure (content.utf8ByteSize ≤ maxMessageBytes) "message content too long (max 8000 characters)"
  ensure (attachmentIds.length ≤ 10) "too many attachments (max 10)"
  host.requirePosting member isOwner channelId
  host.withDb <$> host.db.insertMessage channelId member content replyTo moment.now

/-- Attach the files of a message one by one; those before one that is refused stay attached. -/
def attachFiles (messageId : ℕ) (host : Host) : List (ℕ × ℕ) → Host × Checked Unit
  | [] => (host, .ok ())
  | (fileId, position) :: rest =>
    let attachable : Checked FileRow := do
      let file ← context (host.db.files.get? fileId) s!"attachment file_id {fileId} not found"
      ensure (file.uploadedBy = member ∨ isOwner = true)
        "cannot attach files uploaded by another member"
      return file
    match attachable with
    | .error failure => (host, .error failure)
    | .ok file =>
      attachFiles messageId (host.withDb (host.db.createMessageAttachment messageId fileId
        position file.originalName file.media)) rest

def sendMessage (channelId : ℕ) (content : String) (replyTo : Option ℕ)
    (attachmentIds : List ℕ) : Host × Checked Answer :=
  let host := host.expireTimeout member moment.nowMs
  let messageId := host.db.messages.next
  match host.postMessage member isOwner moment channelId content replyTo attachmentIds with
  | .error failure => (host, .error failure)
  | .ok posted =>
    let attached := attachFiles member isOwner messageId posted attachmentIds.zipIdx
    (attached.1, do
      attached.2
      let message ← context (attached.1.getMessage messageId) "failed to retrieve sent message"
      return .of (.messageSent messageId message.row.timestamp)
        [toSubscribers channelId (.newMessage message)])

def editMessage (messageId : ℕ) (newContent : String) : Host × Checked Answer :=
  host.commit
    (host.withDb <$> host.db.requestEditMessage member messageId newContent
      (host.connectionSpeaksV2 member) moment.now)
    fun host' => do
      let updated ← expect (host'.db.messages.get? messageId) unwrapNone
      return .ok [toSubscribers updated.channelId
        (.messageEdited messageId updated.channelId newContent (updated.editedAt.getD 0))]

def deleteMessage (messageId : ℕ) : Host × Checked Answer :=
  let deleted : Checked (ℕ × Db × List ℕ) := do
    let row ← context (host.db.messages.get? messageId) "message not found"
    let deleted ← host.db.requestDeleteMessage member messageId
      (has (host.resolveMemberPerms member isOwner row.channelId) manageMessages)
    return (row.channelId, deleted)
  match deleted with
  | .error failure => (host, .error failure)
  | .ok (channelId, db, orphans) =>
    (host.withDb db,
      .ok ⟨.ok, toSubscribers channelId (.messageDeleted messageId channelId) ::
        moment.openWidget.toList.map fun widget =>
          toSubscribers channelId (.widgetUpdated widget), orphans⟩)

/-- `PinMessage` and `UnpinMessage`. -/
def setPinned (messageId : ℕ) (pin : Finset ℕ → Finset ℕ) (event : ℕ → ServerEvent) :
    Host × Checked Answer :=
  host.commit
    (do
      let row ← context (host.db.messages.get? messageId) "message not found"
      host.requirePerm member isOwner row.channelId manageMessages "MANAGE_MESSAGES"
      return host.withCommunity { host.community with pinned := pin host.community.pinned })
    fun _ =>
      let channelId := ((host.db.messages.get? messageId).map MessageRow.channelId).getD 0
      return .ok [toSubscribers channelId (event channelId)]

def pinMessage (messageId : ℕ) : Host × Checked Answer :=
  host.setPinned member isOwner messageId (insert messageId) (.messagePinned messageId)

def unpinMessage (messageId : ℕ) : Host × Checked Answer :=
  host.setPinned member isOwner messageId (·.erase messageId) (.messageUnpinned messageId)

/-! ## Threads and reactions -/

def createThread (messageId : ℕ) (name : Option String) : Host × Checked Answer :=
  host.commit
    (do
      let row ← context (host.db.messages.get? messageId) "message not found"
      host.requirePerm member isOwner row.channelId sendMessages "SEND_MESSAGES"
      host.requirePlaintextChannel member row.channelId
      let parent ← context (host.db.getChannel row.channelId) "parent channel not found"
      ensure (parent.channelType ≠ .thread) "cannot create threads inside threads"
      ensure (host.getThreadForMessage messageId = none) "thread already exists for this message"
      host.db.requireRowId
      return host.insertChannel (threadName name row.content) .thread 0
        { ChannelInfo.empty with
          categoryId := (host.community.channelInfo row.channelId).categoryId
          threadParentMessageId := some messageId })
    fun host' => do
      let thread ← expect (host'.db.getChannel host.db.nextChannel) unwrapNone
      return .ok [toAll (.channelCreated (host'.channelView thread))]

def addReaction (messageId : ℕ) (emoji : String) (fileId : Option ℕ) : Host × Checked Answer :=
  let host := host.expireTimeout member moment.nowMs
  host.commit
    (do
      host.requireNotTimedOut member moment.nowMs
      let row ← context (host.db.messages.get? messageId) "message not found"
      host.requirePerm member isOwner row.channelId readMessages "READ_MESSAGES"
      host.requirePlaintextChannel member row.channelId
      host.withDb <$> host.db.addReaction messageId member emoji fileId moment.now)
    fun _ =>
      let channelId := ((host.db.messages.get? messageId).map MessageRow.channelId).getD 0
      return .ok (if host.db.hasReaction messageId member emoji fileId then []
        else [toSubscribers channelId (.reactionAdded messageId channelId emoji member fileId)])

/-- No permission is asked for to take a reaction back. -/
def removeReaction (messageId : ℕ) (emoji : String) (fileId : Option ℕ) : Host × Checked Answer :=
  host.commit
    (do
      let row ← context (host.db.messages.get? messageId) "message not found"
      host.requirePlaintextChannel member row.channelId
      return host.withDb (host.db.removeReaction messageId member emoji fileId))
    fun _ =>
      let channelId := ((host.db.messages.get? messageId).map MessageRow.channelId).getD 0
      return .ok [toSubscribers channelId
        (.reactionRemoved messageId channelId emoji member fileId)]

/-! ## Direct messages and reports -/

def findDmChannel (a b : PublicKey) : Option ChannelRow :=
  host.db.channels.find? fun ch =>
    host.community.isDmParticipant a ch.id ∧ host.community.isDmParticipant b ch.id ∧
      ch.deleted = false

def createDmChannel (a b : PublicKey) : Host :=
  let id := host.db.nextChannel
  let created := host.insertChannel "" .dm 0 .empty
  created.withCommunity { created.community with
    dmParticipants := created.community.dmParticipants ++ [(id, a), (id, b)] }

def openDmChannel (a b : PublicKey) : Host :=
  if (host.findDmChannel a b).isSome then host else host.createDmChannel a b

def openDm (targetKey : PublicKey) : Host × Checked Answer :=
  host.commit
    (do
      ensure (member ≠ targetKey) "cannot open a DM with yourself"
      ensure (host.community.getMember targetKey ≠ none) "target user is not a member"
      ensure (host.community.isBlocked member targetKey = false) "this user is blocked"
      ensure ((host.findDmChannel member targetKey).isSome ∨ host.db.HasRowId)
        "database or disk is full"
      return (host.openDmChannel member targetKey).expireTimeout targetKey moment.nowMs)
    fun host' => do
      let channel ← context (host'.findDmChannel member targetKey)
        "DM channel not found after creation"
      let participant ← host'.buildMemberInfo targetKey moment.nowMs
      return .of (.dmOpened (host'.channelView channel) participant)
        (if (host.findDmChannel member targetKey).isSome then []
          else [toAll (.dmCreated (host'.channelView channel) participant)])

/-- A report with the author of the message that it names, wherever that message is. -/
def reportInfo (channelId messageId : ℕ) (eventHash : Option String) (reason : String)
    (evidence : Option String) : ReportInfo :=
  let author := (host.db.messages.get? messageId).map MessageRow.author
  { reporter := member, channelId, messageId, eventHash, author
    authorName := (author.bind host.community.getMember).map MemberRow.displayName
    reason, evidence, createdAt := moment.now }

def reportMessage (channelId messageId : ℕ) (eventHash : Option String) (reason : String)
    (evidence : Option String) : Host × Checked Answer :=
  host.commit
    (do
      ensure (has (host.resolveMemberPerms member isOwner channelId)
        (viewChannel ||| readMessages)) "cannot see that channel"
      ensure (reason ≠ "" ∧ reason.length ≤ 500)
        "a report needs a reason, of at most 500 characters"
      ensureIfSome evidence (fun ev => ev.length ≤ 8000) "the attached copy is too long"
      return host)
    fun host' => return .ok [⟨.permissionHolders manageMessages,
      .reportCreated (host'.reportInfo member moment channelId messageId eventHash reason
        evidence)⟩]

def handleMessageRequest (request : MessageRequest) : Host × Checked Answer :=
  match request with
  | .sendMessage channelId content replyTo attachmentIds =>
    host.sendMessage member isOwner moment channelId content replyTo attachmentIds
  | .editMessage messageId newContent => host.editMessage member moment messageId newContent
  | .deleteMessage messageId => host.deleteMessage member isOwner moment messageId
  | .pinMessage messageId => host.pinMessage member isOwner messageId
  | .unpinMessage messageId => host.unpinMessage member isOwner messageId
  | .createThread messageId name => host.createThread member isOwner messageId name
  | .addReaction messageId emoji fileId =>
    host.addReaction member isOwner moment messageId emoji fileId
  | .removeReaction messageId emoji fileId => host.removeReaction member messageId emoji fileId
  | .openDm targetKey => host.openDm member moment targetKey
  | .reportMessage channelId messageId eventHash reason evidence =>
    host.reportMessage member isOwner moment channelId messageId eventHash reason evidence

end Host

variable {host : Host} {member : PublicKey} {isOwner : Bool} {moment : Moment}

inductive MessageEffect (host : Host) (member : PublicKey) (isOwner : Bool) (moment : Moment) :
    MessageRequest → Host → Prop
  | refused (request : MessageRequest) : MessageEffect host member isOwner moment request host
  | expired (request : MessageRequest) :
      MessageEffect host member isOwner moment request (host.expireTimeout member moment.nowMs)
  | sendMessage {channelId : ℕ} {content : String} {replyTo : Option ℕ} {attachmentIds : List ℕ}
      {posted : Host}
      (hpost : (host.expireTimeout member moment.nowMs).postMessage member isOwner moment channelId
        content replyTo attachmentIds = .ok posted) :
      MessageEffect host member isOwner moment
        (.sendMessage channelId content replyTo attachmentIds)
        (posted.attachFiles member isOwner host.db.messages.next attachmentIds.zipIdx).1
  | editMessage {messageId : ℕ} {newContent : String} {db : Db}
      (hedit : host.db.requestEditMessage member messageId newContent
        (host.connectionSpeaksV2 member) moment.now = .ok db) :
      MessageEffect host member isOwner moment (.editMessage messageId newContent)
        (host.withDb db)
  | deleteMessage {messageId : ℕ} {row : MessageRow} {db : Db} {orphans : List ℕ}
      (hrow : host.db.messages.get? messageId = some row)
      (hdelete : host.db.requestDeleteMessage member messageId
        (has (host.resolveMemberPerms member isOwner row.channelId) manageMessages) =
          .ok (db, orphans)) :
      MessageEffect host member isOwner moment (.deleteMessage messageId) (host.withDb db)
  | pinMessage {messageId : ℕ} {row : MessageRow}
      (hrow : host.db.messages.get? messageId = some row)
      (hperm : has (host.resolveMemberPerms member isOwner row.channelId) manageMessages = true) :
      MessageEffect host member isOwner moment (.pinMessage messageId)
        (host.withCommunity { host.community with
          pinned := insert messageId host.community.pinned })
  | unpinMessage {messageId : ℕ} {row : MessageRow}
      (hrow : host.db.messages.get? messageId = some row)
      (hperm : has (host.resolveMemberPerms member isOwner row.channelId) manageMessages = true) :
      MessageEffect host member isOwner moment (.unpinMessage messageId)
        (host.withCommunity { host.community with
          pinned := host.community.pinned.erase messageId })
  | createThread {messageId : ℕ} {name : Option String} {row : MessageRow}
      (hrow : host.db.messages.get? messageId = some row)
      (hperm : has (host.resolveMemberPerms member isOwner row.channelId) sendMessages = true)
      (hroom : host.db.HasRowId) :
      MessageEffect host member isOwner moment (.createThread messageId name)
        (host.insertChannel (threadName name row.content) .thread 0
          { ChannelInfo.empty with
            categoryId := (host.community.channelInfo row.channelId).categoryId
            threadParentMessageId := some messageId })
  | addReaction {messageId : ℕ} {emoji : String} {fileId : Option ℕ} {row : MessageRow} {db : Db}
      (hrow : host.db.messages.get? messageId = some row)
      (hperm : has (host.resolveMemberPerms member isOwner row.channelId) readMessages = true)
      (hadd : host.db.addReaction messageId member emoji fileId moment.now = .ok db) :
      MessageEffect host member isOwner moment (.addReaction messageId emoji fileId)
        ((host.expireTimeout member moment.nowMs).withDb db)
  | removeReaction {messageId : ℕ} {emoji : String} {fileId : Option ℕ} {row : MessageRow}
      (hrow : host.db.messages.get? messageId = some row) :
      MessageEffect host member isOwner moment (.removeReaction messageId emoji fileId)
        (host.withDb (host.db.removeReaction messageId member emoji fileId))
  | openDm {targetKey : PublicKey} (hne : member ≠ targetKey)
      (hroom : (host.findDmChannel member targetKey).isSome ∨ host.db.HasRowId) :
      MessageEffect host member isOwner moment (.openDm targetKey)
        ((host.openDmChannel member targetKey).expireTimeout targetKey moment.nowMs)

theorem expireTimeout_eq (c : Community) (pk : PublicKey) (nowMs : ℕ) :
    c.expireTimeout pk nowMs = c ∨ c.expireTimeout pk nowMs = c.clearTimeout pk := by
  unfold Community.expireTimeout
  split
  · split_ifs
    · exact .inl rfl
    · exact .inr rfl
  · exact .inl rfl

@[simp] theorem resolveMemberPerms_expireTimeout (pk : PublicKey) (nowMs channelId : ℕ) :
    (host.expireTimeout pk nowMs).resolveMemberPerms member isOwner channelId =
      host.resolveMemberPerms member isOwner channelId := by
  rcases expireTimeout_eq host.community pk nowMs with h | h <;>
    simp only [Host.expireTimeout, h] <;> rfl

theorem messageRequest_effect (request : MessageRequest) :
    MessageEffect host member isOwner moment request
      (host.handleMessageRequest member isOwner moment request).1 := by
  cases request with
  | sendMessage channelId content replyTo attachmentIds =>
    simp only [Host.handleMessageRequest, Host.sendMessage]
    split
    · exact .expired _
    · next posted hpost => exact .sendMessage hpost
  | editMessage messageId newContent =>
    refine Host.commit_effect (.refused _) fun host' h => ?_
    obtain ⟨db, hedit, rfl⟩ := map_eq_ok.mp h
    exact .editMessage hedit
  | deleteMessage messageId =>
    simp only [Host.handleMessageRequest, Host.deleteMessage]
    split
    · exact .refused _
    · next channelId db orphans h =>
      simp only [bind_eq_ok, context_eq_ok, pure_eq_ok, Prod.mk.injEq] at h
      obtain ⟨row, hrow, ⟨db, orphans⟩, hdelete, -, rfl, rfl⟩ := h
      exact .deleteMessage hrow hdelete
  | pinMessage messageId =>
    refine Host.commit_effect (.refused _) fun host' h => ?_
    simp only [bind_eq_ok, context_eq_ok, requirePerm_eq_ok, pure_eq_ok] at h
    obtain ⟨row, hrow, ⟨⟩, hperm, rfl⟩ := h
    exact .pinMessage hrow hperm
  | unpinMessage messageId =>
    refine Host.commit_effect (.refused _) fun host' h => ?_
    simp only [bind_eq_ok, context_eq_ok, requirePerm_eq_ok, pure_eq_ok] at h
    obtain ⟨row, hrow, ⟨⟩, hperm, rfl⟩ := h
    exact .unpinMessage hrow hperm
  | createThread messageId name =>
    refine Host.commit_effect (.refused _) fun host' h => ?_
    simp only [bind_eq_ok, context_eq_ok, requirePerm_eq_ok, Db.requireRowId, ensure_eq_ok,
      pure_eq_ok] at h
    obtain ⟨row, hrow, ⟨⟩, hperm, ⟨⟩, -, parent, -, ⟨⟩, -, ⟨⟩, -, ⟨⟩, hroom, rfl⟩ := h
    exact .createThread hrow hperm hroom
  | addReaction messageId emoji fileId =>
    refine Host.commit_effect (.expired _) fun host' h => ?_
    simp only [bind_eq_ok, context_eq_ok, requirePerm_eq_ok, resolveMemberPerms_expireTimeout,
      map_eq_ok] at h
    obtain ⟨⟨⟩, -, row, hrow, ⟨⟩, hperm, ⟨⟩, -, db, hadd, rfl⟩ := h
    exact .addReaction hrow hperm hadd
  | removeReaction messageId emoji fileId =>
    refine Host.commit_effect (.refused _) fun host' h => ?_
    simp only [bind_eq_ok, context_eq_ok, pure_eq_ok] at h
    obtain ⟨row, hrow, ⟨⟩, -, rfl⟩ := h
    exact .removeReaction hrow
  | openDm targetKey =>
    refine Host.commit_effect (.refused _) fun host' h => ?_
    simp only [bind_eq_ok, ensure_eq_ok, pure_eq_ok] at h
    obtain ⟨⟨⟩, hne, ⟨⟩, -, ⟨⟩, -, ⟨⟩, hroom, rfl⟩ := h
    exact .openDm hne hroom
  | reportMessage channelId messageId eventHash reason evidence =>
    refine Host.commit_effect (.refused _) fun host' h => ?_
    simp only [bind_eq_ok, pure_eq_ok] at h
    obtain ⟨⟨⟩, -, ⟨⟩, -, ⟨⟩, -, rfl⟩ := h
    exact .refused _

end Server
