import Farder.Server.MessageRows
import Farder.Server.SampleHost
import Farder.Server.Versions

/-! # Who may post

`SendMessage` and `RunCommand` ask the server's roles, timeouts, direct messages and blocks, a
command when it is let in and not when it posts; a submitted event is judged by the log alone, and
the log knows none of these. -/
namespace Server

open EventLog Guarded Permissions

namespace Host

variable (K : Crypto) (host : Host) (member : PublicKey) (isOwner : Bool) (moment : Moment)
  (channelId : ℕ)

def IsDm : Prop := ∃ channel ∈ host.db.getChannel channelId, channel.channelType = .dm

instance : Decidable (host.IsDm channelId) :=
  inferInstanceAs (Decidable (∃ channel ∈ host.db.getChannel channelId, channel.channelType = .dm))

/-- The member lacks `SEND_MESSAGES` in the channel, is timed out, or is outside a direct
message or blocked in it. -/
def Barred : Prop :=
  has (host.resolveMemberPerms member isOwner channelId) sendMessages = false ∨
    host.community.isTimedOut member moment.nowMs ≠ none ∨
    host.IsDm channelId ∧ (host.community.isDmParticipant member channelId = false ∨
      ∃ other ∈ host.community.dmPartner member channelId,
        host.community.isBlocked member other = true)

/-- What `SendMessage` and `RunCommand` ask about the one who posts. -/
def MayPost : Prop :=
  host.community.isTimedOut member moment.nowMs = none ∧ host.db.resolve channelId = .plaintext ∧
    host.requirePosting member isOwner channelId = .ok ()

/-- The log lets the event put a row into the channel. -/
def LogAdmits (event : Event) : Prop :=
  ∃ ls ∈ host.server.logState, checkIngestCapsAt event moment.now = .ok () ∧
    checkEpochClaim ls event.core.payload = .ok () ∧ (∃ trial, ls.apply K event = .ok trial) ∧
    host.db.checkPosted event = .ok () ∧ (∀ e ∈ host.db.events, e.hash K ≠ event.hash K) ∧
    (∀ x ∈ host.db.messages, x.2.eventHash ≠ some (event.hash K)) ∧
    ∃ row, derivedRow K event none = some row ∧ row.channelId = channelId ∧
      host.db.view.classOf channelId = some row.contentClass

/-- The request passes its checks, and what it posts goes into the channel. -/
def Posts (request : Request) : Prop :=
  match request with
  | .message (.sendMessage id content _ attachmentIds) =>
    id = channelId ∧ host.MayPost member isOwner moment channelId ∧
      content.utf8ByteSize ≤ maxMessageBytes ∧ attachmentIds.length ≤ 10
  | .rerollGiveaway giveaway announcement =>
    host.community.isTimedOut member moment.nowMs = none ∧ announcement ≠ none ∧
      ∃ g ∈ giveaway, g.channelId = channelId ∧
        host.widgetChannelVisible member isOwner channelId = true ∧
        (g.creator = member ∨
          has (host.resolveMemberServerPerms member isOwner) manageServer = true) ∧
        g.ended = true ∧ g.winner ≠ none
  | .submitEvent event => host.LogAdmits K moment channelId event
  | _ => False

/-- A command is let in: its member passes the gate and the limiter, and may post in the channel. -/
def LetsInCommand (command : RunningCommand) : Prop :=
  host.contentBlockReason command.member = none ∧ moment.admitted = true ∧
    host.MayPost command.member command.isOwner moment command.channelId

/-- The last step of a command that posts into the channel, of which it asks for the class only. -/
def PostsAtLast (command : RunningCommand) (outcome : Except String CommandOutcome) : Prop :=
  command ∈ host.running ∧ command.channelId = channelId ∧ host.db.resolve channelId = .plaintext ∧
    (∃ posted, outcome = .ok posted) ∧ ∃ row author, command.stage = .cleared row ∧
      commandAuthor command.member row = .ok (some author)

end Host

def Request.isPost : Request → Bool
  | .message (.sendMessage ..) => true
  | _ => false

def RunningCommand.request (command : RunningCommand) : HostOp :=
  .request command.member command.isOwner (.runCommand command.channelId command.trigger)

variable {K : Crypto} {host host' : Host} {member : PublicKey} {isOwner : Bool}
  {moment : Moment} {channelId : ℕ}

open Host

/-! ## Posts of clients -/

@[simp] theorem isTimedOut_expireTimeout (pk : PublicKey) (nowMs : ℕ) :
    (host.expireTimeout pk nowMs).community.isTimedOut pk nowMs =
      host.community.isTimedOut pk nowMs := by
  simp only [Host.expireTimeout, Host.withCommunity, Community.expireTimeout]
  cases huntil : (host.community.getMember pk).bind MemberRow.timeoutUntil with
  | none => rfl
  | some untilMs =>
    obtain ⟨row, hrow, hrowUntil⟩ := Option.bind_eq_some_iff.mp huntil
    by_cases hnow : nowMs < untilMs
    · simp only [if_pos hnow]
    · simp [if_neg hnow, Community.isTimedOut, Community.clearTimeout, getMember_updateMember,
        hrow, hrowUntil]

theorem requireNotTimedOut_eq_ok {nowMs : ℕ} {u : Unit} :
    host.requireNotTimedOut member nowMs = .ok u ↔
      host.community.isTimedOut member nowMs = none := by
  unfold requireNotTimedOut
  split <;> simp_all

theorem requirePosting_expireTimeout (pk : PublicKey) (nowMs : ℕ) :
    (host.expireTimeout pk nowMs).requirePosting member isOwner channelId =
      host.requirePosting member isOwner channelId := by
  rcases expireTimeout_eq host.community pk nowMs with h | h <;>
    simp only [Host.expireTimeout, h] <;> rfl

theorem isDm_of_mayPost (hbarred : host.Barred member isOwner moment channelId)
    (hpost : host.MayPost member isOwner moment channelId) : host.IsDm channelId := by
  obtain ⟨htime, -, hposting⟩ := hpost
  simp only [requirePosting, bind_eq_ok, context_eq_ok] at hposting
  obtain ⟨channel, hchannel, hposting⟩ := hposting
  by_cases hdm : channel.channelType = .dm
  · exact ⟨channel, hchannel, hdm⟩
  · rw [if_neg hdm, requirePerm_eq_ok] at hposting
    rcases hbarred with hlacks | htimed | ⟨hdm, -⟩
    · exact absurd hposting (by simp [hlacks])
    · exact absurd htime htimed
    · exact hdm

theorem postMessage_eq_ok {posted : Host} {id : ℕ} {content : String} {replyTo : Option ℕ}
    {attachmentIds : List ℕ} :
    (host.expireTimeout member moment.nowMs).postMessage member isOwner moment id content replyTo
        attachmentIds = .ok posted ↔
      host.MayPost member isOwner moment id ∧ content.utf8ByteSize ≤ maxMessageBytes ∧
        attachmentIds.length ≤ 10 ∧ ∃ db, host.db.insertMessage id member content replyTo
          moment.now = .ok db ∧ (host.expireTimeout member moment.nowMs).withDb db = posted := by
  simp only [postMessage, bind_eq_ok, requireNotTimedOut_eq_ok, isTimedOut_expireTimeout,
    requirePlaintextChannel, ensure_eq_ok, requirePosting_expireTimeout, map_eq_ok, MayPost]
  constructor
  · rintro ⟨⟨⟩, htime, ⟨⟩, hclass, ⟨⟩, hcontent, ⟨⟩, hfiles, ⟨⟩, hposting, db, hinsert, rfl⟩
    exact ⟨⟨htime, hclass, hposting⟩, hcontent, hfiles, db, hinsert, rfl⟩
  · rintro ⟨⟨htime, hclass, hposting⟩, hcontent, hfiles, db, hinsert, rfl⟩
    exact ⟨(), htime, (), hclass, (), hcontent, (), hfiles, (), hposting, db, hinsert, rfl⟩

theorem sendMessage_addsRow_iff {id : ℕ} {content : String} {replyTo : Option ℕ}
    {attachmentIds : List ℕ} :
    host.AddsRow (host.sendMessage member isOwner moment id content replyTo attachmentIds).1
        channelId ↔
      id = channelId ∧ host.MayPost member isOwner moment channelId ∧
        content.utf8ByteSize ≤ maxMessageBytes ∧ attachmentIds.length ≤ 10 := by
  simp only [sendMessage]
  split
  · next failure herror =>
    refine iff_of_false (AddsNothing.of_eq rfl).not_addsRow ?_
    rintro ⟨rfl, hmay, hcontent, hfiles⟩
    obtain ⟨db, hinsert⟩ := insertMessage_exists member content replyTo moment.now hmay.2.1
    simp [postMessage_eq_ok.mpr ⟨hmay, hcontent, hfiles, db, hinsert, rfl⟩] at herror
  · next posted hposted =>
    obtain ⟨hmay, hcontent, hfiles, db, hinsert, rfl⟩ := postMessage_eq_ok.mp hposted
    rw [addsRow_of_insert (attachFiles_messages.trans (insertMessage_messages hinsert))]
    constructor
    · rintro rfl
      exact ⟨rfl, hmay, hcontent, hfiles⟩
    · exact And.left

theorem checkRunCommandChannelAuth_eq_ok {id : ℕ} {u : Unit} :
    (host.expireTimeout member moment.nowMs).checkRunCommandChannelAuth member isOwner moment id =
      .ok u ↔ host.MayPost member isOwner moment id := by
  simp only [checkRunCommandChannelAuth, bind_eq_ok, requireNotTimedOut_eq_ok,
    isTimedOut_expireTimeout, ensure_eq_ok, requirePosting_expireTimeout, MayPost]
  constructor
  · rintro ⟨⟨⟩, htime, ⟨⟩, hclass, hposting⟩
    exact ⟨htime, hclass, hposting⟩
  · rintro ⟨htime, hclass, hposting⟩
    exact ⟨(), htime, (), hclass, hposting⟩

/-- A command that is under way after its request was so before, or has been let in. -/
theorem runCommand_running {id : ℕ} {trigger : String} {command : RunningCommand}
    (h : command ∈ (host.runCommand member isOwner moment id trigger).1.running) :
    command ∈ host.running ∨ command = ⟨member, isOwner, id, trigger, .admitted⟩ ∧
      moment.admitted = true ∧ host.MayPost member isOwner moment id := by
  unfold Host.runCommand at h
  split_ifs at h with hadmitted
  · revert h
    refine commit_effect (P := fun host' => command ∈ host'.running → _) .inl
      fun host' hwrite h => ?_
    simp only [bind_eq_ok, checkRunCommandChannelAuth_eq_ok, pure_eq_ok] at hwrite
    obtain ⟨⟨⟩, hmay, rfl⟩ := hwrite
    rcases List.mem_cons.mp h with rfl | h
    · exact .inr ⟨rfl, hadmitted, hmay⟩
    · exact .inl h
  · exact .inl h

theorem findCommand_eq_ok {command next : RunningCommand}
    (h : host.findCommand command = .ok next) :
    ∃ stage, next = { command with stage } := by
  simp only [findCommand, bind_eq_ok, pure_eq_ok] at h
  obtain ⟨row, -, rfl⟩ := h
  exact ⟨_, rfl⟩

theorem clearCommand_eq_ok {command next : RunningCommand} {row : CommandRow}
    (h : host.clearCommand command row = .ok next) : ∃ stage, next = { command with stage } := by
  unfold clearCommand at h
  split_ifs at h
  · simp only [bind_eq_ok, pure_eq_ok] at h
    obtain ⟨⟨⟩, -, rfl⟩ := h
    exact ⟨_, rfl⟩
  · obtain rfl := pure_eq_ok.mp h
    exact ⟨_, rfl⟩

theorem continueCommand_running {command other : RunningCommand}
    {outcome : Except String CommandOutcome}
    (h : other ∈ (host.continueCommand moment command outcome).1.running) :
    ∃ stage, { other with stage } ∈ host.running := by
  have hkept : other ∈ host.running → ∃ stage, { other with stage } ∈ host.running :=
    fun h => ⟨other.stage, h⟩
  unfold continueCommand at h
  split_ifs at h with hrunning
  · have hpass : ∀ step : Checked RunningCommand,
        (∀ next, step = .ok next → ∃ stage, next = { command with stage }) →
          other ∈ (pass { host with running := host.running.erase command } step).1.running →
            ∃ stage, { other with stage } ∈ host.running := by
      intro step hstep h
      cases step with
      | ok next =>
        obtain ⟨stage, rfl⟩ := hstep next rfl
        rcases List.mem_cons.mp h with rfl | h
        · exact ⟨command.stage, hrunning⟩
        · exact hkept (List.mem_of_mem_erase h)
      | error failure => exact hkept (List.mem_of_mem_erase h)
    cases hstage : command.stage with
    | admitted =>
      simp only [hstage] at h
      exact hpass _ (fun _ => findCommand_eq_ok) h
    | found row =>
      simp only [hstage] at h
      exact hpass _ (fun _ => clearCommand_eq_ok) h
    | cleared row =>
      simp only [hstage] at h
      revert h
      exact postCommand_rule (P := fun host' => other ∈ host'.running → _)
        (fun h => hkept (List.mem_of_mem_erase h))
        fun _ _ _ _ h => hkept (List.mem_of_mem_erase h)
  · exact hkept h

theorem postCommand_addsRow_iff {command : RunningCommand} {row : CommandRow}
    {outcome : Except String CommandOutcome} :
    host.AddsRow (host.postCommand moment command row outcome).1 channelId ↔
      command.channelId = channelId ∧ host.db.resolve channelId = .plaintext ∧
        (∃ posted, outcome = .ok posted) ∧
        ∃ author, commandAuthor command.member row = .ok (some author) := by
  constructor
  · refine commit_effect (P := fun host' => host.AddsRow host' channelId → _)
      (fun h => absurd h (AddsNothing.of_eq rfl).not_addsRow) fun host' h hadds => ?_
    simp only [bind_eq_ok] at h
    obtain ⟨author, hauthor, posted, hposted, h⟩ := h
    cases author with
    | none =>
      obtain rfl := pure_eq_ok.mp h
      exact absurd hadds (AddsNothing.of_eq rfl).not_addsRow
    | some author =>
      obtain ⟨db, hinsert, rfl⟩ := map_eq_ok.mp h
      obtain rfl := (addsRow_of_insert (insertMessage_messages hinsert)).mp hadds
      refine ⟨rfl, (insertMessage_eq_ok.mp hinsert).1, ?_, author, hauthor⟩
      cases outcome with
      | ok posted => exact ⟨posted, rfl⟩
      | error reason => cases hposted
  · rintro ⟨rfl, hclass, ⟨posted, rfl⟩, author, hauthor⟩
    obtain ⟨db, hinsert⟩ := insertMessage_exists author posted.content none moment.now hclass
    have hwritten : (host.postCommand moment command row (.ok posted)).1 = host.withDb db := by
      refine commit_of_ok (bind_eq_ok.mpr ⟨some author, hauthor, ?_⟩)
      exact bind_eq_ok.mpr ⟨posted, rfl, map_eq_ok.mpr ⟨db, hinsert, rfl⟩⟩
    rw [hwritten]
    exact (addsRow_of_insert (insertMessage_messages hinsert)).mpr rfl

theorem continueCommand_addsRow_iff {command : RunningCommand}
    {outcome : Except String CommandOutcome} :
    host.AddsRow (host.continueCommand moment command outcome).1 channelId ↔
      host.PostsAtLast channelId command outcome := by
  unfold continueCommand PostsAtLast
  split_ifs with hrunning
  · simp only [hrunning, true_and]
    have hpass : ∀ step, ¬host.AddsRow
        (pass { host with running := host.running.erase command } step).1 channelId := fun _ =>
      pass_rule (P := fun host' => ¬host.AddsRow host' channelId)
        fun _ => (AddsNothing.of_eq rfl).not_addsRow
    cases hstage : command.stage with
    | admitted => exact iff_of_false (hpass _) (by simp)
    | found row => exact iff_of_false (hpass _) (by simp)
    | cleared row =>
      simp only [CommandStage.cleared.injEq, exists_eq_left', exists_and_left]
      exact @postCommand_addsRow_iff { host with running := host.running.erase command } ..
  · exact iff_of_false (AddsNothing.of_eq rfl).not_addsRow fun h => hrunning h.1

theorem resolveMemberServerPerms_expireTimeout {pk : PublicKey} {nowMs : ℕ} :
    (host.expireTimeout pk nowMs).resolveMemberServerPerms member isOwner =
      host.resolveMemberServerPerms member isOwner := by
  rcases expireTimeout_eq host.community pk nowMs with h | h <;>
    simp only [Host.expireTimeout, h] <;> rfl

theorem widgetChannelVisible_expireTimeout {pk : PublicKey} {nowMs id : ℕ} :
    (host.expireTimeout pk nowMs).widgetChannelVisible member isOwner id =
      host.widgetChannelVisible member isOwner id := by
  rcases expireTimeout_eq host.community pk nowMs with h | h <;>
    simp only [Host.expireTimeout, h] <;> rfl

theorem rerollGiveaway_addsRow_iff {giveaway : Option Giveaway} {announcement : Option String} :
    host.AddsRow (host.rerollGiveaway member isOwner moment giveaway announcement).1 channelId ↔
      host.Posts K member isOwner moment channelId (.rerollGiveaway giveaway announcement) := by
  constructor
  · refine commit_effect (P := fun host' => host.AddsRow host' channelId → _)
      (fun h => absurd h (AddsNothing.of_eq rfl).not_addsRow) fun host' h hadds => ?_
    simp only [bind_eq_ok, requireNotTimedOut_eq_ok, isTimedOut_expireTimeout, context_eq_ok,
      ensure_eq_ok, widgetChannelVisible_expireTimeout, resolveMemberServerPerms_expireTimeout,
      map_eq_ok] at h
    obtain ⟨⟨⟩, htime, g, rfl, ⟨⟩, hvisible, ⟨⟩, hcreator, ⟨⟩, hended, text, rfl, db, hinsert,
      rfl⟩ := h
    obtain rfl := (addsRow_of_insert (insertMessage_messages hinsert)).mp hadds
    exact ⟨htime, Option.some_ne_none _, g, rfl, rfl, hvisible, hcreator, hended⟩
  · rintro ⟨htime, hannouncement, g, rfl, rfl, hvisible, hcreator, hended⟩
    obtain ⟨text, rfl⟩ := Option.ne_none_iff_exists'.mp hannouncement
    have hclass : host.db.resolve g.channelId = .plaintext := by
      simp only [widgetChannelVisible, decide_eq_true_eq] at hvisible
      exact hvisible.1
    obtain ⟨db, hinsert⟩ :=
      insertMessage_exists moment.botKey text (some g.messageId) moment.now hclass
    have hposted : (host.rerollGiveaway member isOwner moment (some g) (some text)).1 =
        (host.expireTimeout member moment.nowMs).withDb db := by
      refine commit_of_ok ?_
      simp only [bind_eq_ok, requireNotTimedOut_eq_ok, isTimedOut_expireTimeout, context_eq_ok,
        ensure_eq_ok, widgetChannelVisible_expireTimeout, resolveMemberServerPerms_expireTimeout,
        map_eq_ok]
      exact ⟨(), htime, g, rfl, (), hvisible, (), hcreator, (), hended, text, rfl, db, hinsert,
        rfl⟩
    rw [hposted]
    exact (addsRow_of_insert (insertMessage_messages hinsert)).mpr rfl

/-! ## Posts of the log -/

theorem derivedRow_any_reply {event : Event} {r r' : Option ℕ} {row : MessageRow}
    (h : derivedRow K event r = some row) : ∃ row', derivedRow K event r' = some row' ∧
      row'.channelId = row.channelId ∧ row'.contentClass = row.contentClass := by
  unfold derivedRow at h ⊢
  split at h
  · obtain rfl := Option.some.inj h
    exact ⟨_, rfl, rfl, rfl⟩
  · obtain rfl := Option.some.inj h
    exact ⟨_, rfl, rfl, rfl⟩
  · exact absurd h nofun

theorem deriveMessageRow_exists {db : Db} {event : Event} {row : MessageRow}
    (hrow : derivedRow K event (db.view.replyRow event) = some row)
    (hclass : db.view.classOf row.channelId = some row.contentClass)
    (hnew : ∀ x ∈ db.messages, x.2.eventHash ≠ some (event.hash K)) :
    ∃ x, db.deriveMessageRow K event = .ok x := by
  have hinsert : ∃ db', db.insertRow row = .ok db' := by
    refine insertRow_exists (.inr ?_)
    rw [derivedRow_eventHash hrow]
    exact hnew
  obtain ⟨db', hinsert⟩ := hinsert
  simp only [deriveMessageRow_eq, hrow, bind_eq_ok]
  exact ⟨_, (), requireClass_eq_ok.mpr (.inl hclass), db', hinsert, rfl⟩

/-- The transaction of a post goes through if the event is new and its channel of its class. -/
theorem ingest_posted {db : Db} {event : Event} {row : MessageRow}
    (hstored : ∀ e ∈ db.events, e.hash K ≠ event.hash K)
    (hnew : ∀ x ∈ db.messages, x.2.eventHash ≠ some (event.hash K))
    (hrow : derivedRow K event (db.view.replyRow event) = some row)
    (hclass : db.view.classOf row.channelId = some row.contentClass) :
    ∃ db' l, db.ingest K event = .ok (db', l) := by
  have hpost : isPosted event = true := isPosted_iff.mpr ⟨row, hrow⟩
  have hother : ∀ db : Db, db.materializeChannelCreated event = .ok db ∧
      db.applySealedEdit event = .ok db ∧ db.applyTombstone event = .ok (db, []) := by
    intro db
    unfold isPosted at hpost
    unfold Db.materializeChannelCreated Db.applySealedEdit Db.applyTombstone
    split at hpost
    · next hp => simp only [hp]; exact ⟨rfl, rfl, rfl⟩
    · next hp => simp only [hp]; exact ⟨rfl, rfl, rfl⟩
    · exact absurd hpost Bool.false_ne_true
  have hderive : ∃ x, ({ db with events := db.events ++ [event] } : Db).deriveMessageRow K event =
      .ok x := deriveMessageRow_exists hrow hclass hnew
  obtain ⟨derived, hderive⟩ := hderive
  simp only [Db.ingest, bind_eq_ok, prefixed_eq_ok]
  exact ⟨_, _, _, bind_eq_ok.mpr ⟨(), ensure_eq_ok.mpr hstored, rfl⟩, _, (hother _).1, _, hderive,
    _, (hother _).2.1, (hother _).2.2⟩

theorem submitEvent_addsRow_iff {event : Event} :
    host.AddsRow (host.submitEvent K moment event).1 channelId ↔
      host.LogAdmits K moment channelId event := by
  unfold Host.submitEvent
  split
  · next failure herror =>
    refine iff_of_false (AddsNothing.of_eq rfl).not_addsRow ?_
    rintro ⟨ls, hls, hcaps, hepoch, ⟨trial, happly⟩, hposted, hstored, hnew, row, hrow, rfl, hclass⟩
    obtain ⟨row', hrow', hchannel, hclass'⟩ := derivedRow_any_reply hrow
    rw [← hchannel, ← hclass'] at hclass
    obtain ⟨db, l, hingest⟩ := ingest_posted hstored hnew hrow' hclass
    have hok : host.server.submitEvent K event moment.now =
        .ok (⟨db, some trial⟩, l) := by
      simp only [ServerState.submitEvent, bind_eq_ok, context_eq_ok, prefixed_eq_ok]
      exact ⟨ls, hls, (), hcaps, (), hepoch, trial, happly, (), hposted, (db, l), hingest, rfl⟩
    simp [hok] at herror
  · next server orphans hok =>
    simp only [ServerState.submitEvent, bind_eq_ok, context_eq_ok, prefixed_eq_ok, pure_eq_ok,
      Prod.mk.injEq] at hok
    obtain ⟨ls, hls, ⟨⟩, hcaps, ⟨⟩, hepoch, trial, happly, ⟨⟩, hposted, ⟨db, l⟩, hingest, rfl,
      -⟩ := hok
    obtain ⟨hstored, heffect⟩ := ingested hposted hingest
    have hadmits : host.LogAdmits K moment channelId event ↔
        ∃ row, derivedRow K event (host.db.view.replyRow event) = some row ∧
          row.channelId = channelId ∧ host.db.view.classOf channelId = some row.contentClass ∧
          ∀ x ∈ host.db.messages, x.2.eventHash ≠ some (event.hash K) := by
      constructor
      · rintro ⟨-, -, -, -, -, -, -, hnew, row, hrow, hchannel, hclass⟩
        obtain ⟨row', hrow', hchannel', hclass'⟩ := derivedRow_any_reply hrow
        exact ⟨row', hrow', hchannel'.trans hchannel, hclass' ▸ hclass, hnew⟩
      · rintro ⟨row, hrow, hchannel, hclass, hnew⟩
        obtain ⟨row', hrow', hchannel', hclass'⟩ := derivedRow_any_reply hrow
        exact ⟨ls, hls, hcaps, hepoch, ⟨trial, happly⟩, hposted, hstored, hnew, row', hrow',
          hchannel'.trans hchannel, hclass' ▸ hclass⟩
    rw [hadmits]
    generalize hview : db.view = v at heffect
    have hmessages : db.messages = v.messages := congrArg View.messages hview
    cases heffect with
    | posted row hrow hclass hnew =>
      rw [addsRow_of_insert hmessages]
      constructor
      · rintro rfl
        exact ⟨row, hrow, rfl, hclass, hnew⟩
      · rintro ⟨row', hrow', rfl, -⟩
        rw [Option.some.inj (hrow.symm.trans hrow')]
    | declared p ch hp =>
      refine iff_of_false (AddsNothing.of_eq hmessages).not_addsRow ?_
      rintro ⟨row, hrow, -⟩
      simp [derivedRow, hp] at hrow
    | edited p id row hp =>
      simp only [Db.view_messages] at hmessages
      refine iff_of_false (AddsNothing.of_modify hmessages).not_addsRow ?_
      rintro ⟨row, hrow, -⟩
      simp [derivedRow, hp] at hrow
    | deleted p id row hp =>
      simp only [Db.view_messages] at hmessages
      refine iff_of_false (AddsNothing.of_delete hmessages).not_addsRow ?_
      rintro ⟨row, hrow, -⟩
      simp [derivedRow, hp] at hrow
    | stored hother =>
      refine iff_of_false (AddsNothing.of_eq hmessages).not_addsRow ?_
      rintro ⟨row, hrow, -⟩
      simp [isPosted_iff.mpr ⟨row, hrow⟩] at hother

/-- A request that the gate does not stop adds a row to the channel exactly if it posts there. -/
theorem dispatch_addsRow_iff {request : Request} :
    host.AddsRow (host.dispatch K member isOwner moment request).1 channelId ↔
      host.Posts K member isOwner moment channelId request := by
  cases request with
  | channel request =>
    exact iff_of_false (channelEffect_addsNothing (channelRequest_effect request)).not_addsRow id
  | role request =>
    exact iff_of_false (roleEffect_addsNothing (roleRequest_effect request)).not_addsRow id
  | member request =>
    exact iff_of_false (memberEffect_addsNothing (memberRequest_effect request)).not_addsRow id
  | message request =>
    by_cases hpost : ∃ id content replyTo files, request = .sendMessage id content replyTo files
    · obtain ⟨id, content, replyTo, files, rfl⟩ := hpost
      exact sendMessage_addsRow_iff
    · push Not at hpost
      have hnothing := messageEffect_addsNothing hpost (@messageRequest_effect host
        member isOwner moment request)
      refine iff_of_false hnothing.not_addsRow ?_
      cases request with
      | sendMessage => exact absurd rfl (hpost _ _ _ _)
      | _ => exact id
  | read request =>
    obtain ⟨consulted, heq⟩ := @readRequest_effect host member isOwner moment request
    refine iff_of_false (AddsNothing.of_eq ?_).not_addsRow id
    rw [Host.dispatch, heq, expireTimeouts_db]
  | fetchUrl => exact iff_of_false fetchUrl_addsNothing.not_addsRow id
  | runCommand =>
    refine iff_of_false (AddsNothing.of_eq ?_).not_addsRow id
    exact congrArg Db.messages runCommand_db
  | rerollGiveaway => exact rerollGiveaway_addsRow_iff
  | submitEvent => exact submitEvent_addsRow_iff
  | negotiateProtocol => exact iff_of_false (AddsNothing.of_eq rfl).not_addsRow id
  | bootstrap => exact iff_of_false (AddsNothing.of_eq rfl).not_addsRow id
  | other consulted told =>
    refine iff_of_false (AddsNothing.of_eq ?_).not_addsRow id
    exact congrArg Db.messages expireTimeouts_db

theorem handleRequest_addsRow_iff {request : Request} :
    host.AddsRow (host.handleRequest K member isOwner moment request).1 channelId ↔
      (request.requiresMembership = true → host.contentBlockReason member = none) ∧
        host.Posts K member isOwner moment channelId request := by
  unfold Host.handleRequest
  by_cases hmember : request.requiresMembership = true
  · rw [if_pos hmember]
    cases hgate : host.contentBlockReason member with
    | none =>
      simp only [implies_true, true_and]
      exact dispatch_addsRow_iff
    | some reason =>
      exact iff_of_false (AddsNothing.of_eq rfl).not_addsRow fun h => absurd (h.1 hmember) nofun
  · rw [if_neg hmember, dispatch_addsRow_iff]
    simp [hmember]

/-- Of a command that is under way after an operation, the request was let in by it or before. -/
theorem running_step {e : Moment × HostOp} {command : RunningCommand}
    (h : command ∈ (host.perform K e.1 e.2).1.running) :
    (∃ stage, { command with stage } ∈ host.running) ∨
      e.2 = command.request ∧ host.LetsInCommand e.1 command := by
  obtain ⟨moment, op⟩ := e
  have hkept : command ∈ host.running → ∃ stage, { command with stage } ∈ host.running :=
    fun h => ⟨command.stage, h⟩
  by_cases hsession : op.isOfSession = false
  · have hsame : (host.perform K moment op).1.running = host.running :=
      (perform_sessions hsession).running
    exact .inl (hkept (hsame ▸ h))
  · cases op with
    | request member isOwner request =>
      cases request with
      | runCommand id trigger =>
        cases hgate : host.contentBlockReason member with
        | some reason =>
          rw [Host.perform, handleRequest_of_blocked rfl hgate] at h
          exact .inl (hkept h)
        | none =>
          rw [Host.perform, handleRequest_of_open hgate] at h
          refine (runCommand_running h).imp hkept ?_
          rintro ⟨rfl, hadmitted, hmay⟩
          exact ⟨rfl, hgate, hadmitted, hmay⟩
      | negotiateProtocol => exact .inl (hkept h)
      | _ => exact (hsession rfl).elim
    | continueCommand => exact .inl (continueCommand_running h)
    | _ => exact (hsession rfl).elim

theorem letIn_of_running {setup : Setup} {tr : List (Transition Host (Moment × HostOp))}
    (hrun : HostRun K (.firstRun setup) tr host) {command : RunningCommand}
    (h : command ∈ host.running) :
    ∃ t ∈ tr, t.event.2 = command.request ∧ t.pre.LetsInCommand t.event.1 command := by
  induction hrun generalizing command with
  | nil =>
    have hnone : (Host.firstRun setup).running = [] :=
      setUp_frame Host.running (fun _ _ => rfl) fun _ _ _ _ _ => rfl
    exact absurd (hnone ▸ h) List.not_mem_nil
  | @snoc pre post e tr _ hstep ih =>
    obtain rfl : (pre.perform K e.1 e.2).1 = post := hstep
    rcases running_step h with ⟨stage, hbefore⟩ | hletIn
    · obtain ⟨t, ht, hletIn⟩ := ih hbefore
      exact ⟨t, List.mem_append_left _ ht, hletIn⟩
    · exact ⟨_, List.mem_append_right _ (List.mem_singleton_self _), hletIn⟩

/-- For a member that is barred from a channel: a post of its own goes through in a direct message
only, where no permission is asked for, and so does a command when it comes; of the other requests
a giveaway is announced as ever; and the log admits a post on its own terms, which neither roles
nor timeouts enter into. A command that was let in posts later. -/
theorem posting_authority {setup : Setup} {tr : List (Transition Host (Moment × HostOp))}
    (hrun : HostRun K (.firstRun setup) tr host)
    (hbarred : host.Barred member isOwner moment channelId) :
    (∀ request, (∀ event, request ≠ .submitEvent event) →
      (host.AddsRow (host.handleRequest K member isOwner moment request).1 channelId ↔
        host.contentBlockReason member = none ∧
          host.Posts K member isOwner moment channelId request ∧
          (request.isPost = true → host.IsDm channelId))) ∧
    (∀ event,
      host.AddsRow (host.handleRequest K member isOwner moment (.submitEvent event)).1 channelId ↔
        host.LogAdmits K moment channelId event) ∧
    (∀ command : RunningCommand, command.member = member → command.isOwner = isOwner →
      command.channelId = channelId → host.LetsInCommand moment command →
        host.IsDm channelId) ∧
    ∀ moment command outcome,
      (host.AddsRow (host.perform K moment (.continueCommand command outcome)).1 channelId ↔
        host.PostsAtLast channelId command outcome) ∧
      (command ∈ host.running →
        ∃ t ∈ tr, t.event.2 = command.request ∧ t.pre.LetsInCommand t.event.1 command) := by
  refine ⟨fun request hrequest => ?_, fun event => ?_, ?_, fun _ command outcome =>
    ⟨continueCommand_addsRow_iff, letIn_of_running hrun⟩⟩
  · rw [handleRequest_addsRow_iff]
    constructor
    · rintro ⟨hgate, hposts⟩
      refine ⟨hgate ?_, hposts, fun hpost => ?_⟩
      · cases request with
        | submitEvent event => exact absurd rfl (hrequest event)
        | negotiateProtocol => exact hposts.elim
        | bootstrap => exact hposts.elim
        | _ => rfl
      · cases request with
        | message request =>
          cases request with
          | sendMessage => exact isDm_of_mayPost hbarred hposts.2.1
          | _ => exact absurd hpost Bool.false_ne_true
        | _ => exact absurd hpost Bool.false_ne_true
    · rintro ⟨hgate, hposts, -⟩
      exact ⟨fun _ => hgate, hposts⟩
  · rw [handleRequest_addsRow_iff]
    exact and_iff_right fun hmember => absurd hmember Bool.false_ne_true
  · rintro command rfl rfl rfl ⟨-, -, hmay⟩
    exact isDm_of_mayPost hbarred hmay

open SampleLog SampleHost

/-- Bob runs a command, and is timed out for an hour before it is looked up. -/
def silenced : List (Moment × HostOp) :=
  joined ++ requests 8
    [(bob, .runCommand 1 "hello"), (alice, .member (.timeoutMember (key bob) 3600000 none))]

def helloOfBob : Event :=
  nextEvent (hostAfter joined).db.events ⟨bob, b0, 11, .messagePosted ⟨1, "hello", none, []⟩⟩

def commandOfBob : RunningCommand := ⟨key bob, false, 1, "hello", .admitted⟩

theorem posting_authority_of_bob :
    (∀ request, (∀ event, request ≠ .submitEvent event) →
      ((hostAfter silenced).AddsRow ((hostAfter silenced).handleRequest crypto (key bob) false
          (momentAt 11) request).1 1 ↔
        (hostAfter silenced).contentBlockReason (key bob) = none ∧
          (hostAfter silenced).Posts crypto (key bob) false (momentAt 11) 1 request ∧
          (request.isPost = true → (hostAfter silenced).IsDm 1))) ∧
    (∀ event, (hostAfter silenced).AddsRow ((hostAfter silenced).handleRequest crypto (key bob)
        false (momentAt 11) (.submitEvent event)).1 1 ↔
      (hostAfter silenced).LogAdmits crypto (momentAt 11) 1 event) ∧
    ¬(hostAfter silenced).LetsInCommand (momentAt 11) commandOfBob ∧
    ∃ t ∈ path silenced, t.event.2 = commandOfBob.request ∧
      t.pre.LetsInCommand t.event.1 commandOfBob := by
  have hbarred : (hostAfter silenced).Barred (key bob) false (momentAt 11) 1 :=
    .inr (.inl (by decide +kernel))
  obtain ⟨hrequests, hevents, hcommand, hcommands⟩ :=
    posting_authority (run_path silenced) hbarred
  refine ⟨hrequests, hevents, fun hletIn => ?_, ?_⟩
  · exact absurd (hcommand commandOfBob rfl rfl rfl hletIn) (by decide +kernel)
  · exact (hcommands (momentAt 11) commandOfBob (.error "")).2 (by decide +kernel)

/-- Bob cannot send a message while he is timed out, but the log takes his event, and the channel
has its row. -/
theorem timed_out_post :
    HostRun crypto start (path silenced) (hostAfter silenced) ∧
      (hostAfter silenced).Barred (key bob) false (momentAt 11) 1 ∧
      ¬(hostAfter silenced).Accepts crypto
        (momentAt 11, .request (key bob) false (.message (.sendMessage 1 "hello" none []))) ∧
      (hostAfter silenced).AddsRow ((hostAfter silenced).handleRequest crypto (key bob) false
        (momentAt 11) (.submitEvent helloOfBob)).1 1 := by
  refine ⟨run_path _, .inr (.inl (by decide +kernel)), by decide +kernel,
    by decide +kernel⟩

end Server
