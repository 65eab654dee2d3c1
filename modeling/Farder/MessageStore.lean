import Farder.Server.ChannelRows
import Farder.Server.MessageRows
import Farder.Server.SampleHost
import Farder.Server.StoreSweeps

/-! # Messages, files and the search index

The store stays consistent as long as no operation does one of three things: react with a
picture that is not stored, remove a file that only reactions show, or delete a channel with
sealed messages for good. -/
namespace Server

open EventLog Guarded Permissions SearchIndex Db

variable {K : Crypto} {host host' : Host} {member : PublicKey} {isOwner : Bool} {moment : Moment}
  {db db' : Db}

namespace Host

def checkAddReaction (host : Host) (member : PublicKey) (isOwner : Bool) (moment : Moment)
    (messageId : ℕ) (emoji : String) (fileId : Option ℕ) : Checked Unit := do
  let host := host.expireTimeout member moment.nowMs
  host.requireNotTimedOut member moment.nowMs
  let row ← context (host.db.messages.get? messageId) "message not found"
  host.requirePerm member isOwner row.channelId readMessages "READ_MESSAGES"
  host.requirePlaintextChannel member row.channelId
  host.db.checkReaction messageId emoji fileId

/-- The operation does none of the things that break the store. -/
def StoreSafe (host : Host) (moment : Moment) (op : StoreOp) : Prop :=
  match op with
  | .host (.request member isOwner (.message (.addReaction messageId emoji fileId))) =>
    host.contentBlockReason member = none →
      host.checkAddReaction member isOwner moment messageId emoji fileId = .ok () →
        emoji = customEmoji → ∀ id ∈ fileId, host.db.HasFile id
  | .host (.cleanupOrphanedFile fileId) => host.db.Unshown fun id _ => id = fileId
  | .host .purgeExpiredMessages => host.db.PurgeSpares moment.now
  | .host .executePendingDeletions =>
    DeletionsSpare (host.db.expiredDeletionRequests moment.now) host.db
  | .cleanupAllOrphans maxAgeSecs =>
    host.db.Unshown fun _ file => file.uploadedAt < moment.now - maxAgeSecs
  | .hardDeleteChannel channelId =>
    ∀ x ∈ host.db.messages, x.2.channelId = channelId → x.2.isE2ee = false
  | _ => True

end Host

theorem classOf_map_channels {f : ChannelRow → ChannelRow} (hid : ∀ ch, (f ch).id = ch.id)
    (hclass : ∀ ch, (f ch).contentClass = ch.contentClass)
    (hchannels : db'.channels = db.channels.map f) (id : ℕ) :
    db'.view.classOf id = db.view.classOf id := by
  simp only [View.classOf, Db.view_channels, hchannels, List.find?_map, Option.bind_map]
  congr 1
  · congr 1
    funext ch
    simp [hid]
  · funext ch
    exact hclass ch

theorem sameStore_channelEffect {request : ChannelRequest}
    (h : ChannelEffect host member isOwner request host') : SameStore host.db host'.db := by
  cases h with
  | createChannel =>
    exact ⟨rfl, rfl, rfl, rfl, rfl, rfl, fun _ hclass => classOf_append hclass⟩
  | @updateChannel channelId patch =>
    refine ⟨rfl, rfl, rfl, rfl, rfl, rfl, fun id hclass => ?_⟩
    let patched (ch : ChannelRow) : ChannelRow :=
      if ch.id = channelId then patch.applyRow ch else ch
    refine (classOf_map_channels (f := patched) (fun ch => ?_) (fun ch => ?_) rfl id).trans hclass
    · simp only [patched]
      split_ifs <;> rfl
    · simp only [patched]
      split_ifs <;> rfl
  | @deleteChannel channelId =>
    refine ⟨rfl, rfl, rfl, rfl, rfl, rfl, fun id hclass => ?_⟩
    let deleted (ch : ChannelRow) : ChannelRow :=
      if ch.id = channelId then { ch with deleted := true } else ch
    refine (classOf_map_channels (f := deleted) (fun ch => ?_) (fun ch => ?_) rfl id).trans hclass
    · simp only [deleted]
      split_ifs <;> rfl
    · simp only [deleted]
      split_ifs <;> rfl
  | _ => exact .of_channels rfl rfl rfl rfl rfl rfl rfl

theorem sameStore_memberEffect {request : MemberRequest}
    (h : MemberEffect host member isOwner moment request host') : SameStore host.db host'.db := by
  cases h with
  | requestDeletion hrequest =>
    simp only [Db.requestDeletion, bind_eq_ok, pure_eq_ok] at hrequest
    obtain ⟨⟨⟩, -, ⟨⟩, -, rfl⟩ := hrequest
    exact .of_channels rfl rfl rfl rfl rfl rfl rfl
  | cancelDeletion hcancel =>
    simp only [Db.cancelDeletion, bind_eq_ok, pure_eq_ok] at hcancel
    obtain ⟨⟨⟩, -, rfl⟩ := hcancel
    exact .of_channels rfl rfl rfl rfl rfl rfl rfl
  | _ => exact .of_channels rfl rfl rfl rfl rfl rfl rfl

theorem roleEffect_db {request : RoleRequest} (h : RoleEffect host member isOwner request host') :
    host'.db = host.db := by
  cases h <;> rfl

theorem storeKept_insertMessage {channelId now : ℕ} {author : PublicKey} {content : String}
    {replyTo : Option ℕ} (h : db.StoreKept K)
    (hinsert : db.insertMessage channelId author content replyTo now = .ok db') :
    db'.StoreKept K := by
  obtain ⟨-, hrow⟩ := insertMessage_eq_ok.mp hinsert
  exact h.insertRow hrow (by simp)

theorem storeKept_attachFiles {messageId : ℕ} {files : List (ℕ × ℕ)} (h : host.db.StoreKept K)
    (hmessage : ∃ row, (messageId, row) ∈ host.db.messages) :
    (host.attachFiles member isOwner messageId files).1.db.StoreKept K := by
  induction files generalizing host with
  | nil => exact h
  | cons x files ih =>
    simp only [Host.attachFiles]
    split
    · exact h
    · next file hfile =>
      simp only [bind_eq_ok, context_eq_ok] at hfile
      obtain ⟨file', hget, -⟩ := hfile
      have hr : Recounts host.db (host.db.createMessageAttachment messageId x.1 x.2
          file.originalName file.media) := recounts_create
      refine ih (h.recounts hr ?_) (hr.messages ▸ hmessage)
      exact h.links.create hmessage ⟨file', Table.get?_eq_some.mp hget⟩

theorem storeKept_addReaction {messageId now : ℕ} {emoji : String} {fileId : Option ℕ}
    (h : db.StoreKept K) (hmessage : ∃ row, (messageId, row) ∈ db.messages)
    (hfile : db.checkReaction messageId emoji fileId = .ok () → emoji = customEmoji →
      ∀ id ∈ fileId, db.HasFile id)
    (hadd : db.addReaction messageId member emoji fileId now = .ok db') : db'.StoreKept K := by
  simp only [Db.addReaction, bind_eq_ok, pure_eq_ok] at hadd
  obtain ⟨⟨⟩, hcheck, rfl⟩ := hadd
  have hreacted : ∀ reactions : List ReactionRow,
      (∀ r ∈ reactions, r ∈ db.reactions ∨
        r = ⟨messageId, member, emoji, fileId.getD 0, now⟩) →
      Reacted { db with reactions } := by
    intro reactions hsub
    refine ⟨fun r hr => ?_, fun r hr id hpicture => ?_⟩
    · rcases hsub r hr with hr | rfl
      · exact h.reacted.message r hr
      · exact hmessage
    · rcases hsub r hr with hr | rfl
      · exact h.reacted.file r hr id hpicture
      · simp only [ReactionRow.picture] at hpicture
        split_ifs at hpicture with hcustom
        obtain rfl := Option.some.inj hpicture
        have hshown := hfile hcheck hcustom
        simp only [Db.checkReaction, bind_eq_ok, ensure_eq_ok] at hcheck
        obtain ⟨⟨⟩, -, ⟨⟩, -, ⟨⟩, hgiven, -⟩ := hcheck
        obtain ⟨id, rfl⟩ := Option.ne_none_iff_exists'.mp (hgiven hcustom)
        exact hshown id rfl
  refine ⟨h.links.congr_messages rfl rfl fun _ row hrow => ⟨row, hrow⟩, hreacted _ ?_,
    h.shelved.congr rfl rfl, h.searched.same rfl rfl rfl⟩
  intro r hr
  split_ifs at hr
  · exact .inl hr
  · rcases List.mem_append.mp hr with hr | hr
    · exact .inl hr
    · exact .inr (List.mem_singleton.mp hr)

theorem storeKept_messageEffect {request : MessageRequest} (h : host.db.StoreKept K)
    (hreacts : ∀ messageId emoji fileId, request ≠ .addReaction messageId emoji fileId)
    (heffect : MessageEffect host member isOwner moment request host') :
    host'.db.StoreKept K := by
  cases heffect with
  | refused => exact h
  | expired => exact h
  | sendMessage hpost =>
    simp only [Host.postMessage, bind_eq_ok, map_eq_ok] at hpost
    obtain ⟨⟨⟩, -, ⟨⟩, -, ⟨⟩, -, ⟨⟩, -, ⟨⟩, -, db, hinsert, rfl⟩ := hpost
    have hmessages := insertMessage_messages hinsert
    exact storeKept_attachFiles (storeKept_insertMessage h hinsert)
      ⟨_, hmessages ▸ Table.mem_insert.mpr (.inr rfl)⟩
  | editMessage hedit =>
    simp only [Db.requestEditMessage, bind_eq_ok] at hedit
    obtain ⟨-, -, -, -, -, -, -, -, hedit⟩ := hedit
    exact (h.editMessage hedit).kept
  | deleteMessage hrow hdelete =>
    simp only [Db.requestDeleteMessage, bind_eq_ok] at hdelete
    obtain ⟨-, -, -, -, hdelete⟩ := hdelete
    exact (h.deleteMessage (Table.get?_eq_some.mp hrow) hdelete).kept
  | pinMessage => exact h
  | unpinMessage => exact h
  | createThread =>
    exact h.same ⟨rfl, rfl, rfl, rfl, rfl, rfl, fun _ hclass => classOf_append hclass⟩
  | addReaction => exact absurd rfl (hreacts _ _ _)
  | removeReaction =>
    exact h.fewerReactions (fun r hr => (List.mem_filter.mp hr).1) rfl rfl rfl rfl rfl rfl
  | openDm =>
    unfold Host.openDmChannel
    split_ifs
    · exact h
    · exact h.same ⟨rfl, rfl, rfl, rfl, rfl, rfl, fun _ hclass => classOf_append hclass⟩

theorem storeKept_messageRequest {request : MessageRequest} (h : host.db.StoreKept K)
    (hgate : host.contentBlockReason member = none)
    (hsafe : host.StoreSafe moment (.host (.request member isOwner (.message request)))) :
    (host.handleMessageRequest member isOwner moment request).1.db.StoreKept K := by
  have heffect := @messageRequest_effect host member isOwner moment request
  cases request with
  | addReaction messageId emoji fileId =>
    refine Host.commit_effect (P := fun host' => host'.db.StoreKept K) h fun host' hwrite => ?_
    simp only [bind_eq_ok, context_eq_ok, map_eq_ok] at hwrite
    obtain ⟨⟨⟩, htimeout, row, hrow, ⟨⟩, hperm, ⟨⟩, hplain, db, hadd, rfl⟩ := hwrite
    refine storeKept_addReaction h ⟨row, Table.get?_eq_some.mp hrow⟩ (fun hcheck => ?_) hadd
    refine hsafe hgate ?_
    simp only [Host.checkAddReaction, bind_eq_ok, context_eq_ok]
    exact ⟨⟨⟩, htimeout, row, hrow, ⟨⟩, hperm, ⟨⟩, hplain, hcheck⟩
  | _ => exact storeKept_messageEffect h (by simp) heffect

theorem storeKept_fetchUrl {channelId : ℕ} {fetched : Option Fetched} (h : host.db.StoreKept K) :
    (host.fetchUrl K member isOwner moment channelId fetched).1.db.StoreKept K := by
  refine Host.commit_effect (P := fun host' => host'.db.StoreKept K) h fun host' hwrite => ?_
  simp only [bind_eq_ok, map_eq_ok] at hwrite
  obtain ⟨⟨⟩, -, ⟨⟩, -, file, -, ⟨db, id⟩, hstore, rfl⟩ := hwrite
  exact h.storeOrReuse hstore

theorem storeKept_rerollGiveaway {giveaway : Option Giveaway} {announcement : Option String}
    (h : host.db.StoreKept K) :
    (host.rerollGiveaway member isOwner moment giveaway announcement).1.db.StoreKept K := by
  refine Host.commit_effect (P := fun host' => host'.db.StoreKept K) h fun host' hwrite => ?_
  simp only [bind_eq_ok, map_eq_ok] at hwrite
  obtain ⟨⟨⟩, -, g, -, ⟨⟩, -, ⟨⟩, -, ⟨⟩, -, text, -, db, hinsert, rfl⟩ := hwrite
  exact storeKept_insertMessage h hinsert

theorem expireTimeouts_keptDb {pks : List PublicKey} (h : host.db.StoreKept K) :
    (pks.foldl (fun host pk => host.expireTimeout pk moment.nowMs) host).db.StoreKept K :=
  (congrArg (Db.StoreKept K) Host.expireTimeouts_db).mpr h

theorem storeKept_submitEvent {event : Event} (h : host.db.StoreKept K) :
    (host.submitEvent K moment event).1.db.StoreKept K := by
  by_cases hok : ∃ a, (host.submitEvent K moment event).2 = .ok a
  · obtain ⟨db, orphans, hingest, hdb⟩ := submitEvent_ingested hok.choose_spec
    exact hdb ▸ (h.ingest hingest).kept
  · have hsame := congrArg (fun h : Host => h.db.StoreKept K) (submitEvent_refused hok)
    exact hsame.mpr h

theorem storeKept_dispatch {request : Request} (h : host.db.StoreKept K)
    (hgate : request.requiresMembership = true → host.contentBlockReason member = none)
    (hsafe : host.StoreSafe moment (.host (.request member isOwner request))) :
    (host.dispatch K member isOwner moment request).1.db.StoreKept K := by
  cases request with
  | channel request => exact h.same (sameStore_channelEffect (channelRequest_effect request))
  | role request =>
    exact (congrArg (Db.StoreKept K) (roleEffect_db (roleRequest_effect request))).mpr h
  | member request => exact h.same (sameStore_memberEffect (memberRequest_effect request))
  | message request => exact storeKept_messageRequest h (hgate rfl) hsafe
  | read request =>
    obtain ⟨consulted, heq⟩ := @readRequest_effect host member isOwner moment request
    exact heq ▸ expireTimeouts_keptDb h
  | fetchUrl channelId fetched => exact storeKept_fetchUrl h
  | runCommand channelId trigger =>
    exact (congrArg (Db.StoreKept K) Host.runCommand_db).mpr h
  | rerollGiveaway giveaway announcement => exact storeKept_rerollGiveaway h
  | submitEvent event => exact storeKept_submitEvent h
  | negotiateProtocol clientVersion => exact h
  | bootstrap => exact h
  | other consulted told => exact expireTimeouts_keptDb h

/-- A handshake writes to the rows of the members, and to the genesis at most. -/
theorem storeKept_handshake {name : String} {credentials : Credentials} {genesis : Genesis}
    (h : host.db.StoreKept K) :
    (host.handshake K member moment name credentials genesis).1.db.StoreKept K := by
  unfold Host.handshake
  split
  · exact h
  · refine Host.commit_effect (P := fun host' => host'.db.StoreKept K) h fun host' hwrite => ?_
    obtain ⟨g, hdb⟩ := authenticateNewMember_db hwrite
    exact hdb ▸ h.same (.of_channels rfl rfl rfl rfl rfl rfl rfl)

theorem storeKept_upload {channelId : ℕ} {upload : Upload} (h : host.db.StoreKept K) :
    (host.upload K member isOwner moment channelId upload).1.db.StoreKept K := by
  exact Host.PlainFrame.upload_rule (P := fun host' => host'.db.StoreKept K) h
    fun _ hstore => h.storeOrReuse hstore

theorem storeKept_executeDeletions {reqs : List DeletionRequest} (h : host.db.StoreKept K)
    (hspare : DeletionsSpare reqs host.db) :
    (host.executeDeletions reqs).db.StoreKept K ∧
      Valid host.db.messagesFts (Host.deletionsCommands reqs host.db) ∧
      ∀ call ∈ Host.deletionsCleanups reqs host.db, SparesFiles call := by
  induction reqs generalizing host with
  | nil => exact ⟨h, trivial, by simp [Host.deletionsCleanups]⟩
  | cons req reqs ih =>
    obtain ⟨hspares, hrest⟩ := hspare
    simp only [Host.executeDeletions, Host.deletionsCommands, Host.deletionsCleanups]
    cases hdelete : host.db.executeDeletion req with
    | error failure => exact ⟨h, trivial, by simp⟩
    | ok db =>
      obtain ⟨hissues, hcalls⟩ := h.executeDeletion hspares hdelete
      let next := (host.withDb db).withCommunity (host.community.removeMember req.memberKey)
      have hnext : next.db.StoreKept K := hissues.kept
      obtain ⟨hkept, hvalid, hrestCalls⟩ := ih hnext (hrest db hdelete)
      refine ⟨hkept, valid_append.mpr ⟨hissues.valid, ?_⟩, fun call hcall => ?_⟩
      · rw [← hissues.index]
        exact hvalid
      · rcases List.mem_append.mp hcall with hcall | hcall
        · exact hcalls call hcall
        · exact hrestCalls call hcall

theorem storeKept_perform {op : HostOp} (h : host.db.StoreKept K)
    (hsafe : host.StoreSafe moment (.host op)) : (host.perform K moment op).1.db.StoreKept K := by
  cases op with
  | request member isOwner request =>
    simp only [Host.perform, Host.handleRequest]
    split_ifs with hmembership
    · split
      · exact h
      · next hgate => exact storeKept_dispatch h (fun _ => hgate) hsafe
    · exact storeKept_dispatch h (fun hmember => absurd hmember hmembership) hsafe
  | handshake member name credentials genesis => exact storeKept_handshake h
  | upload member isOwner channelId upload =>
    simp only [Host.perform, Host.auxiliary]
    split
    · exact h
    · exact storeKept_upload h
  | download member isOwner fileId =>
    simp only [Host.perform, Host.auxiliary]
    split <;> exact h
  | purgeExpiredMessages =>
    simp only [Host.perform, Host.sweep]
    split
    · next db hpurge => exact (h.purgeExpiredMessages hsafe hpurge).1.kept
    · exact h
  | executePendingDeletions => exact (storeKept_executeDeletions h hsafe).1
  | cleanupOrphanedFile fileId => exact (h.cleanupOrphanedFile hsafe).2
  | continueCommand command outcome =>
    exact Host.continueCommand_rule (P := fun host' => host'.db.StoreKept K) (fun _ => h)
      fun _ _ _ _ hinsert => storeKept_insertMessage h hinsert

theorem valid_request {request : Request} (h : host.db.StoreKept K)
    (haccepts : host.Accepts K (moment, .request member isOwner request)) :
    Valid host.db.messagesFts
      (host.commands K moment (.host (.request member isOwner request))) := by
  have hdispatch := Host.perform_of_accepts haccepts
  have hanswer := haccepts
  obtain ⟨a, ha⟩ := hanswer
  rw [hdispatch] at ha
  simp only [Host.commands, if_pos haccepts]
  split
  · next id newContent hop =>
    obtain ⟨rfl, rfl, rfl⟩ := HostOp.request.inj hop
    obtain ⟨db, hedit, -⟩ := map_eq_ok.mp (Host.commit_answered ha)
    simp only [Db.requestEditMessage, bind_eq_ok] at hedit
    obtain ⟨-, -, -, -, -, -, -, -, hedit⟩ := hedit
    exact (h.editMessage hedit).valid
  · next id hop =>
    obtain ⟨rfl, rfl, rfl⟩ := HostOp.request.inj hop
    simp only [Host.dispatch, Host.handleMessageRequest, Host.deleteMessage] at ha
    split at ha
    · cases ha
    · next channelId db orphans hdelete =>
      simp only [bind_eq_ok, context_eq_ok, pure_eq_ok, Prod.mk.injEq] at hdelete
      obtain ⟨row, hrow, ⟨db, orphans⟩, hdelete, -, rfl, rfl⟩ := hdelete
      simp only [Db.requestDeleteMessage, bind_eq_ok] at hdelete
      obtain ⟨-, -, -, -, hdelete⟩ := hdelete
      exact (h.deleteMessage (Table.get?_eq_some.mp hrow) hdelete).valid
  · next event hop =>
    obtain ⟨rfl, rfl, rfl⟩ := HostOp.request.inj hop
    obtain ⟨db, orphans, hingest, -⟩ := submitEvent_ingested ha
    exact (h.ingest hingest).valid
  · next hop => cases hop
  · next hop => cases hop
  · trivial

theorem valid_commands {op : StoreOp} (h : host.db.StoreKept K)
    (hsafe : host.StoreSafe moment op) (hstep : StoreStep K host (moment, op) host') :
    Valid host.db.messagesFts (host.commands K moment op) := by
  cases op with
  | host op =>
    by_cases haccepts : host.Accepts K (moment, op)
    · cases op with
      | request member isOwner request => exact valid_request h haccepts
      | purgeExpiredMessages =>
        obtain ⟨db, hpurge⟩ := @LinksKept.purgeExpiredMessages_total host.db moment.now h.links
        simp only [Host.commands, if_pos haccepts]
        exact (h.purgeExpiredMessages hsafe hpurge).1.valid
      | executePendingDeletions =>
        simp only [Host.commands, if_pos haccepts]
        exact (storeKept_executeDeletions h hsafe).2.1
      | _ =>
        simp only [Host.commands, if_pos haccepts]
        trivial
    · simp only [Host.commands, if_neg haccepts]
      trivial
  | hardDeleteChannel channelId =>
    simp only [StoreStep, Host.performStore, Host.hardDeleteChannel, bind_eq_ok] at hstep
    obtain ⟨db, hdelete, -⟩ := hstep
    exact (h.hardDeleteChannel hsafe hdelete).valid
  | cleanupAllOrphans maxAgeSecs => trivial
  | redactBlob contentHash redactor => trivial
  | reconcile =>
    obtain ⟨server, hrestart, -⟩ := map_eq_ok.mp hstep
    exact (StoreKept.restart h hrestart).valid

theorem spares_cleanups {op : StoreOp} (h : host.db.StoreKept K)
    (hsafe : host.StoreSafe moment op) : ∀ call ∈ host.cleanups moment op, SparesFiles call := by
  intro call hcall
  cases op with
  | host op =>
    cases op with
    | purgeExpiredMessages =>
      obtain ⟨db, hpurge⟩ := h.links.purgeExpiredMessages_total
      exact (h.purgeExpiredMessages hsafe hpurge).2 call hcall
    | executePendingDeletions => exact (storeKept_executeDeletions h hsafe).2.2 call hcall
    | cleanupOrphanedFile fileId =>
      obtain rfl := List.mem_singleton.mp hcall
      exact (h.cleanupOrphanedFile hsafe).1
    | _ => exact absurd hcall (List.not_mem_nil)
  | cleanupAllOrphans maxAgeSecs =>
    obtain rfl := List.mem_singleton.mp hcall
    exact (h.cleanupAllOrphans hsafe).1
  | _ => exact absurd hcall (List.not_mem_nil)

theorem storeKept_step {op : StoreOp} (h : host.db.StoreKept K)
    (hsafe : host.StoreSafe moment op) (hstep : StoreStep K host (moment, op) host') :
    host'.db.StoreKept K := by
  cases op with
  | host op =>
    obtain rfl := Except.ok.inj hstep
    exact storeKept_perform h hsafe
  | hardDeleteChannel channelId =>
    simp only [StoreStep, Host.performStore, Host.hardDeleteChannel, bind_eq_ok, pure_eq_ok]
      at hstep
    obtain ⟨db, hdelete, ⟨⟩, -, rfl⟩ := hstep
    exact (h.hardDeleteChannel hsafe hdelete).kept
  | cleanupAllOrphans maxAgeSecs =>
    obtain rfl := Except.ok.inj hstep
    exact (h.cleanupAllOrphans hsafe).2
  | redactBlob contentHash redactor =>
    obtain rfl := Except.ok.inj hstep
    exact h.redactBlob contentHash redactor
  | reconcile =>
    obtain ⟨server, hrestart, rfl⟩ := map_eq_ok.mp hstep
    exact (StoreKept.restart h hrestart).kept

theorem storeKept_firstRun (setup : Setup) : (Host.firstRun setup).db.StoreKept K := by
  obtain ⟨channels, nextChannel, hdb⟩ := Host.firstRun_db setup
  rw [hdb]
  exact {
    links := ⟨nofun, nofun, nofun⟩
    reacted := ⟨nofun, nofun⟩
    shelved := ⟨nofun, nofun, nofun⟩
    searched := ⟨.nil, nofun⟩ }

theorem storeKept_run {setup : Setup} {tr : List (Transition Host (Moment × StoreOp))}
    (hrun : StoreRun K (.firstRun setup) tr host)
    (hsafe : ∀ t ∈ tr, t.pre.StoreSafe t.event.1 t.event.2) :
    host.db.StoreKept K ∧ ∀ t ∈ tr, t.pre.db.StoreKept K := by
  induction hrun with
  | nil => exact ⟨storeKept_firstRun setup, by simp⟩
  | @snoc pre post e tr hrun hstep ih =>
    obtain ⟨hkept, hall⟩ := ih fun t ht => hsafe t (by simp [ht])
    refine ⟨storeKept_step hkept (hsafe ⟨pre, e, post⟩ (by simp)) hstep, fun t ht => ?_⟩
    rcases List.mem_append.mp ht with ht | ht
    · exact hall t ht
    · obtain rfl := List.mem_singleton.mp ht
      exact hkept

/-- As long as no operation breaks it, the store agrees with itself; every command to the index
finds its entry, and no file that is in use is removed. -/
theorem store_consistent {setup : Setup} {tr : List (Transition Host (Moment × StoreOp))}
    (hrun : StoreRun K (.firstRun setup) tr host)
    (hsafe : ∀ t ∈ tr, t.pre.StoreSafe t.event.1 t.event.2) :
    host.db.SelfConsistent K ∧ ∀ t ∈ tr,
      Valid t.pre.db.messagesFts (t.pre.commands K t.event.1 t.event.2) ∧
        ∀ call ∈ t.pre.cleanups t.event.1 t.event.2, SparesFiles call := by
  obtain ⟨hkept, hall⟩ := storeKept_run hrun hsafe
  refine ⟨hkept.selfConsistent, fun t ht => ?_⟩
  have hstep := hrun.step_of_mem ht
  exact ⟨valid_commands (hall t ht) (hsafe t ht) hstep, spares_cleanups (hall t ht) (hsafe t ht)⟩

open SampleLog SampleHost

def aliceStores (ops : List (Moment × StoreOp)) : List (Moment × StoreOp) :=
  claimed.map (fun x => (x.1, .host x.2)) ++ ops

def byAlice (s : ℕ) (request : Request) : Moment × StoreOp :=
  (momentAt s, .host (.request (key alice) true request))

def storeTransitions (ops : List (Moment × StoreOp)) :
    List (Transition Host (Moment × StoreOp)) :=
  Execution.transitions (fun host e => host.performStore crypto e.1 e.2) start
    (aliceStores ops)

def hostAfterStore (ops : List (Moment × StoreOp)) : Host :=
  Execution.stateAfter (fun host e => host.performStore crypto e.1 e.2) start (aliceStores ops)

theorem run_store (ops : List (Moment × StoreOp)) :
    StoreRun crypto start (storeTransitions ops) (hostAfterStore ops) :=
  Execution.of_transitions (aliceStores ops)

def picture : Upload := ⟨key alice, "cat.png", [1], "1", "image/png", 1, ⟨none, none, none⟩⟩

def sendsHello : Moment × StoreOp := byAlice 2 (.message (.sendMessage 1 "hello" none []))

def reactsWithPicture (s : ℕ) : Moment × StoreOp :=
  byAlice s (.message (.addReaction 1 customEmoji (some 1)))

/-- Alice reacts to her message with a picture that she has uploaded. -/
def pictureShown : List (Moment × StoreOp) :=
  [sendsHello, (momentAt 3, .host (.upload (key alice) true 1 picture)), reactsWithPicture 4]

/-- A sweep before the first hour has passed, and an edit. -/
def pictureKept : List (Moment × StoreOp) :=
  pictureShown ++ [(momentAt 5, .host .purgeExpiredMessages),
    byAlice 6 (.message (.editMessage 1 "hello again"))]

/-- A decidable condition that is enough: nothing is swept but young pictures. -/
def plainlySafe (t : Transition Host (Moment × StoreOp)) : Bool :=
  match t.event.2 with
  | .host (.request _ _ (.message (.addReaction _ _ fileId))) =>
    fileId.all fun id => (t.pre.db.files.get? id).isSome
  | .host .purgeExpiredMessages => t.pre.db.reactions.all fun r => r.picture.all fun id =>
    (t.pre.db.files.get? id).any fun file =>
      t.event.1.now - orphanMaxAgeSecs ≤ file.uploadedAt
  | .host .executePendingDeletions => false
  | .host (.cleanupOrphanedFile _) => false
  | .cleanupAllOrphans _ => false
  | .hardDeleteChannel _ => false
  | _ => true

theorem purgeSpares_of_young {now : ℕ} (h : db.reactions.all (fun r => r.picture.all fun id =>
    (db.files.get? id).any fun file => now - orphanMaxAgeSecs ≤ file.uploadedAt) = true) :
    db.PurgeSpares now := by
  intro r hr fileId hpicture _ hold
  have hyoung := List.all_eq_true.mp h r hr
  rw [hpicture, Option.all_some, Option.any_eq_true] at hyoung
  obtain ⟨file, hfile, hage⟩ := hyoung
  have hlt := hold file (Table.get?_eq_some.mp hfile)
  exact absurd (of_decide_eq_true hage) (by omega)

theorem storeSafe_of_plainly {t : Transition Host (Moment × StoreOp)} (h : plainlySafe t = true) :
    t.pre.StoreSafe t.event.1 t.event.2 := by
  obtain ⟨pre, ⟨moment, op⟩, post⟩ := t
  cases op with
  | host op =>
    cases op with
    | request member isOwner request =>
      cases request with
      | message request =>
        cases request with
        | addReaction messageId emoji fileId =>
          rintro - - - id hid
          obtain rfl := Option.mem_def.mp hid
          obtain ⟨file, hfile⟩ := Option.isSome_iff_exists.mp h
          exact ⟨file, Table.get?_eq_some.mp hfile⟩
        | _ => trivial
      | _ => trivial
    | purgeExpiredMessages => exact purgeSpares_of_young h
    | executePendingDeletions => exact absurd h (by simp [plainlySafe])
    | cleanupOrphanedFile fileId => exact absurd h (by simp [plainlySafe])
    | _ => trivial
  | cleanupAllOrphans maxAgeSecs => exact absurd h (by simp [plainlySafe])
  | hardDeleteChannel channelId => exact absurd h (by simp [plainlySafe])
  | _ => trivial

theorem store_consistent_pictureKept :
    (hostAfterStore pictureKept).db.SelfConsistent crypto ∧ ∀ t ∈ storeTransitions pictureKept,
      Valid t.pre.db.messagesFts (t.pre.commands crypto t.event.1 t.event.2) ∧
        ∀ call ∈ t.pre.cleanups t.event.1 t.event.2, SparesFiles call :=
  store_consistent (run_store pictureKept) fun _ ht =>
    storeSafe_of_plainly (List.all_eq_true.mp (by decide +kernel :
      (storeTransitions pictureKept).all plainlySafe = true) _ ht)

/-- Alice writes one message that is indexed and one that is sealed, and the channel of the second
is deleted for good. -/
def sealedGone : List (Moment × StoreOp) :=
  sendsHello :: (signed
    [⟨alice, a0, 1, cert alice a0 none⟩,
     ⟨alice, a0, 1, .channelCreated ⟨e2eeChannelIdFloor, "sealed", "text", .e2ee, none⟩⟩,
     ⟨alice, a0, 1, .mlsCommit ⟨e2eeChannelIdFloor, 0, 0, [], [], [], 0, 1, 0, "", 0⟩⟩,
     ⟨alice, a0, 1, .messagePostedE2ee ⟨e2eeChannelIdFloor, 0, 1, [1], none, [], ""⟩⟩]).map
    (fun e => byAlice 2 (.submitEvent e)) ++
  [(momentAt 3, .hardDeleteChannel e2eeChannelIdFloor)]

/-- The picture of a reaction need not be stored; if it is, the sweep takes it away; and what is
taken out of the index need not be in it. -/
theorem store_inconsistent :
    (StoreRun crypto start (storeTransitions [sendsHello, reactsWithPicture 3])
        (hostAfterStore [sendsHello, reactsWithPicture 3]) ∧
      ¬(hostAfterStore [sendsHello, reactsWithPicture 3]).db.SelfConsistent crypto) ∧
    (StoreRun crypto start (storeTransitions pictureShown) (hostAfterStore pictureShown) ∧
      ∃ call ∈ (hostAfterStore pictureShown).cleanups (momentAt 4000) (.host .purgeExpiredMessages),
        ¬SparesFiles call) ∧
    StoreRun crypto start (storeTransitions sealedGone) (hostAfterStore sealedGone) ∧
      ∃ t ∈ storeTransitions sealedGone,
        ¬Valid t.pre.db.messagesFts (t.pre.commands crypto t.event.1 t.event.2) := by
  refine ⟨⟨run_store _, fun h => ?_⟩, ⟨run_store _, ?_⟩, run_store _, ?_⟩
  · have hshown : (hostAfterStore [sendsHello, reactsWithPicture 3]).db.Pictured 1 := by
      decide +kernel
    obtain ⟨r, hr, hpicture⟩ := hshown
    exact absurd (h.reactedFile r hr 1 hpicture) (by decide +kernel)
  · have htaken : ((hostAfterStore pictureShown).cleanups (momentAt 4000)
        (.host .purgeExpiredMessages)).any (fun call =>
          call.1.Pictured 1 ∧ call.1.HasFile 1 ∧ ¬call.2.HasFile 1) = true := by
      decide +kernel
    obtain ⟨call, hcall, htaken⟩ := List.any_eq_true.mp htaken
    obtain ⟨hshown, hfile, hgone⟩ := of_decide_eq_true htaken
    exact ⟨call, hcall, fun hspares => hgone (hspares 1 (.inr hshown) hfile)⟩
  · have hinvalid : (storeTransitions sealedGone).any (fun t => ¬Valid t.pre.db.messagesFts
        (t.pre.commands crypto t.event.1 t.event.2)) = true := by
      decide +kernel
    obtain ⟨t, ht, hinvalid⟩ := List.any_eq_true.mp hinvalid
    exact ⟨t, ht, of_decide_eq_true hinvalid⟩

end Server
