import Farder.Server.ChannelRows
import Farder.Server.MessageRows
import Mathlib.Logic.Relation

/-! # What an operation does to the database

Whatever is asked of a server, it changes its database by steps of a few kinds only. An
invariant of the database needs to look at these. -/
namespace Server

open EventLog Guarded Permissions Relation

variable {K : Crypto} {host host' : Host} {member : PublicKey} {isOwner : Bool} {moment : Moment}

inductive DbStep (K : Crypto) : Db → Db → Prop
  | channels {db : Db} {channels : List ChannelRow} {nextChannel : ℕ}
      (hids : ∀ id ∈ db.channelIds, id ∈ channels.map ChannelRow.id) :
      DbStep K db { db with channels, nextChannel }
  | genesis {db : Db} (genesis : Option Genesis) : DbStep K db { db with genesis }
  | deletionRequests {db : Db} (deletionRequests : List DeletionRequest) :
      DbStep K db { db with deletionRequests }
  | reactions {db : Db} (reactions : List ReactionRow) : DbStep K db { db with reactions }
  | insertMessage {db db' : Db} {channelId now : ℕ} {author : PublicKey} {content : String}
      {replyTo : Option ℕ}
      (h : db.insertMessage channelId author content replyTo now = .ok db') : DbStep K db db'
  | attach {db : Db} {messageId fileId : ℕ} {row : MessageRow} {file : FileRow}
      (hmessage : (messageId, row) ∈ db.messages) (hfile : (fileId, file) ∈ db.files)
      (position : ℕ) (name : String) (media : MediaInfo) :
      DbStep K db (db.createMessageAttachment messageId fileId position name media)
  | edit {db db' : Db} {id now : ℕ} {content : String}
      (h : db.editMessage id content now = .ok db') : DbStep K db db'
  | delete {db db' : Db} {id : ℕ} {orphans : List ℕ}
      (h : db.deleteMessage id = .ok (db', orphans)) : DbStep K db db'
  | store {db db' : Db} {uploadedBy : PublicKey} {name hash mime : String} {bytes : List UInt8}
      {size now id : ℕ} {media : MediaInfo}
      (h : db.storeOrReuseFromTempFile K uploadedBy name bytes hash mime size media now =
        .ok (db', id)) : DbStep K db db'
  | ingest {db db' : Db} {event : Event} {orphans : List ℕ}
      (hposted : db.checkPosted event = .ok ()) (h : db.ingest K event = .ok (db', orphans)) :
      DbStep K db db'
  | purge {db db' : Db} {now : ℕ} (h : db.purgeExpiredMessages now = .ok db') : DbStep K db db'
  | execute {db db' : Db} {req : DeletionRequest} (h : db.executeDeletion req = .ok db') :
      DbStep K db db'
  | cleanup {db : Db} (fileId : ℕ) : DbStep K db (db.cleanupOrphanedFile fileId)

abbrev DbSteps (K : Crypto) := ReflTransGen (DbStep K)

theorem DbSteps.of_eq {db db' : Db} (h : db' = db) : DbSteps K db db' := by rw [h]

namespace DbStep

theorem insertChannel {name : String} {channelType : ChannelType} {position : ℕ}
    {info : ChannelInfo} :
    DbStep K host.db (host.insertChannel name channelType position info).db :=
  .channels fun id hid => by
    rw [List.map_append]
    exact List.mem_append_left _ hid

theorem mapChannels {db : Db} {f : ChannelRow → ChannelRow} (hid : ∀ ch, (f ch).id = ch.id) :
    DbStep K db { db with channels := db.channels.map f } := by
  refine @DbStep.channels K db _ db.nextChannel fun id hmem => ?_
  obtain ⟨ch, hch, rfl⟩ := List.mem_map.mp hmem
  rw [List.map_map]
  exact List.mem_map.mpr ⟨ch, hch, hid ch⟩

end DbStep

theorem channelEffect_dbSteps {request : ChannelRequest}
    (h : ChannelEffect host member isOwner request host') : DbSteps K host.db host'.db := by
  cases h with
  | createChannel => exact .single .insertChannel
  | updateChannel =>
    refine .single (DbStep.mapChannels fun ch => ?_)
    split_ifs <;> rfl
  | deleteChannel =>
    refine .single (DbStep.mapChannels fun ch => ?_)
    split_ifs <;> rfl
  | _ => exact .refl

theorem roleEffect_dbSteps {request : RoleRequest}
    (h : RoleEffect host member isOwner request host') : DbSteps K host.db host'.db := by
  cases h <;> exact .refl

theorem memberEffect_dbSteps {request : MemberRequest}
    (h : MemberEffect host member isOwner moment request host') : DbSteps K host.db host'.db := by
  cases h with
  | requestDeletion hrequest =>
    simp only [Db.requestDeletion, bind_eq_ok, pure_eq_ok] at hrequest
    obtain ⟨⟨⟩, -, ⟨⟩, -, rfl⟩ := hrequest
    exact .single (.deletionRequests _)
  | cancelDeletion hcancel =>
    simp only [Db.cancelDeletion, bind_eq_ok, pure_eq_ok] at hcancel
    obtain ⟨⟨⟩, -, rfl⟩ := hcancel
    exact .single (.deletionRequests _)
  | _ => exact .refl

theorem attachFiles_dbSteps {messageId : ℕ} {row : MessageRow} {files : List (ℕ × ℕ)}
    (hmessage : (messageId, row) ∈ host.db.messages) :
    DbSteps K host.db (host.attachFiles member isOwner messageId files).1.db := by
  induction files generalizing host with
  | nil => exact .refl
  | cons x files ih =>
    simp only [Host.attachFiles]
    split
    · exact .refl
    · next file hfile =>
      simp only [bind_eq_ok, context_eq_ok, Table.get?_eq_some] at hfile
      obtain ⟨stored, hstored, -⟩ := hfile
      let next := host.withDb (host.db.createMessageAttachment messageId x.1 x.2
        file.originalName file.media)
      have hrest : DbSteps K next.db (next.attachFiles member isOwner messageId files).1.db :=
        ih hmessage
      exact .head (.attach hmessage hstored ..) hrest

theorem messageEffect_dbSteps {request : MessageRequest}
    (h : MessageEffect host member isOwner moment request host') : DbSteps K host.db host'.db := by
  cases h with
  | refused => exact .refl
  | expired => exact .refl
  | sendMessage hpost =>
    simp only [Host.postMessage, bind_eq_ok, map_eq_ok] at hpost
    obtain ⟨⟨⟩, -, ⟨⟩, -, ⟨⟩, -, ⟨⟩, -, ⟨⟩, -, db, hinsert, rfl⟩ := hpost
    have hmessages := insertMessage_messages hinsert
    have hinserted : (host.db.messages.next, _) ∈ db.messages :=
      hmessages ▸ Table.mem_insert.mpr (.inr rfl)
    exact .head (.insertMessage hinsert)
      (@attachFiles_dbSteps K ((host.expireTimeout member moment.nowMs).withDb db) _ _ _ _ _
        hinserted)
  | editMessage hedit =>
    simp only [Db.requestEditMessage, bind_eq_ok] at hedit
    obtain ⟨-, -, -, -, -, -, -, -, hedit⟩ := hedit
    exact .single (.edit hedit)
  | deleteMessage hrow hdelete =>
    simp only [Db.requestDeleteMessage, bind_eq_ok] at hdelete
    obtain ⟨-, -, -, -, hdelete⟩ := hdelete
    exact .single (.delete hdelete)
  | pinMessage => exact .refl
  | unpinMessage => exact .refl
  | createThread => exact .single .insertChannel
  | addReaction hrow hperm hadd =>
    simp only [Db.addReaction, bind_eq_ok, pure_eq_ok] at hadd
    obtain ⟨⟨⟩, -, rfl⟩ := hadd
    exact .single (.reactions _)
  | removeReaction => exact .single (.reactions _)
  | openDm =>
    unfold Host.openDmChannel
    split_ifs
    · exact .refl
    · exact .single (@DbStep.insertChannel K host "" .dm 0 .empty)

theorem submitEvent_dbSteps {event : Event} :
    DbSteps K host.db (host.submitEvent K moment event).1.db := by
  cases hok : host.server.submitEvent K event moment.now with
  | error failure =>
    rw [Host.submitEvent, hok]
  | ok x =>
    have hserver : (host.submitEvent K moment event).1.server = x.1 := by
      rw [Host.submitEvent, hok]
    simp only [ServerState.submitEvent, bind_eq_ok, pure_eq_ok] at hok
    obtain ⟨ls, -, ⟨⟩, -, ⟨⟩, -, trial, -, ⟨⟩, hposted, ⟨db, orphans⟩, hingest, rfl⟩ := hok
    have hdb : (host.submitEvent K moment event).1.db = db := congrArg ServerState.db hserver
    exact hdb ▸ .single (.ingest hposted hingest)

theorem fetchUrl_dbSteps {channelId : ℕ} {fetched : Option Fetched} :
    DbSteps K host.db (host.fetchUrl K member isOwner moment channelId fetched).1.db := by
  refine Host.commit_effect (P := fun host' => DbSteps K host.db host'.db) .refl fun host' h => ?_
  simp only [bind_eq_ok, map_eq_ok] at h
  obtain ⟨⟨⟩, -, ⟨⟩, -, file, -, ⟨db, id⟩, hstore, rfl⟩ := h
  exact .single (.store hstore)

theorem rerollGiveaway_dbSteps {giveaway : Option Giveaway} {announcement : Option String} :
    DbSteps K host.db
      (host.rerollGiveaway member isOwner moment giveaway announcement).1.db := by
  refine Host.commit_effect (P := fun host' => DbSteps K host.db host'.db) .refl fun host' h => ?_
  simp only [bind_eq_ok, map_eq_ok] at h
  obtain ⟨⟨⟩, -, g, -, ⟨⟩, -, ⟨⟩, -, ⟨⟩, -, text, -, db, hinsert, rfl⟩ := h
  exact .single (.insertMessage hinsert)

theorem dispatch_dbSteps {request : Request} :
    DbSteps K host.db (host.dispatch K member isOwner moment request).1.db := by
  cases request with
  | channel request => exact channelEffect_dbSteps (channelRequest_effect request)
  | role request => exact roleEffect_dbSteps (roleRequest_effect request)
  | member request => exact memberEffect_dbSteps (memberRequest_effect request)
  | message request => exact messageEffect_dbSteps (messageRequest_effect request)
  | read request =>
    obtain ⟨consulted, heq⟩ := @readRequest_effect host member isOwner moment request
    exact DbSteps.of_eq ((congrArg Host.db heq).trans Host.expireTimeouts_db)
  | fetchUrl channelId fetched => exact fetchUrl_dbSteps
  | runCommand channelId trigger => exact DbSteps.of_eq Host.runCommand_db
  | rerollGiveaway giveaway announcement => exact rerollGiveaway_dbSteps
  | submitEvent event => exact submitEvent_dbSteps
  | negotiateProtocol clientVersion => exact .refl
  | bootstrap => exact .refl
  | other consulted told => exact DbSteps.of_eq Host.expireTimeouts_db

theorem executeDeletions_dbSteps {reqs : List DeletionRequest} :
    DbSteps K host.db (host.executeDeletions reqs).db := by
  induction reqs generalizing host with
  | nil => exact .refl
  | cons req reqs ih =>
    unfold Host.executeDeletions
    split
    · next db hexecute =>
      let next := (host.withDb db).withCommunity (host.community.removeMember req.memberKey)
      have hrest : DbSteps K next.db (next.executeDeletions reqs).db := ih
      exact .head (.execute hexecute) hrest
    · exact .refl

theorem perform_dbSteps {op : HostOp} : DbSteps K host.db (host.perform K moment op).1.db := by
  cases op with
  | request member isOwner request =>
    simp only [Host.perform, Host.handleRequest]
    split_ifs
    · split
      · exact .refl
      · exact dispatch_dbSteps
    · exact dispatch_dbSteps
  | handshake member name credentials genesis =>
    simp only [Host.perform, Host.handshake]
    split
    · exact .refl
    · refine Host.commit_effect (P := fun host' => DbSteps K host.db host'.db) .refl
        fun host' hok => ?_
      obtain ⟨g, hdb⟩ := authenticateNewMember_db hok
      exact hdb ▸ .single (.genesis g)
  | upload member isOwner channelId upload =>
    simp only [Host.perform, Host.auxiliary]
    split
    · exact .refl
    · exact Host.PlainFrame.upload_rule (P := fun host' => DbSteps K host.db host'.db) .refl
        fun _ hstore => .single (.store hstore)
  | download member isOwner fileId =>
    simp only [Host.perform, Host.auxiliary]
    split <;> exact .refl
  | purgeExpiredMessages =>
    simp only [Host.perform, Host.sweep]
    split
    · next db hpurge => exact .single (.purge hpurge)
    · exact .refl
  | executePendingDeletions => exact executeDeletions_dbSteps
  | cleanupOrphanedFile fileId => exact .single (.cleanup fileId)
  | continueCommand command outcome =>
    exact Host.continueCommand_rule (P := fun host' => DbSteps K host.db host'.db) (fun _ => .refl)
      fun _ _ _ _ hinsert => .single (.insertMessage hinsert)

theorem db_invariant {I : Db → Prop} (hstep : ∀ db db', I db → DbStep K db db' → I db')
    {tr : List (Transition Host (Moment × HostOp))} (hrun : HostRun K host tr host')
    (h : I host.db) : I host'.db := by
  refine hrun.invariant (I := fun host => I host.db) h fun pre e post hpre hop => ?_
  have hsteps : DbSteps K pre.db post.db := hop ▸ perform_dbSteps
  generalize post.db = db at hsteps
  induction hsteps with
  | refl => exact hpre
  | tail _ hlast ih => exact hstep _ _ ih hlast

end Server
