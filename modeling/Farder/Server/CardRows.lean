import Farder.Server.DbSteps
import Farder.Server.StoreOps
import Farder.Server.RestartSpec

/-! # What becomes of the cards

A card is a message that comes from no event of the log. Three operations delete messages that are
not tombstoned; everything else leaves each card in its channel. -/
namespace Server

open EventLog Guarded Permissions

variable {K : Crypto} {db db' : Db} {v v' v'' : View} {host host' : Host} {member : PublicKey}
  {isOwner : Bool} {moment : Moment} {event : Event}

namespace View

def Posted (v : View) (messageId channelId : ℕ) : Prop :=
  ∃ row, (messageId, row) ∈ v.messages ∧ row.channelId = channelId ∧ row.eventHash = none

/-- All cards stay where they are, but for those that are `gone`. -/
def KeepsBut (gone : ℕ × MessageRow → Prop) (v v' : View) : Prop :=
  ∀ id row, (id, row) ∈ v.messages → row.eventHash = none → ¬gone (id, row) →
    ∃ row', (id, row') ∈ v'.messages ∧ row'.channelId = row.channelId ∧ row'.eventHash = none

abbrev Keeps (v v' : View) : Prop := KeepsBut (fun _ => False) v v'

theorem Keeps.refl : Keeps v v := fun _ row hrow hhash _ => ⟨row, hrow, rfl, hhash⟩

theorem Keeps.trans (h : Keeps v v') (h' : Keeps v' v'') : Keeps v v'' := by
  intro id row hrow hhash hgone
  obtain ⟨row₁, hrow₁, hchannel₁, hhash₁⟩ := h id row hrow hhash hgone
  obtain ⟨row₂, hrow₂, hchannel₂, hhash₂⟩ := h' id row₁ hrow₁ hhash₁ hgone
  exact ⟨row₂, hrow₂, hchannel₂.trans hchannel₁, hhash₂⟩

theorem Keeps.but (h : Keeps v v') {gone : ℕ × MessageRow → Prop} : KeepsBut gone v v' :=
  fun id row hrow hhash _ => h id row hrow hhash not_false

theorem KeepsBut.posted {gone : ℕ × MessageRow → Prop} (h : KeepsBut gone v v')
    {messageId channelId : ℕ} {row : MessageRow} (hrow : (messageId, row) ∈ v.messages)
    (hchannel : row.channelId = channelId) (hhash : row.eventHash = none)
    (hgone : ¬gone (messageId, row)) : v'.Posted messageId channelId := by
  obtain ⟨row', hrow', hchannel', hhash'⟩ := h messageId row hrow hhash hgone
  exact ⟨row', hrow', hchannel'.trans hchannel, hhash'⟩

theorem Keeps.posted_of (h : Keeps v v') {messageId channelId : ℕ}
    (hposted : v.Posted messageId channelId) : v'.Posted messageId channelId := by
  obtain ⟨row, hrow, hchannel, hhash⟩ := hposted
  exact h.posted hrow hchannel hhash not_false

theorem Keeps.of_eq (h : v' = v) : Keeps v v' := h ▸ .refl

theorem Keeps.of_table (hmessages : v'.messages = v.messages) : Keeps v v' :=
  fun _ row hrow hhash _ => ⟨row, hmessages ▸ hrow, rfl, hhash⟩

theorem Keeps.of_messages {f : ℕ → MessageRow → MessageRow}
    (hmessages : v'.messages = v.messages.map f)
    (hf : ∀ k row, (f k row).channelId = row.channelId ∧
      (row.eventHash = none → (f k row).eventHash = none)) : Keeps v v' :=
  fun id row hrow hhash _ =>
    ⟨f id row, hmessages ▸ Table.mem_map_of_mem hrow, (hf id row).1, (hf id row).2 hhash⟩

theorem Keeps.of_modify {k : ℕ} {f : MessageRow → MessageRow}
    (hmessages : v'.messages = v.messages.modify k f)
    (hf : ∀ row, (f row).channelId = row.channelId ∧
      (row.eventHash = none → (f row).eventHash = none)) : Keeps v v' := by
  refine .of_messages (f := fun i row => if i = k then f row else row) hmessages fun i row => ?_
  by_cases hi : i = k
  · simpa [hi] using hf row
  · simp [hi]

theorem Keeps.of_insert {row : MessageRow} (hmessages : v'.messages = v.messages.insert row) :
    Keeps v v' :=
  fun _ row hrow hhash _ => ⟨row, hmessages ▸ Table.mem_insert.mpr (.inl hrow), rfl, hhash⟩

theorem KeepsBut.of_delete {gone : ℕ × MessageRow → Prop} {p : ℕ × MessageRow → Bool}
    (hmessages : v'.messages = v.messages.delete p)
    (hp : ∀ x, x.2.eventHash = none → p x = true → gone x) : KeepsBut gone v v' := by
  intro id row hrow hhash hgone
  refine ⟨row, hmessages ▸ Table.mem_delete.mpr ⟨hrow, ?_⟩, rfl, hhash⟩
  exact Bool.eq_false_iff.mpr fun hdeleted => hgone (hp _ hhash hdeleted)

theorem Keeps.of_tombstone {id : ℕ} {row : MessageRow} {hash : EventHash}
    (hrow : (id, row) ∈ v.messages) (hhash : row.eventHash = some hash)
    (hmessages : v'.messages = v.messages.delete fun x => x.1 = id) : Keeps v v' := by
  intro k r hr hnone _
  refine ⟨r, hmessages ▸ Table.mem_delete.mpr ⟨hr, decide_eq_false fun hk => ?_⟩, rfl, hnone⟩
  obtain rfl : k = id := hk
  obtain rfl := Table.row_eq hr hrow
  exact absurd (hnone.symm.trans hhash) (by simp)

theorem Keeps.ingested (h : Ingested K v event v') : Keeps v v' := by
  cases h with
  | declared | stored => exact .of_table rfl
  | posted => exact .of_insert rfl
  | edited p =>
    exact .of_modify (f := fun row =>
      { row with sealed := some p.ciphertext, editedAt := some event.core.timestamp }) rfl
      fun row => ⟨rfl, id⟩
  | deleted p id row hp hrow hhash => exact .of_tombstone hrow hhash rfl

end View

/-! ## Operations on the database -/

namespace Db

open View

theorem keeps_insertMessage {channelId now : ℕ} {author : PublicKey} {content : String}
    {replyTo : Option ℕ} (h : db.insertMessage channelId author content replyTo now = .ok db') :
    Keeps db.view db'.view :=
  .of_insert (insertMessage_messages h)

theorem keeps_editMessage {id : ℕ} {member : PublicKey} {content : String} {v2 : Bool} {now : ℕ}
    (h : db.requestEditMessage member id content v2 now = .ok db') : Keeps db.view db'.view := by
  obtain ⟨row, -, -, hview⟩ := view_requestEditMessage h
  rw [hview]
  exact .of_modify (f := fun row => { row with content, editedAt := some now }) rfl
    fun row => ⟨rfl, fun h => h⟩

theorem keeps_executeDeletion {req : DeletionRequest} (h : db.executeDeletion req = .ok db') :
    Keeps db.view db'.view := by
  rw [view_executeDeletion h]
  refine .of_messages (f := fun _ row =>
    if row.author = req.memberKey then anonymized row else row) rfl fun k row => ?_
  split_ifs <;> exact ⟨rfl, fun h => h⟩

theorem keepsBut_purge {now : ℕ} (h : db.purgeExpiredMessages now = .ok db') :
    KeepsBut (fun x => db.expires now x.2 = true) db.view db'.view := by
  rw [view_purgeExpiredMessages h]
  exact .of_delete rfl fun _ _ hp => hp

theorem hardDelete_messages {channelId : ℕ} (h : db.hardDeleteChannel channelId = .ok db') :
    db'.messages = db.messages.delete fun x => x.2.channelId = channelId := by
  simp only [hardDeleteChannel, bind_eq_ok, pure_eq_ok] at h
  obtain ⟨db₁, hloop, -, -, rfl⟩ := h
  have hframe : db₁.view = db.view :=
    view_foldlM (α := ℕ × MessageRow) (fun db => db) (fun _ _ _ hstep => by
      simp only [bind_eq_ok, pure_eq_ok] at hstep
      obtain ⟨⟨db₂, orphans⟩, hdelete, rfl⟩ := hstep
      exact (view_deleteAttachmentsForMessage hdelete).trans rfl) hloop
  have hmessages : db₁.messages = db.messages := congrArg View.messages hframe
  exact congrArg (fun t : Table MessageRow => t.delete fun x => x.2.channelId = channelId) hmessages

theorem keepsBut_hardDelete {channelId : ℕ} (h : db.hardDeleteChannel channelId = .ok db') :
    KeepsBut (fun x => x.2.channelId = channelId) db.view db'.view :=
  .of_delete (hardDelete_messages h) fun _ _ hp => of_decide_eq_true hp

end Db

/-- The messages that an operation deletes although they are not tombstoned. -/
def StoreOp.gone (host : Host) (now : ℕ) : StoreOp → ℕ × MessageRow → Prop
  | .host (.request _ _ (.message (.deleteMessage id))) => fun x => x.1 = id
  | .host .purgeExpiredMessages => fun x => host.db.expires now x.2 = true
  | .hardDeleteChannel channelId => fun x => x.2.channelId = channelId
  | _ => fun _ => False

open View Host

theorem insertChannel_cards {name : String} {channelType : ChannelType} {position : ℕ}
    {info : ChannelInfo} :
    Keeps host.db.view (host.insertChannel name channelType position info).db.view :=
  .of_table rfl

theorem channelEffect_cards {request : ChannelRequest}
    (h : ChannelEffect host member isOwner request host') : Keeps host.db.view host'.db.view := by
  cases h with
  | createChannel => exact insertChannel_cards
  | _ => exact .of_table rfl

theorem roleEffect_cards {request : RoleRequest}
    (h : RoleEffect host member isOwner request host') : Keeps host.db.view host'.db.view := by
  cases h <;> exact .refl

theorem memberEffect_cards {request : MemberRequest}
    (h : MemberEffect host member isOwner moment request host') :
    Keeps host.db.view host'.db.view := by
  cases h with
  | requestDeletion hrequest =>
    simp only [Db.requestDeletion, bind_eq_ok, pure_eq_ok] at hrequest
    obtain ⟨⟨⟩, -, ⟨⟩, -, rfl⟩ := hrequest
    exact .refl
  | cancelDeletion hcancel =>
    simp only [Db.cancelDeletion, bind_eq_ok, pure_eq_ok] at hcancel
    obtain ⟨⟨⟩, -, rfl⟩ := hcancel
    exact .refl
  | _ => exact .refl

theorem attachFiles_cards {messageId : ℕ} {files : List (ℕ × ℕ)} :
    Keeps host.db.view (host.attachFiles member isOwner messageId files).1.db.view := by
  exact .of_table attachFiles_messages

theorem openDmChannel_cards {a b : PublicKey} :
    Keeps host.db.view (host.openDmChannel a b).db.view := by
  unfold Host.openDmChannel
  split_ifs
  · exact .refl
  · exact @insertChannel_cards host "" .dm 0 .empty

theorem messageEffect_cards {request : MessageRequest}
    (h : MessageEffect host member isOwner moment request host') :
    KeepsBut (StoreOp.gone host moment.now (.host (.request member isOwner (.message request))))
      host.db.view host'.db.view := by
  cases h with
  | @sendMessage _ _ _ attachmentIds _ hpost =>
    simp only [Host.postMessage, bind_eq_ok, map_eq_ok] at hpost
    obtain ⟨⟨⟩, -, ⟨⟩, -, ⟨⟩, -, ⟨⟩, -, ⟨⟩, -, db, hinsert, rfl⟩ := hpost
    let posted := (host.expireTimeout member moment.nowMs).withDb db
    have hattached : Keeps posted.db.view (posted.attachFiles member isOwner
        host.db.messages.next attachmentIds.zipIdx).1.db.view := attachFiles_cards
    exact ((Db.keeps_insertMessage hinsert).trans hattached).but
  | editMessage hedit => exact (Db.keeps_editMessage hedit).but
  | deleteMessage hrow hdelete =>
    have hview := view_requestDeleteMessage hdelete
    exact .of_delete (congrArg View.messages hview) fun x _ hx =>
      (decide_eq_true_eq (p := x.1 = _)).mp hx
  | addReaction hrow hperm hadd =>
    simp only [Db.addReaction, bind_eq_ok, pure_eq_ok] at hadd
    obtain ⟨⟨⟩, -, rfl⟩ := hadd
    exact Keeps.refl.but
  | createThread => exact insertChannel_cards.but
  | openDm => exact openDmChannel_cards.but
  | _ => exact Keeps.refl.but

theorem submitEvent_cards :
    Keeps host.db.view (host.submitEvent K moment event).1.db.view := by
  cases hok : host.server.submitEvent K event moment.now with
  | error failure =>
    rw [Host.submitEvent, hok]
    exact .refl
  | ok x =>
    have hserver : (host.submitEvent K moment event).1.server = x.1 := by
      rw [Host.submitEvent, hok]
    obtain ⟨-, -, -, -, -, -, hingested⟩ := submitted hok
    have hdb : (host.submitEvent K moment event).1.db = x.1.db := congrArg ServerState.db hserver
    exact hdb ▸ .ingested hingested

theorem dispatch_cards {request : Request} :
    KeepsBut (StoreOp.gone host moment.now (.host (.request member isOwner request))) host.db.view
      (host.dispatch K member isOwner moment request).1.db.view := by
  cases request with
  | channel request => exact (channelEffect_cards (channelRequest_effect request)).but
  | role request => exact (roleEffect_cards (roleRequest_effect request)).but
  | member request => exact (memberEffect_cards (memberRequest_effect request)).but
  | message request => exact messageEffect_cards (messageRequest_effect request)
  | read request =>
    obtain ⟨consulted, heq⟩ := @readRequest_effect host member isOwner moment request
    exact (Keeps.of_eq (congrArg Db.view ((congrArg Host.db heq).trans expireTimeouts_db))).but
  | fetchUrl channelId fetched =>
    refine commit_effect (P := fun host' => KeepsBut _ host.db.view host'.db.view)
      Keeps.refl.but fun host' h => ?_
    simp only [bind_eq_ok, map_eq_ok] at h
    obtain ⟨⟨⟩, -, ⟨⟩, -, file, -, ⟨db, id⟩, hstore, rfl⟩ := h
    exact (Keeps.of_eq (Db.view_storeOrReuse hstore)).but
  | runCommand channelId trigger =>
    exact (Keeps.of_eq (congrArg Db.view Host.runCommand_db)).but
  | rerollGiveaway giveaway announcement =>
    refine commit_effect (P := fun host' => KeepsBut _ host.db.view host'.db.view)
      Keeps.refl.but fun host' h => ?_
    simp only [bind_eq_ok, map_eq_ok] at h
    obtain ⟨⟨⟩, -, g, -, ⟨⟩, -, ⟨⟩, -, ⟨⟩, -, text, -, db, hinsert, rfl⟩ := h
    exact (Db.keeps_insertMessage hinsert).but
  | submitEvent event => exact submitEvent_cards.but
  | negotiateProtocol clientVersion => exact Keeps.refl.but
  | bootstrap => exact Keeps.refl.but
  | other consulted told => exact (Keeps.of_eq (congrArg Db.view expireTimeouts_db)).but

theorem handleRequest_cards {request : Request} :
    KeepsBut (StoreOp.gone host moment.now (.host (.request member isOwner request))) host.db.view
      (host.handleRequest K member isOwner moment request).1.db.view := by
  unfold Host.handleRequest
  split_ifs
  · split
    · exact Keeps.refl.but
    · exact dispatch_cards
  · exact dispatch_cards

theorem executeDeletions_cards {reqs : List DeletionRequest} :
    Keeps host.db.view (host.executeDeletions reqs).db.view := by
  induction reqs generalizing host with
  | nil => exact .refl
  | cons req reqs ih =>
    unfold Host.executeDeletions
    split
    · next db hexecute =>
      let next := (host.withDb db).withCommunity (host.community.removeMember req.memberKey)
      have hrest : Keeps next.db.view (next.executeDeletions reqs).db.view := ih
      exact (Db.keeps_executeDeletion hexecute).trans hrest
    · exact .refl

theorem perform_cards {op : HostOp} :
    KeepsBut (StoreOp.gone host moment.now (.host op)) host.db.view
      (host.perform K moment op).1.db.view := by
  cases op with
  | request member isOwner request => exact handleRequest_cards
  | handshake member name credentials genesis =>
    simp only [Host.perform, Host.handshake]
    split
    · exact Keeps.refl.but
    · refine commit_effect (P := fun host' => KeepsBut _ host.db.view host'.db.view)
        Keeps.refl.but fun host' hok => ?_
      obtain ⟨g, hdb⟩ := authenticateNewMember_db hok
      have hkept : Keeps host.db.view host'.db.view := by
        rw [hdb]
        exact .of_table rfl
      exact hkept.but
  | upload member isOwner channelId upload =>
    simp only [Host.perform, Host.auxiliary]
    split
    · exact Keeps.refl.but
    · exact PlainFrame.upload_rule (P := fun host' => KeepsBut _ host.db.view host'.db.view)
        Keeps.refl.but fun _ hstore => (Keeps.of_eq (Db.view_storeOrReuse hstore)).but
  | download member isOwner fileId =>
    simp only [Host.perform, Host.auxiliary]
    split <;> exact Keeps.refl.but
  | purgeExpiredMessages =>
    simp only [Host.perform, Host.sweep]
    split
    · next db hpurge => exact Db.keepsBut_purge hpurge
    · exact Keeps.refl.but
  | executePendingDeletions => exact executeDeletions_cards.but
  | cleanupOrphanedFile fileId => exact (Keeps.of_eq (Db.view_cleanupOrphanedFile fileId)).but
  | continueCommand command outcome =>
    exact continueCommand_rule (P := fun host' => KeepsBut _ host.db.view host'.db.view)
      (fun _ => Keeps.refl.but) fun _ _ _ _ hinsert => (Db.keeps_insertMessage hinsert).but

namespace Db

theorem keeps_reconcileChannelClass {db : Db} :
    Keeps db.view (db.reconcileChannelClass event).view := by
  unfold reconcileChannelClass
  split
  · split
    · exact .refl
    · split_ifs
      · exact .refl
      · exact .of_table rfl
  · exact .refl

theorem keeps_deriveMessageRow {derived : Option ℕ}
    (h : db.deriveMessageRow K event = .ok (db', derived)) : Keeps db.view db'.view := by
  cases hrow : derivedRow K event (db.view.replyRow event) with
  | none =>
    rw [deriveMessageRow_eq, hrow] at h
    exact .of_eq (congrArg (fun x => x.1.view) (Except.ok.inj h)).symm
  | some row =>
    obtain ⟨-, -, hview⟩ := view_derive hrow h
    rw [hview]
    exact .of_insert rfl

theorem keeps_deriveMissing {tombstoned : EventHash → Bool} {acc acc' : Db × ℕ}
    (h : deriveMissing K tombstoned acc event = .ok acc') : Keeps acc.1.view acc'.1.view := by
  unfold deriveMissing at h
  split_ifs at h
  · obtain rfl := pure_eq_ok.mp h
    exact .refl
  · simp only [bind_eq_ok, pure_eq_ok] at h
    obtain ⟨⟨db₁, derived⟩, hderive, rfl⟩ := h
    exact keeps_deriveMessageRow hderive

theorem keeps_sweepTombstoned {target : EventRef} (h : db.sweepTombstoned target = .ok db') :
    Keeps db.view db'.view := by
  unfold sweepTombstoned at h
  split at h
  · obtain rfl := pure_eq_ok.mp h
    exact .refl
  · next id row hrow =>
    simp only [bind_eq_ok, pure_eq_ok] at h
    obtain ⟨⟨db₁, orphans⟩, hdelete, rfl⟩ := h
    obtain ⟨hmem, hhash⟩ := Table.find?_mem hrow
    have hview := view_deleteMessage hdelete
    rw [hview]
    exact .of_tombstone hmem (of_decide_eq_true hhash) rfl

theorem keeps_replaySealedEdit {tombstoned : EventHash → Bool}
    (h : replaySealedEdit tombstoned db event = .ok db') : Keeps db.view db'.view := by
  unfold replaySealedEdit at h
  split at h
  · next p _ =>
    split_ifs at h
    · obtain rfl := pure_eq_ok.mp h
      exact .refl
    · rw [bind_eq_ok] at h
      obtain ⟨target, -, h⟩ := h
      cases target with
      | none =>
        obtain rfl := pure_eq_ok.mp h
        exact .refl
      | some id =>
        obtain ⟨-, -, -, -, rfl⟩ := view_updateSealedRow h
        exact .of_modify (f := fun row =>
          { row with sealed := some p.ciphertext, editedAt := some event.core.timestamp }) rfl
          fun row => ⟨rfl, fun h => h⟩
  · obtain rfl := pure_eq_ok.mp h
    exact .refl

theorem keeps_repairReplyLinks : Keeps db.view (db.repairReplyLinks K).view := by
  refine foldl_invariant (P := fun db' : Db => Keeps db.view db'.view) .refl fun db₁ h x _ => ?_
  refine h.trans ?_
  rw [repairReplyLink_eq]
  refine .of_messages (f := relink (db₁.view.replyRow x.1) x.2) rfl fun k row => ?_
  obtain ⟨hhash, hchannel⟩ := relink_same (db₁.view.replyRow x.1) x.2 k row
  exact ⟨hchannel, hhash.trans⟩

theorem keeps_reconcileMessages {logState : Option LogState} {repaired : ℕ}
    (h : db.reconcileMessages K logState = .ok (db', repaired)) : Keeps db.view db'.view := by
  simp only [reconcileMessages, bind_eq_ok, pure_eq_ok, Prod.mk.injEq] at h
  obtain ⟨⟨db₁, derived⟩, hderive, db₂, hsweep, db₃, hreplay, rfl, -⟩ := h
  have h₁ : Keeps db.view db₁.view :=
    foldlM_invariant (P := fun acc : Db × ℕ => Keeps db.view acc.1.view) hderive .refl
      fun _ hacc _ _ _ hstep => hacc.trans (keeps_deriveMissing hstep)
  have h₂ : Keeps db₁.view db₂.view :=
    foldlM_invariant (P := fun db : Db => Keeps db₁.view db.view) hsweep .refl
      fun _ hdb _ _ _ hstep => hdb.trans (keeps_sweepTombstoned hstep)
  have h₃ : Keeps db₂.view db₃.view :=
    foldlM_invariant (P := fun db : Db => Keeps db₂.view db.view) hreplay .refl
      fun _ hdb _ _ _ hstep => hdb.trans (keeps_replaySealedEdit hstep)
  exact ((h₁.trans h₂).trans h₃).trans keeps_repairReplyLinks

end Db

theorem restart_cards {st st' : ServerState} (h : st.restart K = .ok st') :
    Keeps st.db.view st'.db.view := by
  unfold ServerState.restart at h
  split at h
  · obtain rfl := pure_eq_ok.mp h
    exact .refl
  · simp only [bind_eq_ok, pure_eq_ok] at h
    obtain ⟨logState, -, ⟨db, repaired⟩, hreconcile, rfl⟩ := h
    have hclasses : Keeps st.db.view st.db.reconcileChannelClasses.view :=
      foldl_invariant (P := fun db : Db => Keeps st.db.view db.view) .refl
        fun _ hdb _ _ => hdb.trans Db.keeps_reconcileChannelClass
    have hattachments : (db.reconcileAttachments K).view = db.view :=
      Db.attaches_reconcileAttachments.view
    exact (hclasses.trans (Db.keeps_reconcileMessages hreconcile)).trans (.of_eq hattachments)

theorem performStore_cards {op : StoreOp} (h : host.performStore K moment op = .ok host') :
    KeepsBut (op.gone host moment.now) host.db.view host'.db.view := by
  cases op with
  | host op =>
    obtain rfl := Except.ok.inj h
    exact perform_cards
  | hardDeleteChannel channelId =>
    simp only [Host.performStore, Host.hardDeleteChannel, bind_eq_ok, pure_eq_ok] at h
    obtain ⟨db, hdelete, ⟨⟩, -, rfl⟩ := h
    exact Db.keepsBut_hardDelete hdelete
  | cleanupAllOrphans maxAgeSecs =>
    obtain rfl := Except.ok.inj h
    exact (Keeps.of_eq (Db.view_cleanupAllOrphans _ _)).but
  | redactBlob contentHash redactor =>
    obtain rfl := Except.ok.inj h
    exact (Keeps.of_eq (Db.view_redactBlob _ _)).but
  | reconcile =>
    obtain ⟨server, hrestart, rfl⟩ := map_eq_ok.mp h
    exact (restart_cards hrestart).but

end Server
