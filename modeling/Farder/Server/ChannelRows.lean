import Farder.Server.MemberRows

/-! # What operations do to the ids of channels

An operation gives the next id to a new channel, or inserts the row that an event declares, or
leaves the ids alone; no row of a channel goes away. -/
namespace Server

open EventLog Guarded Permissions

variable {K : Crypto} {host host' : Host} {member : PublicKey} {isOwner : Bool} {moment : Moment}

def Db.channelIds (db : Db) : List ℕ := db.channels.map ChannelRow.id

def HostOp.declares : HostOp → Option ℕ
  | .request _ _ (.submitEvent event) =>
    match event.core.payload with
    | .channelCreated p => some p.channelId
    | _ => none
  | _ => none

inductive ChannelStep (K : Crypto) (host : Host) (e : Moment × HostOp) (host' : Host) : Prop
  | kept (hids : host'.db.channelIds = host.db.channelIds)
      (hnext : host'.db.nextChannel = host.db.nextChannel)
  | created (hserver : e.2.declares = none) (hroom : host.db.HasRowId)
      (hids : host'.db.channelIds = host.db.channelIds ++ [host.db.nextChannel])
      (hnext : host'.db.nextChannel = host.db.nextChannel + 1)
  | declared (id : ℕ) (hdeclares : e.2.declares = some id) (haccepted : host.Accepts K e)
      (hfloor : e2eeChannelIdFloor ≤ id) (hfree : id ∉ host.db.channelIds)
      (hids : host'.db.channelIds = host.db.channelIds ++ [id])
      (hnext : host'.db.nextChannel = host.db.nextAfter id)

theorem channelRow_eq_none {db : Db} {id : ℕ} : db.channelRow id = none ↔ id ∉ db.channelIds := by
  simp [Db.channelRow, Db.channelIds]

/-! ## Rows that are read back -/

theorem getChannel_insertChannel {name : String} {channelType : ChannelType} {position : ℕ}
    {info : ChannelInfo} :
    (host.insertChannel name channelType position info).db.getChannel host.db.nextChannel ≠
      none := by
  simp [Host.insertChannel, Db.createChannel, Db.getChannel]

theorem getChannel_patchChannel {channelId id : ℕ} {patch : ChannelPatch} :
    (host.patchChannel channelId patch).db.getChannel id = none ↔
      host.db.getChannel id = none := by
  simp only [Host.patchChannel, Db.updateChannel, Db.getChannel, List.find?_eq_none, List.mem_map,
    forall_exists_index, and_imp, forall_apply_eq_imp_iff₂]
  refine forall₂_congr fun ch _ => ?_
  split_ifs <;> exact Iff.rfl

namespace ChannelStep

variable {e : Moment × HostOp}

theorem of_table (h : host'.db.catalogue = host.db.catalogue) :
    ChannelStep K host e host' :=
  .kept (congrArg (List.map ChannelRow.id) (Db.channels_eq h)) (Db.nextChannel_eq h)

theorem insertChannel {name : String} {channelType : ChannelType} {position : ℕ}
    {info : ChannelInfo} (hserver : e.2.declares = none) (hroom : host.db.HasRowId)
    (hids : host'.db.catalogue =
      (host.insertChannel name channelType position info).db.catalogue) :
    ChannelStep K host e host' := by
  refine .created hserver hroom ?_ (Db.nextChannel_eq hids)
  rw [Db.channelIds, Db.channels_eq hids]
  exact List.map_append

end ChannelStep

theorem catalogue_frame :
    Host.MessageFrame fun host host' => host'.db.catalogue = host.db.catalogue where
  refl _ := rfl
  trans _ _ _ h h' := h'.trans h
  expireTimeout _ _ _ := rfl
  withDb _ _ h := h
  pinned _ _ := rfl
  running _ _ := rfl
  clientProtocol _ _ := rfl

open Host

theorem channelEffect_ids {request : ChannelRequest} {e : Moment × HostOp}
    (hserver : e.2.declares = none) (h : ChannelEffect host member isOwner request host') :
    ChannelStep K host e host' := by
  have hmap : ∀ f : ChannelRow → ChannelRow, (∀ ch, (f ch).id = ch.id) →
      (host.db.channels.map f).map ChannelRow.id = host.db.channelIds := by
    intro f hf
    rw [List.map_map]
    exact List.map_congr_left fun ch _ => hf ch
  cases h with
  | createChannel hperm hcategory hroom => exact .insertChannel hserver hroom rfl
  | updateChannel =>
    refine .kept (hmap _ fun ch => ?_) rfl
    split_ifs <;> rfl
  | deleteChannel =>
    refine .kept (hmap _ fun ch => ?_) rfl
    split_ifs <;> rfl
  | _ => exact .of_table rfl

theorem roleEffect_table {request : RoleRequest}
    (h : RoleEffect host member isOwner request host') :
    host'.db.catalogue = host.db.catalogue := by
  cases h <;> rfl

theorem memberEffect_table {request : MemberRequest}
    (h : MemberEffect host member isOwner moment request host') :
    host'.db.catalogue = host.db.catalogue := by
  cases h with
  | requestDeletion hrequest =>
    simp only [Db.requestDeletion, bind_eq_ok, pure_eq_ok] at hrequest
    obtain ⟨⟨⟩, -, ⟨⟩, -, rfl⟩ := hrequest
    rfl
  | cancelDeletion hcancel =>
    simp only [Db.cancelDeletion, bind_eq_ok, pure_eq_ok] at hcancel
    obtain ⟨⟨⟩, -, rfl⟩ := hcancel
    rfl
  | _ => rfl

theorem messageEffect_ids {request : MessageRequest} {e : Moment × HostOp}
    (hserver : e.2.declares = none) (h : MessageEffect host member isOwner moment request host') :
    ChannelStep K host e host' := by
  by_cases hcreates : request.createsChannel = false
  · exact .of_table (catalogue_frame.messageEffect hcreates h)
  · cases h with
    | refused => exact .of_table rfl
    | expired => exact .of_table rfl
    | createThread hrow hperm hroom => exact .insertChannel hserver hroom rfl
    | openDm hne hroom =>
      unfold openDmChannel
      split_ifs with hfound
      · exact .of_table rfl
      · exact @ChannelStep.insertChannel K host _ e "" .dm 0 .empty hserver
          (hroom.resolve_left hfound) rfl
    | _ => exact absurd rfl hcreates

theorem submitEvent_ingested {event : Event} {a : Answer}
    (h : (host.submitEvent K moment event).2 = .ok a) : ∃ db orphans,
      host.db.ingest K event = .ok (db, orphans) ∧ (host.submitEvent K moment event).1.db = db := by
  cases hok : host.server.submitEvent K event moment.now with
  | error failure => simp [Host.submitEvent, hok] at h
  | ok x =>
    have hserver : (host.submitEvent K moment event).1.server = x.1 := by
      rw [Host.submitEvent, hok]
    simp only [ServerState.submitEvent, bind_eq_ok, pure_eq_ok] at hok
    obtain ⟨ls, -, ⟨⟩, -, ⟨⟩, -, trial, -, ⟨⟩, -, ⟨db, orphans⟩, hingest, rfl⟩ := hok
    exact ⟨db, orphans, hingest, congrArg ServerState.db hserver⟩

theorem submitEvent_refused {event : Event}
    (h : ¬∃ a, (host.submitEvent K moment event).2 = .ok a) :
    (host.submitEvent K moment event).1 = host := by
  cases hok : host.server.submitEvent K event moment.now with
  | error failure => rw [Host.submitEvent, hok]
  | ok x => exact absurd ⟨_, by rw [Host.submitEvent, hok]⟩ h

theorem submitEvent_ids {event : Event} {e : Moment × HostOp}
    (hop : e.2 = .request member isOwner (.submitEvent event))
    (haccepted : (∃ a, (host.submitEvent K moment event).2 = .ok a) → host.Accepts K e) :
    ChannelStep K host e (host.submitEvent K moment event).1 := by
  by_cases hok : ∃ a, (host.submitEvent K moment event).2 = .ok a
  · obtain ⟨db, orphans, hingest, hdb⟩ := submitEvent_ingested hok.choose_spec
    rcases Db.catalogue_ingest hingest with
      ⟨p, row, hp, hfloor, hfree, hid, htable⟩ | ⟨hother, htable⟩
    · refine .declared p.channelId ?_ (haccepted hok) hfloor (channelRow_eq_none.mp hfree) ?_ ?_
      · simp only [hop, HostOp.declares, hp]
      · have hrows : db.channels = host.db.channels ++ [row] := congrArg Prod.fst htable
        rw [hdb, Db.channelIds, hrows, List.map_append, List.map_singleton, hid]
        rfl
      · rw [hdb]
        exact congrArg (fun c => c.2.1) htable
    · exact .of_table (hdb ▸ htable)
  · exact .of_table (by rw [submitEvent_refused hok])

theorem dispatch_ids {request : Request} {e : Moment × HostOp}
    (hop : e.2 = .request member isOwner request)
    (haccepted : (∃ a, (host.dispatch K member isOwner moment request).2 = .ok a) →
      host.Accepts K e) :
    ChannelStep K host e (host.dispatch K member isOwner moment request).1 := by
  have hserver : (∀ event, request ≠ .submitEvent event) → e.2.declares = none := by
    intro hother
    rw [hop]
    cases request with
    | submitEvent event => exact absurd rfl (hother event)
    | _ => rfl
  cases request with
  | channel request => exact channelEffect_ids (hserver (by simp)) (channelRequest_effect request)
  | role request => exact .of_table (roleEffect_table (roleRequest_effect request))
  | member request => exact .of_table (memberEffect_table (memberRequest_effect request))
  | message request => exact messageEffect_ids (hserver (by simp)) (messageRequest_effect request)
  | submitEvent event => exact submitEvent_ids hop haccepted
  | _ => exact .of_table (catalogue_frame.dispatch rfl rfl)

theorem register_db {displayName : String} {now : ℕ}
    (h : host.register member displayName now = .ok host') : host'.db = host.db := by
  simp only [Host.register, bind_eq_ok] at h
  obtain ⟨registered, -, h⟩ := h
  split at h
  · obtain ⟨community, -, rfl⟩ := map_eq_ok.mp h
    rfl
  · obtain rfl := pure_eq_ok.mp h
    rfl

theorem claim_db {genesis : Genesis} :
    ∃ g, (host.claim K member genesis).db = { host.db with genesis := g } := by
  unfold Host.claim
  split <;> exact ⟨_, rfl⟩

theorem authenticateNewMember_db {displayName : String} {credentials : Credentials}
    {genesis : Genesis}
    (h : host.authenticateNewMember K member moment displayName credentials genesis = .ok host') :
    ∃ g, host'.db = { host.db with genesis := g } := by
  unfold Host.authenticateNewMember at h
  split at h
  · simp only [bind_eq_ok, pure_eq_ok] at h
    obtain ⟨token, -, ⟨⟩, -, registered, hregister, rfl⟩ := h
    rw [← register_db hregister]
    exact claim_db
  · simp only [bind_eq_ok, prefixed_eq_ok] at h
    obtain ⟨community, -, hregister⟩ := h
    exact ⟨host.db.genesis, by rw [register_db hregister]; rfl⟩
  · simp only [bind_eq_ok, pure_eq_ok] at h
    obtain ⟨⟨⟩, -, registered, hregister, rfl⟩ := h
    rw [← register_db hregister]
    exact claim_db

theorem executeDeletions_table {reqs : List DeletionRequest} :
    (host.executeDeletions reqs).db.catalogue = host.db.catalogue := by
  induction reqs generalizing host with
  | nil => rfl
  | cons req reqs ih =>
    unfold executeDeletions
    split
    · next db hexecute => exact ih.trans (Db.catalogue_executeDeletion hexecute)
    · rfl

theorem perform_ids {e : Moment × HostOp} :
    ChannelStep K host e (host.perform K e.1 e.2).1 := by
  obtain ⟨moment, op⟩ := e
  cases op with
  | request member isOwner request =>
    have hdispatch := @dispatch_ids K host member isOwner moment request
      (moment, .request member isOwner request) rfl
    simp only [Accepts, perform, handleRequest] at hdispatch ⊢
    split_ifs at hdispatch ⊢
    · split at hdispatch
      · exact .of_table rfl
      · exact hdispatch id
    · exact hdispatch id
  | handshake member displayName credentials genesis =>
    simp only [perform, handshake]
    split
    · exact .of_table rfl
    · refine commit_effect (P := ChannelStep K host _) (.of_table rfl) fun host' hok => ?_
      obtain ⟨g, hdb⟩ := authenticateNewMember_db hok
      exact .kept (by rw [hdb]; rfl) (by rw [hdb])
  | executePendingDeletions => exact .of_table executeDeletions_table
  | _ => exact .of_table (catalogue_frame.perform (by simp) (by simp) (by simp))

/-- A declaration is accepted only in the reserved range, and under an id that no channel has. -/
theorem declared_of_accepts {e : Moment × HostOp} {id : ℕ} (hdeclares : e.2.declares = some id)
    (haccepts : host.Accepts K e) : e2eeChannelIdFloor ≤ id ∧ id ∉ host.db.channelIds := by
  obtain ⟨moment, op⟩ := e
  unfold HostOp.declares at hdeclares
  split at hdeclares
  · next member isOwner event _ hop =>
    simp only at hop
    subst hop
    obtain ⟨a, ha⟩ := haccepts
    obtain ⟨db, orphans, hingest, -⟩ := submitEvent_ingested (a := a) ha
    split at hdeclares
    · next p hp =>
      obtain rfl := Option.some.inj hdeclares
      rcases Db.catalogue_ingest hingest with ⟨p', row, hp', hfloor, hfree, -⟩ | ⟨hother, -⟩
      · obtain rfl := EventPayload.channelCreated.inj (hp.symm.trans hp')
        exact ⟨hfloor, channelRow_eq_none.mp hfree⟩
      · exact absurd hp (hother p)
    · exact absurd hdeclares (by simp)
  · exact absurd hdeclares (by simp)

/-- Every row has an id below the next one, as the database compares them. -/
def Db.IdsBounded (db : Db) : Prop := ∀ id ∈ db.channelIds, Db.rowId id < db.nextChannel

def Db.NextIsFresh (db : Db) : Prop :=
  db.IdsBounded ∧ ∃ id ∈ db.channelIds, Db.rowId id + 1 = db.nextChannel

theorem rowId_of_lt {id : ℕ} (h : id < 2 ^ 63) : Db.rowId id = id := by
  unfold Db.rowId
  rw [Nat.mod_eq_of_lt (by omega), if_pos h]

theorem Db.IdsBounded.next_notMem {db : Db} (h : db.IdsBounded) (hroom : db.HasRowId) :
    db.nextChannel ∉ db.channelIds := by
  intro hmem
  have hlt := h _ hmem
  rw [rowId_of_lt hroom] at hlt
  exact lt_irrefl _ hlt

theorem Db.IdsBounded.created {db db' : Db} (h : db.IdsBounded) (hroom : db.HasRowId)
    (hids : db'.channelIds = db.channelIds ++ [db.nextChannel])
    (hnext : db'.nextChannel = db.nextChannel + 1) : db'.IdsBounded := by
  intro id hid
  rw [hids] at hid
  rw [hnext]
  rcases List.mem_append.mp hid with hid | hid
  · have hlt := h id hid
    omega
  · obtain rfl := List.mem_singleton.mp hid
    rw [rowId_of_lt hroom]
    omega

theorem Db.IdsBounded.declared {db db' : Db} {new : ℕ} (h : db.IdsBounded)
    (hids : db'.channelIds = db.channelIds ++ [new]) (hnext : db'.nextChannel = db.nextAfter new) :
    db'.IdsBounded := by
  intro id hid
  rw [hids] at hid
  rw [hnext, Db.nextAfter]
  rcases List.mem_append.mp hid with hid | hid
  · have hlt := h id hid
    omega
  · obtain rfl := List.mem_singleton.mp hid
    omega

theorem ChannelStep.idsBounded {e : Moment × HostOp} (h : ChannelStep K host e host')
    (hbounded : host.db.IdsBounded) : host'.db.IdsBounded := by
  cases h with
  | kept hids hkept =>
    rw [Db.IdsBounded, hids, hkept]
    exact hbounded
  | created _ hroom hids hnext => exact hbounded.created hroom hids hnext
  | declared new _ _ _ _ hids hnext => exact hbounded.declared hids hnext

theorem ChannelStep.nextIsFresh {e : Moment × HostOp} (h : ChannelStep K host e host')
    (hfresh : host.db.NextIsFresh) : host'.db.NextIsFresh := by
  refine ⟨h.idsBounded hfresh.1, ?_⟩
  obtain ⟨-, last, hlast, hlargest⟩ := hfresh
  cases h with
  | kept hids hkept =>
    rw [hids, hkept]
    exact ⟨last, hlast, hlargest⟩
  | created _ hroom hids hnext =>
    rw [hids, hnext]
    refine ⟨_, List.mem_append_right _ (List.mem_singleton_self _), ?_⟩
    rw [rowId_of_lt hroom]
    omega
  | declared new _ _ _ _ hids hnext =>
    rw [hids, hnext, Db.nextAfter]
    -- The new id is the largest one, or the largest one stays.
    rcases le_total (Db.rowId new + 1) host.db.nextChannel with hle | hle
    · exact ⟨last, List.mem_append_left _ hlast, by omega⟩
    · exact ⟨new, List.mem_append_right _ (List.mem_singleton_self _), by omega⟩

theorem firstRun_ids (setup : Setup) :
    (Host.firstRun setup).db.channelIds = List.range' 1 (Template.named setup.template).channelCount ∧
      (Host.firstRun setup).db.nextChannel = (Template.named setup.template).channelCount + 1 ∧
        0 < (Template.named setup.template).channelCount ∧
          (Template.named setup.template).channelCount < 100 := by
  have hmem := Template.named_mem setup.template
  unfold firstRun setUp
  generalize Template.named setup.template = template at hmem
  simp only [Template.builtin, List.map_cons, List.map_nil, List.mem_cons, List.not_mem_nil,
    or_false] at hmem
  rcases hmem with rfl | rfl | rfl | rfl | rfl <;> exact ⟨rfl, rfl, by decide, by decide⟩

theorem firstRun_nextIsFresh {setup : Setup} : (Host.firstRun setup).db.NextIsFresh := by
  obtain ⟨hids, hnext, hpos, hlt⟩ := firstRun_ids setup
  generalize (Template.named setup.template).channelCount = count at hids hnext hpos hlt
  rw [Db.NextIsFresh, Db.IdsBounded, hids, hnext]
  constructor
  · intro id hid
    obtain ⟨i, hi, rfl⟩ := List.mem_range'.mp hid
    rw [rowId_of_lt (by omega)]
    omega
  · refine ⟨count, List.mem_range'.mpr ⟨count - 1, by omega, by omega⟩, ?_⟩
    rw [rowId_of_lt (by omega)]
    omega

theorem nextIsFresh_of_run {setup : Setup} {tr : List (Transition Host (Moment × HostOp))}
    (h : HostRun K (.firstRun setup) tr host) : host.db.NextIsFresh :=
  h.invariant (I := fun host => host.db.NextIsFresh)
    firstRun_nextIsFresh fun _ _ _ hfresh hstep => hstep ▸ perform_ids.nextIsFresh hfresh

end Server
