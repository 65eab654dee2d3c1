import Farder.Server.ChannelRows
import Farder.Server.Hub
import Farder.Server.Places

/-! # Who sees a channel

What a member must have to see a channel is written by many operations. Each of them is looked at
here for what it takes away. -/
namespace Server

open EventLog Guarded Permissions

attribute [ext] Permissions.ResolutionContext

variable {K : Crypto} {host host' host'' : Host} {moment : Moment} {member m : PublicKey}
  {isOwner : Bool} {channelId : ℕ}

/-- `subscriptions::visible`, for a member as it is now. -/
def Host.maySee (host : Host) (m : PublicKey) (channelId : ℕ) : Bool :=
  host.contentBlockReason m = none ∧
    ((host.community.getMember m).any fun row => row.banned = false ∧ row.revoked = false) ∧
    host.channelVisible m (host.owner = some m) channelId

/-- Operations on messages and files, which leave all permissions as they are. -/
def HostOp.leavesAccess : HostOp → Bool
  | .request _ _ r => !r.hasOwnRules && !r.createsChannel
  | .handshake .. => false
  | .executePendingDeletions => false
  | _ => true

/-- All members see the same channels as before. -/
def SameSight (host host' : Host) : Prop := ∀ m channelId, host'.maySee m channelId =
  host.maySee m channelId

theorem maySee_congr (hlog : host'.server.logState = host.server.logState)
    (hchannels : host'.db.channels = host.db.channels) (howner : host'.owner = host.owner)
    (hcommunity : ∀ pk, (host'.community.getMember pk).any
        (fun row => row.banned = false ∧ row.revoked = false) =
      (host.community.getMember pk).any fun row => row.banned = false ∧ row.revoked = false)
    (hperms : ∀ m isOwner channelId, host'.resolveMemberPerms m isOwner channelId =
      host.resolveMemberPerms m isOwner channelId)
    (hdm : host'.community.dmParticipants = host.community.dmParticipants) :
    SameSight host host' := by
  intro m channelId
  have hblock : host'.contentBlockReason m = host.contentBlockReason m := by
    unfold Host.contentBlockReason
    rw [hlog]
  have hvisible : host'.channelVisible m (host.owner = some m) channelId =
      host.channelVisible m (host.owner = some m) channelId := by
    unfold Host.channelVisible Community.isDmParticipant Db.getChannel
    simp only [hchannels, hdm, hperms]
  unfold Host.maySee
  rw [hblock, hcommunity, howner, hvisible]

theorem sameSight_frame : Host.MessageFrame SameSight where
  refl _ _ _ := rfl
  trans _ _ _ h h' m channelId := (h' m channelId).trans (h m channelId)
  expireTimeout host pk nowMs := by
    rcases expireTimeout_eq host.community pk nowMs with h | h
    · rw [Host.expireTimeout, h]
      exact fun _ _ => rfl
    · rw [Host.expireTimeout, h]
      refine maySee_congr rfl rfl rfl (fun key => ?_) (fun _ _ _ => rfl) rfl
      simp only [Host.withCommunity, Community.clearTimeout, getMember_updateMember]
      split_ifs with hkey
      · cases hrow : host.community.getMember pk <;> simp [hkey, hrow]
      · rfl
  withDb host db h := by
    have hchannels := Db.channels_eq h
    have hget : db.getChannel = host.db.getChannel := by
      unfold Db.getChannel
      rw [hchannels]
    refine maySee_congr rfl hchannels rfl (fun _ => rfl) (fun m isOwner channelId => ?_) rfl
    unfold Host.resolveMemberPerms Host.channelContext
    simp only [Host.withDb, hget]
    rfl
  pinned _ _ _ _ := rfl
  running _ _ _ _ := rfl
  clientProtocol _ _ _ _ := rfl

theorem sameSight_perform {op : HostOp} (h : op.leavesAccess = true) :
    SameSight host (host.perform K moment op).1 := by
  cases op with
  | request member isOwner r =>
    obtain ⟨hrules, hcreates⟩ := Bool.and_eq_true_iff.mp h
    have hdispatch := @Host.MessageFrame.dispatch K host member isOwner moment SameSight
      sameSight_frame r (by simpa using hrules) (by simpa using hcreates)
    simp only [Host.perform, Host.handleRequest]
    split_ifs
    · split
      · exact fun _ _ => rfl
      · exact hdispatch
    · exact hdispatch
  | handshake => exact absurd h (by simp [HostOp.leavesAccess])
  | executePendingDeletions => exact absurd h (by simp [HostOp.leavesAccess])
  | _ => exact sameSight_frame.perform (by simp) (by simp) (by simp)

theorem present_of_maySee (h : host.maySee m channelId = true) :
    host.db.getChannel channelId ≠ none := by
  intro hnone
  simp [Host.maySee, Host.channelVisible, hnone] at h

/-! ## What is kept in sight -/

/-- Whatever a member sees before, it sees after. -/
def KeepsSight (host host' : Host) : Prop :=
  ∀ m channelId, host.maySee m channelId = true → host'.maySee m channelId = true

theorem SameSight.keeps (h : SameSight host host') : KeepsSight host host' :=
  fun m channelId hsees => (h m channelId).trans hsees

theorem KeepsSight.refl : KeepsSight host host := fun _ _ hsees => hsees

theorem KeepsSight.trans (h : KeepsSight host host') (h' : KeepsSight host' host'') :
    KeepsSight host host'' :=
  fun m channelId hsees => h' m channelId (h m channelId hsees)

/-- A member with a row that neither a ban nor a revocation marks. -/
def Host.standing (host : Host) (m : PublicKey) : Bool :=
  (host.community.getMember m).any fun row => row.banned = false ∧ row.revoked = false

theorem maySee_iff : host.maySee m channelId = true ↔
    host.contentBlockReason m = none ∧ host.standing m = true ∧
      host.channelVisible m (host.owner = some m) channelId = true := by
  simp [Host.maySee, Host.standing]

theorem channelVisible_iff : host.channelVisible m isOwner channelId = true ↔
    ∃ ch, host.db.getChannel channelId = some ch ∧
      if ch.channelType = .dm then host.community.isDmParticipant m channelId = true
      else (resolve (host.contextOf m isOwner (.channel channelId))).getLsbD 0 = true := by
  unfold Host.channelVisible
  cases host.db.getChannel channelId with
  | none => simp
  | some ch =>
    have hbit : has (host.resolveMemberPerms m isOwner channelId) viewChannel =
        (resolve (host.contextOf m isOwner (.channel channelId))).getLsbD 0 :=
      has_shiftLeft (by decide)
    simp only [Option.some.injEq, exists_eq_left', hbit]
    split_ifs <;> rfl

/-- What a member is given in a place is read from its roles and their overrides. -/
theorem contextOf_congr {place : Place} (hroles : host'.community.roles = host.community.roles)
    (hroleIds : host'.community.getMemberRoleIds m = host.community.getMemberRoleIds m)
    (hcategory : ∀ r, host'.categoryOverride place r = host.categoryOverride place r)
    (hchannel : ∀ r, host'.channelOverride place r = host.channelOverride place r) :
    host'.contextOf m isOwner place = host.contextOf m isOwner place := by
  have hrole : host'.community.getRole = host.community.getRole := by
    funext id
    simp only [Community.getRole, hroles]
  have heveryone : (host'.contextOf m isOwner place).everyonePermissions =
      (host.contextOf m isOwner place).everyonePermissions := by
    cases place <;>
      simp only [Host.contextOf, Host.channelContext, Host.serverContext,
        Community.everyonePermissions, Community.everyone, hroles]
  have hown : (host'.contextOf m isOwner place).rolePermissions =
      (host.contextOf m isOwner place).rolePermissions := by
    cases place <;>
      simp only [Host.contextOf, Host.channelContext, Host.serverContext,
        Community.getMemberRolePermissions, Community.memberRoleRows, hrole, hroleIds]
  have hcategories : (host'.contextOf m isOwner place).categoryOverrides =
      (host.contextOf m isOwner place).categoryOverrides := by
    rw [categoryOverrides_of, categoryOverrides_of, hroleIds]
    exact List.filterMap_congr fun r _ => hcategory r
  have hchannels : (host'.contextOf m isOwner place).channelOverrides =
      (host.contextOf m isOwner place).channelOverrides := by
    rw [channelOverrides_of, channelOverrides_of, hroleIds]
    exact List.filterMap_congr fun r _ => hchannel r
  exact ResolutionContext.ext heveryone hown hcategories hchannels (by simp)

/-- A channel stays in sight of a member for whom nothing that sight is read from has changed. -/
theorem maySee_of_same (h : host.maySee m channelId = true)
    (hlog : host'.server.logState = host.server.logState) (howner : host'.owner = host.owner)
    (hstanding : host.standing m = true → host'.standing m = true)
    (hget : host'.db.getChannel channelId = host.db.getChannel channelId)
    (hdm : host.community.isDmParticipant m channelId = true →
      host'.community.isDmParticipant m channelId = true)
    (hroles : host'.community.roles = host.community.roles)
    (hroleIds : host'.community.getMemberRoleIds m = host.community.getMemberRoleIds m)
    (hcategory : ∀ r, host'.categoryOverride (.channel channelId) r =
      host.categoryOverride (.channel channelId) r)
    (hchannel : ∀ r, host'.channelOverride (.channel channelId) r =
      host.channelOverride (.channel channelId) r) : host'.maySee m channelId = true := by
  obtain ⟨hgate, hstands, hvisible⟩ := maySee_iff.mp h
  refine maySee_iff.mpr ⟨?_, hstanding hstands, ?_⟩
  · rw [← hgate, Host.contentBlockReason, Host.contentBlockReason, hlog]
  · obtain ⟨ch, hch, hshown⟩ := channelVisible_iff.mp hvisible
    rw [howner]
    refine channelVisible_iff.mpr ⟨ch, hget.trans hch, ?_⟩
    rw [contextOf_congr hroles hroleIds hcategory hchannel]
    split_ifs at hshown ⊢
    · exact hdm hshown
    · exact hshown

theorem overrides_congr (hget : host'.db.getChannel channelId = host.db.getChannel channelId)
    (hinfo : (host'.community.channelInfo channelId).categoryId =
      (host.community.channelInfo channelId).categoryId)
    (hcategories : host'.community.categoryOverrides = host.community.categoryOverrides) (r : ℕ) :
    host'.categoryOverride (.channel channelId) r =
      host.categoryOverride (.channel channelId) r := by
  simp only [Host.categoryOverride, Host.categoryAt, hget, hinfo, hcategories]

/-! ## What takes nothing out of sight -/

theorem mem_channelIds_of_maySee (h : host.maySee m channelId = true) :
    channelId ∈ host.db.channelIds := by
  obtain ⟨ch, hch⟩ := Option.ne_none_iff_exists'.mp (present_of_maySee h)
  have hid : ch.id = channelId ∧ ch.deleted = false := by
    simpa using List.find?_some hch
  exact List.mem_map.mpr ⟨ch, List.mem_of_find?_eq_some hch, hid.1⟩

theorem keepsSight_withDb {db : Db} (h : db.catalogue = host.db.catalogue) :
    KeepsSight host (host.withDb db) :=
  (sameSight_frame.withDb host db h).keeps

theorem keepsSight_channels {db : Db} {l : List ChannelRow} {new : ℕ} {info : ChannelInfo}
    (hchannels : db.channels = host.db.channels ++ l) (hnew : new ∉ host.db.channelIds) :
    KeepsSight host ((host.withDb db).withCommunity
      (host.community.updateChannelInfo new fun _ => info)) := by
  intro m channelId h
  obtain ⟨ch, hch⟩ := Option.ne_none_iff_exists'.mp (present_of_maySee h)
  have hne : channelId ≠ new := by
    rintro rfl
    exact hnew (mem_channelIds_of_maySee h)
  have hget : db.getChannel channelId = host.db.getChannel channelId := by
    rw [hch, Db.getChannel, hchannels, List.find?_append]
    rw [Db.getChannel] at hch
    rw [hch, Option.some_or]
  refine maySee_of_same h rfl rfl id hget id rfl rfl (overrides_congr hget ?_ rfl) fun _ => rfl
  simp only [Host.withCommunity, Community.updateChannelInfo, Function.update_of_ne hne]

theorem keepsSight_insertChannel {name : String} {channelType : ChannelType} {position : ℕ}
    {info : ChannelInfo} (hnew : host.db.nextChannel ∉ host.db.channelIds) :
    KeepsSight host (host.insertChannel name channelType position info) :=
  keepsSight_channels rfl hnew

theorem keepsSight_openDmChannel {a b : PublicKey} (hbounded : host.db.IdsBounded)
    (hroom : (host.findDmChannel a b).isSome ∨ host.db.HasRowId) :
    KeepsSight host (host.openDmChannel a b) := by
  unfold Host.openDmChannel
  split_ifs with hfound
  · exact .refl
  · have hinserted := @keepsSight_insertChannel host "" .dm 0 .empty
      (hbounded.next_notMem (hroom.resolve_left hfound))
    refine hinserted.trans fun m channelId h => ?_
    refine maySee_of_same h rfl rfl id rfl (fun hdm => ?_) rfl rfl (fun _ => rfl) fun _ => rfl
    simp only [Community.isDmParticipant, decide_eq_true_eq] at hdm ⊢
    exact List.mem_append_left _ hdm

/-- Tables that sight is read from, but for the members. -/
structure Community.SameAccess (c c' : Community) : Prop where
  roles : c'.roles = c.roles
  memberRoles : c'.memberRoles = c.memberRoles
  channelInfo : ∀ id, (c'.channelInfo id).categoryId = (c.channelInfo id).categoryId
  channelOverrides : c'.channelOverrides = c.channelOverrides
  categoryOverrides : c'.categoryOverrides = c.categoryOverrides
  dmParticipants : c'.dmParticipants = c.dmParticipants

theorem keepsSight_members {c : Community} (h : host.community.SameAccess c)
    (hstanding : ∀ m, host.standing m = true → (host.withCommunity c).standing m = true) :
    KeepsSight host (host.withCommunity c) := by
  intro m channelId hsees
  refine maySee_of_same hsees rfl rfl (hstanding m) rfl (fun hdm => ?_) h.roles ?_
    (overrides_congr rfl (h.channelInfo channelId) h.categoryOverrides) fun r => ?_
  · rw [Community.isDmParticipant, Host.withCommunity, h.dmParticipants]
    exact hdm
  · rw [Community.getMemberRoleIds, Host.withCommunity, h.memberRoles]
    rfl
  · simp only [Host.channelOverride, Host.withCommunity, h.channelOverrides]

theorem keepsSight_createRole {name : String} {permissions : Bits} {color : Option String}
    {position : ℕ} {hoist : Bool} :
    KeepsSight host (host.withCommunity
      (host.community.createRole name permissions color position false hoist)) := by
  let host' := host.withCommunity
    (host.community.createRole name permissions color position false hoist)
  intro m channelId h
  obtain ⟨hgate, hstands, hvisible⟩ := maySee_iff.mp h
  refine maySee_iff.mpr ⟨hgate, hstands, ?_⟩
  obtain ⟨ch, hch, hshown⟩ := channelVisible_iff.mp hvisible
  refine channelVisible_iff.mpr ⟨ch, hch, ?_⟩
  split_ifs at hshown ⊢
  · exact hshown
  · let isOwner : Bool := host.owner = some m
    let place := Place.channel channelId
    have heveryone : host'.community.everyonePermissions = host.community.everyonePermissions := by
      simp [host', Host.withCommunity, Community.everyonePermissions, Community.everyone,
        Community.createRole, Table.find?, Table.insert, List.find?_append]
    have hbase : ∀ i, (host.contextOf m isOwner place).base.getLsbD i = true →
        (host'.contextOf m isOwner place).base.getLsbD i = true ∨ False := by
      intro i hi
      refine .inl ?_
      rw [base_of] at hi ⊢
      rw [heveryone]
      refine hi.imp_right fun hrole => ?_
      obtain ⟨r, hr, role, hrole, hbit⟩ := hrole
      refine ⟨r, hr, role, ?_, hbit⟩
      have hne : r ≠ host.community.roles.next :=
        (Table.key_lt (Table.get?_eq_some.mp hrole)).ne
      simp only [host', Host.withCommunity, Community.getRole, Community.createRole,
        Table.get?_insert, if_neg hne]
      exact hrole
    have hgives : ∀ i, (host.contextOf m isOwner place).Gives i →
        (host'.contextOf m isOwner place).Gives i := by
      intro i hi
      have hcategories : (host.contextOf m isOwner place).categoryOverrides =
          (host'.contextOf m isOwner place).categoryOverrides := rfl
      have hgained : (host'.contextOf m isOwner place).Gives i ∨ False ∧ _ :=
        gives_gained hi rfl hcategories (hbase i)
      exact hgained.resolve_right fun h => h.1
    rw [resolve_bit_iff (by decide), isOwner_of] at hshown ⊢
    exact hshown.imp_right (Or.imp (hgives 12) (hgives 0))

/-! ## What takes something out of sight, and tells -/

/-- Everybody hears of an access change. -/
def Betrays (answer : Checked Answer) : Prop :=
  ∃ a, answer = .ok a ∧ ∃ b ∈ a.events, b.event.changesAccess = true

/-- An operation takes nothing out of sight, or tells of an access change. -/
def Accounted (host : Host) (done : Host × Checked Answer) : Prop :=
  KeepsSight host done.1 ∨ Betrays done.2

theorem accounted_refused {failure : Failure} : Accounted host (host, .error failure) :=
  .inl .refl

theorem accounted_commit {write : Checked Host} {answer : Host → Checked Answer}
    (h : ∀ host', write = .ok host' → KeepsSight host host' ∨ Betrays (answer host')) :
    Accounted host (host.commit write answer) := by
  cases hwrite : write with
  | ok host' => exact h host' hwrite
  | error failure => exact accounted_refused

theorem tells_ok {events : List BroadcastEvent} (h : ∃ b ∈ events, b.event.changesAccess = true) :
    Betrays (.ok (.ok events)) :=
  ⟨_, rfl, h⟩

def Host.CategoryEmpty (host : Host) (categoryId : ℕ) : Prop :=
  ∀ id ∈ host.db.channelIds, (host.community.channelInfo id).categoryId ≠ some categoryId

instance {categoryId : ℕ} : Decidable (host.CategoryEmpty categoryId) :=
  inferInstanceAs (Decidable (∀ id ∈ host.db.channelIds, _))

/-- The overrides of a category give nobody anything in a channel that is not in it. -/
theorem maySee_deleteCategory {categoryId : ℕ} (h : host.maySee m channelId = true)
    (hother : (host.community.channelInfo channelId).categoryId ≠ some categoryId) :
    (host.withCommunity (host.community.deleteCategory categoryId)).maySee m channelId = true := by
  refine maySee_of_same h rfl rfl id rfl id rfl rfl (fun r => ?_) fun _ => rfl
  have hinfo : Community.leaveCategory categoryId (host.community.channelInfo channelId) =
      host.community.channelInfo channelId := by
    simp only [Community.leaveCategory, if_neg hother]
  have hat : (host.withCommunity (host.community.deleteCategory categoryId)).categoryAt
      (.channel channelId) = host.categoryAt (.channel channelId) := by
    simp only [Host.categoryAt, Host.withCommunity, Community.deleteCategory, hinfo]
  rw [Host.categoryOverride, Host.categoryOverride, hat]
  cases hcategory : host.categoryAt (.channel channelId) with
  | none => rfl
  | some id =>
    have hne : id ≠ categoryId := by
      rintro rfl
      simp only [Host.categoryAt, Option.bind_eq_some_iff] at hcategory
      obtain ⟨ch, -, hcategory⟩ := hcategory
      exact hother hcategory
    refine Option.ext fun o => ?_
    simp only [Option.bind_some, Host.withCommunity, Community.deleteCategory]
    rw [FiniteMap.lookup_retain_eq_some]
    exact and_iff_left hne

theorem keepsSight_deleteCategory {categoryId : ℕ} (hempty : host.CategoryEmpty categoryId) :
    KeepsSight host (host.withCommunity (host.community.deleteCategory categoryId)) :=
  fun _ channelId h => maySee_deleteCategory h (hempty channelId (mem_channelIds_of_maySee h))

theorem keepsSight_patchChannel {patch : ChannelPatch} {absent : ℕ}
    (habsent : host.db.getChannel absent = none) :
    KeepsSight host (host.patchChannel absent patch) := by
  intro m channelId h
  obtain ⟨ch, hch⟩ := Option.ne_none_iff_exists'.mp (present_of_maySee h)
  have hne : channelId ≠ absent := by
    rintro rfl
    exact present_of_maySee h habsent
  have hget : (host.patchChannel absent patch).db.getChannel channelId =
      host.db.getChannel channelId := by
    have hid : ch.id ≠ absent := by
      have hfound : ch.id = channelId ∧ ch.deleted = false := by simpa using List.find?_some hch
      exact hfound.1 ▸ hne
    simp only [Host.patchChannel, Db.updateChannel, Db.getChannel, List.find?_map] at hch ⊢
    have hsame : ((fun ch => decide (ch.id = channelId ∧ ch.deleted = false)) ∘ fun ch =>
        if ch.id = absent then patch.applyRow ch else ch) =
          fun ch => decide (ch.id = channelId ∧ ch.deleted = false) := by
      funext ch
      simp only [Function.comp_apply]
      split_ifs <;> rfl
    rw [hsame, hch, Option.map_some, if_neg hid]
  refine maySee_of_same h rfl rfl id hget id rfl rfl (overrides_congr hget ?_ rfl) fun _ => rfl
  simp only [Host.patchChannel, Community.updateChannelInfo, Function.update_of_ne hne]

theorem channelRequest_accounted {request : ChannelRequest} (hbounded : host.db.IdsBounded)
    (hempty : ∀ id, request = .deleteCategory id → host.CategoryEmpty id) :
    Accounted host (host.handleChannelRequest member isOwner request) := by
  cases request with
  | createChannel name channelType categoryId position =>
    refine accounted_commit fun host' h => ?_
    simp only [bind_eq_ok, Db.requireRowId, ensure_eq_ok, pure_eq_ok] at h
    obtain ⟨⟨⟩, -, ⟨⟩, -, ⟨⟩, hroom, rfl⟩ := h
    exact .inl (keepsSight_insertChannel (hbounded.next_notMem hroom))
  | updateChannel channelId patch =>
    refine accounted_commit fun host' h => ?_
    simp only [bind_eq_ok, pure_eq_ok] at h
    obtain ⟨⟨⟩, -, ⟨⟩, -, rfl⟩ := h
    cases hget : (host.patchChannel channelId patch).db.getChannel channelId with
    | some ch => exact .inr ⟨_, rfl, _, List.mem_cons_self, rfl⟩
    | none => exact .inl (keepsSight_patchChannel (getChannel_patchChannel.mp hget))
  | deleteChannel channelId =>
    refine accounted_commit fun host' h => .inr (tells_ok ⟨_, List.mem_cons_self, rfl⟩)
  | createCategory name position =>
    refine accounted_commit fun host' h => ?_
    simp only [bind_eq_ok, pure_eq_ok] at h
    obtain ⟨⟨⟩, -, rfl⟩ := h
    exact .inl (keepsSight_members ⟨rfl, rfl, fun _ => rfl, rfl, rfl, rfl⟩ fun _ => id)
  | updateCategory categoryId name position =>
    refine accounted_commit fun host' h => ?_
    simp only [bind_eq_ok, pure_eq_ok] at h
    obtain ⟨⟨⟩, -, rfl⟩ := h
    exact .inl (keepsSight_members ⟨rfl, rfl, fun _ => rfl, rfl, rfl, rfl⟩ fun _ => id)
  | deleteCategory categoryId =>
    refine accounted_commit fun host' h => ?_
    simp only [bind_eq_ok, pure_eq_ok] at h
    obtain ⟨⟨⟩, -, rfl⟩ := h
    exact .inl (keepsSight_deleteCategory (hempty categoryId rfl))
  | setChannelOverride channelId roleId allow deny =>
    refine accounted_commit fun host' h => .inr (tells_ok ⟨_, List.mem_cons_self, rfl⟩)
  | setCategoryOverride categoryId roleId allow deny =>
    refine accounted_commit fun host' h => .inr (tells_ok ⟨_, List.mem_cons_self, rfl⟩)

theorem roleRequest_accounted {request : RoleRequest} :
    Accounted host (host.handleRoleRequest member isOwner request) := by
  cases request with
  | createRole name permissions color position hoist =>
    refine accounted_commit fun host' h => ?_
    simp only [bind_eq_ok, pure_eq_ok] at h
    obtain ⟨⟨⟩, -, ⟨⟩, -, rfl⟩ := h
    exact .inl keepsSight_createRole
  | updateRole roleId patch =>
    refine accounted_commit fun host' h => ?_
    simp only [bind_eq_ok, pure_eq_ok] at h
    obtain ⟨role, hbelow, ⟨⟩, -, rfl⟩ := h
    have hthere : host.community.getRole roleId ≠ none := by
      simp [(requireRoleBelow_eq_ok.mp hbelow).2.1]
    obtain ⟨row, hrow⟩ : ∃ row, (host.community.updateRole roleId patch.name patch.permissions
        (patch.color.map some) patch.position patch.hoist).getRole roleId = some row :=
      Option.ne_none_iff_exists'.mp (mt getRole_updateRole.mp hthere)
    right
    simp only [Host.withCommunity, hrow]
    exact ⟨_, rfl, _, List.mem_cons_self, rfl⟩
  | deleteRole roleId =>
    exact accounted_commit fun host' h => .inr (tells_ok ⟨_, List.mem_cons_self, rfl⟩)
  | assignRole memberKey roleId =>
    exact accounted_commit fun host' h => .inr (tells_ok ⟨_, List.mem_cons_self, rfl⟩)
  | removeRole memberKey roleId =>
    exact accounted_commit fun host' h => .inr (tells_ok ⟨_, List.mem_cons_self, rfl⟩)

theorem standing_updateMember {pk : PublicKey} {f : MemberRow → MemberRow}
    (hf : ∀ row, row.banned = false ∧ row.revoked = false →
      (f row).banned = false ∧ (f row).revoked = false) (h : host.standing m = true) :
    (host.withCommunity (host.community.updateMember pk f)).standing m = true := by
  simp only [Host.standing, Host.withCommunity, getMember_updateMember] at h ⊢
  split_ifs with hm
  · subst hm
    obtain ⟨row, hrow, hstands⟩ := Option.any_eq_true _ _ |>.mp h
    rw [hrow]
    simpa using hf row (by simpa using hstands)
  · exact h

theorem keepsSight_updateMember {pk : PublicKey} {f : MemberRow → MemberRow}
    (hf : ∀ row, row.banned = false ∧ row.revoked = false →
      (f row).banned = false ∧ (f row).revoked = false) :
    KeepsSight host (host.withCommunity (host.community.updateMember pk f)) :=
  keepsSight_members ⟨rfl, rfl, fun _ => rfl, rfl, rfl, rfl⟩ fun _ => standing_updateMember hf

theorem standing_registerMember {c : Community} {pk : PublicKey} {name : String} {isBot : Bool}
    {now : ℕ} (hregister : host.community.registerMember pk name isBot now = .ok c)
    (h : host.standing m = true) : (host.withCommunity c).standing m = true := by
  simp only [Community.registerMember, bind_eq_ok, ensure_eq_ok, pure_eq_ok] at hregister
  obtain ⟨⟨⟩, hnone, rfl⟩ := hregister
  have hne : m ≠ pk := by
    rintro rfl
    simp [Host.standing, hnone] at h
  simp only [Host.standing, Host.withCommunity, Community.getMember, FiniteMap.lookup_insert_eq,
    if_neg hne] at h ⊢
  exact h

def MemberRequest.removes : MemberRequest → Bool
  | .kickMember _ => true
  | .banMember .. => true
  | .removeBot _ => true
  | _ => false

theorem memberEffect_keepsSight {request : MemberRequest} (hstays : request.removes = false)
    (h : MemberEffect host member isOwner moment request host') : KeepsSight host host' := by
  cases h with
  | refused => exact .refl
  | kickMember => exact absurd hstays (by simp [MemberRequest.removes])
  | banMember => exact absurd hstays (by simp [MemberRequest.removes])
  | removeBotRow => exact absurd hstays (by simp [MemberRequest.removes])
  | removeBot => exact absurd hstays (by simp [MemberRequest.removes])
  | unbanMember => exact keepsSight_updateMember fun row h => ⟨rfl, h.2⟩
  | timeoutMember => exact keepsSight_updateMember fun row h => h
  | removeTimeout => exact keepsSight_updateMember fun row h => h
  | updateProfile => exact keepsSight_updateMember fun row h => h
  | requestDeletion hrequest =>
    exact keepsSight_withDb (memberEffect_table
      (@MemberEffect.requestDeletion host member isOwner moment _ hrequest))
  | cancelDeletion hcancel =>
    exact keepsSight_withDb (memberEffect_table
      (@MemberEffect.cancelDeletion host member isOwner moment _ hcancel))
  | createInvite hperm hinvite =>
    simp only [Community.createInvite, bind_eq_ok, pure_eq_ok] at hinvite
    obtain ⟨expiresAt, -, ⟨⟩, -, rfl⟩ := hinvite
    exact keepsSight_members ⟨rfl, rfl, fun _ => rfl, rfl, rfl, rfl⟩ fun _ => id
  | @addBot label settings registered community hperm hregister hbot =>
    have hstanding : ∀ m, host.standing m = true →
        (host.withCommunity registered).standing m = true :=
      fun m => standing_registerMember hregister
    simp only [Community.registerMember, Community.registerBot, bind_eq_ok, pure_eq_ok]
      at hregister hbot
    obtain ⟨⟨⟩, -, rfl⟩ := hregister
    obtain ⟨⟨⟩, -, rfl⟩ := hbot
    exact keepsSight_members ⟨rfl, rfl, fun _ => rfl, rfl, rfl, rfl⟩ hstanding
  | _ => exact keepsSight_members ⟨rfl, rfl, fun _ => rfl, rfl, rfl, rfl⟩ fun _ h => h

theorem memberRequest_accounted {request : MemberRequest} :
    Accounted host (host.handleMemberRequest member isOwner moment request) := by
  by_cases hstays : request.removes = false
  · exact .inl (memberEffect_keepsSight hstays (memberRequest_effect request))
  · cases request with
    | kickMember memberKey =>
      exact accounted_commit fun host' h => .inr (tells_ok ⟨_, List.mem_cons_self, rfl⟩)
    | banMember memberKey reason =>
      exact accounted_commit fun host' h => .inr (tells_ok ⟨_, List.mem_cons_self, rfl⟩)
    | removeBot botPublicKey =>
      simp only [Host.handleMemberRequest, Host.removeBot]
      split
      · exact accounted_refused
      · next removed h =>
        simp only [bind_eq_ok, pure_eq_ok] at h
        obtain ⟨⟨⟩, -, ⟨⟩, -, rfl⟩ := h
        have hremoved : KeepsSight host
            (host.withCommunity (host.community.removeBot botPublicKey)) :=
          keepsSight_members ⟨rfl, rfl, fun _ => rfl, rfl, rfl, rfl⟩ fun _ => id
        refine Or.imp hremoved.trans id (accounted_commit fun host' h => ?_)
        exact .inr (tells_ok ⟨_, List.mem_cons_self, rfl⟩)
    | _ => exact absurd rfl hstays

theorem messageRequest_keepsSight {request : MessageRequest} (hbounded : host.db.IdsBounded) :
    KeepsSight host (host.handleMessageRequest member isOwner moment request).1 := by
  have heffect := @messageRequest_effect host member isOwner moment request
  by_cases hcreates : request.createsChannel = false
  · exact (sameSight_frame.messageEffect hcreates heffect).keeps
  · generalize (host.handleMessageRequest member isOwner moment request).1 = host' at heffect ⊢
    cases heffect with
    | refused => exact .refl
    | expired => exact (sameSight_frame.expireTimeout host _ _).keeps
    | createThread hrow hperm hroom => exact keepsSight_insertChannel (hbounded.next_notMem hroom)
    | openDm hne hroom =>
      exact (keepsSight_openDmChannel hbounded hroom).trans
        (sameSight_frame.expireTimeout _ _ _).keeps
    | _ => exact absurd rfl hcreates

theorem dispatch_accounted {request : Request} (hbounded : host.db.IdsBounded)
    (hempty : ∀ id, request = .channel (.deleteCategory id) → host.CategoryEmpty id)
    (hsubmits : ∀ event, request ≠ .submitEvent event) :
    Accounted host (host.dispatch K member isOwner moment request) := by
  cases request with
  | channel request =>
    exact channelRequest_accounted hbounded fun id h => hempty id (congrArg _ h)
  | role request => exact roleRequest_accounted
  | member request => exact memberRequest_accounted
  | submitEvent event => exact absurd rfl (hsubmits event)
  | message request => exact .inl (messageRequest_keepsSight hbounded)
  | _ => exact .inl (sameSight_frame.dispatch rfl rfl).keeps

end Server
