import Farder.LiveSessions
import Farder.OneOwner
import Farder.Server.Sight

/-! # What keeps a channel in sight

What a member sees a channel by is spread over many tables. An operation that takes nothing of it
away leaves the channel in the member's sight, whatever else it does. -/
namespace Permissions

variable {ctx ctx' : ResolutionContext} {i : ℕ}

/-- The permissions that somebody sees a channel by: `VIEW_CHANNEL` and `ADMIN`. -/
def SightBit (i : ℕ) : Prop := i = 0 ∨ i = 12

/-- An override that is written over another one hides nothing that was not hidden. -/
def HidesNothing (o o' : Option Override) : Prop :=
  ∀ i, SightBit i → ((∃ a ∈ o, a.allow.getLsbD i = true) → ∃ a ∈ o', a.allow.getLsbD i = true) ∧
    ((∃ a ∈ o', a.deny.getLsbD i = true) → ∃ a ∈ o, a.deny.getLsbD i = true)

theorem HidesNothing.refl (o : Option Override) : HidesNothing o o := fun _ _ => ⟨id, id⟩

/-- Other roles with other overrides, of which a new role denies nothing. -/
structure KeepsLayer (roleIds roleIds' : List ℕ) (f f' : ℕ → Option Override) : Prop where
  kept : ∀ r ∈ roleIds, r ∈ roleIds' ∧ HidesNothing (f r) (f' r)
  new : ∀ r ∈ roleIds', r ∉ roleIds → ∀ o ∈ f' r, ∀ i, SightBit i → o.deny.getLsbD i = false

namespace KeepsLayer

variable {roleIds roleIds' : List ℕ} {f f' : ℕ → Option Override}

theorem refl : KeepsLayer roleIds roleIds f f :=
  ⟨fun _ hr => ⟨hr, .refl _⟩, fun _ hr hnew => absurd hr hnew⟩

theorem allowed (h : KeepsLayer roleIds roleIds' f f') (hi : SightBit i)
    (hallowed : Allowed (roleIds.filterMap f) i) : Allowed (roleIds'.filterMap f') i := by
  rw [allowed_filterMap] at hallowed ⊢
  obtain ⟨r, hr, hallow⟩ := hallowed
  obtain ⟨hr', hhides⟩ := h.kept r hr
  exact ⟨r, hr', (hhides i hi).1 hallow⟩

theorem spared (h : KeepsLayer roleIds roleIds' f f') (hi : SightBit i)
    (hspared : Spared (roleIds.filterMap f) i) : Spared (roleIds'.filterMap f') i := by
  rw [spared_filterMap] at hspared ⊢
  intro r hr o ho
  by_cases hold : r ∈ roleIds
  · refine Bool.eq_false_iff.mpr fun hdeny => ?_
    obtain ⟨a, ha, hdeny⟩ := ((h.kept r hold).2 i hi).2 ⟨o, ho, hdeny⟩
    exact absurd hdeny (Bool.eq_false_iff.mp (hspared r hold a ha))
  · exact h.new r hr hold o ho i hi

end KeepsLayer
end Permissions

namespace Server

open EventLog EventLog.LogState Guarded Permissions

variable {K : Crypto} {host host' : Host} {moment : Moment} {member m : PublicKey}
  {isOwner : Bool} {channelId : ℕ}

/-! ## One member in one channel -/

/-- The role of all members, or one that the member is assigned, has the permission. -/
def Community.RolesGive (c : Community) (m : PublicKey) (i : ℕ) : Prop :=
  c.everyonePermissions.getLsbD i = true ∨
    ∃ r ∈ c.getMemberRoleIds m, ∃ role, c.getRole r = some role ∧
      role.permissions.getLsbD i = true

/-- What a member sees a channel by, of what its roles and their overrides give it, stays. -/
structure Host.KeepsGiven (host host' : Host) (m : PublicKey) (channelId : ℕ) : Prop where
  base : ∀ i, SightBit i → host.community.RolesGive m i → host'.community.RolesGive m i
  category : KeepsLayer (host.community.getMemberRoleIds m) (host'.community.getMemberRoleIds m)
    (host.categoryOverride (.channel channelId)) (host'.categoryOverride (.channel channelId))
  channel : KeepsLayer (host.community.getMemberRoleIds m) (host'.community.getMemberRoleIds m)
    (host.channelOverride (.channel channelId)) (host'.channelOverride (.channel channelId))

theorem Host.KeepsGiven.gives {isOwner' : Bool} {i : ℕ} (h : host.KeepsGiven host' m channelId)
    (hi : SightBit i) (hgives : (host.contextOf m isOwner (.channel channelId)).Gives i) :
    (host'.contextOf m isOwner' (.channel channelId)).Gives i := by
  simp only [ResolutionContext.Gives, ResolutionContext.Inherits, categoryOverrides_of,
    channelOverrides_of, base_of] at hgives ⊢
  rcases hgives with hallow | ⟨hspared, hinherits⟩ | ⟨hadmin, hbit⟩
  · exact .inl (h.channel.allowed hi hallow)
  · refine .inr (.inl ⟨h.channel.spared hi hspared, ?_⟩)
    exact hinherits.imp (h.category.allowed hi) (And.imp (h.category.spared hi) (h.base i hi))
  · exact .inr (.inr ⟨hadmin, h.base i hi hbit⟩)

def Host.KeepsChannel (host host' : Host) (channelId : ℕ) : Prop :=
  ∀ ch, host.db.getChannel channelId = some ch →
    ∃ ch', host'.db.getChannel channelId = some ch' ∧ ch'.channelType = ch.channelType

theorem maySee_of_given (h : host.maySee m channelId = true)
    (hgate : host.contentBlockReason m = none → host'.contentBlockReason m = none)
    (howner : host.owner = some m → host'.owner = some m)
    (hstanding : host.standing m = true → host'.standing m = true)
    (hchannel : host.KeepsChannel host' channelId)
    (hdm : host.community.isDmParticipant m channelId = true →
      host'.community.isDmParticipant m channelId = true)
    (hgiven : host.KeepsGiven host' m channelId) : host'.maySee m channelId = true := by
  obtain ⟨hopen, hstands, hvisible⟩ := maySee_iff.mp h
  refine maySee_iff.mpr ⟨hgate hopen, hstanding hstands, ?_⟩
  obtain ⟨ch, hch, hshown⟩ := channelVisible_iff.mp hvisible
  obtain ⟨ch', hch', htype⟩ := hchannel ch hch
  refine channelVisible_iff.mpr ⟨ch', hch', ?_⟩
  rw [htype]
  split_ifs at hshown ⊢
  · exact hdm hshown
  · rw [resolve_bit_iff (by decide), isOwner_of, decide_eq_true_eq] at hshown ⊢
    exact hshown.imp howner (Or.imp (hgiven.gives (.inr rfl)) (hgiven.gives (.inl rfl)))

/-- An operation on the community that leaves standing and direct messages alone. -/
theorem maySee_withCommunity {c : Community} (h : host.maySee m channelId = true)
    (hmembers : c.members = host.community.members)
    (hdm : c.dmParticipants = host.community.dmParticipants)
    (hgiven : host.KeepsGiven (host.withCommunity c) m channelId) :
    (host.withCommunity c).maySee m channelId = true := by
  refine maySee_of_given h id id (fun hstands => ?_) (fun ch hch => ⟨ch, hch, rfl⟩)
    (fun hpart => ?_) hgiven
  · simp only [Host.standing, Host.withCommunity, Community.getMember, hmembers] at hstands ⊢
    exact hstands
  · simp only [Community.isDmParticipant, Host.withCommunity, hdm] at hpart ⊢
    exact hpart

/-! ## Channels and categories -/

def ChannelRequest.LeavesSight (host : Host) (m : PublicKey) (channelId : ℕ) :
    ChannelRequest → Prop
  | .updateChannel id patch => id = channelId → patch.categoryId = none
  | .deleteChannel id => id ≠ channelId
  | .deleteCategory id => (host.community.channelInfo channelId).categoryId ≠ some id
  | .setChannelOverride id roleId allow deny =>
    id = channelId → roleId ∈ host.community.getMemberRoleIds m →
      HidesNothing (host.channelOverride (.channel channelId) roleId) (some ⟨allow, deny⟩)
  | .setCategoryOverride id roleId allow deny =>
    host.categoryAt (.channel channelId) = some id → roleId ∈ host.community.getMemberRoleIds m →
      HidesNothing (host.categoryOverride (.channel channelId) roleId) (some ⟨allow, deny⟩)
  | _ => True

theorem keepsGiven_of_same (hroles : host'.community.roles = host.community.roles)
    (hmemberRoles : host'.community.memberRoles = host.community.memberRoles)
    (hcategory : ∀ r ∈ host.community.getMemberRoleIds m,
      HidesNothing (host.categoryOverride (.channel channelId) r)
        (host'.categoryOverride (.channel channelId) r))
    (hchannel : ∀ r ∈ host.community.getMemberRoleIds m,
      HidesNothing (host.channelOverride (.channel channelId) r)
        (host'.channelOverride (.channel channelId) r)) :
    host.KeepsGiven host' m channelId := by
  have hroleIds : host'.community.getMemberRoleIds m = host.community.getMemberRoleIds m := by
    rw [Community.getMemberRoleIds, hmemberRoles]
    rfl
  have hgive : ∀ i, host'.community.RolesGive m i ↔ host.community.RolesGive m i := by
    intro i
    rw [Community.RolesGive, Community.RolesGive, hroleIds]
    simp only [Community.everyonePermissions, Community.everyone, Community.getRole, hroles]
  rw [← hroleIds] at hcategory hchannel
  refine ⟨fun i _ => (hgive i).mpr, ?_, ?_⟩
  · rw [← hroleIds]
    exact ⟨fun r hr => ⟨hr, hcategory r hr⟩, fun r hr hnew => absurd hr hnew⟩
  · rw [← hroleIds]
    exact ⟨fun r hr => ⟨hr, hchannel r hr⟩, fun r hr hnew => absurd hr hnew⟩

theorem getChannel_mapped {f : ChannelRow → ChannelRow} {db db' : Db} {ch : ChannelRow}
    (hrows : db'.channels = db.channels.map f)
    (hf : ∀ ch, (f ch).id = ch.id ∧ (f ch).channelType = ch.channelType)
    (hkept : ∀ ch, ch.id = channelId → (f ch).deleted = ch.deleted)
    (h : db.getChannel channelId = some ch) :
    ∃ ch', db'.getChannel channelId = some ch' ∧ ch'.channelType = ch.channelType := by
  have hsame : ((fun ch => decide (ch.id = channelId ∧ ch.deleted = false)) ∘ f) =
      fun ch => decide (ch.id = channelId ∧ ch.deleted = false) := by
    funext ch
    simp only [Function.comp_apply, (hf ch).1, decide_eq_decide]
    exact and_congr_right fun hid => by rw [hkept ch hid]
  rw [Db.getChannel] at h
  refine ⟨f ch, ?_, (hf ch).2⟩
  rw [Db.getChannel, hrows, List.find?_map, hsame, h, Option.map_some]

theorem maySee_patchChannel {k : ℕ} {patch : ChannelPatch} (h : host.maySee m channelId = true)
    (hleaves : k = channelId → patch.categoryId = none) :
    (host.patchChannel k patch).maySee m channelId = true := by
  have hrows : ∀ ch, host.db.getChannel channelId = some ch →
      ∃ ch', (host.patchChannel k patch).db.getChannel channelId = some ch' ∧
        ch'.channelType = ch.channelType := by
    refine fun ch hch => getChannel_mapped rfl (fun ch => ?_) (fun ch _ => ?_) hch
    · split_ifs <;> exact ⟨rfl, rfl⟩
    · split_ifs <;> rfl
  have hcategory : (host.patchChannel k patch).categoryAt (.channel channelId) =
      host.categoryAt (.channel channelId) := by
    obtain ⟨ch, hch⟩ := Option.ne_none_iff_exists'.mp (present_of_maySee h)
    obtain ⟨ch', hch', -⟩ := hrows ch hch
    simp only [Host.categoryAt, hch, hch', Option.bind_some]
    simp only [Host.patchChannel, Community.updateChannelInfo, Function.update_apply]
    split_ifs with hid
    · simp only [hid, ChannelPatch.applyInfo, hleaves hid.symm, Option.getD_none]
    · rfl
  refine maySee_of_given h id id id hrows id (keepsGiven_of_same rfl rfl (fun r _ => ?_)
    fun r _ => .refl _)
  rw [Host.categoryOverride, Host.categoryOverride, hcategory]
  exact .refl _

theorem maySee_softDeleteChannel {k : ℕ} (h : host.maySee m channelId = true)
    (hleaves : k ≠ channelId) :
    (host.withDb (host.db.softDeleteChannel k)).maySee m channelId = true := by
  have hrows : ∀ ch, host.db.getChannel channelId = some ch →
      ∃ ch', (host.db.softDeleteChannel k).getChannel channelId = some ch' ∧
        ch'.channelType = ch.channelType := by
    refine fun ch hch => getChannel_mapped rfl (fun ch => ?_) (fun ch hid => ?_) hch
    · split_ifs <;> exact ⟨rfl, rfl⟩
    · rw [if_neg (hid ▸ hleaves.symm)]
  refine maySee_of_given h id id id hrows id (keepsGiven_of_same rfl rfl (fun r _ => ?_)
    fun r _ => .refl _)
  have hcategory : (host.withDb (host.db.softDeleteChannel k)).categoryAt (.channel channelId) =
      host.categoryAt (.channel channelId) := by
    obtain ⟨ch, hch⟩ := Option.ne_none_iff_exists'.mp (present_of_maySee h)
    obtain ⟨ch', hch', -⟩ := hrows ch hch
    have hthere : (host.withDb (host.db.softDeleteChannel k)).db.getChannel channelId =
        some ch' := hch'
    simp only [Host.categoryAt, hch, hthere, Option.bind_some]
    rfl
  rw [Host.categoryOverride, Host.categoryOverride, hcategory]
  exact .refl _

theorem maySee_setChannelOverride {id roleId : ℕ} {allow deny : Bits}
    (h : host.maySee m channelId = true)
    (hleaves : id = channelId → roleId ∈ host.community.getMemberRoleIds m →
      HidesNothing (host.channelOverride (.channel channelId) roleId) (some ⟨allow, deny⟩)) :
    (host.withCommunity (host.community.setChannelOverride id roleId allow deny)).maySee m
      channelId = true := by
  refine maySee_withCommunity h rfl rfl (keepsGiven_of_same rfl rfl (fun r _ => .refl _)
    fun r hr => ?_)
  have hwritten : (host.withCommunity (host.community.setChannelOverride id roleId allow
      deny)).channelOverride (.channel channelId) r =
        if channelId = id ∧ r = roleId then some ⟨allow, deny⟩
        else host.channelOverride (.channel channelId) r := by
    simp only [Host.channelOverride, Host.withCommunity, Community.setChannelOverride,
      FiniteMap.lookup_insert_eq, Prod.mk.injEq]
  rw [hwritten]
  split_ifs with heq
  · obtain ⟨rfl, rfl⟩ := heq
    exact hleaves rfl hr
  · exact .refl _

theorem maySee_setCategoryOverride {id roleId : ℕ} {allow deny : Bits}
    (h : host.maySee m channelId = true)
    (hleaves : host.categoryAt (.channel channelId) = some id →
      roleId ∈ host.community.getMemberRoleIds m →
        HidesNothing (host.categoryOverride (.channel channelId) roleId) (some ⟨allow, deny⟩)) :
    (host.withCommunity (host.community.setCategoryOverride id roleId allow deny)).maySee m
      channelId = true := by
  refine maySee_withCommunity h rfl rfl (keepsGiven_of_same rfl rfl (fun r hr => ?_)
    fun r _ => .refl _)
  have hwritten : (host.withCommunity (host.community.setCategoryOverride id roleId allow
      deny)).categoryOverride (.channel channelId) r =
        if host.categoryAt (.channel channelId) = some id ∧ r = roleId then some ⟨allow, deny⟩
        else host.categoryOverride (.channel channelId) r := by
    have hat : (host.withCommunity (host.community.setCategoryOverride id roleId allow
        deny)).categoryAt (.channel channelId) = host.categoryAt (.channel channelId) := rfl
    rw [Host.categoryOverride, hat, Host.categoryOverride]
    cases host.categoryAt (.channel channelId) with
    | none => simp
    | some category =>
      simp only [Option.bind_some, Host.withCommunity, Community.setCategoryOverride,
        FiniteMap.lookup_insert_eq, Prod.mk.injEq, Option.some.injEq]
  rw [hwritten]
  split_ifs with heq
  · obtain ⟨hat, rfl⟩ := heq
    exact hleaves hat hr
  · exact .refl _

/-- Of what a member sees a channel by, a request about roles takes nothing. -/
def RoleRequest.LeavesSight (host : Host) (m : PublicKey) (channelId : ℕ) : RoleRequest → Prop
  | .updateRole id patch => ∀ role, host.community.getRole id = some role →
    (role.builtin = true → patch.name.getD role.name = role.name) ∧
      (role.builtin = true ∨ id ∈ host.community.getMemberRoleIds m → ∀ p ∈ patch.permissions,
        ∀ i, SightBit i → role.permissions.getLsbD i = true → p.getLsbD i = true)
  | .deleteRole id => id ∉ host.community.getMemberRoleIds m
  | .assignRole pk id => pk = m → id ∉ host.community.getMemberRoleIds m →
    ∀ o, host.channelOverride (.channel channelId) id = some o ∨
      host.categoryOverride (.channel channelId) id = some o →
        ∀ i, SightBit i → o.deny.getLsbD i = false
  | .removeRole pk id => pk = m → id ∉ host.community.getMemberRoleIds m
  | .createRole .. => True

/-- The rows of the role of all members and of the member's own roles give what they gave. -/
theorem rolesGive_of_rows {c c' : Community} {i : ℕ} (hkept : c'.RolesKept)
    (hroleIds : ∀ r ∈ c.getMemberRoleIds m, r ∈ c'.getMemberRoleIds m)
    (hrows : ∀ x ∈ c.roles, x.2.builtin = true ∨ x.1 ∈ c.getMemberRoleIds m →
      x.2.permissions.getLsbD i = true → ∃ role', (x.1, role') ∈ c'.roles ∧
        (x.2.builtin = true → role'.name = x.2.name ∧ role'.builtin = true) ∧
        role'.permissions.getLsbD i = true)
    (hgive : c.RolesGive m i) : c'.RolesGive m i := by
  rcases hgive with heveryone | ⟨r, hr, role, hrole, hbit⟩
  · obtain ⟨x, hx, hbit⟩ := everyonePermissions_bit.mp heveryone
    obtain ⟨hmem, hfound⟩ := Table.find?_mem hx
    simp only [decide_eq_true_eq] at hfound
    obtain ⟨role', hmem', hnamed, hbit'⟩ := hrows x hmem (.inl hfound.2) hbit
    obtain ⟨hname, hbuiltin⟩ := hnamed hfound.2
    exact .inl (everyonePermissions_bit.mpr
      ⟨_, everyone_eq_some hkept hmem' (hname.trans hfound.1) hbuiltin, hbit'⟩)
  · obtain ⟨role', hmem', -, hbit'⟩ :=
      hrows (r, role) (Table.get?_eq_some.mp hrole) (.inr hr) hbit
    exact .inr ⟨r, hroleIds r hr, role', Table.get?_eq_some.mpr hmem', hbit'⟩

theorem maySee_updateRole {k : ℕ} {patch : RolePatch} (h : host.maySee m channelId = true)
    (hkept : host.community.RolesKept)
    (hleaves : RoleRequest.LeavesSight host m channelId (.updateRole k patch)) :
    (host.withCommunity (host.community.updateRole k patch.name patch.permissions
      (patch.color.map some) patch.position patch.hoist)).maySee m channelId = true := by
  have hupdated : (host.community.updateRole k patch.name patch.permissions
      (patch.color.map some) patch.position patch.hoist).RolesKept :=
    Community.updateRole_rolesKept hkept
  refine maySee_withCommunity h rfl rfl
    ⟨fun i hi => rolesGive_of_rows hupdated (fun _ => id) ?_, .refl, .refl⟩
  rintro ⟨r, role⟩ hrole hheld hbit
  refine ⟨_, Table.mem_map.mpr ⟨_, hrole, rfl⟩, ?_⟩
  dsimp only
  split_ifs with hk
  · subst hk
    obtain ⟨hname, hbits⟩ := hleaves role (Table.get?_eq_some.mpr hrole)
    refine ⟨fun hbuiltin => ⟨hname hbuiltin, hbuiltin⟩, ?_⟩
    cases hp : patch.permissions with
    | none => exact hbit
    | some p => exact hbits hheld p hp i hi hbit
  · exact ⟨fun hbuiltin => ⟨rfl, hbuiltin⟩, hbit⟩

theorem maySee_deleteRole {k : ℕ} {c : Community} (h : host.maySee m channelId = true)
    (hkept : host.community.RolesKept) (hleaves : k ∉ host.community.getMemberRoleIds m)
    (hdelete : host.community.deleteRole k = .ok c) :
    (host.withCommunity c).maySee m channelId = true := by
  have hdeleted := Community.deleteRole_rolesKept hkept hdelete
  simp only [Community.deleteRole, bind_eq_ok, context_eq_ok, ensure_eq_ok, pure_eq_ok] at hdelete
  obtain ⟨role, hrole, ⟨⟩, hplain, rfl⟩ := hdelete
  have hne : ∀ r ∈ host.community.getMemberRoleIds m, r ≠ k := by
    rintro r hr rfl
    exact hleaves hr
  have hroleIds : ∀ r ∈ host.community.getMemberRoleIds m,
      (m, r) ∈ host.community.memberRoles.filter fun x => x.2 ≠ k :=
    fun r hr => List.mem_filter.mpr ⟨mem_roleIds.mp hr, by simpa using hne r hr⟩
  have hretained : ∀ {r : ℕ} {overrides : FiniteMap (ℕ × ℕ) Override}, r ≠ k → ∀ place,
      (FiniteMap.retain overrides fun x _ => x.2 ≠ k).lookup (place, r) =
        overrides.lookup (place, r) := by
    intro r overrides hr place
    refine Option.ext fun o => ?_
    rw [FiniteMap.lookup_retain_eq_some]
    exact and_iff_left hr
  have hold : ∀ r, (m, r) ∈ host.community.memberRoles.filter (fun x => x.2 ≠ k) →
      r ∈ host.community.getMemberRoleIds m :=
    fun r hr => mem_roleIds.mpr (List.mem_filter.mp hr).1
  refine maySee_withCommunity h rfl rfl ⟨fun i hi => rolesGive_of_rows hdeleted
    (fun r hr => mem_roleIds.mpr (hroleIds r hr)) fun x hx hheld hbit => ?_, ?_, ?_⟩
  · have hother : x.1 ≠ k := by
      rcases hheld with hbuiltin | hheld
      · rintro rfl
        obtain rfl := Option.some.inj ((Table.get?_eq_some.mpr hx).symm.trans hrole)
        exact absurd hbuiltin (by simp [hplain])
      · exact hne x.1 hheld
    exact ⟨x.2, Table.mem_delete.mpr ⟨hx, by simpa using hother⟩,
      fun hbuiltin => ⟨rfl, hbuiltin⟩, hbit⟩
  · refine ⟨fun r hr => ⟨mem_roleIds.mpr (hroleIds r hr), ?_⟩,
      fun r hr hnew => absurd (hold r (mem_roleIds.mp hr)) hnew⟩
    rw [Host.categoryOverride, Host.categoryOverride]
    have hkept : ∀ category, (FiniteMap.retain host.community.categoryOverrides
        fun x _ => x.2 ≠ k).lookup (category, r) =
          host.community.categoryOverrides.lookup (category, r) := hretained (hne r hr)
    simp only [Host.categoryAt, Host.withCommunity, hkept]
    exact .refl _
  · refine ⟨fun r hr => ⟨mem_roleIds.mpr (hroleIds r hr), ?_⟩,
      fun r hr hnew => absurd (hold r (mem_roleIds.mp hr)) hnew⟩
    simp only [Host.channelOverride, Host.withCommunity, hretained (hne r hr)]
    exact .refl _

theorem maySee_assignRole {pk : PublicKey} {k : ℕ} {c : Community}
    (h : host.maySee m channelId = true)
    (hleaves : RoleRequest.LeavesSight host m channelId (.assignRole pk k))
    (hassign : host.community.assignRole pk k = .ok c) :
    (host.withCommunity c).maySee m channelId = true := by
  have hroleIds : ∀ r, r ∈ c.getMemberRoleIds m ↔
      r ∈ host.community.getMemberRoleIds m ∨ pk = m ∧ r = k :=
    fun r => mem_roleIds_assignRole hassign
  simp only [Community.assignRole, bind_eq_ok, pure_eq_ok] at hassign
  obtain ⟨⟨⟩, -, rfl⟩ := hassign
  refine maySee_withCommunity h rfl rfl ⟨fun i hi hgive => ?_, ?_, ?_⟩
  · refine hgive.imp_right fun hrole => ?_
    obtain ⟨r, hr, role, hrole, hbit⟩ := hrole
    exact ⟨r, (hroleIds r).mpr (.inl hr), role, hrole, hbit⟩
  · refine ⟨fun r hr => ⟨(hroleIds r).mpr (.inl hr), .refl _⟩, fun r hr hnew o ho => ?_⟩
    obtain ⟨hpk, rfl⟩ := ((hroleIds r).mp hr).resolve_left hnew
    exact hleaves hpk hnew o (.inr ho)
  · refine ⟨fun r hr => ⟨(hroleIds r).mpr (.inl hr), .refl _⟩, fun r hr hnew o ho => ?_⟩
    obtain ⟨hpk, rfl⟩ := ((hroleIds r).mp hr).resolve_left hnew
    exact hleaves hpk hnew o (.inl ho)

theorem keepsGiven_of_roleIds {c : Community} (hroles : c.roles = host.community.roles)
    (hroleIds : ∀ r, r ∈ c.getMemberRoleIds m ↔ r ∈ host.community.getMemberRoleIds m)
    (hinfo : c.channelInfo = host.community.channelInfo)
    (hcategories : c.categoryOverrides = host.community.categoryOverrides)
    (hchannels : c.channelOverrides = host.community.channelOverrides) :
    host.KeepsGiven (host.withCommunity c) m channelId := by
  refine ⟨fun i _ hgive => ?_, ?_, ?_⟩
  · have hget : c.getRole = host.community.getRole := by
      funext r
      rw [Community.getRole, hroles, Community.getRole]
    refine hgive.imp (fun hbit => ?_) fun hrole => ?_
    · simp only [Community.everyonePermissions, Community.everyone, Host.withCommunity, hroles]
        at hbit ⊢
      exact hbit
    · obtain ⟨r, hr, hrole⟩ := hrole
      refine ⟨r, (hroleIds r).mpr hr, ?_⟩
      simp only [Host.withCommunity, hget]
      exact hrole
  · refine ⟨fun r hr => ⟨(hroleIds r).mpr hr, ?_⟩,
      fun r hr hnew => absurd ((hroleIds r).mp hr) hnew⟩
    simp only [Host.categoryOverride, Host.categoryAt, Host.withCommunity, hinfo, hcategories]
    exact .refl _
  · refine ⟨fun r hr => ⟨(hroleIds r).mpr hr, ?_⟩,
      fun r hr hnew => absurd ((hroleIds r).mp hr) hnew⟩
    simp only [Host.channelOverride, Host.withCommunity, hchannels]
    exact .refl _

theorem maySee_unassignRole {pk : PublicKey} {k : ℕ} (h : host.maySee m channelId = true)
    (hleaves : pk = m → k ∉ host.community.getMemberRoleIds m) :
    (host.withCommunity (host.community.unassignRole pk k)).maySee m channelId = true := by
  refine maySee_withCommunity h rfl rfl (keepsGiven_of_roleIds rfl (fun r => ?_) rfl rfl rfl)
  simp only [mem_roleIds, Community.unassignRole, List.mem_filter, decide_eq_true_eq, ne_eq,
    Prod.mk.injEq, not_and]
  refine and_iff_left_of_imp fun hr hpk hk => hleaves hpk.symm (mem_roleIds.mpr (hk ▸ hr))

def MemberRequest.LeavesSight (m : PublicKey) : MemberRequest → Prop
  | .kickMember pk => pk ≠ m
  | .banMember pk _ => pk ≠ m
  | .removeBot pk => pk ≠ m
  | _ => True

theorem maySee_removeMember {pk : PublicKey} (h : host.maySee m channelId = true) (hne : pk ≠ m) :
    (host.withCommunity (host.community.removeMember pk)).maySee m channelId = true := by
  refine maySee_of_given h id id (fun hstands => ?_) (fun ch hch => ⟨ch, hch, rfl⟩) id
    (keepsGiven_of_roleIds rfl (fun r => ?_) rfl rfl rfl)
  · simp only [Host.standing, Host.withCommunity, Community.getMember, Community.removeMember,
      FiniteMap.lookup_erase_eq, if_neg hne.symm] at hstands ⊢
    exact hstands
  · simp only [mem_roleIds, Community.removeMember, List.mem_filter, decide_eq_true_eq]
    exact and_iff_left hne.symm

theorem maySee_banMember {pk : PublicKey} {reason : Option String}
    (h : host.maySee m channelId = true) (hne : pk ≠ m) :
    (host.withCommunity (host.community.banMember pk reason)).maySee m channelId = true := by
  refine maySee_of_given h id id (fun hstands => ?_) (fun ch hch => ⟨ch, hch, rfl⟩) id
    (keepsGiven_of_roleIds rfl (fun _ => Iff.rfl) rfl rfl rfl)
  simp only [Host.standing, Host.withCommunity, Community.banMember, getMember_updateMember,
    if_neg hne.symm] at hstands ⊢
  exact hstands

theorem maySee_removeBot {pk : PublicKey} {c : Community} (h : host.maySee m channelId = true)
    (hne : pk ≠ m) (hremove : (host.community.removeBot pk).removeMemberRow pk = .ok c) :
    (host.withCommunity c).maySee m channelId = true := by
  simp only [Community.removeMemberRow, bind_eq_ok, pure_eq_ok] at hremove
  obtain ⟨⟨⟩, -, rfl⟩ := hremove
  refine maySee_of_given h id id (fun hstands => ?_) (fun ch hch => ⟨ch, hch, rfl⟩) id
    (keepsGiven_of_roleIds rfl (fun _ => Iff.rfl) rfl rfl rfl)
  simp only [Host.standing, Host.withCommunity, Community.getMember, Community.removeBot,
    FiniteMap.lookup_erase_eq, if_neg hne.symm] at hstands ⊢
  exact hstands

theorem memberEffect_seen {request : MemberRequest} (h : host.maySee m channelId = true)
    (hleaves : request.LeavesSight m)
    (heffect : MemberEffect host member isOwner moment request host') :
    host'.maySee m channelId = true := by
  by_cases hstays : request.removes = false
  · exact memberEffect_keepsSight hstays heffect m channelId h
  · cases heffect with
    | refused => exact h
    | kickMember => exact maySee_removeMember h hleaves
    | banMember => exact maySee_banMember h hleaves
    | removeBotRow =>
      exact keepsSight_members ⟨rfl, rfl, fun _ => rfl, rfl, rfl, rfl⟩ (fun _ => id) m channelId h
    | removeBot _ _ hremove => exact maySee_removeBot h hleaves hremove
    | _ => exact absurd rfl hstays

theorem channelEffect_seen {request : ChannelRequest} (hbounded : host.db.IdsBounded)
    (h : host.maySee m channelId = true) (hleaves : request.LeavesSight host m channelId)
    (heffect : ChannelEffect host member isOwner request host') :
    host'.maySee m channelId = true := by
  cases heffect with
  | refused => exact h
  | createChannel _ _ hroom =>
    exact keepsSight_insertChannel (hbounded.next_notMem hroom) m channelId h
  | updateChannel => exact maySee_patchChannel h hleaves
  | deleteChannel => exact maySee_softDeleteChannel h hleaves
  | deleteCategory => exact maySee_deleteCategory h hleaves
  | setChannelOverride => exact maySee_setChannelOverride h hleaves
  | setCategoryOverride => exact maySee_setCategoryOverride h hleaves
  | _ =>
    exact keepsSight_members ⟨rfl, rfl, fun _ => rfl, rfl, rfl, rfl⟩ (fun _ => id) m channelId h

theorem roleEffect_seen {request : RoleRequest} (hkept : host.community.RolesKept)
    (h : host.maySee m channelId = true) (hleaves : request.LeavesSight host m channelId)
    (heffect : RoleEffect host member isOwner request host') : host'.maySee m channelId = true := by
  cases heffect with
  | refused => exact h
  | createRole => exact keepsSight_createRole m channelId h
  | updateRole => exact maySee_updateRole h hkept hleaves
  | deleteRole _ _ hdelete => exact maySee_deleteRole h hkept hleaves hdelete
  | assignRole _ _ hassign => exact maySee_assignRole h hleaves hassign
  | removeRole => exact maySee_unassignRole h hleaves

theorem refused_keepsSight {done : Host × Checked Answer} (h : Accounted host done)
    (hrefused : ¬∃ a, done.2 = .ok a) : KeepsSight host done.1 :=
  h.resolve_right fun haccepts => hrefused (haccepts.imp fun _ => And.left)

theorem mem_members_of_apply {ls trial : LogState} {event : Event}
    (h : ls.apply K event = .ok trial) (hremoved : event.core.payload ≠ .memberRemoved m)
    (hbanned : event.core.payload ≠ .memberBanned m) (hm : m ∈ ls.members) :
    m ∈ trial.members := by
  obtain ⟨key, mid, -, heffect, rfl⟩ := apply_cases h
  show m ∈ mid.members
  cases heffect with
  | memberRemoved pk hp =>
    have hne : m ≠ pk := by
      rintro rfl
      exact hremoved hp
    exact Finset.mem_erase.mpr ⟨hne, hm⟩
  | memberBanned pk hp =>
    have hne : m ≠ pk := by
      rintro rfl
      exact hbanned hp
    exact Finset.mem_erase.mpr ⟨hne, hm⟩
  | memberApproved => exact Finset.mem_insert_of_mem hm
  | memberJoined =>
    dsimp only [LogState.joinMember]
    split_ifs
    · exact hm
    · exact Finset.mem_insert_of_mem hm
  | _ => exact hm

theorem maySee_logState {ls trial : LogState} (h : host.maySee m channelId = true)
    (hls : host.server.logState = some ls) (hmember : m ∈ ls.members → m ∈ trial.members) :
    Host.maySee { host with server := { host.server with logState := some trial } } m channelId =
      true := by
  obtain ⟨hgate, hrest⟩ := maySee_iff.mp h
  refine maySee_iff.mpr ⟨?_, hrest⟩
  simp only [Host.contentBlockReason, hls] at hgate ⊢
  split_ifs at hgate with hin
  exact if_pos (hmember hin)

theorem submitEvent_seen {event : Event} (h : host.maySee m channelId = true)
    (hremoved : event.core.payload ≠ .memberRemoved m)
    (hbanned : event.core.payload ≠ .memberBanned m) :
    (host.submitEvent K moment event).1.maySee m channelId = true := by
  unfold Host.submitEvent
  split
  · exact h
  · next server orphans hok =>
    simp only [ServerState.submitEvent, bind_eq_ok, context_eq_ok, prefixed_eq_ok, pure_eq_ok,
      Prod.mk.injEq] at hok
    obtain ⟨ls, hls, -, -, -, -, trial, happly, -, -, ⟨db, orphans⟩, hingest, rfl, rfl⟩ := hok
    have hmember := mem_members_of_apply happly hremoved hbanned
    rcases Db.catalogue_ingest hingest with ⟨p, row, hp, -, hfree, -, htable⟩ | ⟨hother, htable⟩
    · have hadded := @keepsSight_channels host db [row] p.channelId .empty
        (congrArg Prod.fst htable) (channelRow_eq_none.mp hfree)
      have hdeclared : host.declareChannel event =
          host.withCommunity (host.community.updateChannelInfo p.channelId fun _ => .empty) := by
        simp only [Host.declareChannel, hp]
      rw [hdeclared]
      exact maySee_logState (hadded m channelId h) hls hmember
    · have hdeclared : host.declareChannel event = host := by
        unfold Host.declareChannel
        split
        · next p hp => exact absurd hp (hother p)
        · rfl
      rw [hdeclared]
      exact maySee_logState (keepsSight_withDb htable m channelId h) hls hmember

theorem submitEvent_accounted {event : Event} :
    Accounted host (host.submitEvent K moment event) := by
  by_cases hkept : (∀ pk, event.core.payload ≠ .memberRemoved pk) ∧
      ∀ pk, event.core.payload ≠ .memberBanned pk
  · exact .inl fun m channelId h => submitEvent_seen h (hkept.1 m) (hkept.2 m)
  · unfold Host.submitEvent
    split
    · exact accounted_refused
    · next server orphans hok =>
      simp only [ServerState.submitEvent, bind_eq_ok, pure_eq_ok, Prod.mk.injEq] at hok
      obtain ⟨ls, -, -, -, -, -, trial, -, -, -, x, -, rfl, -⟩ := hok
      rw [not_and_or] at hkept
      push Not at hkept
      rcases hkept with ⟨pk, hp⟩ | ⟨pk, hp⟩
      · refine .inr ⟨_, rfl, toAll (.membershipChanged pk), ?_, rfl⟩
        simp [Host.announceLog, hp]
      · refine .inr ⟨_, rfl, toAll (.membershipChanged pk), ?_, rfl⟩
        simp [Host.announceLog, hp]

/-- A server is claimed when nobody owns it and it has no members. -/
def Host.ClaimedFresh (host : Host) (member : PublicKey) (credentials : Credentials) : Prop :=
  host.TakesClaim member credentials → host.owner = none ∧ host.community.members.keys = ∅

instance {credentials : Credentials} : Decidable (host.ClaimedFresh member credentials) := by
  unfold Host.ClaimedFresh Host.TakesClaim
  split <;> infer_instance

theorem keepsSight_of_no_members (h : host.community.members.keys = ∅) :
    KeepsSight host host' := by
  intro m channelId hsees
  have hstands := (maySee_iff.mp hsees).2.1
  have hnone : host.community.getMember m = none := by
    rw [Community.getMember, Finmap.lookup_eq_none, ← Finmap.mem_keys, h]
    exact Finset.notMem_empty m
  simp [Host.standing, hnone] at hstands

theorem getMemberRoleIds_assignRole {c c' : Community} {roleId : ℕ} (hne : m ≠ member)
    (h : c.assignRole member roleId = .ok c') :
    c'.getMemberRoleIds m = c.getMemberRoleIds m := by
  simp only [Community.assignRole, bind_eq_ok, pure_eq_ok] at h
  obtain ⟨⟨⟩, -, rfl⟩ := h
  simp only [Community.getMemberRoleIds]
  split_ifs
  · rfl
  · rw [List.filter_append, List.filter_singleton]
    simp [hne.symm]

/-- Who registers had no row, and what is given to it is given to nobody else. -/
theorem keepsSight_register {name : String} {now : ℕ}
    (h : host.register member name now = .ok host') : KeepsSight host host' := by
  simp only [Host.register, bind_eq_ok] at h
  obtain ⟨registered, hregister, h⟩ := h
  have hstanding : ∀ m, host.standing m = true →
      (host.withCommunity registered).standing m = true :=
    fun m => standing_registerMember hregister
  intro m channelId hsees
  have hne : m ≠ member := by
    rintro rfl
    have hstands := (maySee_iff.mp hsees).2.1
    simp only [Community.registerMember, bind_eq_ok, ensure_eq_ok] at hregister
    obtain ⟨⟨⟩, hnone, -⟩ := hregister
    simp [Host.standing, hnone] at hstands
  have hregistered : (host.withCommunity registered).maySee m channelId = true := by
    refine keepsSight_members ?_ hstanding m channelId hsees
    simp only [Community.registerMember, bind_eq_ok, pure_eq_ok] at hregister
    obtain ⟨⟨⟩, -, rfl⟩ := hregister
    exact ⟨rfl, rfl, fun _ => rfl, rfl, rfl, rfl⟩
  split at h
  · obtain ⟨community, hassign, rfl⟩ := map_eq_ok.mp h
    have hroleIds := getMemberRoleIds_assignRole hne hassign
    simp only [Community.assignRole, bind_eq_ok, pure_eq_ok] at hassign
    obtain ⟨⟨⟩, -, rfl⟩ := hassign
    exact maySee_of_same hregistered rfl rfl id rfl id rfl hroleIds (fun _ => rfl) fun _ => rfl
  · obtain rfl := pure_eq_ok.mp h
    exact hregistered

theorem handshake_keeps {displayName : String} {credentials : Credentials} {genesis : Genesis}
    (hfresh : host.ClaimedFresh member credentials) :
    let host' := (host.handshake K member moment displayName credentials genesis).1
    KeepsSight host host' ∧ (host'.owner = host.owner ∨ host.owner = none) := by
  dsimp only
  unfold Host.handshake
  cases hmember : host.community.getMember member with
  | some row => exact ⟨.refl, .inl rfl⟩
  | none =>
    refine Host.commit_effect (P := fun host' =>
      KeepsSight host host' ∧ (host'.owner = host.owner ∨ host.owner = none))
      ⟨.refl, .inl rfl⟩ fun host' h => ?_
    obtain ⟨inviteCode, setupToken⟩ := credentials
    unfold Host.authenticateNewMember at h
    cases setupToken with
    | some provided =>
      simp only [bind_eq_ok, context_eq_ok, ensure_eq_ok] at h
      obtain ⟨token, htoken, ⟨⟩, rfl, -⟩ := h
      obtain ⟨howner, hempty⟩ := hfresh ⟨hmember, htoken⟩
      exact ⟨keepsSight_of_no_members hempty, .inr howner⟩
    | none =>
      cases inviteCode with
      | some code =>
        simp only [bind_eq_ok, prefixed_eq_ok, Community.useInvite, pure_eq_ok] at h
        obtain ⟨community, ⟨invite, -, rfl⟩, hregister⟩ := h
        refine ⟨KeepsSight.trans ?_ (keepsSight_register hregister),
          .inl (register_claim hregister).owner⟩
        exact keepsSight_members ⟨rfl, rfl, fun _ => rfl, rfl, rfl, rfl⟩ fun _ => id
      | none =>
        simp only [bind_eq_ok, ensure_eq_ok] at h
        obtain ⟨⟨⟩, hempty, -⟩ := h
        obtain ⟨howner, -⟩ := hfresh ⟨hmember, hempty⟩
        exact ⟨keepsSight_of_no_members hempty, .inr howner⟩

/-- What is never announced does not happen: a category is deleted when no channel is in it, no
data of a member is due to be deleted, and the server is claimed when it is new. -/
def Host.Orderly (host : Host) (e : Moment × HostOp) : Prop :=
  match e.2 with
  | .request _ _ (.channel (.deleteCategory categoryId)) => host.CategoryEmpty categoryId
  | .handshake member _ credentials _ => host.ClaimedFresh member credentials
  | .executePendingDeletions => host.db.expiredDeletionRequests e.1.now = []
  | _ => True

instance (e : Moment × HostOp) : Decidable (host.Orderly e) := by
  unfold Host.Orderly
  split <;> infer_instance

theorem request_accounted {request : Request} (hbounded : host.db.IdsBounded)
    (h : host.Orderly (moment, .request member isOwner request)) :
    Accounted host (host.perform K moment (.request member isOwner request)) := by
  have hdispatch : Accounted host (host.dispatch K member isOwner moment request) := by
    by_cases hsubmit : ∃ event, request = .submitEvent event
    · obtain ⟨event, rfl⟩ := hsubmit
      exact submitEvent_accounted
    · refine dispatch_accounted hbounded (fun id hid => ?_) (not_exists.mp hsubmit)
      subst hid
      exact h
  rw [Host.perform, Host.handleRequest]
  split_ifs
  · split
    · exact accounted_refused
    · exact hdispatch
  · exact hdispatch

/-- The operations of no connection announce nothing, and take nothing out of sight. -/
theorem perform_keeps {op : HostOp} (h : host.Orderly (moment, op))
    (hop : ∀ member isOwner request, op ≠ .request member isOwner request) :
    KeepsSight host (host.perform K moment op).1 := by
  cases op with
  | request => exact absurd rfl (hop _ _ _)
  | handshake => exact (handshake_keeps h).1
  | executePendingDeletions =>
    have hnone : host.db.expiredDeletionRequests moment.now = [] := h
    rw [Host.perform, hnone]
    exact .refl
  | _ => exact (sameSight_perform rfl).keeps

theorem perform_owner {op : HostOp} (h : host.Orderly (moment, op)) :
    (host.perform K moment op).1.owner = host.owner ∨ host.owner = none := by
  cases op with
  | handshake => exact (handshake_keeps h).2
  | _ => exact .inl (perform_claim (by simp)).owner

/-! ## Operations that leave a channel in sight -/

/-- An operation takes nothing away that the member sees the channel by. A claim is one of a server
that has its log, and that somebody else owns if anybody. -/
def HostOp.LeavesSight (host : Host) (moment : Moment) (m : PublicKey) (channelId : ℕ) :
    HostOp → Prop
  | .request _ _ (.channel r) => r.LeavesSight host m channelId
  | .request _ _ (.role r) => r.LeavesSight host m channelId
  | .request _ _ (.member r) => r.LeavesSight m
  | .request _ _ (.submitEvent event) =>
    event.core.payload ≠ .memberRemoved m ∧ event.core.payload ≠ .memberBanned m
  | .handshake pk _ credentials _ =>
    host.TakesClaim pk credentials → host.db.genesis ≠ none ∧ host.owner ≠ some m
  | .executePendingDeletions =>
    ∀ r ∈ host.db.expiredDeletionRequests moment.now, r.memberKey ≠ m
  | _ => True

theorem dispatch_seen {request : Request} (hbounded : host.db.IdsBounded)
    (hkept : host.community.RolesKept) (h : host.maySee m channelId = true)
    (hleaves : (∃ a, (host.dispatch K member isOwner moment request).2 = .ok a) →
      HostOp.LeavesSight host moment m channelId (.request member isOwner request)) :
    (host.dispatch K member isOwner moment request).1.maySee m channelId = true := by
  by_cases haccepts : ∃ a, (host.dispatch K member isOwner moment request).2 = .ok a
  · have hleaves := hleaves haccepts
    cases request with
    | channel r => exact channelEffect_seen hbounded h hleaves (channelRequest_effect r)
    | role r => exact roleEffect_seen hkept h hleaves (roleRequest_effect r)
    | member r => exact memberEffect_seen h hleaves (memberRequest_effect r)
    | submitEvent event => exact submitEvent_seen h hleaves.1 hleaves.2
    | message r => exact messageRequest_keepsSight hbounded m channelId h
    | _ => exact (sameSight_frame.dispatch rfl rfl).keeps m channelId h
  · by_cases hdeletes : ∃ id, request = .channel (.deleteCategory id)
    · obtain ⟨id, rfl⟩ := hdeletes
      have hsame : (host.dispatch K member isOwner moment (.channel (.deleteCategory id))).1 =
          host := Host.commit_rejected (fun _ _ => ⟨_, rfl⟩) (not_exists.mp haccepts)
      rw [hsame]
      exact h
    · by_cases hsubmits : ∃ event, request = .submitEvent event
      · obtain ⟨event, rfl⟩ := hsubmits
        exact refused_keepsSight submitEvent_accounted haccepts m channelId h
      · exact refused_keepsSight (dispatch_accounted hbounded
          (fun id heq => absurd ⟨id, heq⟩ hdeletes) (not_exists.mp hsubmits)) haccepts m channelId h

theorem claim_seen {genesis : Genesis} (h : host.maySee m channelId = true)
    (hfounded : host.db.genesis ≠ none) (howner : host.owner ≠ some m) :
    (host.claim K member genesis).maySee m channelId = true := by
  unfold Host.claim
  split
  · exact maySee_of_given h id (fun hown => absurd hown howner) id (fun ch hch => ⟨ch, hch, rfl⟩) id
      (keepsGiven_of_same rfl rfl (fun r _ => .refl _) fun r _ => .refl _)
  · next hnone => exact absurd hnone hfounded

theorem handshake_seen {displayName : String} {credentials : Credentials} {genesis : Genesis}
    (h : host.maySee m channelId = true)
    (hleaves : host.TakesClaim member credentials →
      host.db.genesis ≠ none ∧ host.owner ≠ some m) :
    (host.handshake K member moment displayName credentials genesis).1.maySee m channelId =
      true := by
  unfold Host.handshake
  cases hmember : host.community.getMember member with
  | some row => exact h
  | none =>
    refine Host.commit_effect (P := fun host' => host'.maySee m channelId = true) h
      fun host' hnew => ?_
    obtain ⟨inviteCode, setupToken⟩ := credentials
    unfold Host.authenticateNewMember at hnew
    cases setupToken with
    | some provided =>
      simp only [bind_eq_ok, context_eq_ok, ensure_eq_ok, pure_eq_ok] at hnew
      obtain ⟨token, htoken, ⟨⟩, rfl, registered, hregister, rfl⟩ := hnew
      obtain ⟨hfounded, howner⟩ := hleaves ⟨hmember, htoken⟩
      have hclaim := register_claim hregister
      refine claim_seen (keepsSight_register hregister m channelId h) ?_ ?_
      · rw [hclaim.genesis]
        exact hfounded
      · rw [hclaim.owner]
        exact howner
    | none =>
      cases inviteCode with
      | some code =>
        simp only [bind_eq_ok, prefixed_eq_ok, Community.useInvite, pure_eq_ok] at hnew
        obtain ⟨community, ⟨invite, -, rfl⟩, hregister⟩ := hnew
        refine keepsSight_register hregister m channelId ?_
        exact keepsSight_members ⟨rfl, rfl, fun _ => rfl, rfl, rfl, rfl⟩ (fun _ => id) m channelId h
      | none =>
        simp only [bind_eq_ok, ensure_eq_ok] at hnew
        obtain ⟨⟨⟩, hempty, -⟩ := hnew
        exact keepsSight_of_no_members hempty m channelId h

theorem handshake_unchanged {displayName : String} {credentials : Credentials} {genesis : Genesis}
    (h : ∀ a, (host.handshake K member moment displayName credentials genesis).2 ≠ .ok a) :
    (host.handshake K member moment displayName credentials genesis).1 = host := by
  unfold Host.handshake at h ⊢
  cases hmember : host.community.getMember member with
  | some row => rfl
  | none =>
    rw [hmember] at h
    exact Host.commit_rejected (fun _ _ => ⟨_, rfl⟩) h

theorem executeDeletions_seen {reqs : List DeletionRequest} (h : host.maySee m channelId = true)
    (hleaves : ∀ r ∈ reqs, r.memberKey ≠ m) :
    (host.executeDeletions reqs).maySee m channelId = true := by
  induction reqs generalizing host with
  | nil => exact h
  | cons req reqs ih =>
    unfold Host.executeDeletions
    split
    · next db hexecute =>
      refine ih ?_ fun r hr => hleaves r (List.mem_cons_of_mem _ hr)
      refine maySee_removeMember ?_ (hleaves req List.mem_cons_self)
      exact keepsSight_withDb (Db.catalogue_executeDeletion hexecute) m channelId h
    · exact h

theorem perform_seen {e : Moment × HostOp} (hbounded : host.db.IdsBounded)
    (hkept : host.community.RolesKept) (h : host.maySee m channelId = true)
    (hleaves : host.Accepts K e → e.2.LeavesSight host e.1 m channelId) :
    (host.perform K e.1 e.2).1.maySee m channelId = true := by
  obtain ⟨moment, op⟩ := e
  cases op with
  | request member isOwner request =>
    have hdispatch := @dispatch_seen K host moment member m isOwner channelId request hbounded
      hkept h
    simp only [Host.Accepts, Host.perform, Host.handleRequest] at hleaves ⊢
    split_ifs at hleaves ⊢
    · split at hleaves
      · exact h
      · exact hdispatch hleaves
    · exact hdispatch hleaves
  | handshake member displayName credentials genesis =>
    by_cases haccepts : host.Accepts K (moment, .handshake member displayName credentials genesis)
    · exact handshake_seen h (hleaves haccepts)
    · have hrefused : ∀ a, (host.handshake K member moment displayName credentials genesis).2 ≠
          .ok a := not_exists.mp haccepts
      rw [Host.perform, handshake_unchanged hrefused]
      exact h
  | executePendingDeletions => exact executeDeletions_seen h (hleaves ⟨_, rfl⟩)
  | _ => exact (sameSight_perform rfl).keeps m channelId h

end Server
