import Farder.Server.RoleRows

/-! # Where permissions are resolved

With no override, or in a channel. What a member is given there is said role by role: the
overrides of a place are those of the roles that the member is assigned. -/
namespace Server

open EventLog Guarded Permissions

/-- Where permissions are resolved: with no override, or in a channel. -/
inductive Place where
  | server
  | channel (channelId : ℕ)
  deriving DecidableEq

namespace Host

variable (host : Host) (member : PublicKey)

def categoryAt (place : Place) : Option ℕ :=
  match place with
  | .server => none
  | .channel channelId =>
    (host.db.getChannel channelId).bind fun _ => (host.community.channelInfo channelId).categoryId

/-- What the category of a place says about a role. -/
def categoryOverride (place : Place) (roleId : ℕ) : Option Override :=
  (host.categoryAt place).bind fun categoryId =>
    host.community.categoryOverrides.lookup (categoryId, roleId)

def channelOverride (place : Place) (roleId : ℕ) : Option Override :=
  match place with
  | .server => none
  | .channel channelId => host.community.channelOverrides.lookup (channelId, roleId)

def contextOf (isOwner : Bool) (place : Place) : ResolutionContext :=
  match place with
  | .server => host.serverContext member isOwner
  | .channel channelId => host.channelContext member isOwner channelId

def contextAt (place : Place) : ResolutionContext :=
  match place with
  | .server => host.serverContext member (host.owner = some member)
  | .channel channelId => host.channelContext member (host.owner = some member) channelId

/-- The member has the permission with the number `i`. -/
def Holds (place : Place) (i : ℕ) : Prop :=
  (resolve (host.contextAt member place)).getLsbD i = true

end Host

instance {host : Host} {member : PublicKey} {place : Place} {i : ℕ} :
    Decidable (host.Holds member place i) :=
  inferInstanceAs (Decidable (_ = true))

variable {host : Host} {member : PublicKey} {isOwner : Bool} {place : Place} {i : ℕ}
  {c c' : Community}

open Host

/-! ## The context of a member -/

theorem contextAt_eq :
    host.contextAt member place = host.contextOf member (host.owner = some member) place := by
  cases place <;> rfl

@[simp] theorem isOwner_of : (host.contextOf member isOwner place).isOwner = isOwner := by
  cases place <;> rfl

theorem categoryOverrides_of : (host.contextOf member isOwner place).categoryOverrides =
    (host.community.getMemberRoleIds member).filterMap (host.categoryOverride place) := by
  have hcategory : (host.contextOf member isOwner place).categoryOverrides =
      ((host.categoryAt place).map fun id => host.community.getCategoryOverridesForRoles id
        (host.community.getMemberRoleIds member)).getD [] := by
    cases place <;> rfl
  rw [hcategory]
  cases hid : host.categoryAt place with
  | none => simp [categoryOverride, hid]
  | some id => exact List.filterMap_congr fun r _ => by simp [categoryOverride, hid]

theorem channelOverrides_of : (host.contextOf member isOwner place).channelOverrides =
    (host.community.getMemberRoleIds member).filterMap (host.channelOverride place) := by
  cases place with
  | server => simp [contextOf, serverContext, channelOverride]
  | channel channelId => rfl

theorem rolePermissions_bit : (∃ w ∈ c.getMemberRolePermissions member, w.getLsbD i = true) ↔
    ∃ r ∈ c.getMemberRoleIds member, ∃ role,
      c.getRole r = some role ∧ role.permissions.getLsbD i = true := by
  simp only [Community.getMemberRolePermissions, Community.memberRoleRows, List.mem_map,
    List.mem_filterMap, exists_exists_and_eq_and]
  constructor
  · rintro ⟨role, ⟨r, hr, hrole⟩, hbit⟩
    exact ⟨r, hr, role, hrole, hbit⟩
  · rintro ⟨r, hr, role, hrole, hbit⟩
    exact ⟨role, ⟨r, hr, hrole⟩, hbit⟩

theorem base_of : (host.contextOf member isOwner place).base.getLsbD i = true ↔
    host.community.everyonePermissions.getLsbD i = true ∨
      ∃ r ∈ host.community.getMemberRoleIds member, ∃ role,
        host.community.getRole r = some role ∧ role.permissions.getLsbD i = true := by
  have hbase : (host.contextOf member isOwner place).base.getLsbD i = true ↔
      host.community.everyonePermissions.getLsbD i = true ∨
        ∃ w ∈ host.community.getMemberRolePermissions member, w.getLsbD i = true := by
    cases place <;> exact base_bit_iff
  rw [hbase, rolePermissions_bit]

theorem categoryOverrides_at : (host.contextAt member place).categoryOverrides =
    (host.community.getMemberRoleIds member).filterMap (host.categoryOverride place) := by
  rw [contextAt_eq, categoryOverrides_of]

theorem channelOverrides_at : (host.contextAt member place).channelOverrides =
    (host.community.getMemberRoleIds member).filterMap (host.channelOverride place) := by
  rw [contextAt_eq, channelOverrides_of]

theorem base_at : (host.contextAt member place).base.getLsbD i = true ↔
    host.community.everyonePermissions.getLsbD i = true ∨
      ∃ r ∈ host.community.getMemberRoleIds member, ∃ role,
        host.community.getRole r = some role ∧ role.permissions.getLsbD i = true := by
  rw [contextAt_eq, base_of]

theorem isOwner_at :
    (host.contextAt member place).isOwner = true ↔ host.owner = some member := by
  rw [contextAt_eq, isOwner_of, decide_eq_true_iff]

/-! ## The role of all members -/

theorem everyonePermissions_bit :
    c.everyonePermissions.getLsbD i = true ↔
      ∃ x, c.everyone = some x ∧ x.2.permissions.getLsbD i = true := by
  unfold Community.everyonePermissions
  cases c.everyone <;> simp

theorem everyone_eq_some (hkept : c.RolesKept) {x : ℕ × RoleRow}
    (hx : x ∈ c.roles) (hname : x.2.name = everyoneRole) (hbuiltin : x.2.builtin = true) :
    c.everyone = some x := by
  cases heveryone : c.everyone with
  | none =>
    have hnone := Table.find?_eq_none.mp heveryone x hx
    simp [hname, hbuiltin] at hnone
  | some y =>
    obtain ⟨hy, hfound⟩ := Table.find?_mem heveryone
    simp only [decide_eq_true_eq] at hfound
    rw [Table.eq_of_key_eq hy hx (hkept.builtin y hy x hx hfound.2 hbuiltin)]

theorem mem_roleIds {r : ℕ} : r ∈ c.getMemberRoleIds member ↔ (member, r) ∈ c.memberRoles := by
  simp [Community.getMemberRoleIds]

theorem mem_roleIds_assignRole {pk : PublicKey} {id r : ℕ}
    (h : c.assignRole pk id = .ok c') : r ∈ c'.getMemberRoleIds member ↔
      r ∈ c.getMemberRoleIds member ∨ pk = member ∧ r = id := by
  simp only [Community.assignRole, bind_eq_ok, pure_eq_ok] at h
  obtain ⟨⟨⟩, -, rfl⟩ := h
  simp only [mem_roleIds]
  split_ifs with hthere
  · refine ⟨.inl, fun hr => hr.elim (fun hr => hr) ?_⟩
    rintro ⟨rfl, rfl⟩
    exact hthere
  · simp only [List.mem_append, List.mem_singleton, Prod.mk.injEq, eq_comm (a := member)]

end Server
