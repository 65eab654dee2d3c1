import Farder.Server.Answer

/-! # Requests about channels, categories and roles

Each handler checks a permission, writes, and reads back the row that it tells everybody about.
What the requests of a family can do is summed up once, in the `Effect` relation of the family. -/
namespace Server

open EventLog Guarded Permissions

structure ChannelPatch where
  name : Option String
  topic : Option String
  nsfw : Option Bool
  slowModeSecs : Option ℕ
  retentionSecs : Option (Option ℕ)
  categoryId : Option (Option ℕ)
  position : Option ℕ

def ChannelPatch.applyRow (patch : ChannelPatch) (ch : ChannelRow) : ChannelRow :=
  { ch with
    name := patch.name.getD ch.name
    position := patch.position.getD ch.position
    retentionSecs := patch.retentionSecs.getD ch.retentionSecs }

def ChannelPatch.applyInfo (patch : ChannelPatch) (info : ChannelInfo) : ChannelInfo :=
  { info with
    topic := patch.topic.or info.topic
    nsfw := patch.nsfw.getD info.nsfw
    slowModeSecs := patch.slowModeSecs.getD info.slowModeSecs
    categoryId := patch.categoryId.getD info.categoryId }

structure RolePatch where
  name : Option String
  permissions : Option Bits
  color : Option String
  position : Option ℕ
  hoist : Option Bool

inductive ChannelRequest where
  | createChannel (name : String) (channelType : ChannelType) (categoryId position : Option ℕ)
  | updateChannel (channelId : ℕ) (patch : ChannelPatch)
  | deleteChannel (channelId : ℕ)
  | createCategory (name : String) (position : Option ℕ)
  | updateCategory (categoryId : ℕ) (name : Option String) (position : Option ℕ)
  | deleteCategory (categoryId : ℕ)
  | setChannelOverride (channelId roleId : ℕ) (allow deny : Bits)
  | setCategoryOverride (categoryId roleId : ℕ) (allow deny : Bits)

inductive RoleRequest where
  | createRole (name : String) (permissions : Bits) (color : Option String)
      (position : Option ℕ) (hoist : Option Bool)
  | updateRole (roleId : ℕ) (patch : RolePatch)
  | deleteRole (roleId : ℕ)
  | assignRole (memberKey : PublicKey) (roleId : ℕ)
  | removeRole (memberKey : PublicKey) (roleId : ℕ)

def unwrapNone : String := "called Option::unwrap() on a None value"

namespace Db

variable (db : Db)

def updateChannel (channelId : ℕ) (patch : ChannelPatch) : Db :=
  { db with channels := db.channels.map fun ch =>
      if ch.id = channelId then patch.applyRow ch else ch }

def softDeleteChannel (channelId : ℕ) : Db :=
  { db with channels := db.channels.map fun ch =>
      if ch.id = channelId then { ch with deleted := true } else ch }

end Db

namespace Host

variable (host : Host) (member : PublicKey) (isOwner : Bool)

def requireCategory (categoryId : Option ℕ) : Checked Unit :=
  ensureIfSome categoryId (fun id => host.community.categories.get? id ≠ none) foreignKeyFailed

def insertChannel (name : String) (channelType : ChannelType) (position : ℕ)
    (info : ChannelInfo) : Host :=
  { host with
    server := { host.server with db := host.db.createChannel name channelType position }
    community := host.community.updateChannelInfo host.db.nextChannel fun _ => info }

def patchChannel (channelId : ℕ) (patch : ChannelPatch) : Host :=
  { host with
    server := { host.server with db := host.db.updateChannel channelId patch }
    community := host.community.updateChannelInfo channelId patch.applyInfo }

def createChannel (name : String) (channelType : ChannelType) (categoryId position : Option ℕ) :
    Host × Checked Answer :=
  host.commit
    (do
      host.requireBasePerm member isOwner manageChannel "MANAGE_CHANNEL"
      host.requireCategory categoryId
      host.db.requireRowId
      return host.insertChannel name channelType (position.getD 0)
        { ChannelInfo.empty with categoryId })
    fun host' => do
      let channel ← expect (host'.db.getChannel host.db.nextChannel) unwrapNone
      return .ok [toAll (.channelCreated (host'.channelView channel)),
        audit member none "channel_created"]

/-- A channel that does not exist is not found missing before the write. -/
def updateChannel (channelId : ℕ) (patch : ChannelPatch) : Host × Checked Answer :=
  host.commit
    (do
      host.requirePerm member isOwner channelId manageChannel "MANAGE_CHANNEL"
      host.requireCategory
        (if host.db.channelRowExists channelId then patch.categoryId.getD none else none)
      return host.patchChannel channelId patch)
    fun host' => do
      let prevName := ((host.db.getChannel channelId).map ChannelRow.name).getD ""
      let channel ← expect (host'.db.getChannel channelId) unwrapNone
      let renamed := patch.name ≠ none ∧ patch.name ≠ some prevName
      return .ok (toAll (.channelUpdated (host'.channelView channel)) ::
        if renamed then [audit member none "channel_renamed"] else [])

def deleteChannel (channelId : ℕ) : Host × Checked Answer :=
  host.commit
    (do
      host.requirePerm member isOwner channelId manageChannel "MANAGE_CHANNEL"
      return host.withDb (host.db.softDeleteChannel channelId))
    fun _ => return .ok [toAll (.channelDeleted channelId), audit member none "channel_deleted"]

/-! ## Categories and overrides -/

def createCategory (name : String) (position : Option ℕ) : Host × Checked Answer :=
  host.commit
    (do
      host.requireBasePerm member isOwner manageServer "MANAGE_SERVER"
      return host.withCommunity (host.community.createCategory name (position.getD 0)))
    fun host' => do
      let categoryId := host.community.categories.next
      let category ← expect (host'.community.getCategory categoryId) unwrapNone
      return .ok [toAll (.categoryCreated categoryId category)]

def updateCategory (categoryId : ℕ) (name : Option String) (position : Option ℕ) :
    Host × Checked Answer :=
  host.commit
    (do
      host.requireBasePerm member isOwner manageServer "MANAGE_SERVER"
      return host.withCommunity (host.community.updateCategory categoryId name position))
    fun host' => do
      let category ← expect (host'.community.getCategory categoryId) unwrapNone
      return .ok [toAll (.categoryUpdated categoryId category)]

def deleteCategory (categoryId : ℕ) : Host × Checked Answer :=
  host.commit
    (do
      host.requireBasePerm member isOwner manageServer "MANAGE_SERVER"
      return host.withCommunity (host.community.deleteCategory categoryId))
    fun _ => return .ok [toAll (.categoryDeleted categoryId)]

def setChannelOverride (channelId roleId : ℕ) (allow deny : Bits) : Host × Checked Answer :=
  host.commit
    (do
      host.requirePerm member isOwner channelId manageChannel "MANAGE_CHANNEL"
      return host.withCommunity (host.community.setChannelOverride channelId roleId allow deny))
    fun _ => return .ok [toAll .permissionsChanged, audit member none "channel_overrides_changed"]

def setCategoryOverride (categoryId roleId : ℕ) (allow deny : Bits) : Host × Checked Answer :=
  host.commit
    (do
      host.requireBasePerm member isOwner manageServer "MANAGE_SERVER"
      return host.withCommunity (host.community.setCategoryOverride categoryId roleId allow deny))
    fun _ => return .ok [toAll .permissionsChanged]

def handleChannelRequest (request : ChannelRequest) : Host × Checked Answer :=
  match request with
  | .createChannel name channelType categoryId position =>
    host.createChannel member isOwner name channelType categoryId position
  | .updateChannel channelId patch => host.updateChannel member isOwner channelId patch
  | .deleteChannel channelId => host.deleteChannel member isOwner channelId
  | .createCategory name position => host.createCategory member isOwner name position
  | .updateCategory categoryId name position =>
    host.updateCategory member isOwner categoryId name position
  | .deleteCategory categoryId => host.deleteCategory member isOwner categoryId
  | .setChannelOverride channelId roleId allow deny =>
    host.setChannelOverride member isOwner channelId roleId allow deny
  | .setCategoryOverride categoryId roleId allow deny =>
    host.setCategoryOverride member isOwner categoryId roleId allow deny

def requireRoleBelow (roleId : ℕ) : Checked RoleRow := do
  host.requireBasePerm member isOwner manageRoles "MANAGE_ROLES"
  let role ← context (host.community.getRole roleId) "role not found"
  host.requireRoleHierarchy member isOwner role.position
  return role

def createRole (name : String) (permissions : Bits) (color : Option String)
    (position : Option ℕ) (hoist : Option Bool) : Host × Checked Answer :=
  host.commit
    (do
      host.requireBasePerm member isOwner manageRoles "MANAGE_ROLES"
      host.requireRoleHierarchy member isOwner (position.getD 0)
      return host.withCommunity (host.community.createRole name permissions color
        (position.getD 0) false (hoist.getD false)))
    fun host' => do
      let roleId := host.community.roles.next
      let role ← expect (host'.community.getRole roleId) unwrapNone
      return .ok [toAll (.roleCreated roleId role), audit member none "role_created"]

def updateRole (roleId : ℕ) (patch : RolePatch) : Host × Checked Answer :=
  host.commit
    (do
      let _ ← host.requireRoleBelow member isOwner roleId
      forAll patch.position.toList (host.requireRoleHierarchy member isOwner)
      return host.withCommunity (host.community.updateRole roleId patch.name patch.permissions
        (patch.color.map some) patch.position patch.hoist))
    fun host' => do
      let prevPerms := (host.community.getRole roleId).map RoleRow.permissions
      let role ← expect (host'.community.getRole roleId) unwrapNone
      let changed := patch.permissions ≠ none ∧ patch.permissions ≠ prevPerms
      return .ok (toAll (.roleUpdated roleId role) ::
        if changed then [audit member none "role_perms_changed"] else [])

def deleteRole (roleId : ℕ) : Host × Checked Answer :=
  host.commit
    (do
      let _ ← host.requireRoleBelow member isOwner roleId
      host.withCommunity <$> host.community.deleteRole roleId)
    fun _ => return .ok [toAll (.roleDeleted roleId), audit member none "role_deleted"]

def assignRole (memberKey : PublicKey) (roleId : ℕ) : Host × Checked Answer :=
  host.commit
    (do
      let _ ← host.requireRoleBelow member isOwner roleId
      host.withCommunity <$> host.community.assignRole memberKey roleId)
    fun _ => return .ok [toAll .permissionsChanged, audit member (some memberKey) "role_assigned"]

def removeRole (memberKey : PublicKey) (roleId : ℕ) : Host × Checked Answer :=
  host.commit
    (do
      let _ ← host.requireRoleBelow member isOwner roleId
      return host.withCommunity (host.community.unassignRole memberKey roleId))
    fun _ => return .ok [toAll .permissionsChanged, audit member (some memberKey) "role_removed"]

def handleRoleRequest (request : RoleRequest) : Host × Checked Answer :=
  match request with
  | .createRole name permissions color position hoist =>
    host.createRole member isOwner name permissions color position hoist
  | .updateRole roleId patch => host.updateRole member isOwner roleId patch
  | .deleteRole roleId => host.deleteRole member isOwner roleId
  | .assignRole memberKey roleId => host.assignRole member isOwner memberKey roleId
  | .removeRole memberKey roleId => host.removeRole member isOwner memberKey roleId

end Host

variable {host : Host} {member : PublicKey} {isOwner : Bool}

theorem getRole_createRole {c : Community} {name : String} {permissions : Bits}
    {color : Option String} {position : ℕ} {builtin hoist : Bool} :
    (c.createRole name permissions color position builtin hoist).getRole c.roles.next ≠ none := by
  have hrow : (c.roles.insert ⟨name, permissions, color, position, builtin, hoist⟩).get?
      c.roles.next = some ⟨name, permissions, color, position, builtin, hoist⟩ :=
    Table.get?_eq_some.mpr (by simp)
  simp [Community.getRole, Community.createRole, hrow]

theorem getRole_updateRole {c : Community} {id : ℕ} {name : Option String}
    {permissions : Option Bits} {color : Option (Option String)} {position : Option ℕ}
    {hoist : Option Bool} :
    (c.updateRole id name permissions color position hoist).getRole id = none ↔
      c.getRole id = none := by
  simp only [Community.getRole, Community.updateRole, Table.modify, Table.get?_map, if_true]
  cases c.roles.get? id <;> simp

/-- What a request about channels does, and the permission it has asked for. -/
inductive ChannelEffect (host : Host) (member : PublicKey) (isOwner : Bool) :
    ChannelRequest → Host → Prop
  | refused (request : ChannelRequest) : ChannelEffect host member isOwner request host
  | createChannel {name : String} {channelType : ChannelType} {categoryId position : Option ℕ}
      (hperm : has (host.resolveBasePerms member isOwner) manageChannel = true)
      (hcategory : ∀ id ∈ categoryId, host.community.categories.get? id ≠ none)
      (hroom : host.db.HasRowId) :
      ChannelEffect host member isOwner (.createChannel name channelType categoryId position)
        (host.insertChannel name channelType (position.getD 0)
          { ChannelInfo.empty with categoryId })
  | updateChannel {channelId : ℕ} {patch : ChannelPatch}
      (hperm : has (host.resolveMemberPerms member isOwner channelId) manageChannel = true) :
      ChannelEffect host member isOwner (.updateChannel channelId patch)
        (host.patchChannel channelId patch)
  | deleteChannel {channelId : ℕ}
      (hperm : has (host.resolveMemberPerms member isOwner channelId) manageChannel = true) :
      ChannelEffect host member isOwner (.deleteChannel channelId)
        (host.withDb (host.db.softDeleteChannel channelId))
  | createCategory {name : String} {position : Option ℕ}
      (hperm : has (host.resolveBasePerms member isOwner) manageServer = true) :
      ChannelEffect host member isOwner (.createCategory name position)
        (host.withCommunity (host.community.createCategory name (position.getD 0)))
  | updateCategory {categoryId : ℕ} {name : Option String} {position : Option ℕ}
      (hperm : has (host.resolveBasePerms member isOwner) manageServer = true) :
      ChannelEffect host member isOwner (.updateCategory categoryId name position)
        (host.withCommunity (host.community.updateCategory categoryId name position))
  | deleteCategory {categoryId : ℕ}
      (hperm : has (host.resolveBasePerms member isOwner) manageServer = true) :
      ChannelEffect host member isOwner (.deleteCategory categoryId)
        (host.withCommunity (host.community.deleteCategory categoryId))
  | setChannelOverride {channelId roleId : ℕ} {allow deny : Bits}
      (hperm : has (host.resolveMemberPerms member isOwner channelId) manageChannel = true) :
      ChannelEffect host member isOwner (.setChannelOverride channelId roleId allow deny)
        (host.withCommunity (host.community.setChannelOverride channelId roleId allow deny))
  | setCategoryOverride {categoryId roleId : ℕ} {allow deny : Bits}
      (hperm : has (host.resolveBasePerms member isOwner) manageServer = true) :
      ChannelEffect host member isOwner (.setCategoryOverride categoryId roleId allow deny)
        (host.withCommunity (host.community.setCategoryOverride categoryId roleId allow deny))

/-- What a request about roles does, and what it has asked for. -/
inductive RoleEffect (host : Host) (member : PublicKey) (isOwner : Bool) :
    RoleRequest → Host → Prop
  | refused (request : RoleRequest) : RoleEffect host member isOwner request host
  | createRole {name : String} {permissions : Bits} {color : Option String}
      {position : Option ℕ} {hoist : Option Bool}
      (hperm : has (host.resolveBasePerms member isOwner) manageRoles = true) :
      RoleEffect host member isOwner (.createRole name permissions color position hoist)
        (host.withCommunity (host.community.createRole name permissions color
          (position.getD 0) false (hoist.getD false)))
  | updateRole {roleId : ℕ} {patch : RolePatch} (role : RoleRow)
      (hbelow : host.requireRoleBelow member isOwner roleId = .ok role) :
      RoleEffect host member isOwner (.updateRole roleId patch)
        (host.withCommunity (host.community.updateRole roleId patch.name patch.permissions
          (patch.color.map some) patch.position patch.hoist))
  | deleteRole {roleId : ℕ} {community : Community} (role : RoleRow)
      (hbelow : host.requireRoleBelow member isOwner roleId = .ok role)
      (hdelete : host.community.deleteRole roleId = .ok community) :
      RoleEffect host member isOwner (.deleteRole roleId) (host.withCommunity community)
  | assignRole {memberKey : PublicKey} {roleId : ℕ} {community : Community} (role : RoleRow)
      (hbelow : host.requireRoleBelow member isOwner roleId = .ok role)
      (hassign : host.community.assignRole memberKey roleId = .ok community) :
      RoleEffect host member isOwner (.assignRole memberKey roleId) (host.withCommunity community)
  | removeRole {memberKey : PublicKey} {roleId : ℕ} (role : RoleRow)
      (hbelow : host.requireRoleBelow member isOwner roleId = .ok role) :
      RoleEffect host member isOwner (.removeRole memberKey roleId)
        (host.withCommunity (host.community.unassignRole memberKey roleId))

@[simp] theorem requireBasePerm_eq_ok {perm : Bits} {permName : String} {u : Unit} :
    host.requireBasePerm member isOwner perm permName = .ok u ↔
      has (host.resolveBasePerms member isOwner) perm = true :=
  ensure_eq_ok

@[simp] theorem requirePerm_eq_ok {channelId : ℕ} {perm : Bits} {permName : String} {u : Unit} :
    host.requirePerm member isOwner channelId perm permName = .ok u ↔
      has (host.resolveMemberPerms member isOwner channelId) perm = true :=
  ensure_eq_ok

theorem requireRoleHierarchy_eq_ok {position : ℕ} {u : Unit} :
    host.requireRoleHierarchy member isOwner position = .ok u ↔
      (isOwner = true ∨ position < host.community.getHighestRolePosition member) :=
  ensure_eq_ok

/-- A request about an existing role needs `MANAGE_ROLES`, and the role must be below. -/
theorem requireRoleBelow_eq_ok {roleId : ℕ} {role : RoleRow} :
    host.requireRoleBelow member isOwner roleId = .ok role ↔
      has (host.resolveBasePerms member isOwner) manageRoles = true ∧
        host.community.getRole roleId = some role ∧
        (isOwner = true ∨ role.position < host.community.getHighestRolePosition member) := by
  simp only [Host.requireRoleBelow, bind_eq_ok, requireBasePerm_eq_ok, context_eq_ok,
    requireRoleHierarchy_eq_ok, pure_eq_ok]
  constructor
  · rintro ⟨⟨⟩, hperm, role', hrole, ⟨⟩, hbelow, rfl⟩
    exact ⟨hperm, hrole, hbelow⟩
  · rintro ⟨hperm, hrole, hbelow⟩
    exact ⟨(), hperm, role, hrole, (), hbelow, rfl⟩

theorem channelRequest_effect (request : ChannelRequest) :
    ChannelEffect host member isOwner request
      (host.handleChannelRequest member isOwner request).1 := by
  cases request with
  | createChannel name channelType categoryId position =>
    refine Host.commit_effect (.refused _) fun host' h => ?_
    simp only [bind_eq_ok, requireBasePerm_eq_ok, Host.requireCategory, ensureIfSome_eq_ok,
      Db.requireRowId, ensure_eq_ok, pure_eq_ok] at h
    obtain ⟨⟨⟩, hperm, ⟨⟩, hcategory, ⟨⟩, hroom, rfl⟩ := h
    exact .createChannel hperm hcategory hroom
  | updateChannel channelId patch =>
    refine Host.commit_effect (.refused _) fun host' h => ?_
    simp only [bind_eq_ok, requirePerm_eq_ok, pure_eq_ok] at h
    obtain ⟨⟨⟩, hperm, ⟨⟩, -, rfl⟩ := h
    exact .updateChannel hperm
  | deleteChannel channelId =>
    refine Host.commit_effect (.refused _) fun host' h => ?_
    simp only [bind_eq_ok, requirePerm_eq_ok, pure_eq_ok] at h
    obtain ⟨⟨⟩, hperm, rfl⟩ := h
    exact .deleteChannel hperm
  | createCategory name position =>
    refine Host.commit_effect (.refused _) fun host' h => ?_
    simp only [bind_eq_ok, requireBasePerm_eq_ok, pure_eq_ok] at h
    obtain ⟨⟨⟩, hperm, rfl⟩ := h
    exact .createCategory hperm
  | updateCategory categoryId name position =>
    refine Host.commit_effect (.refused _) fun host' h => ?_
    simp only [bind_eq_ok, requireBasePerm_eq_ok, pure_eq_ok] at h
    obtain ⟨⟨⟩, hperm, rfl⟩ := h
    exact .updateCategory hperm
  | deleteCategory categoryId =>
    refine Host.commit_effect (.refused _) fun host' h => ?_
    simp only [bind_eq_ok, requireBasePerm_eq_ok, pure_eq_ok] at h
    obtain ⟨⟨⟩, hperm, rfl⟩ := h
    exact .deleteCategory hperm
  | setChannelOverride channelId roleId allow deny =>
    refine Host.commit_effect (.refused _) fun host' h => ?_
    simp only [bind_eq_ok, requirePerm_eq_ok, pure_eq_ok] at h
    obtain ⟨⟨⟩, hperm, rfl⟩ := h
    exact .setChannelOverride hperm
  | setCategoryOverride categoryId roleId allow deny =>
    refine Host.commit_effect (.refused _) fun host' h => ?_
    simp only [bind_eq_ok, requireBasePerm_eq_ok, pure_eq_ok] at h
    obtain ⟨⟨⟩, hperm, rfl⟩ := h
    exact .setCategoryOverride hperm

theorem roleRequest_effect (request : RoleRequest) :
    RoleEffect host member isOwner request (host.handleRoleRequest member isOwner request).1 := by
  cases request with
  | createRole name permissions color position hoist =>
    refine Host.commit_effect (.refused _) fun host' h => ?_
    simp only [bind_eq_ok, requireBasePerm_eq_ok, pure_eq_ok] at h
    obtain ⟨⟨⟩, hperm, ⟨⟩, -, rfl⟩ := h
    exact .createRole hperm
  | updateRole roleId patch =>
    refine Host.commit_effect (.refused _) fun host' h => ?_
    simp only [bind_eq_ok, pure_eq_ok] at h
    obtain ⟨role, hbelow, ⟨⟩, -, rfl⟩ := h
    exact .updateRole role hbelow
  | deleteRole roleId =>
    refine Host.commit_effect (.refused _) fun host' h => ?_
    simp only [bind_eq_ok, map_eq_ok] at h
    obtain ⟨role, hbelow, community, hdelete, rfl⟩ := h
    exact .deleteRole role hbelow hdelete
  | assignRole memberKey roleId =>
    refine Host.commit_effect (.refused _) fun host' h => ?_
    simp only [bind_eq_ok, map_eq_ok] at h
    obtain ⟨role, hbelow, community, hassign, rfl⟩ := h
    exact .assignRole role hbelow hassign
  | removeRole memberKey roleId =>
    refine Host.commit_effect (.refused _) fun host' h => ?_
    simp only [bind_eq_ok, pure_eq_ok] at h
    obtain ⟨role, hbelow, rfl⟩ := h
    exact .removeRole role hbelow

theorem createRole_rejected {name : String} {permissions : Bits} {color : Option String}
    {position : Option ℕ} {hoist : Option Bool}
    (h : ∀ a, (host.createRole member isOwner name permissions color position hoist).2 ≠ .ok a) :
    (host.createRole member isOwner name permissions color position hoist).1 = host := by
  refine Host.commit_rejected (fun host' hwrite => ?_) h
  simp only [bind_eq_ok, pure_eq_ok] at hwrite
  obtain ⟨⟨⟩, -, ⟨⟩, -, rfl⟩ := hwrite
  obtain ⟨row, hrow⟩ : ∃ row, (host.community.createRole name permissions color (position.getD 0)
      false (hoist.getD false)).getRole host.community.roles.next = some row :=
    Option.ne_none_iff_exists'.mp getRole_createRole
  simp [Host.withCommunity, hrow, expect]

theorem updateRole_rejected {roleId : ℕ} {patch : RolePatch}
    (h : ∀ a, (host.updateRole member isOwner roleId patch).2 ≠ .ok a) :
    (host.updateRole member isOwner roleId patch).1 = host := by
  refine Host.commit_rejected (fun host' hwrite => ?_) h
  simp only [bind_eq_ok, pure_eq_ok] at hwrite
  obtain ⟨role, hbelow, ⟨⟩, -, rfl⟩ := hwrite
  have hthere : host.community.getRole roleId ≠ none := by
    simp [(requireRoleBelow_eq_ok.mp hbelow).2.1]
  obtain ⟨row, hrow⟩ : ∃ row, (host.community.updateRole roleId patch.name patch.permissions
      (patch.color.map some) patch.position patch.hoist).getRole roleId = some row :=
    Option.ne_none_iff_exists'.mp (mt getRole_updateRole.mp hthere)
  simp [Host.withCommunity, hrow, expect]

end Server
