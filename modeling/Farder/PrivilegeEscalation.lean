import Farder.Server.Places
import Farder.Server.SampleHost

/-! # Passing on permissions

Somebody who manages roles or overrides may write any permission into those below, held or not.
`Grants` says which permissions a request passes on, to whom and where; as long as these are
held already, nobody gains anything. -/
namespace Server

open EventLog Guarded Permissions

namespace Host

variable (host : Host) (member granter : PublicKey)

/-- What a request of a granter, past its own checks, lets a member have: what a role or its
overrides give, what an override allows, and what it denies no longer. -/
def Grants (request : Request) (place : Place) (i : ℕ) : Prop :=
  let ctx := host.contextAt member place
  let roleIds := host.community.getMemberRoleIds member
  match request with
  | .role (.updateRole roleId patch) =>
    ∃ role, host.requireRoleBelow granter false roleId = .ok role ∧
      (roleId ∈ roleIds ∨ role.builtin = true ∧ patch.name.getD role.name = everyoneRole) ∧
      (patch.permissions.getD role.permissions).getLsbD i = true ∧ ctx.Unopposed i
  | .role (.assignRole memberKey roleId) =>
    memberKey = member ∧ ∃ role, host.requireRoleBelow granter false roleId = .ok role ∧
      ((∃ o ∈ host.channelOverride place roleId, o.allow.getLsbD i = true) ∨
        Permissions.Spared ctx.channelOverrides i ∧
          (∀ o ∈ host.channelOverride place roleId, o.deny.getLsbD i = false) ∧
          ((∃ o ∈ host.categoryOverride place roleId, o.allow.getLsbD i = true) ∨
            Permissions.Spared ctx.categoryOverrides i ∧
              (∀ o ∈ host.categoryOverride place roleId, o.deny.getLsbD i = false) ∧
              role.permissions.getLsbD i = true) ∨
        i = 12 ∧ role.permissions.getLsbD i = true)
  | .channel (.setChannelOverride channelId roleId allow deny) =>
    place = .channel channelId ∧ roleId ∈ roleIds ∧
      has (host.resolveMemberPerms granter false channelId) manageChannel = true ∧
      (allow.getLsbD i = true ∨
        deny.getLsbD i = false ∧
          (∃ o ∈ host.channelOverride place roleId, o.deny.getLsbD i = true) ∧
          (∀ r ∈ roleIds, r ≠ roleId →
            ∀ o ∈ host.channelOverride place r, o.deny.getLsbD i = false) ∧
          ctx.Inherits i)
  | .channel (.setCategoryOverride categoryId roleId allow deny) =>
    host.categoryAt place = some categoryId ∧ roleId ∈ roleIds ∧
      has (host.resolveBasePerms granter false) manageServer = true ∧
      Permissions.Spared ctx.channelOverrides i ∧
      (allow.getLsbD i = true ∨
        deny.getLsbD i = false ∧
          (∃ o ∈ host.categoryOverride place roleId, o.deny.getLsbD i = true) ∧
          (∀ r ∈ roleIds, r ≠ roleId →
            ∀ o ∈ host.categoryOverride place r, o.deny.getLsbD i = false) ∧
          ctx.base.getLsbD i = true)
  | _ => False

end Host

def Request.writesPermissions : Request → Bool
  | .role (.createRole ..) => true
  | .role (.updateRole ..) => true
  | .role (.assignRole ..) => true
  | .channel (.setChannelOverride ..) => true
  | .channel (.setCategoryOverride ..) => true
  | _ => false

variable {K : Crypto} {host host' : Host} {member granter : PublicKey} {moment : Moment}
  {place : Place} {i : ℕ}

open Host

/-! ## What a request newly gives -/

theorem everyone_createRole {c : Community} {name : String} {permissions : Bits}
    {color : Option String} {position : ℕ} {hoist : Bool} :
    (c.createRole name permissions color position false hoist).everyone = c.everyone := by
  simp [Community.everyone, Community.createRole, Table.find?, Table.insert, List.find?_append]

theorem getRole_createRole_of_lt {c : Community} {name : String} {permissions : Bits}
    {color : Option String} {position : ℕ} {hoist : Bool} {id : ℕ} (hid : id < c.roles.next) :
    (c.createRole name permissions color position false hoist).getRole id = c.getRole id := by
  simp [Community.getRole, Community.createRole, Table.get?, Table.find?, Table.insert,
    List.find?_append, hid.ne']

theorem roleId_lt {r : ℕ} (hkept : host.community.RolesKept)
    (hr : r ∈ host.community.getMemberRoleIds member) : r < host.community.roles.next := by
  obtain ⟨x, hx, rfl⟩ := List.mem_map.mp hr
  exact hkept.assigned x (List.mem_filter.mp hx).1

theorem createRole_gained {name : String} {permissions : Bits} {color : Option String}
    {position : ℕ} {hoist : Bool} (hkept : host.community.RolesKept)
    (h : ((host.withCommunity (host.community.createRole name permissions color position false
      hoist)).contextAt member place).Gives i) : (host.contextAt member place).Gives i := by
  refine (gives_gained (P := False) h (by cases place <;> rfl) (by cases place <;> rfl)
    fun hbase => .inl ?_).resolve_right And.left
  rw [base_at] at hbase ⊢
  refine hbase.imp (fun hbit => ?_) ?_
  · simpa [Community.everyonePermissions, Host.withCommunity, everyone_createRole] using hbit
  · rintro ⟨r, hr, role, hrole, hbit⟩
    exact ⟨r, hr, role, (getRole_createRole_of_lt (roleId_lt hkept hr)) ▸ hrole, hbit⟩

theorem getRole_patched {c : Community} {id : ℕ} {patch : RolePatch} {r : ℕ} {row : RoleRow}
    (h : (c.updateRole id patch.name patch.permissions (patch.color.map some) patch.position
      patch.hoist).getRole r = some row) :
    ∃ role, c.getRole r = some role ∧ row.builtin = role.builtin ∧ (r ≠ id → row = role) ∧
      (r = id → row.permissions = patch.permissions.getD role.permissions ∧
        row.name = patch.name.getD role.name) := by
  simp only [Community.getRole, Community.updateRole, Table.modify, Table.get?_map,
    Option.map_eq_some_iff] at h
  obtain ⟨role, hrole, rfl⟩ := h
  refine ⟨role, hrole, ?_⟩
  split_ifs with hr
  · exact ⟨rfl, fun hne => absurd hr hne, fun _ => ⟨rfl, rfl⟩⟩
  · exact ⟨rfl, fun _ => rfl, fun heq => absurd heq hr⟩

/-- What an updated role gives to those who have it, and to everybody if it is that role. -/
theorem updateRole_gained {roleId : ℕ} {patch : RolePatch} {role : RoleRow}
    (hkept : host.community.RolesKept)
    (hbelow : host.requireRoleBelow granter false roleId = .ok role)
    (h : ((host.withCommunity (host.community.updateRole roleId patch.name patch.permissions
      (patch.color.map some) patch.position patch.hoist)).contextAt member place).Gives i) :
    (host.contextAt member place).Gives i ∨
      host.Grants member granter (.role (.updateRole roleId patch)) place i := by
  have hrole : host.community.getRole roleId = some role := (requireRoleBelow_eq_ok.mp hbelow).2.1
  refine (gives_gained (P := (roleId ∈ host.community.getMemberRoleIds member ∨
      role.builtin = true ∧ patch.name.getD role.name = everyoneRole) ∧
      (patch.permissions.getD role.permissions).getLsbD i = true)
    h (by cases place <;> rfl) (by cases place <;> rfl) fun hbase => ?_).imp_right
      fun ⟨⟨hhas, hbit⟩, hunopposed⟩ => ⟨role, hbelow, hhas, hbit, hunopposed⟩
  rw [base_at] at hbase ⊢
  rcases hbase with heveryone | ⟨r, hr, row, hrow, hbit⟩
  · obtain ⟨⟨r, row⟩, heveryone, hbit⟩ := everyonePermissions_bit.mp heveryone
    obtain ⟨hmem, hfound⟩ := Table.find?_mem heveryone
    obtain ⟨hname, hbuiltin⟩ := of_decide_eq_true hfound
    obtain ⟨old, hold, hflag, hother, hpatched⟩ := getRole_patched (Table.get?_eq_some.mpr hmem)
    by_cases hid : r = roleId
    · subst hid
      obtain rfl : old = role := Option.some.inj (hold.symm.trans hrole)
      obtain ⟨hpermissions, hrename⟩ := hpatched rfl
      exact .inr ⟨.inr ⟨hflag ▸ hbuiltin, hrename ▸ hname⟩, hpermissions ▸ hbit⟩
    · obtain rfl := hother hid
      refine .inl (.inl (everyonePermissions_bit.mpr ⟨(r, row), ?_, hbit⟩))
      exact everyone_eq_some hkept (Table.get?_eq_some.mp hold) hname hbuiltin
  · obtain ⟨old, hold, -, hother, hpatched⟩ := getRole_patched hrow
    by_cases hid : r = roleId
    · subst hid
      obtain rfl : old = role := Option.some.inj (hold.symm.trans hrole)
      exact .inr ⟨.inl hr, (hpatched rfl).1 ▸ hbit⟩
    · exact .inl (.inr ⟨r, hr, old, hold, hother hid ▸ hbit⟩)

theorem overrides_assignRole {pk : PublicKey} {id : ℕ} {community : Community}
    (h : host.community.assignRole pk id = .ok community) :
    community.roles = host.community.roles ∧
      (host.withCommunity community).channelOverride place = host.channelOverride place ∧
      (host.withCommunity community).categoryOverride place = host.categoryOverride place := by
  simp only [Community.assignRole, bind_eq_ok, pure_eq_ok] at h
  obtain ⟨⟨⟩, -, rfl⟩ := h
  exact ⟨rfl, by cases place <;> rfl, by cases place <;> rfl⟩

theorem assignRole_gained {memberKey : PublicKey} {roleId : ℕ} {role : RoleRow}
    {community : Community}
    (hbelow : host.requireRoleBelow granter false roleId = .ok role)
    (hassign : host.community.assignRole memberKey roleId = .ok community)
    (h : ((host.withCommunity community).contextAt member place).Gives i) :
    (host.contextAt member place).Gives i ∨
      host.Grants member granter (.role (.assignRole memberKey roleId)) place i := by
  have hrole : host.community.getRole roleId = some role := (requireRoleBelow_eq_ok.mp hbelow).2.1
  have hids : ∀ r, r ∈ (host.withCommunity community).community.getMemberRoleIds member ↔
      r ∈ host.community.getMemberRoleIds member ∨ memberKey = member ∧ r = roleId :=
    fun r => mem_roleIds_assignRole hassign
  obtain ⟨hroles, hchannel, hcategory⟩ := @overrides_assignRole _ place _ _ _ hassign
  have hbase : ((host.withCommunity community).contextAt member place).base.getLsbD i = true →
      (host.contextAt member place).base.getLsbD i = true ∨
        memberKey = member ∧ role.permissions.getLsbD i = true := by
    intro hgiven
    have heveryone : community.everyonePermissions = host.community.everyonePermissions := by
      simp only [Community.everyonePermissions, Community.everyone, hroles]
    have hget : community.getRole = host.community.getRole := by
      funext r
      simp only [Community.getRole, hroles]
    rcases base_at.mp hgiven with hall | ⟨r, hr, row, hrow, hbit⟩
    · exact .inl (base_at.mpr (.inl (heveryone ▸ hall)))
    · have hrow : host.community.getRole r = some row := hget ▸ hrow
      rcases (hids r).mp hr with hr | ⟨hkey, rfl⟩
      · exact .inl (base_at.mpr (.inr ⟨r, hr, row, hrow, hbit⟩))
      · obtain rfl : row = role := Option.some.inj (hrow.symm.trans hrole)
        exact .inr ⟨hkey, hbit⟩
  simp only [ResolutionContext.Gives, ResolutionContext.Inherits] at h
  rw [channelOverrides_at, categoryOverrides_at, allowed_added hids, spared_added hids,
    allowed_added hids, spared_added hids, hchannel, hcategory] at h
  rw [← channelOverrides_at, ← categoryOverrides_at] at h
  rcases h with (hall | ⟨hkey, hnew⟩) | ⟨⟨hspared, hspares⟩, hinherits⟩ | ⟨hadmin, hgiven⟩
  · exact .inl (.inl hall)
  · exact .inr ⟨hkey, role, hbelow, .inl hnew⟩
  · rcases hinherits with (hall | ⟨hkey, hnew⟩) | ⟨⟨hkept, hkeeps⟩, hgiven⟩
    · exact .inl (.inr (.inl ⟨hspared, .inl hall⟩))
    · exact .inr ⟨hkey, role, hbelow, .inr (.inl ⟨hspared, hspares hkey, .inl hnew⟩)⟩
    · rcases hbase hgiven with hgiven | ⟨hkey, hbit⟩
      · exact .inl (.inr (.inl ⟨hspared, .inr ⟨hkept, hgiven⟩⟩))
      · exact .inr ⟨hkey, role, hbelow,
          .inr (.inl ⟨hspared, hspares hkey, .inr ⟨hkept, hkeeps hkey, hbit⟩⟩)⟩
  · rcases hbase hgiven with hgiven | ⟨hkey, hbit⟩
    · exact .inl (.inr (.inr ⟨hadmin, hgiven⟩))
    · exact .inr ⟨hkey, role, hbelow, .inr (.inr ⟨hadmin, hbit⟩)⟩

theorem channelOverrides_setChannelOverride {channelId roleId : ℕ} {allow deny : Bits} :
    ((host.withCommunity (host.community.setChannelOverride channelId roleId allow deny)).contextAt
      member place).channelOverrides =
      if place = .channel channelId then (host.community.getMemberRoleIds member).filterMap
        (Function.update (host.channelOverride place) roleId (some ⟨allow, deny⟩))
      else (host.contextAt member place).channelOverrides := by
  simp only [channelOverrides_at]
  split_ifs with hplace
  · subst hplace
    refine List.filterMap_congr fun r _ => ?_
    simp [channelOverride, Host.withCommunity, Community.setChannelOverride, Function.update_apply]
  · refine List.filterMap_congr fun r _ => ?_
    cases place with
    | server => rfl
    | channel id =>
      have hid : id ≠ channelId := fun heq => hplace (heq ▸ rfl)
      simp [channelOverride, Host.withCommunity, Community.setChannelOverride, hid]

theorem setChannelOverride_gained {channelId roleId : ℕ} {allow deny : Bits}
    (hperm : has (host.resolveMemberPerms granter false channelId) manageChannel = true)
    (h : ((host.withCommunity (host.community.setChannelOverride channelId roleId allow deny)
      ).contextAt member place).Gives i) :
    (host.contextAt member place).Gives i ∨
      host.Grants member granter (.channel (.setChannelOverride channelId roleId allow deny))
        place i := by
  rw [ResolutionContext.Gives, channelOverrides_setChannelOverride] at h
  by_cases hplace : place = .channel channelId
  · subst hplace
    rw [if_pos rfl] at h
    rcases h with hall | ⟨hspared, hinherits⟩ | hadmin
    · rcases allowed_rewritten hall with hall | ⟨hid, hbit⟩
      · exact .inl (.inl (channelOverrides_at.symm ▸ hall))
      · exact .inr ⟨rfl, hid, hperm, .inl hbit⟩
    · rcases spared_rewritten hspared with hspared | ⟨hid, hbit, hlifted, hothers⟩
      · exact .inl (.inr (.inl ⟨channelOverrides_at.symm ▸ hspared, hinherits⟩))
      · exact .inr ⟨rfl, hid, hperm, .inr ⟨hbit, hlifted, hothers, hinherits⟩⟩
    · exact .inl (.inr (.inr hadmin))
  · rw [if_neg hplace] at h
    exact .inl (by cases place <;> exact h)

theorem categoryOverrides_setCategoryOverride {categoryId roleId : ℕ} {allow deny : Bits} :
    ((host.withCommunity (host.community.setCategoryOverride categoryId roleId allow deny)
      ).contextAt member place).categoryOverrides =
      if host.categoryAt place = some categoryId then
        (host.community.getMemberRoleIds member).filterMap
          (Function.update (host.categoryOverride place) roleId (some ⟨allow, deny⟩))
      else (host.contextAt member place).categoryOverrides := by
  have hcategory : (host.withCommunity (host.community.setCategoryOverride categoryId roleId allow
      deny)).categoryAt place = host.categoryAt place := by
    cases place <;> rfl
  simp only [categoryOverrides_at]
  split_ifs with hplace
  · refine List.filterMap_congr fun r _ => ?_
    simp only [categoryOverride, hcategory, hplace, Option.bind_some]
    simp [Host.withCommunity, Community.setCategoryOverride, Function.update_apply, categoryOverride,
      hplace]
  · refine List.filterMap_congr fun r _ => ?_
    simp only [categoryOverride, hcategory]
    refine Option.bind_congr fun id hid => ?_
    have hid : id ≠ categoryId := fun heq => hplace (heq ▸ hid)
    simp [Host.withCommunity, Community.setCategoryOverride, hid]

/-- What an override of a category allows where no channel denies it, and what it denies no
longer. -/
theorem setCategoryOverride_gained {categoryId roleId : ℕ} {allow deny : Bits}
    (hperm : has (host.resolveBasePerms granter false) manageServer = true)
    (h : ((host.withCommunity (host.community.setCategoryOverride categoryId roleId allow deny)
      ).contextAt member place).Gives i) :
    (host.contextAt member place).Gives i ∨
      host.Grants member granter (.channel (.setCategoryOverride categoryId roleId allow deny))
        place i := by
  rw [ResolutionContext.Gives, ResolutionContext.Inherits, categoryOverrides_setCategoryOverride]
    at h
  have hchannel : ((host.withCommunity (host.community.setCategoryOverride categoryId roleId allow
      deny)).contextAt member place).channelOverrides =
        (host.contextAt member place).channelOverrides := by cases place <;> rfl
  have hbase : ((host.withCommunity (host.community.setCategoryOverride categoryId roleId allow
      deny)).contextAt member place).base = (host.contextAt member place).base := by
    cases place <;> rfl
  rw [hchannel, hbase] at h
  by_cases hplace : host.categoryAt place = some categoryId
  · rw [if_pos hplace] at h
    rcases h with hall | ⟨hspared, hall | ⟨hkept, hgiven⟩⟩ | hadmin
    · exact .inl (.inl hall)
    · rcases allowed_rewritten hall with hall | ⟨hid, hbit⟩
      · exact .inl (.inr (.inl ⟨hspared, .inl (categoryOverrides_at.symm ▸ hall)⟩))
      · exact .inr ⟨hplace, hid, hperm, hspared, .inl hbit⟩
    · rcases spared_rewritten hkept with hkept | ⟨hid, hbit, hlifted, hothers⟩
      · exact .inl (.inr (.inl ⟨hspared, .inr ⟨categoryOverrides_at.symm ▸ hkept, hgiven⟩⟩))
      · exact .inr ⟨hplace, hid, hperm, hspared, .inr ⟨hbit, hlifted, hothers, hgiven⟩⟩
    · exact .inl (.inr (.inr hadmin))
  · rw [if_neg hplace] at h
    exact .inl h

/-! ## The five requests -/

theorem dispatch_rejected {request : Request} (hwrites : request.writesPermissions = true)
    (h : ∀ a, (host.dispatch K granter false moment request).2 ≠ .ok a) :
    (host.dispatch K granter false moment request).1 = host := by
  cases request with
  | role request =>
    cases request with
    | createRole => exact createRole_rejected h
    | updateRole => exact updateRole_rejected h
    | assignRole => exact commit_rejected (fun _ _ => ⟨_, rfl⟩) h
    | _ => exact absurd hwrites (by simp [Request.writesPermissions])
  | channel request =>
    cases request with
    | setChannelOverride => exact commit_rejected (fun _ _ => ⟨_, rfl⟩) h
    | setCategoryOverride => exact commit_rejected (fun _ _ => ⟨_, rfl⟩) h
    | _ => exact absurd hwrites (by simp [Request.writesPermissions])
  | _ => exact absurd hwrites (by simp [Request.writesPermissions])

theorem dispatch_gained {request : Request} (hkept : host.community.RolesKept)
    (hwrites : request.writesPermissions = true)
    (h : ((host.dispatch K granter false moment request).1.contextAt member place).Gives i) :
    (host.contextAt member place).Gives i ∨ host.Grants member granter request place i := by
  cases request with
  | role request =>
    have heffect := @roleRequest_effect host granter false request
    simp only [dispatch] at h
    generalize (host.handleRoleRequest granter false request).1 = host' at heffect h
    cases heffect with
    | refused => exact .inl h
    | createRole => exact .inl (createRole_gained hkept h)
    | updateRole role hbelow => exact updateRole_gained hkept hbelow h
    | assignRole role hbelow hassign => exact assignRole_gained hbelow hassign h
    | _ => exact absurd hwrites (by simp [Request.writesPermissions])
  | channel request =>
    have heffect := @channelRequest_effect host granter false request
    simp only [dispatch] at h
    generalize (host.handleChannelRequest granter false request).1 = host' at heffect h
    cases heffect with
    | refused => exact .inl h
    | setChannelOverride hperm => exact setChannelOverride_gained hperm h
    | setCategoryOverride hperm => exact setCategoryOverride_gained hperm h
    | _ => exact absurd hwrites (by simp [Request.writesPermissions])
  | _ => exact absurd hwrites (by simp [Request.writesPermissions])

/-- What one of the requests newly gives is what it has granted, if it is accepted. -/
theorem request_gained {request : Request} (hkept : host.community.RolesKept)
    (hwrites : request.writesPermissions = true)
    (h : ((host.perform K moment (.request granter false request)).1.contextAt member place).Gives
      i) : (host.contextAt member place).Gives i ∨
      host.Accepts K (moment, .request granter false request) ∧
        host.Grants member granter request place i := by
  have hmember : request.requiresMembership = true := by
    cases request <;> first | rfl | exact absurd hwrites (by simp [Request.writesPermissions])
  cases hgate : host.contentBlockReason granter with
  | some reason =>
    rw [perform, handleRequest_of_blocked hmember hgate] at h
    exact .inl h
  | none =>
    rw [perform, handleRequest_of_open hgate] at h
    by_cases haccepts : host.Accepts K (moment, .request granter false request)
    · exact (dispatch_gained hkept hwrites h).imp_right fun hgrants => ⟨haccepts, hgrants⟩
    · rw [Accepts, perform, handleRequest_of_open hgate, not_exists] at haccepts
      rw [dispatch_rejected hwrites haccepts] at h
      exact .inl h

theorem request_owner {request : Request} (hwrites : request.writesPermissions = true) :
    (host.perform K moment (.request granter false request)).1.owner = host.owner := by
  have hdispatch : (host.dispatch K granter false moment request).1.owner = host.owner := by
    cases request with
    | role request =>
      have heffect := @roleRequest_effect host granter false request
      simp only [dispatch]
      generalize (host.handleRoleRequest granter false request).1 = host' at heffect
      cases heffect <;> rfl
    | channel request =>
      have heffect := @channelRequest_effect host granter false request
      simp only [dispatch]
      generalize (host.handleChannelRequest granter false request).1 = host' at heffect
      cases heffect <;> rfl
    | _ => exact absurd hwrites (by simp [Request.writesPermissions])
  rw [perform, handleRequest]
  split_ifs
  · split
    · rfl
    · exact hdispatch
  · exact hdispatch

/-! ## A run of such requests -/

/-- Whoever holds `ADMIN` holds everything. -/
theorem Host.Holds.of_admin (hi : allPermissions.getLsbD i = true)
    (h : host.Holds member place 12) : host.Holds member place i := by
  rw [Host.Holds, resolve_bit_iff (by decide)] at h
  rw [Host.Holds, resolve_bit_iff hi]
  exact h.imp_right fun hgives => .inl (or_self_iff.mp hgives)

def Host.HeldBy (start : Host) (granter member : PublicKey) (place : Place) (i : ℕ) : Prop :=
  start.Holds member place i ∨ start.Holds granter place i

/-- What an accepted request of the granter passes on was held by the one who gets it, or by the
granter, at the start. -/
def Host.PassesHeld (K : Crypto) (start host : Host) (granter : PublicKey)
    (e : Moment × HostOp) : Prop :=
  match e.2 with
  | .request _ _ request => host.Accepts K e → ∀ member place i,
      allPermissions.getLsbD i = true → host.Grants member granter request place i →
        start.HeldBy granter member place i
  | _ => True

def HostOp.isGrantOf (granter : PublicKey) (op : HostOp) : Prop :=
  ∃ request : Request, op = .request granter false request ∧ request.writesPermissions = true

structure Host.GivesHeld (start host : Host) (granter : PublicKey) : Prop where
  roles : host.community.RolesKept
  owner : host.owner = start.owner
  held : ∀ member place i, allPermissions.getLsbD i = true →
    (host.contextAt member place).Gives i → start.HeldBy granter member place i

theorem Host.GivesHeld.perform {start : Host} {e : Moment × HostOp}
    (h : start.GivesHeld host granter) (hgrant : e.2.isGrantOf granter)
    (hpasses : start.PassesHeld K host granter e) :
    start.GivesHeld (host.perform K e.1 e.2).1 granter := by
  obtain ⟨moment, op⟩ := e
  obtain ⟨request, rfl, hwrites⟩ := hgrant
  refine ⟨perform_rolesKept h.roles, (request_owner hwrites).trans h.owner, ?_⟩
  intro member place i hi hgives
  rcases request_gained h.roles hwrites hgives with hgives | ⟨haccepts, hgrants⟩
  · exact h.held member place i hi hgives
  · exact hpasses haccepts member place i hi hgrants

/-- As long as its requests pass on what was held at the start, by a role of those below or by
an override, nobody gains from them a permission that the granter did not hold. -/
theorem no_escalation {setup : Setup} {before tr : List (Transition Host (Moment × HostOp))}
    {start host : Host} {granter : PublicKey}
    (hbefore : HostRun K (.firstRun setup) before start) (hrun : HostRun K start tr host)
    (hgrants : ∀ x ∈ tr, x.event.2.isGrantOf granter)
    (hpasses : ∀ x ∈ tr, start.PassesHeld K x.pre granter x.event) :
    ∀ member place i, allPermissions.getLsbD i = true → host.Holds member place i →
      start.Holds member place i ∨ start.Holds granter place i := by
  have hstart : start.GivesHeld start granter := by
    refine ⟨rolesKept_of_run hbefore, rfl, fun member place i hi hgives => .inl ?_⟩
    exact (resolve_bit_iff hi).mpr (.inr (.inr hgives))
  have hkept := hrun.kept (Q := fun host => start.GivesHeld host granter) hstart
    fun x hx hstep hpre => hstep ▸ hpre.perform (hgrants x hx) (hpasses x hx)
  have hend : start.GivesHeld host granter :=
    hrun.good_end (Q := fun host => start.GivesHeld host granter) hstart fun x hx => (hkept x hx).2
  intro member place i hi hholds
  rcases (resolve_bit_iff hi).mp hholds with howner | hadmin | hgives
  · refine .inl ((resolve_bit_iff hi).mpr (.inl (isOwner_at.mpr ?_)))
    exact hend.owner ▸ isOwner_at.mp howner
  · refine (hend.held member place 12 (by decide) hadmin).imp ?_ ?_
    · exact .of_admin hi
    · exact .of_admin hi
  · exact hend.held member place i hi hgives

/-! ## Bob manages roles -/

open SampleLog SampleHost

/-- Alice makes Bob a manager of roles. -/
def managed : List (Moment × HostOp) :=
  joined ++ requests 9
    [(alice, .role (.createRole "manager" manageRoles none (some 2) none)),
     (alice, .role (.assignRole (key bob) 2))]

/-- Bob creates a role of administrators, below his own. -/
def creation : Moment × HostOp :=
  (momentAt 12, .request (key bob) false (.role (.createRole "all" admin none (some 1) none)))

def assignment : Moment × HostOp :=
  (momentAt 13, .request (key bob) false (.role (.assignRole (key bob) 3)))

/-- While nobody has the new role, nobody has gained anything. -/
theorem no_escalation_by_bob :
    HostRun crypto (hostAfter managed) [transition (hostAfter managed) creation]
        (perform (hostAfter managed) creation) ∧
      ∀ member place i, allPermissions.getLsbD i = true →
        (perform (hostAfter managed) creation).Holds member place i →
          (hostAfter managed).Holds member place i ∨
            (hostAfter managed).Holds (key bob) place i := by
  let t := transition (hostAfter managed) creation
  have hrun : HostRun crypto t.pre [t] t.post := .single rfl
  refine ⟨hrun, no_escalation (run_path managed) hrun ?_ ?_⟩
  · simp only [List.forall_mem_singleton]
    exact ⟨_, rfl, rfl⟩
  · simp only [List.forall_mem_singleton]
    exact fun _ _ _ _ _ hgrants => hgrants.elim

/-- Bob gives himself the role of administrators that he has created. -/
theorem bob_escalates :
    let created := transition (hostAfter managed) creation
    let assigned := transition created.post assignment
    HostRun crypto start (path managed) (hostAfter managed) ∧
      (hostAfter managed).owner ≠ some (key bob) ∧
      HostRun crypto (hostAfter managed) [created, assigned] assigned.post ∧
      (∀ x ∈ [created, assigned], x.event.2.isGrantOf (key bob) ∧ x.pre.Accepts crypto x.event) ∧
      allPermissions.getLsbD 9 = true ∧ assigned.post.Holds (key bob) .server 9 ∧
      ¬(hostAfter managed).Holds (key bob) .server 9 := by
  intro created assigned
  refine ⟨run_path managed, by decide +kernel, .trans (.single rfl) (.single rfl), ?_,
    by decide +kernel, by decide +kernel, by decide +kernel⟩
  simp only [List.forall_mem_cons, List.not_mem_nil, false_imp_iff, implies_true, and_true]
  exact ⟨⟨⟨_, rfl, rfl⟩, by decide +kernel⟩, ⟨_, rfl, rfl⟩, by decide +kernel⟩

end Server
