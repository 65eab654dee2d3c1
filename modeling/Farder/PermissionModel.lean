import Farder.Server.Places
import Farder.Server.SampleHost

/-! # One permission model

What a member may do is resolved three times over different queries. `model` says it once, with
the role of all members as a role like any other. The three agree with it where that role is
assigned to the member, or says nothing that the assigned roles do not say, and where whoever
has `ADMIN` by a role has everything by roles. -/
namespace Permissions

/-- An administrator by role holds everything; the others hold what the overrides leave, which
may make an administrator too. -/
def ResolutionContext.model (ctx : ResolutionContext) : Bits :=
  if ctx.isOwner = true ∨ has ctx.base admin = true then allPermissions
  else if has ctx.overridden admin = true then allPermissions
  else ctx.overridden

/-- `ADMIN` comes with everything else. -/
def Complete (p : Bits) : Prop := has p admin = true → has p allPermissions = true

instance (p : Bits) : Decidable (Complete p) := inferInstanceAs (Decidable (_ → _))

def Override.Within (o : Override) (overrides : List Override) : Prop :=
  ∀ i, (o.allow.getLsbD i = true → Allowed overrides i) ∧
    (o.deny.getLsbD i = true → ¬Spared overrides i)

variable {ctx ctx' : ResolutionContext} {p q : Bits} {overrides overrides' : List Override}

theorem resolve_eq_model : resolve ctx = ctx.model := by
  rw [resolve_eq, ResolutionContext.model]
  by_cases hbase : ctx.isOwner = true ∨ has ctx.base admin = true
  · have hadm : ctx.Administers := hbase.imp_right .inl
    rw [if_pos hadm, if_pos hbase]
  · have hadm : ctx.Administers ↔ has ctx.overridden admin = true := by
      rw [not_or] at hbase
      rw [ResolutionContext.Administers, or_iff_right hbase.1, or_iff_right hbase.2]
    simp only [hadm, if_neg hbase]

theorem applyOverrides_congr (hallowed : ∀ i, Allowed overrides i ↔ Allowed overrides' i)
    (hspared : ∀ i, Spared overrides i ↔ Spared overrides' i) :
    applyOverrides p overrides = applyOverrides p overrides' := by
  refine BitVec.eq_of_getLsbD_eq fun i hi => Bool.eq_iff_iff.mpr ?_
  rw [getLsbD_applyOverrides hi, getLsbD_applyOverrides hi, hallowed, hspared]

theorem resolve_congr (howner : ctx.isOwner = ctx'.isOwner) (hbase : ctx.base = ctx'.base)
    (hcategory : ∀ p, applyOverrides p ctx.categoryOverrides =
      applyOverrides p ctx'.categoryOverrides)
    (hchannel : ∀ p, applyOverrides p ctx.channelOverrides =
      applyOverrides p ctx'.channelOverrides) : resolve ctx = resolve ctx' := by
  have hover : ctx.overridden = ctx'.overridden := by
    rw [ResolutionContext.overridden, ResolutionContext.overridden, hbase, hcategory, hchannel]
  simp only [resolve, howner, hbase, hover]

theorem allowed_append {i : ℕ} :
    Allowed (overrides ++ overrides') i ↔ Allowed overrides i ∨ Allowed overrides' i := by
  simp only [Allowed, List.mem_append, or_and_right, exists_or]

theorem spared_append {i : ℕ} :
    Spared (overrides ++ overrides') i ↔ Spared overrides i ∧ Spared overrides' i := by
  simp only [Spared, List.mem_append, or_imp, forall_and]

theorem applyOverrides_append (h : ∀ o ∈ overrides, o.Within overrides') :
    applyOverrides p (overrides ++ overrides') = applyOverrides p overrides' := by
  refine applyOverrides_congr (fun i => ?_) fun i => ?_
  · refine allowed_append.trans (or_iff_right_of_imp ?_)
    rintro ⟨o, ho, hallow⟩
    exact (h o ho i).1 hallow
  · refine spared_append.trans (and_iff_right_of_imp fun hspared o ho => ?_)
    refine Bool.eq_false_iff.mpr fun hdeny => ?_
    exact (h o ho i).2 hdeny hspared

/-- With no override, `ADMIN` gives everything. -/
theorem resolve_of_no_overrides (hcategory : ctx.categoryOverrides = [])
    (hchannel : ctx.channelOverrides = []) : resolve ctx =
      if ctx.isOwner = true ∨ has ctx.base admin = true then allPermissions else ctx.base := by
  have hnone : ∀ p, applyOverrides p [] = p := by
    intro p
    refine BitVec.eq_of_getLsbD_eq fun i hi => Bool.eq_iff_iff.mpr ?_
    simp [getLsbD_applyOverrides hi, Allowed, Spared]
  rw [resolve_eq_model, ResolutionContext.model, ResolutionContext.overridden, hcategory,
    hchannel, hnone, hnone]
  by_cases hbase : ctx.isOwner = true ∨ has ctx.base admin = true
  · simp only [if_pos hbase]
  · simp only [if_neg hbase, if_neg (not_or.mp hbase).2]

end Permissions

namespace Server

open EventLog Guarded Permissions

namespace Community

variable (c : Community) (pk : PublicKey)

def builtinRole : Option (ℕ × RoleRow) := c.roles.find? fun x => x.2.builtin

/-- The roles that bear on a member: the one of all members, and those that it is assigned. -/
def bearingRoleIds : List ℕ := (c.builtinRole.map Prod.fst).toList ++ c.getMemberRoleIds pk

end Community

namespace Host

variable (host : Host) (member : PublicKey) (isOwner : Bool) (place : Place)

/-- Everything that bears on a member at a place. -/
def modelContext : ResolutionContext where
  everyonePermissions := 0
  rolePermissions := ((host.community.bearingRoleIds member).filterMap
    host.community.getRole).map RoleRow.permissions
  categoryOverrides := (host.community.bearingRoleIds member).filterMap
    (host.categoryOverride place)
  channelOverrides := (host.community.bearingRoleIds member).filterMap
    (host.channelOverride place)
  isOwner := isOwner

/-- The three ways to resolve what a member may do agree with the model. -/
structure OneModel (channelId : ℕ) : Prop where
  inChannel : host.resolveMemberPerms member isOwner channelId =
    (host.modelContext member isOwner (.channel channelId)).model
  onServer : host.resolveMemberServerPerms member isOwner =
    (host.modelContext member isOwner .server).model
  byBase : ∀ i, allPermissions.getLsbD i = true →
    (host.resolveBasePerms member isOwner).getLsbD i =
      (host.modelContext member isOwner .server).model.getLsbD i

/-- What the role of all members gives, and what it allows and denies at a place, the roles
that the member is assigned say too, each in the same layer. -/
structure Covered : Prop where
  gives : ∀ x ∈ host.community.builtinRole, ∀ i, x.2.permissions.getLsbD i = true →
    host.community.everyonePermissions.getLsbD i = true ∨
      ∃ w ∈ host.community.getMemberRolePermissions member, w.getLsbD i = true
  category : ∀ x ∈ host.community.builtinRole, ∀ o ∈ host.categoryOverride place x.1,
    o.Within ((host.community.getMemberRoleIds member).filterMap (host.categoryOverride place))
  channel : ∀ x ∈ host.community.builtinRole, ∀ o ∈ host.channelOverride place x.1,
    o.Within ((host.community.getMemberRoleIds member).filterMap (host.channelOverride place))

end Host

variable {K : Crypto} {host host' : Host} {member : PublicKey} {isOwner : Bool} {moment : Moment}
  {place : Place} {i : ℕ} {c c' : Community}

open Host

/-! ## A member that the role of all members does not miss -/

theorem builtinRole_eq_some (hkept : c.RolesKept) {x : ℕ × RoleRow} (hx : x ∈ c.roles)
    (hbuiltin : x.2.builtin = true) : c.builtinRole = some x :=
  Table.find?_eq_some_of_unique hx hbuiltin fun y hy hp =>
    Table.eq_of_key_eq hy hx (hkept.builtin y hy x hx hp hbuiltin)

theorem base_model (hkept : host.community.RolesKept)
    (hcovered : host.Covered member place) :
    (host.contextOf member isOwner place).base =
      (host.modelContext member isOwner place).base := by
  have hmodel : ∀ i, (host.modelContext member isOwner place).base.getLsbD i = true ↔
      ∃ r ∈ host.community.bearingRoleIds member, ∃ role,
        host.community.getRole r = some role ∧ role.permissions.getLsbD i = true := by
    intro i
    rw [base_bit_iff]
    simp only [modelContext, BitVec.ofNat_eq_ofNat, BitVec.getLsbD_zero, Bool.false_eq_true,
      false_or, List.mem_map, List.mem_filterMap, exists_exists_and_eq_and]
    constructor
    · rintro ⟨role, ⟨r, hr, hrole⟩, hbit⟩
      exact ⟨r, hr, role, hrole, hbit⟩
    · rintro ⟨r, hr, role, hrole, hbit⟩
      exact ⟨role, ⟨r, hr, hrole⟩, hbit⟩
  refine BitVec.eq_of_getLsbD_eq fun i _ => Bool.eq_iff_iff.mpr ?_
  rw [hmodel]
  constructor
  · intro hbit
    rcases base_of.mp hbit with heveryone | ⟨r, hr, role, hrole, hbit⟩
    · obtain ⟨x, hx, hbit⟩ := everyonePermissions_bit.mp heveryone
      obtain ⟨hmem, hfound⟩ := Table.find?_mem hx
      have hbuiltin := builtinRole_eq_some hkept hmem (of_decide_eq_true hfound).2
      refine ⟨x.1, ?_, x.2, Table.get?_eq_some.mpr hmem, hbit⟩
      simp [Community.bearingRoleIds, hbuiltin]
    · exact ⟨r, List.mem_append_right _ hr, role, hrole, hbit⟩
  · rintro ⟨r, hr, role, hrole, hbit⟩
    rcases List.mem_append.mp hr with hr | hr
    · obtain ⟨x, hx, rfl⟩ := Option.map_eq_some_iff.mp (Option.mem_toList.mp hr)
      have hrow : host.community.getRole x.1 = some x.2 :=
        Table.get?_eq_some.mpr (Table.find?_mem hx).1
      obtain rfl := Option.some.inj (hrow.symm.trans hrole)
      exact base_of.mpr ((hcovered.gives x hx i hbit).imp_right rolePermissions_bit.mp)
    · exact base_of.mpr (.inr ⟨r, hr, role, hrole, hbit⟩)

/-- The overrides of the bearing roles are those of the role of all members, and the others. -/
theorem filterMap_bearing (f : ℕ → Option Override) :
    (c.bearingRoleIds member).filterMap f =
      (c.builtinRole.map Prod.fst).toList.filterMap f ++
        (c.getMemberRoleIds member).filterMap f :=
  List.filterMap_append

theorem mem_builtin_overrides {f : ℕ → Option Override} {o : Override}
    (h : o ∈ (c.builtinRole.map Prod.fst).toList.filterMap f) :
    ∃ x ∈ c.builtinRole, o ∈ f x.1 := by
  obtain ⟨r, hr, ho⟩ := List.mem_filterMap.mp h
  obtain ⟨x, hx, rfl⟩ := Option.map_eq_some_iff.mp (Option.mem_toList.mp hr)
  exact ⟨x, hx, ho⟩

theorem resolve_model (hkept : host.community.RolesKept)
    (hcovered : host.Covered member place) :
    resolve (host.contextOf member isOwner place) =
      (host.modelContext member isOwner place).model := by
  rw [← resolve_eq_model]
  have howner : (host.contextOf member isOwner place).isOwner =
      (host.modelContext member isOwner place).isOwner := isOwner_of
  refine resolve_congr howner (base_model hkept hcovered) (fun p => ?_) fun p => ?_
  · have hmodel : (host.modelContext member isOwner place).categoryOverrides = _ :=
      filterMap_bearing (host.categoryOverride place)
    rw [categoryOverrides_of, hmodel]
    refine (applyOverrides_append fun o ho => ?_).symm
    obtain ⟨x, hx, ho⟩ := mem_builtin_overrides ho
    exact hcovered.category x hx o ho
  · have hmodel : (host.modelContext member isOwner place).channelOverrides = _ :=
      filterMap_bearing (host.channelOverride place)
    rw [channelOverrides_of, hmodel]
    refine (applyOverrides_append fun o ho => ?_).symm
    obtain ⟨x, hx, ho⟩ := mem_builtin_overrides ho
    exact hcovered.channel x hx o ho

theorem Host.Covered.server (h : host.Covered member place) :
    host.Covered member .server where
  gives := h.gives
  category _ _ _ ho := absurd ho (by simp [categoryOverride, categoryAt])
  channel _ _ _ ho := absurd ho (by simp [channelOverride])

theorem covered_of_assigned
    (h : ∀ x ∈ host.community.builtinRole, x.1 ∈ host.community.getMemberRoleIds member) :
    host.Covered member place := by
  have hwithin : ∀ f : ℕ → Option Override, ∀ x ∈ host.community.builtinRole, ∀ o ∈ f x.1,
      o.Within ((host.community.getMemberRoleIds member).filterMap f) := by
    intro f x hx o ho i
    have hmem : o ∈ (host.community.getMemberRoleIds member).filterMap f :=
      List.mem_filterMap.mpr ⟨x.1, h x hx, ho⟩
    exact ⟨fun hallow => ⟨o, hmem, hallow⟩,
      fun hdeny hspared => by simp [hspared o hmem] at hdeny⟩
  refine ⟨fun x hx i hbit => ?_, hwithin _, hwithin _⟩
  have hrow := Table.get?_eq_some.mpr (Table.find?_mem hx).1
  exact .inr (rolePermissions_bit.mpr ⟨x.1, h x hx, x.2, hrow, hbit⟩)

theorem oneModel_of_covered (hkept : host.community.RolesKept) {channelId : ℕ}
    (hcovered : host.Covered member (.channel channelId))
    (hcomplete : isOwner = true ∨ Complete (host.contextOf member isOwner .server).base) :
    host.OneModel member isOwner channelId := by
  have hserver : resolve (host.contextOf member isOwner .server) =
      (host.modelContext member isOwner .server).model := resolve_model hkept hcovered.server
  refine ⟨resolve_model hkept hcovered, hserver, fun i hi => ?_⟩
  rw [← hserver, resolve_of_no_overrides rfl rfl, isOwner_of]
  cases isOwner with
  | true => simp [resolveBasePerms]
  | false =>
    have hcomplete := hcomplete.resolve_left (by decide)
    have hbase : host.resolveBasePerms member false = (host.contextOf member false .server).base :=
      rfl
    simp only [hbase, Bool.false_eq_true, false_or]
    split_ifs with hadmin
    · have hall := congrArg (fun w : Bits => w.getLsbD i) (of_decide_eq_true (hcomplete hadmin))
      simpa only [BitVec.getLsbD_and, hi, Bool.and_true] using hall
    · rfl

/-! ## Members keep the role of all members -/

/-- Whoever is a member was one, and has the roles that it had. -/
def Community.KeepsEnrolled (c c' : Community) : Prop :=
  ∀ pk, c'.getMember pk ≠ none →
    c.getMember pk ≠ none ∧ ∀ r, (pk, r) ∈ c.memberRoles → (pk, r) ∈ c'.memberRoles

namespace Community.KeepsEnrolled

theorem of_eq (hmembers : c'.members = c.members) (hroles : c.memberRoles ⊆ c'.memberRoles) :
    c.KeepsEnrolled c' :=
  fun _ h => ⟨by rwa [Community.getMember, hmembers] at h, fun _ hr => hroles hr⟩

theorem refl : c.KeepsEnrolled c := .of_eq rfl (List.Subset.refl _)

theorem trans {c'' : Community} (h : c.KeepsEnrolled c') (h' : c'.KeepsEnrolled c'') :
    c.KeepsEnrolled c'' := by
  intro pk hpk
  obtain ⟨hmember, hroles⟩ := h' pk hpk
  obtain ⟨hmember, hkept⟩ := h pk hmember
  exact ⟨hmember, fun r hr => hroles r (hkept r hr)⟩

theorem updateMember {key : PublicKey} {f : MemberRow → MemberRow} :
    c.KeepsEnrolled (c.updateMember key f) := by
  intro pk h
  rw [getMember_updateMember] at h
  refine ⟨?_, fun _ hr => hr⟩
  split_ifs at h with hkey
  · exact fun hnone => h (by rw [← hkey, hnone, Option.map_none])
  · exact h

theorem expireTimeout {pk : PublicKey} {nowMs : ℕ} :
    c.KeepsEnrolled (c.expireTimeout pk nowMs) := by
  rcases expireTimeout_eq c pk nowMs with h | h <;> rw [h]
  · exact refl
  · exact updateMember

theorem removeMember {key : PublicKey} : c.KeepsEnrolled (c.removeMember key) := by
  intro pk h
  simp only [Community.getMember, Community.removeMember, FiniteMap.lookup_erase_eq] at h
  split_ifs at h with hkey
  · exact absurd rfl h
  · exact ⟨h, fun r hr => List.mem_filter.mpr ⟨hr, by simpa using hkey⟩⟩

theorem removeMemberRow {key : PublicKey} (h : c.removeMemberRow key = .ok c') :
    c.KeepsEnrolled c' := by
  simp only [Community.removeMemberRow, bind_eq_ok, pure_eq_ok] at h
  obtain ⟨⟨⟩, -, rfl⟩ := h
  intro pk h
  simp only [Community.getMember, FiniteMap.lookup_erase_eq] at h
  split_ifs at h
  · exact absurd rfl h
  · exact ⟨h, fun _ hr => hr⟩

end Community.KeepsEnrolled

theorem keepsEnrolled_frame :
    Host.Frame fun host host' => host.community.KeepsEnrolled host'.community :=
  .of_community (fun _ => .refl) (fun _ _ _ h h' => h.trans h') (fun _ _ _ => .expireTimeout)
    (fun _ _ _ => .of_eq rfl (List.Subset.refl _)) (fun _ _ => .of_eq rfl (List.Subset.refl _))
    fun _ _ => .of_eq rfl (List.Subset.refl _)

theorem channelEffect_enrolled {request : ChannelRequest}
    (h : ChannelEffect host member isOwner request host') :
    host.community.KeepsEnrolled host'.community := by
  cases h <;> exact .of_eq rfl (List.Subset.refl _)

theorem memberEffect_enrolled {request : MemberRequest}
    (h : MemberEffect host member isOwner moment request host')
    (hbot : ∀ label settings, request ≠ .addBot label settings) :
    host.community.KeepsEnrolled host'.community := by
  cases h with
  | kickMember => exact .removeMember
  | createInvite hperm hinvite =>
    have hmembers := createInvite_members hinvite
    simp only [Community.createInvite, bind_eq_ok, pure_eq_ok] at hinvite
    obtain ⟨expiresAt, -, ⟨⟩, -, rfl⟩ := hinvite
    exact .of_eq hmembers (List.Subset.refl _)
  | addBot => exact absurd rfl (hbot _ _)
  | removeBot hperm hremovable hremove =>
    have hbots : ∀ key, host.community.KeepsEnrolled (host.community.removeBot key) :=
      fun _ => .of_eq rfl (List.Subset.refl _)
    exact (hbots _).trans (.removeMemberRow hremove)
  | banMember => exact .updateMember
  | unbanMember => exact .updateMember
  | timeoutMember => exact .updateMember
  | removeTimeout => exact .updateMember
  | updateProfile => exact .updateMember
  | _ => exact .of_eq rfl (List.Subset.refl _)

theorem submitEvent_enrolled {event : Event} :
    host.community.KeepsEnrolled (host.submitEvent K moment event).1.community := by
  unfold Host.submitEvent
  split
  · exact .refl
  · unfold declareChannel
    split <;> exact .of_eq rfl (List.Subset.refl _)

theorem executeDeletions_enrolled {reqs : List DeletionRequest} :
    host.community.KeepsEnrolled (host.executeDeletions reqs).community := by
  induction reqs generalizing host with
  | nil => exact .refl
  | cons req reqs ih =>
    unfold executeDeletions
    split
    · refine .trans ?_ ih
      exact .removeMember
    · exact .refl

/-! ## What keeps the three in agreement -/

/-- A role that somebody has, or all members. -/
def Community.Held (c : Community) (x : ℕ × RoleRow) : Prop :=
  x.2.builtin = true ∨ ∃ y ∈ c.memberRoles, y.2 = x.1

instance (c : Community) (x : ℕ × RoleRow) : Decidable (c.Held x) :=
  inferInstanceAs (Decidable (_ ∨ _))

/-- Every member is assigned the role of all members, which has its name, and every role that
somebody has and that has `ADMIN` has everything. -/
structure Community.EveryoneKept (c : Community) : Prop where
  rolesKept : c.RolesKept
  named : ∃ x, c.everyone = some x
  assigned : ∀ x, c.everyone = some x → ∀ pk, c.getMember pk ≠ none → (pk, x.1) ∈ c.memberRoles
  complete : ∀ x ∈ c.roles, c.Held x → Complete x.2.permissions

/-- An operation that registers no bot, takes the role of all members from nobody and does not
rename it, and gives nobody a role that has `ADMIN` without the rest. -/
def HostOp.KeepsModel (host : Host) : HostOp → Prop
  | .request _ _ (.role (.updateRole roleId patch)) =>
    ∀ role ∈ host.community.getRole roleId,
      (host.community.Held (roleId, role) → ∀ p ∈ patch.permissions, Complete p) ∧
        (role.builtin = true → patch.name.getD role.name = role.name)
  | .request _ _ (.role (.assignRole _ roleId)) =>
    ∀ role ∈ host.community.getRole roleId, Complete role.permissions
  | .request _ _ (.role (.removeRole _ roleId)) =>
    ∀ role ∈ host.community.getRole roleId, role.builtin = false
  | .request _ _ (.member (.addBot _ _)) => False
  | _ => True

namespace Community.EveryoneKept

theorem mem_everyone {x : ℕ × RoleRow} (h : c.everyone = some x) :
    x ∈ c.roles ∧ x.2.name = everyoneRole ∧ x.2.builtin = true := by
  obtain ⟨hmem, hfound⟩ := Table.find?_mem h
  exact ⟨hmem, of_decide_eq_true hfound⟩

theorem frame (h : c.EveryoneKept) (hroles : c.RolesWithin c') (henrolled : c.KeepsEnrolled c') :
    c'.EveryoneKept := by
  have heveryone : c'.everyone = c.everyone := by rw [everyone, everyone, hroles.roles]
  refine ⟨h.rolesKept.within hroles, heveryone.symm ▸ h.named, ?_, fun x hx hheld => ?_⟩
  · rw [heveryone]
    intro x hx pk hpk
    obtain ⟨hmember, hkept⟩ := henrolled pk hpk
    exact hkept _ (h.assigned x hx pk hmember)
  · exact h.complete x (hroles.roles ▸ hx)
      (hheld.imp_right fun ⟨y, hy, heq⟩ => ⟨y, hroles.memberRoles hy, heq⟩)

theorem createRole {name : String} {permissions : Bits} {color : Option String} {position : ℕ}
    {hoist : Bool} (h : c.EveryoneKept) :
    (c.createRole name permissions color position false hoist).EveryoneKept := by
  obtain ⟨x, hx⟩ := h.named
  obtain ⟨hmem, hname, hbuiltin⟩ := mem_everyone hx
  have hkept : (c.createRole name permissions color position false hoist).RolesKept :=
    createRole_rolesKept h.rolesKept
  have hx' := everyone_eq_some hkept (Table.mem_insert.mpr (.inl hmem)) hname hbuiltin
  refine ⟨hkept, ⟨x, hx'⟩, fun y hy pk hpk => ?_, fun y hy hheld => ?_⟩
  · obtain rfl := Option.some.inj (hx'.symm.trans hy)
    exact h.assigned x hx pk hpk
  · rcases Table.mem_insert.mp hy with hy | rfl
    · exact h.complete y hy hheld
    · rcases hheld with hbuiltin' | ⟨z, hz, heq⟩
      · exact absurd hbuiltin' Bool.false_ne_true
      · exact absurd heq (h.rolesKept.assigned z hz).ne

theorem updateRole {roleId : ℕ} {patch : RolePatch} (h : c.EveryoneKept)
    (hkeeps : ∀ role ∈ c.getRole roleId,
      (c.Held (roleId, role) → ∀ p ∈ patch.permissions, Complete p) ∧
        (role.builtin = true → patch.name.getD role.name = role.name)) :
    (c.updateRole roleId patch.name patch.permissions (patch.color.map some) patch.position
      patch.hoist).EveryoneKept := by
  obtain ⟨x, hx⟩ := h.named
  obtain ⟨hmem, hnamed, hbuiltin⟩ := mem_everyone hx
  have hkept : (c.updateRole roleId patch.name patch.permissions (patch.color.map some)
      patch.position patch.hoist).RolesKept := updateRole_rolesKept h.rolesKept
  obtain ⟨x', hmem', hid, hnamed', hbuiltin'⟩ : ∃ x' ∈ (c.updateRole roleId patch.name
      patch.permissions (patch.color.map some) patch.position patch.hoist).roles,
      x'.1 = x.1 ∧ x'.2.name = everyoneRole ∧ x'.2.builtin = true := by
    refine ⟨_, Table.mem_map.mpr ⟨x, hmem, rfl⟩, rfl, ?_, ?_⟩
    · dsimp only
      split_ifs with hid
      · exact ((hkeeps x.2 (hid ▸ Table.get?_eq_some.mpr hmem)).2 hbuiltin).trans hnamed
      · exact hnamed
    · dsimp only
      split_ifs <;> exact hbuiltin
  have hx' := everyone_eq_some hkept hmem' hnamed' hbuiltin'
  refine ⟨hkept, ⟨x', hx'⟩, fun y hy pk hpk => ?_, fun y hy hheld => ?_⟩
  · obtain rfl := Option.some.inj (hx'.symm.trans hy)
    exact hid.symm ▸ h.assigned x hx pk hpk
  · obtain ⟨z, hz, rfl⟩ := Table.mem_map.mp hy
    have hheld : c.Held z := by
      refine hheld.imp_left fun hbuiltin => ?_
      dsimp only at hbuiltin
      split_ifs at hbuiltin <;> exact hbuiltin
    dsimp only
    split_ifs with hid
    · cases hpatch : patch.permissions with
      | none => exact h.complete z hz hheld
      | some p =>
        exact (hkeeps z.2 (hid ▸ Table.get?_eq_some.mpr hz)).1 (hid ▸ hheld) p hpatch
    · exact h.complete z hz hheld

theorem deleteRole {id : ℕ} (h : c.EveryoneKept) (hdelete : c.deleteRole id = .ok c') :
    c'.EveryoneKept := by
  have hkept := Community.deleteRole_rolesKept h.rolesKept hdelete
  obtain ⟨x, hx⟩ := h.named
  obtain ⟨hmem, hname, hbuiltin⟩ := mem_everyone hx
  simp only [Community.deleteRole, bind_eq_ok, context_eq_ok, ensure_eq_ok, pure_eq_ok] at hdelete
  obtain ⟨role, hrole, ⟨⟩, hplain, rfl⟩ := hdelete
  have hne : x.1 ≠ id := by
    rintro rfl
    obtain rfl := Option.some.inj ((Table.get?_eq_some.mpr hmem).symm.trans hrole)
    simp [hbuiltin] at hplain
  have hx' := everyone_eq_some hkept (Table.mem_delete.mpr ⟨hmem, by simpa using hne⟩) hname
    hbuiltin
  refine ⟨hkept, ⟨x, hx'⟩, fun y hy pk hpk => ?_, fun y hy hheld => ?_⟩
  · obtain rfl := Option.some.inj (hx'.symm.trans hy)
    exact List.mem_filter.mpr ⟨h.assigned x hx pk hpk, by simpa using hne⟩
  · refine h.complete y (Table.mem_delete.mp hy).1 (hheld.imp_right fun hassigned => ?_)
    obtain ⟨z, hz, heq⟩ := hassigned
    exact ⟨z, (List.mem_filter.mp hz).1, heq⟩

theorem assignRole {pk : PublicKey} {id : ℕ} (h : c.EveryoneKept)
    (hcomplete : ∀ role ∈ c.getRole id, Complete role.permissions)
    (hassign : c.assignRole pk id = .ok c') : c'.EveryoneKept := by
  have hkept := Community.assignRole_rolesKept h.rolesKept hassign
  have hgrows : ∀ y ∈ c.memberRoles, y ∈ c'.memberRoles := fun y hy =>
    mem_roleIds.mp ((mem_roleIds_assignRole hassign).mpr (.inl (mem_roleIds.mpr hy)))
  have hgiven : ∀ y ∈ c'.memberRoles, y ∈ c.memberRoles ∨ y.2 = id := fun y hy =>
    ((mem_roleIds_assignRole hassign).mp (mem_roleIds.mpr hy)).imp mem_roleIds.mp And.right
  simp only [Community.assignRole, bind_eq_ok, pure_eq_ok] at hassign
  obtain ⟨⟨⟩, -, rfl⟩ := hassign
  refine ⟨hkept, h.named, fun x hx pk hpk => hgrows _ (h.assigned x hx pk hpk), ?_⟩
  intro x hx hheld
  rcases hheld with hbuiltin | ⟨y, hy, heq⟩
  · exact h.complete x hx (.inl hbuiltin)
  · rcases hgiven y hy with hy | hid
    · exact h.complete x hx (.inr ⟨y, hy, heq⟩)
    · exact hcomplete x.2 (Table.get?_eq_some.mpr (heq.symm.trans hid ▸ hx))

theorem unassignRole {pk : PublicKey} {id : ℕ} (h : c.EveryoneKept)
    (hplain : ∀ role ∈ c.getRole id, role.builtin = false) :
    (c.unassignRole pk id).EveryoneKept := by
  refine ⟨h.rolesKept.within ⟨rfl, fun _ hx => (List.mem_filter.mp hx).1⟩, h.named, ?_,
    fun x hx hheld => h.complete x hx
      (hheld.imp_right fun ⟨z, hz, heq⟩ => ⟨z, (List.mem_filter.mp hz).1, heq⟩)⟩
  intro x hx key hkey
  obtain ⟨hmem, -, hbuiltin⟩ := mem_everyone hx
  refine List.mem_filter.mpr ⟨h.assigned x hx key hkey, ?_⟩
  simp only [ne_eq, Prod.mk.injEq, not_and, decide_eq_true_eq]
  rintro - rfl
  simp [hplain x.2 (Table.get?_eq_some.mpr hmem)] at hbuiltin

end Community.EveryoneKept

theorem roleRequest_everyoneKept {request : RoleRequest} (h : host.community.EveryoneKept)
    (hkeeps : (∃ a, (host.handleRoleRequest member isOwner request).2 = .ok a) →
      HostOp.KeepsModel host (.request member isOwner (.role request))) :
    (host.handleRoleRequest member isOwner request).1.community.EveryoneKept := by
  by_cases haccepts : ∃ a, (host.handleRoleRequest member isOwner request).2 = .ok a
  · have hkeeps := hkeeps haccepts
    have heffect := @roleRequest_effect host member isOwner request
    generalize (host.handleRoleRequest member isOwner request).1 = host' at heffect
    cases heffect with
    | refused => exact h
    | createRole => exact h.createRole
    | updateRole => exact h.updateRole hkeeps
    | deleteRole role hbelow hdelete => exact h.deleteRole hdelete
    | assignRole role hbelow hassign => exact h.assignRole hkeeps hassign
    | removeRole => exact h.unassignRole hkeeps
  · have hsame : (host.handleRoleRequest member isOwner request).1 = host := by
      rw [not_exists] at haccepts
      cases request with
      | createRole => exact createRole_rejected haccepts
      | updateRole => exact updateRole_rejected haccepts
      | deleteRole => exact commit_rejected (fun _ _ => ⟨_, rfl⟩) haccepts
      | assignRole => exact commit_rejected (fun _ _ => ⟨_, rfl⟩) haccepts
      | removeRole => exact commit_rejected (fun _ _ => ⟨_, rfl⟩) haccepts
    exact hsame.symm ▸ h

theorem memberRequest_everyoneKept {request : MemberRequest} (h : host.community.EveryoneKept)
    (hkeeps : (∃ a, (host.handleMemberRequest member isOwner moment request).2 = .ok a) →
      HostOp.KeepsModel host (.request member isOwner (.member request))) :
    (host.handleMemberRequest member isOwner moment request).1.community.EveryoneKept := by
  by_cases hbot : ∃ label settings, request = .addBot label settings
  · obtain ⟨label, settings, rfl⟩ := hbot
    have hsame : (host.handleMemberRequest member isOwner moment (.addBot label settings)).1 =
        host := commit_rejected (fun _ _ => ⟨_, rfl⟩) (not_exists.mp hkeeps)
    exact hsame.symm ▸ h
  · have heffect := @memberRequest_effect host member isOwner moment request
    refine h.frame (memberEffect_within heffect) (memberEffect_enrolled heffect ?_)
    rintro label settings rfl
    exact hbot ⟨label, settings, rfl⟩

theorem dispatch_everyoneKept {request : Request} (h : host.community.EveryoneKept)
    (hkeeps : (∃ a, (host.dispatch K member isOwner moment request).2 = .ok a) →
      HostOp.KeepsModel host (.request member isOwner request)) :
    (host.dispatch K member isOwner moment request).1.community.EveryoneKept := by
  cases request with
  | channel request =>
    exact h.frame (channelEffect_within (channelRequest_effect request))
      (channelEffect_enrolled (channelRequest_effect request))
  | role request => exact roleRequest_everyoneKept h hkeeps
  | member request => exact memberRequest_everyoneKept h hkeeps
  | submitEvent event => exact h.frame submitEvent_within submitEvent_enrolled
  | _ => exact h.frame (rolesWithin_frame.dispatch rfl) (keepsEnrolled_frame.dispatch rfl)

theorem register_everyoneKept {displayName : String} {now : ℕ} (h : host.community.EveryoneKept)
    (hregister : host.register member displayName now = .ok host') :
    host'.community.EveryoneKept := by
  have hkept := register_rolesKept h.rolesKept hregister
  obtain ⟨x, hx⟩ := h.named
  simp only [Host.register, Community.registerMember, bind_eq_ok, pure_eq_ok] at hregister
  obtain ⟨registered, ⟨⟨⟩, -, rfl⟩, hwritten⟩ := hregister
  have hx' : ({ host.community with
      members := host.community.members.insert member
        ⟨displayName, now, false, false, none, none, none, false⟩ } : Community).everyone =
      some x := hx
  rw [hx'] at hwritten
  obtain ⟨community, hassign, rfl⟩ := map_eq_ok.mp hwritten
  have hids : ∀ pk r, r ∈ community.getMemberRoleIds pk ↔ _ ∨ member = pk ∧ r = x.1 :=
    fun _ _ => mem_roleIds_assignRole hassign
  simp only [Community.assignRole, bind_eq_ok, pure_eq_ok] at hassign
  obtain ⟨⟨⟩, -, rfl⟩ := hassign
  refine ⟨hkept, h.named, fun y hy pk hpk => ?_, fun y hy hheld => ?_⟩
  · obtain rfl := Option.some.inj (hx.symm.trans hy)
    refine mem_roleIds.mp ((hids pk x.1).mpr ?_)
    by_cases hkey : member = pk
    · exact .inr ⟨hkey, rfl⟩
    · refine .inl (mem_roleIds.mpr (h.assigned x hx pk ?_))
      simpa [Host.withCommunity, Community.getMember, Ne.symm hkey] using hpk
  · rcases hheld with hbuiltin | ⟨z, hz, heq⟩
    · exact h.complete y hy (.inl hbuiltin)
    · rcases (hids z.1 z.2).mp (mem_roleIds.mpr hz) with hold | ⟨-, hid⟩
      · exact h.complete y hy (.inr ⟨z, mem_roleIds.mp hold, heq⟩)
      · obtain ⟨hmem, -, hbuiltin⟩ := Community.EveryoneKept.mem_everyone hx
        obtain rfl := Table.eq_of_key_eq (t := host.community.roles) hy hmem (heq.symm.trans hid)
        exact h.complete y hy (.inl hbuiltin)

theorem authenticateNewMember_everyoneKept {displayName : String} {credentials : Credentials}
    {genesis : Genesis} (hkept : host.community.EveryoneKept)
    (h : host.authenticateNewMember K member moment displayName credentials genesis = .ok host') :
    host'.community.EveryoneKept := by
  unfold Host.authenticateNewMember at h
  split at h
  · simp only [bind_eq_ok, pure_eq_ok] at h
    obtain ⟨token, -, ⟨⟩, -, registered, hregister, rfl⟩ := h
    have hregistered := register_everyoneKept hkept hregister
    rw [claim_community]
    exact hregistered
  · simp only [bind_eq_ok, prefixed_eq_ok] at h
    obtain ⟨community, huse, hregister⟩ := h
    have hwithin := Community.useInvite_within huse
    simp only [Community.useInvite, bind_eq_ok, pure_eq_ok] at huse
    obtain ⟨invite, -, rfl⟩ := huse
    have hused := hkept.frame hwithin (.of_eq rfl (List.Subset.refl _))
    exact register_everyoneKept hused hregister
  · simp only [bind_eq_ok, pure_eq_ok] at h
    obtain ⟨⟨⟩, -, registered, hregister, rfl⟩ := h
    rw [claim_community]
    exact register_everyoneKept hkept hregister

theorem perform_everyoneKept {e : Moment × HostOp} (h : host.community.EveryoneKept)
    (hkeeps : host.Accepts K e → e.2.KeepsModel host) :
    (host.perform K e.1 e.2).1.community.EveryoneKept := by
  obtain ⟨moment, op⟩ := e
  cases op with
  | request member isOwner request =>
    simp only [Accepts, perform, handleRequest] at hkeeps ⊢
    split_ifs at hkeeps ⊢
    · split at hkeeps
      · exact h
      · exact dispatch_everyoneKept h hkeeps
    · exact dispatch_everyoneKept h hkeeps
  | handshake member displayName credentials genesis =>
    simp only [perform, handshake]
    split
    · exact h
    · exact commit_effect (P := fun host' => host'.community.EveryoneKept) h
        fun host' hok => authenticateNewMember_everyoneKept h hok
  | upload member isOwner channelId upload =>
    simp only [perform, auxiliary]
    split
    · exact h
    · rw [upload_community]
      exact h
  | download member isOwner fileId =>
    simp only [perform, auxiliary]
    split <;> exact h
  | purgeExpiredMessages =>
    rw [perform, sweep_community]
    exact h
  | executePendingDeletions => exact h.frame executeDeletions_within executeDeletions_enrolled
  | cleanupOrphanedFile fileId => exact h
  | continueCommand command outcome =>
    exact h.frame rolesWithin_frame.continueCommand keepsEnrolled_frame.continueCommand

theorem firstRun_everyoneKept {setup : Setup} :
    (Host.firstRun setup).community.EveryoneKept := by
  refine applyTemplate_rule (P := fun host => host.community.EveryoneKept)
    ⟨everyone_rolesKept, ⟨_, rfl⟩, fun _ _ _ hpk => absurd rfl hpk, ?_⟩ (fun _ _ h => h.createRole)
    (fun _ _ _ h => h.frame (.of_eq rfl rfl) (.of_eq rfl (List.Subset.refl _)))
    fun _ _ _ _ _ h => h.frame (.of_eq rfl rfl) (.of_eq rfl (List.Subset.refl _))
  intro x hx _
  obtain rfl := List.mem_singleton.mp hx
  exact fun hadmin => absurd hadmin (by decide)

theorem complete_base (h : host.community.EveryoneKept) :
    Complete (host.contextOf member isOwner place).base := by
  intro hadmin
  rw [has_admin, base_of] at hadmin
  obtain ⟨x, hx, hheld, hbits, hadmin⟩ : ∃ x ∈ host.community.roles, host.community.Held x ∧
      (∀ i, x.2.permissions.getLsbD i = true →
        (host.contextOf member isOwner place).base.getLsbD i = true) ∧
      x.2.permissions.getLsbD 12 = true := by
    rcases hadmin with heveryone | ⟨r, hr, role, hrole, hbit⟩
    · obtain ⟨x, hx, hbit⟩ := everyonePermissions_bit.mp heveryone
      obtain ⟨hmem, -, hbuiltin⟩ := Community.EveryoneKept.mem_everyone hx
      refine ⟨x, hmem, .inl hbuiltin, fun i hi => ?_, hbit⟩
      exact base_of.mpr (.inl (everyonePermissions_bit.mpr ⟨x, hx, hi⟩))
    · refine ⟨(r, role), Table.get?_eq_some.mp hrole, .inr ⟨_, mem_roleIds.mp hr, rfl⟩,
        fun i hi => ?_, hbit⟩
      exact base_of.mpr (.inr ⟨r, hr, role, hrole, hi⟩)
  have hall := of_decide_eq_true (h.complete x hx hheld (has_admin.trans hadmin))
  refine decide_eq_true (BitVec.eq_of_getLsbD_eq fun i _ => ?_)
  rw [BitVec.getLsbD_and, Bool.and_eq_right_iff_imp]
  intro hi
  have hbit := congrArg (fun w : Bits => w.getLsbD i) hall
  rw [BitVec.getLsbD_and, hi, Bool.and_true] at hbit
  exact hbits i hbit

theorem everyoneKept_of_run {setup : Setup} {tr : List (Transition Host (Moment × HostOp))}
    (hrun : HostRun K (.firstRun setup) tr host)
    (hkeeps : ∀ x ∈ tr, x.pre.Accepts K x.event → x.event.2.KeepsModel x.pre) :
    host.community.EveryoneKept :=
  hrun.good_end (Q := fun host => host.community.EveryoneKept) firstRun_everyoneKept
    fun x hx => (hrun.kept (Q := fun host => host.community.EveryoneKept) firstRun_everyoneKept
      (fun x hx hstep hpre => hstep ▸ perform_everyoneKept hpre (hkeeps x hx)) x hx).2

open SampleLog SampleHost

instance (host : Host) (op : HostOp) : Decidable (op.KeepsModel host) := by
  unfold HostOp.KeepsModel
  split <;> infer_instance

/-- Bob gets a role with `ADMIN` alone. -/
def adminOfBob : List (Moment × HostOp) :=
  joined ++ requests 9
    [(alice, .role (.createRole "admins" admin none (some 1) none)),
     (alice, .role (.assignRole (key bob) 2))]

/-- Nobody is to see the first channel, and Bob loses the role that says so. -/
def hiddenFromAll : List (Moment × HostOp) :=
  joined ++ requests 9
    [(alice, .channel (.setChannelOverride 1 1 0 viewChannel)),
     (alice, .role (.removeRole (key bob) 1))]

end Server
