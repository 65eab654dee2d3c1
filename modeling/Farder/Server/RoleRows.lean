import Farder.Server.MemberRows

/-! # What requests do to roles

The rows of roles and the assignments of members to them are written by requests about roles,
and by the enrolment of a member; whoever is removed loses its roles. -/
namespace Server

open EventLog Guarded Permissions

variable {K : Crypto} {host host' host'' : Host} {member : PublicKey} {isOwner : Bool}
  {moment : Moment} {c c' : Community}

/-- Every assigned role has been created, and the role of all members is the only builtin one. -/
structure Community.RolesKept (c : Community) : Prop where
  assigned : ∀ x ∈ c.memberRoles, x.2 < c.roles.next
  builtin : ∀ x ∈ c.roles, ∀ y ∈ c.roles, x.2.builtin = true → y.2.builtin = true → x.1 = y.1

/-- No role is written, and nobody is given one. -/
structure Community.RolesWithin (c c' : Community) : Prop where
  roles : c'.roles = c.roles
  memberRoles : c'.memberRoles ⊆ c.memberRoles

namespace Community

theorem RolesWithin.of_eq (hroles : c'.roles = c.roles) (hmember : c'.memberRoles = c.memberRoles) :
    c.RolesWithin c' :=
  ⟨hroles, hmember ▸ List.Subset.refl _⟩

theorem RolesWithin.refl : c.RolesWithin c := .of_eq rfl rfl

theorem RolesWithin.trans {c'' : Community} (h : c.RolesWithin c') (h' : c'.RolesWithin c'') :
    c.RolesWithin c'' :=
  ⟨h'.roles.trans h.roles, fun _ hx => h.memberRoles (h'.memberRoles hx)⟩

theorem RolesKept.within (hkept : c.RolesKept) (h : c.RolesWithin c') : c'.RolesKept where
  assigned x hx := by
    rw [h.roles]
    exact hkept.assigned x (h.memberRoles hx)
  builtin := by
    rw [h.roles]
    exact hkept.builtin

theorem expireTimeout_within (pk : PublicKey) (nowMs : ℕ) :
    c.RolesWithin (c.expireTimeout pk nowMs) := by
  rcases expireTimeout_eq c pk nowMs with h | h <;> rw [h] <;> exact .of_eq rfl rfl

theorem removeMember_within (pk : PublicKey) : c.RolesWithin (c.removeMember pk) :=
  ⟨rfl, fun _ hx => (List.mem_filter.mp hx).1⟩

theorem registerMember_within {pk : PublicKey} {displayName : String} {isBot : Bool} {now : ℕ}
    (h : c.registerMember pk displayName isBot now = .ok c') : c.RolesWithin c' := by
  simp only [registerMember, bind_eq_ok, pure_eq_ok] at h
  obtain ⟨⟨⟩, -, rfl⟩ := h
  exact .of_eq rfl rfl

theorem useInvite_within {code : String} {now : ℕ} (h : c.useInvite code now = .ok c') :
    c.RolesWithin c' := by
  simp only [useInvite, bind_eq_ok, pure_eq_ok] at h
  obtain ⟨invite, -, rfl⟩ := h
  exact .of_eq rfl rfl

theorem createRole_rolesKept {name : String} {permissions : Bits} {color : Option String}
    {position : ℕ} {hoist : Bool} (hkept : c.RolesKept) :
    (c.createRole name permissions color position false hoist).RolesKept where
  assigned x hx := (hkept.assigned x hx).trans (Nat.lt_succ_self _)
  builtin x hx y hy hxb hyb := by
    rcases Table.mem_insert.mp hx with hx | rfl
    · rcases Table.mem_insert.mp hy with hy | rfl
      · exact hkept.builtin x hx y hy hxb hyb
      · exact absurd hyb nofun
    · exact absurd hxb nofun

theorem updateRole_rolesKept {id : ℕ} {name : Option String} {permissions : Option Bits}
    {color : Option (Option String)} {position : Option ℕ} {hoist : Option Bool}
    (hkept : c.RolesKept) :
    (c.updateRole id name permissions color position hoist).RolesKept where
  assigned := hkept.assigned
  builtin x hx y hy hxb hyb := by
    obtain ⟨x, hx', rfl⟩ := Table.mem_map.mp hx
    obtain ⟨y, hy', rfl⟩ := Table.mem_map.mp hy
    refine hkept.builtin x hx' y hy' ?_ ?_
    · dsimp only at hxb
      split_ifs at hxb <;> exact hxb
    · dsimp only at hyb
      split_ifs at hyb <;> exact hyb

theorem deleteRole_rolesKept {id : ℕ} (hkept : c.RolesKept) (h : c.deleteRole id = .ok c') :
    c'.RolesKept := by
  simp only [deleteRole, bind_eq_ok, pure_eq_ok] at h
  obtain ⟨role, -, ⟨⟩, -, rfl⟩ := h
  constructor
  · exact fun x hx => hkept.assigned x (List.mem_filter.mp hx).1
  · exact fun x hx y hy =>
      hkept.builtin x (Table.mem_delete.mp hx).1 y (Table.mem_delete.mp hy).1

theorem assignRole_rolesKept {pk : PublicKey} {id : ℕ} (hkept : c.RolesKept)
    (h : c.assignRole pk id = .ok c') : c'.RolesKept := by
  simp only [assignRole, bind_eq_ok, ensure_eq_ok, pure_eq_ok] at h
  obtain ⟨⟨⟩, ⟨-, hrole⟩, rfl⟩ := h
  obtain ⟨role, hrole⟩ := Option.ne_none_iff_exists'.mp hrole
  refine ⟨fun x hx => ?_, hkept.builtin⟩
  dsimp only at hx
  split_ifs at hx
  · exact hkept.assigned x hx
  · rcases List.mem_append.mp hx with hx | hx
    · exact hkept.assigned x hx
    · obtain rfl := List.mem_singleton.mp hx
      exact Table.key_lt (Table.get?_eq_some.mp hrole)

end Community

open Host

theorem roleEffect_rolesKept {request : RoleRequest} (hkept : host.community.RolesKept)
    (h : RoleEffect host member isOwner request host') : host'.community.RolesKept := by
  cases h with
  | refused => exact hkept
  | createRole => exact Community.createRole_rolesKept hkept
  | updateRole => exact Community.updateRole_rolesKept hkept
  | deleteRole role hbelow hdelete => exact Community.deleteRole_rolesKept hkept hdelete
  | assignRole role hbelow hassign => exact Community.assignRole_rolesKept hkept hassign
  | removeRole => exact hkept.within ⟨rfl, fun _ hx => (List.mem_filter.mp hx).1⟩

theorem channelEffect_within {request : ChannelRequest}
    (h : ChannelEffect host member isOwner request host') :
    host.community.RolesWithin host'.community := by
  cases h <;> exact .of_eq rfl rfl

theorem memberEffect_within {request : MemberRequest}
    (h : MemberEffect host member isOwner moment request host') :
    host.community.RolesWithin host'.community := by
  cases h with
  | kickMember => exact Community.removeMember_within _
  | createInvite hperm hinvite =>
    simp only [Community.createInvite, bind_eq_ok, pure_eq_ok] at hinvite
    obtain ⟨expiresAt, -, ⟨⟩, -, rfl⟩ := hinvite
    exact .of_eq rfl rfl
  | addBot hperm hregister hbot =>
    refine (Community.registerMember_within hregister).trans ?_
    simp only [Community.registerBot, bind_eq_ok, pure_eq_ok] at hbot
    obtain ⟨⟨⟩, -, rfl⟩ := hbot
    exact .of_eq rfl rfl
  | removeBot hperm hremovable hremove =>
    simp only [Community.removeMemberRow, bind_eq_ok, pure_eq_ok] at hremove
    obtain ⟨⟨⟩, -, rfl⟩ := hremove
    exact .of_eq rfl rfl
  | _ => exact .of_eq rfl rfl

theorem rolesWithin_frame :
    Host.Frame fun host host' => host.community.RolesWithin host'.community :=
  .of_community (fun _ => .refl) (fun _ _ _ h h' => h.trans h')
    (fun _ _ _ => Community.expireTimeout_within _ _) (fun _ _ _ => .of_eq rfl rfl)
    (fun _ _ => .of_eq rfl rfl) fun _ _ => .of_eq rfl rfl

theorem submitEvent_within {event : Event} :
    host.community.RolesWithin (host.submitEvent K moment event).1.community := by
  unfold Host.submitEvent
  split
  · exact .refl
  · unfold declareChannel
    split <;> exact .of_eq rfl rfl

theorem dispatch_within {request : Request} (h : ∀ r, request ≠ .role r) :
    host.community.RolesWithin (host.dispatch K member isOwner moment request).1.community := by
  cases request with
  | channel request => exact channelEffect_within (channelRequest_effect request)
  | role request => exact absurd rfl (h request)
  | member request => exact memberEffect_within (memberRequest_effect request)
  | submitEvent event => exact submitEvent_within
  | _ => exact rolesWithin_frame.dispatch rfl

theorem handleRequest_rolesKept {request : Request} (hkept : host.community.RolesKept) :
    (host.handleRequest K member isOwner moment request).1.community.RolesKept := by
  have hdispatch : (host.dispatch K member isOwner moment request).1.community.RolesKept := by
    by_cases hrole : ∃ r, request = .role r
    · obtain ⟨r, rfl⟩ := hrole
      exact roleEffect_rolesKept hkept (roleRequest_effect r)
    · exact hkept.within (dispatch_within (not_exists.mp hrole))
  unfold handleRequest
  split_ifs
  · split
    · exact hkept
    · exact hdispatch
  · exact hdispatch

theorem register_rolesKept {displayName : String} {now : ℕ} (hkept : host.community.RolesKept)
    (h : host.register member displayName now = .ok host') : host'.community.RolesKept := by
  simp only [Host.register, bind_eq_ok] at h
  obtain ⟨registered, hregister, h⟩ := h
  have hregistered := hkept.within (Community.registerMember_within hregister)
  split at h
  · obtain ⟨community, hassign, rfl⟩ := map_eq_ok.mp h
    exact Community.assignRole_rolesKept hregistered hassign
  · obtain rfl := pure_eq_ok.mp h
    exact hregistered

theorem authenticateNewMember_rolesKept {displayName : String} {credentials : Credentials}
    {genesis : Genesis} (hkept : host.community.RolesKept)
    (h : host.authenticateNewMember K member moment displayName credentials genesis = .ok host') :
    host'.community.RolesKept := by
  unfold Host.authenticateNewMember at h
  split at h
  · simp only [bind_eq_ok, pure_eq_ok] at h
    obtain ⟨token, -, ⟨⟩, -, registered, hregister, rfl⟩ := h
    have hregistered := register_rolesKept hkept hregister
    rw [claim_community]
    exact hregistered
  · simp only [bind_eq_ok, prefixed_eq_ok] at h
    obtain ⟨community, huse, hregister⟩ := h
    have hused : (host.withCommunity community).community.RolesKept :=
      hkept.within (Community.useInvite_within huse)
    exact register_rolesKept hused hregister
  · simp only [bind_eq_ok, pure_eq_ok] at h
    obtain ⟨⟨⟩, -, registered, hregister, rfl⟩ := h
    rw [claim_community]
    exact register_rolesKept hkept hregister

theorem executeDeletions_within {reqs : List DeletionRequest} :
    host.community.RolesWithin (host.executeDeletions reqs).community := by
  induction reqs generalizing host with
  | nil => exact .refl
  | cons req reqs ih =>
    unfold executeDeletions
    split
    · refine .trans ?_ ih
      exact Community.removeMember_within _
    · exact .refl

theorem perform_rolesKept {e : Moment × HostOp} (hkept : host.community.RolesKept) :
    (host.perform K e.1 e.2).1.community.RolesKept := by
  obtain ⟨moment, op⟩ := e
  cases op with
  | request member isOwner request => exact handleRequest_rolesKept hkept
  | handshake member displayName credentials genesis =>
    simp only [perform, handshake]
    split
    · exact hkept
    · exact commit_effect (P := fun host' => host'.community.RolesKept) hkept
        fun host' h => authenticateNewMember_rolesKept hkept h
  | upload member isOwner channelId upload =>
    simp only [perform, auxiliary]
    split
    · exact hkept
    · rw [upload_community]
      exact hkept
  | download member isOwner fileId =>
    simp only [perform, auxiliary]
    split <;> exact hkept
  | purgeExpiredMessages =>
    rw [perform, sweep_community]
    exact hkept
  | executePendingDeletions => exact hkept.within executeDeletions_within
  | cleanupOrphanedFile fileId => exact hkept
  | continueCommand command outcome => exact hkept.within rolesWithin_frame.continueCommand

theorem everyone_rolesKept :
    (Community.empty.createRole everyoneRole defaultEveryone none 0 true false).RolesKept where
  assigned x hx := absurd hx List.not_mem_nil
  builtin x hx y hy _ _ := by
    obtain rfl := List.mem_singleton.mp hx
    obtain rfl := List.mem_singleton.mp hy
    rfl

theorem firstRun_rolesKept {setup : Setup} :
    (Host.firstRun setup).community.RolesKept :=
  applyTemplate_rule (P := fun host => host.community.RolesKept) everyone_rolesKept
    (fun _ _ h => Community.createRole_rolesKept h) (fun _ _ _ h => h.within (.of_eq rfl rfl))
    fun _ _ _ _ _ h => h.within (.of_eq rfl rfl)

theorem rolesKept_of_run {setup : Setup} {tr : List (Transition Host (Moment × HostOp))}
    (h : HostRun K (.firstRun setup) tr host) : host.community.RolesKept :=
  h.invariant (I := fun host => host.community.RolesKept) firstRun_rolesKept
    fun _ _ _ hkept hstep => hstep ▸ perform_rolesKept hkept

end Server
