import Farder.Server.RoleRows
import Farder.Server.SampleHost

/-! # Nobody's own hand raises a rank

The requests about roles compare positions with the highest one of the member that makes them. A
role that a request touches lies below that, before and after. -/
namespace Server

open EventLog Guarded Permissions

variable {K : Crypto} {host host' : Host} {member : PublicKey} {isOwner : Bool} {moment : Moment}
  {c c' : Community} {n : ℕ} {pk : PublicKey}

namespace Community

/-- The role is created, moved, edited or deleted, or it is assigned to somebody or removed from
somebody. -/
def Touches (c c' : Community) (id : ℕ) : Prop :=
  c'.getRole id ≠ c.getRole id ∨
    ∃ pk, ¬((pk, id) ∈ c'.memberRoles ↔ (pk, id) ∈ c.memberRoles)

def TouchesBelow (c c' : Community) (position : ℕ) : Prop :=
  ∀ id, c.Touches c' id → (∀ row ∈ c.getRole id, row.position < position) ∧
    ∀ row ∈ c'.getRole id, row.position < position

structure SameRoles (c c' : Community) : Prop where
  roles : c'.roles = c.roles
  memberRoles : c'.memberRoles = c.memberRoles

theorem SameRoles.refl : c.SameRoles c := ⟨rfl, rfl⟩

theorem SameRoles.trans {c'' : Community} (h : c.SameRoles c') (h' : c'.SameRoles c'') :
    c.SameRoles c'' :=
  ⟨h'.roles.trans h.roles, h'.memberRoles.trans h.memberRoles⟩

theorem SameRoles.touchesBelow (h : c.SameRoles c') (position : ℕ) :
    c.TouchesBelow c' position := by
  rintro id (hrole | ⟨pk, hassigned⟩)
  · exact absurd (by rw [getRole, getRole, h.roles]) hrole
  · exact absurd (by rw [h.memberRoles]) hassigned

/-! ## The highest position -/

theorem foldl_max_le {l : List ℕ} {m : ℕ} : l.foldl max m ≤ n ↔ m ≤ n ∧ ∀ x ∈ l, x ≤ n := by
  induction l generalizing m with
  | nil => simp
  | cons x l ih => simp [ih, and_assoc]

theorem mem_memberRoleIds {id : ℕ} : id ∈ c.getMemberRoleIds pk ↔ (pk, id) ∈ c.memberRoles := by
  simp [getMemberRoleIds]

theorem highest_le_iff : c.getHighestRolePosition pk ≤ n ↔
    ∀ id, (pk, id) ∈ c.memberRoles → ∀ row ∈ c.getRole id, row.position ≤ n := by
  simp only [getHighestRolePosition, foldl_max_le, memberRoleRows, List.mem_map,
    List.mem_filterMap, mem_memberRoleIds, Nat.zero_le, true_and]
  constructor
  · exact fun h id hid row hrow => h row.position ⟨row, ⟨id, hid, hrow⟩, rfl⟩
  · rintro h x ⟨row, ⟨id, hid, hrow⟩, rfl⟩
    exact h id hid row hrow

theorem position_le {id : ℕ} {row : RoleRow} (hid : (pk, id) ∈ c.memberRoles)
    (hrow : c.getRole id = some row) : row.position ≤ c.getHighestRolePosition pk :=
  highest_le_iff.mp le_rfl id hid row hrow

theorem highest_le_of_touchesBelow (h : c.TouchesBelow c' (c.getHighestRolePosition pk)) :
    c'.getHighestRolePosition pk ≤ c.getHighestRolePosition pk := by
  refine highest_le_iff.mpr fun id hid row hrow => ?_
  by_cases htouched : c.Touches c' id
  · exact ((h id htouched).2 row hrow).le
  · rw [Touches, not_or, not_exists] at htouched
    obtain ⟨hrole, hassigned⟩ := htouched
    exact position_le ((not_not.mp (hassigned pk)).mp hid) (not_not.mp hrole ▸ hrow)

end Community

open Community

/-! ## The requests about roles -/

theorem touchesBelow_of_role (id : ℕ) (hroles : ∀ other ≠ id, c'.getRole other = c.getRole other)
    (hassigned : ∀ pk, ∀ other ≠ id, (pk, other) ∈ c'.memberRoles ↔ (pk, other) ∈ c.memberRoles)
    (hbefore : ∀ row ∈ c.getRole id, row.position < n)
    (hafter : ∀ row ∈ c'.getRole id, row.position < n) : c.TouchesBelow c' n := by
  intro other htouched
  by_cases hid : other = id
  · subst hid
    exact ⟨hbefore, hafter⟩
  · rcases htouched with hrole | ⟨pk, hrole⟩
    · exact absurd (hroles other hid) hrole
    · exact absurd (hassigned pk other hid) hrole

theorem requireRoleBelow_position {roleId : ℕ} {role : RoleRow}
    (h : host.requireRoleBelow member false roleId = .ok role) :
    ∀ row ∈ host.community.getRole roleId,
      row.position < host.community.getHighestRolePosition member := by
  obtain ⟨-, hrole, hbelow⟩ := requireRoleBelow_eq_ok.mp h
  intro row hrow
  obtain rfl := Option.some.inj (hrole.symm.trans hrow)
  exact hbelow.resolve_left nofun

theorem createRole_touchesBelow {name : String} {permissions : Bits} {color : Option String}
    {position : ℕ} {hoist : Bool} (h : position < n) :
    c.TouchesBelow (c.createRole name permissions color position false hoist) n := by
  have hget (id : ℕ) : (c.createRole name permissions color position false hoist).getRole id =
      if id = c.roles.next then some ⟨name, permissions, color, position, false, hoist⟩
      else c.getRole id := Table.get?_insert
  have hnew : c.getRole c.roles.next = none :=
    Table.get?_eq_none.mpr fun x hx => (Table.key_lt hx).ne
  refine touchesBelow_of_role c.roles.next (fun other hother => ?_) (fun _ _ _ => Iff.rfl) ?_ ?_
  · rw [hget, if_neg hother]
  · rw [hnew]
    nofun
  · rw [hget, if_pos rfl]
    rintro row ⟨⟩
    exact h

theorem updateRole_touchesBelow {id : ℕ} {patch : RolePatch}
    (hbefore : ∀ row ∈ c.getRole id, row.position < n)
    (hposition : ∀ position ∈ patch.position, position < n) :
    c.TouchesBelow (c.updateRole id patch.name patch.permissions (patch.color.map some)
      patch.position patch.hoist) n := by
  refine touchesBelow_of_role id (fun other hother => ?_) (fun _ _ _ => Iff.rfl) hbefore ?_
  · simp only [getRole, updateRole, Table.modify, Table.get?_map, if_neg hother, Option.map_id']
  · simp only [getRole, updateRole, Table.modify, Table.get?_map, if_true, Option.mem_def,
      Option.map_eq_some_iff]
    rintro row ⟨old, hold, rfl⟩
    cases hnew : patch.position with
    | none => exact hbefore old hold
    | some position => exact hposition position hnew

theorem deleteRole_touchesBelow {id : ℕ} (hbefore : ∀ row ∈ c.getRole id, row.position < n)
    (h : c.deleteRole id = .ok c') : c.TouchesBelow c' n := by
  simp only [deleteRole, bind_eq_ok, pure_eq_ok] at h
  obtain ⟨role, -, ⟨⟩, -, rfl⟩ := h
  refine touchesBelow_of_role id (fun other hother => ?_) (fun pk other hother => ?_) hbefore ?_
  · exact Table.get?_delete_of_kept fun _ => decide_eq_false hother
  · simp [hother]
  · intro row hrow
    simp only [getRole, Option.mem_def, Table.get?_eq_some, Table.mem_delete,
      decide_eq_false_iff_not] at hrow
    exact absurd trivial hrow.2

theorem assignRole_touchesBelow {id : ℕ} (hbefore : ∀ row ∈ c.getRole id, row.position < n)
    (h : c.assignRole pk id = .ok c') : c.TouchesBelow c' n := by
  simp only [assignRole, bind_eq_ok, ensure_eq_ok, pure_eq_ok] at h
  obtain ⟨⟨⟩, -, rfl⟩ := h
  refine touchesBelow_of_role id (fun _ _ => rfl) (fun other id' hid => ?_) hbefore hbefore
  dsimp only
  split_ifs
  · rfl
  · simp [hid]

theorem unassignRole_touchesBelow {id : ℕ} (hbefore : ∀ row ∈ c.getRole id, row.position < n) :
    c.TouchesBelow (c.unassignRole pk id) n := by
  refine touchesBelow_of_role id (fun _ _ => rfl) (fun other id' hid => ?_) hbefore hbefore
  simp [unassignRole, hid]

theorem roleRequest_touchesBelow (request : RoleRequest) : host.community.TouchesBelow
    (host.handleRoleRequest member false request).1.community
    (host.community.getHighestRolePosition member) := by
  have hrefused := SameRoles.refl.touchesBelow (c := host.community)
    (host.community.getHighestRolePosition member)
  cases request with
  | createRole name permissions color position hoist =>
    refine Host.commit_effect (P := fun host' => host.community.TouchesBelow host'.community _)
      hrefused fun host' h => ?_
    simp only [bind_eq_ok, requireRoleHierarchy_eq_ok, pure_eq_ok] at h
    obtain ⟨⟨⟩, -, ⟨⟩, hbelow, rfl⟩ := h
    exact createRole_touchesBelow (hbelow.resolve_left Bool.false_ne_true)
  | updateRole roleId patch =>
    refine Host.commit_effect (P := fun host' => host.community.TouchesBelow host'.community _)
      hrefused fun host' h => ?_
    simp only [bind_eq_ok, forAll_eq_ok, requireRoleHierarchy_eq_ok, pure_eq_ok] at h
    obtain ⟨role, hbelow, ⟨⟩, hposition, rfl⟩ := h
    refine updateRole_touchesBelow (requireRoleBelow_position hbelow) fun position hnew => ?_
    exact (hposition position (Option.mem_toList.mpr hnew)).resolve_left Bool.false_ne_true
  | deleteRole roleId =>
    refine Host.commit_effect (P := fun host' => host.community.TouchesBelow host'.community _)
      hrefused fun host' h => ?_
    simp only [bind_eq_ok, map_eq_ok] at h
    obtain ⟨role, hbelow, community, hdelete, rfl⟩ := h
    exact deleteRole_touchesBelow (requireRoleBelow_position hbelow) hdelete
  | assignRole memberKey roleId =>
    refine Host.commit_effect (P := fun host' => host.community.TouchesBelow host'.community _)
      hrefused fun host' h => ?_
    simp only [bind_eq_ok, map_eq_ok] at h
    obtain ⟨role, hbelow, community, hassign, rfl⟩ := h
    exact assignRole_touchesBelow (requireRoleBelow_position hbelow) hassign
  | removeRole memberKey roleId =>
    refine Host.commit_effect (P := fun host' => host.community.TouchesBelow host'.community _)
      hrefused fun host' h => ?_
    simp only [bind_eq_ok, pure_eq_ok] at h
    obtain ⟨role, hbelow, rfl⟩ := h
    exact unassignRole_touchesBelow (requireRoleBelow_position hbelow)

/-! ## The other requests -/

theorem expireTimeout_sameRoles (pk : PublicKey) (nowMs : ℕ) :
    c.SameRoles (c.expireTimeout pk nowMs) := by
  rcases expireTimeout_eq c pk nowMs with h | h <;> rw [h] <;> exact ⟨rfl, rfl⟩

theorem sameRoles_frame :
    Host.Frame fun host host' => host.community.SameRoles host'.community :=
  .of_community (fun _ => .refl) (fun _ _ _ h h' => h.trans h')
    (fun _ _ _ => expireTimeout_sameRoles _ _) (fun _ _ _ => ⟨rfl, rfl⟩)
    (fun _ _ => ⟨rfl, rfl⟩) fun _ _ => ⟨rfl, rfl⟩

theorem registerMember_sameRoles {displayName : String} {isBot : Bool} {now : ℕ}
    (h : c.registerMember pk displayName isBot now = .ok c') : c.SameRoles c' := by
  simp only [registerMember, bind_eq_ok, pure_eq_ok] at h
  obtain ⟨⟨⟩, -, rfl⟩ := h
  exact ⟨rfl, rfl⟩

theorem removeMember_touchesBelow (h : c.getHighestRolePosition pk < n) :
    c.TouchesBelow (c.removeMember pk) n := by
  rintro id (hrole | ⟨other, hassigned⟩)
  · exact absurd rfl hrole
  have hlost : (pk, id) ∈ c.memberRoles := by
    by_contra hnot
    refine hassigned ⟨fun hmem => (List.mem_filter.mp hmem).1, fun hmem => ?_⟩
    refine List.mem_filter.mpr ⟨hmem, decide_eq_true fun heq => ?_⟩
    obtain rfl : other = pk := heq
    exact hnot hmem
  have hbelow : ∀ row ∈ c.getRole id, row.position < n :=
    fun row hrow => (position_le hlost hrow).trans_lt h
  exact ⟨hbelow, hbelow⟩

theorem memberEffect_touchesBelow {request : MemberRequest}
    (h : MemberEffect host member false moment request host') : host.community.TouchesBelow
      host'.community (host.community.getHighestRolePosition member) := by
  cases h with
  | kickMember hbelow =>
    obtain ⟨-, hbelow⟩ := requireMemberBelow_eq_ok.mp hbelow
    exact removeMember_touchesBelow (hbelow.resolve_left nofun)
  | createInvite hperm hinvite =>
    simp only [Community.createInvite, bind_eq_ok, pure_eq_ok] at hinvite
    obtain ⟨expiresAt, -, ⟨⟩, -, rfl⟩ := hinvite
    exact SameRoles.touchesBelow ⟨rfl, rfl⟩ _
  | addBot hperm hregister hbot =>
    refine ((registerMember_sameRoles hregister).trans ?_).touchesBelow _
    simp only [Community.registerBot, bind_eq_ok, pure_eq_ok] at hbot
    obtain ⟨⟨⟩, -, rfl⟩ := hbot
    exact ⟨rfl, rfl⟩
  | removeBot hperm hremovable hremove =>
    simp only [Community.removeMemberRow, bind_eq_ok, pure_eq_ok] at hremove
    obtain ⟨⟨⟩, -, rfl⟩ := hremove
    exact SameRoles.touchesBelow ⟨rfl, rfl⟩ _
  | _ => exact SameRoles.touchesBelow ⟨rfl, rfl⟩ _

theorem channelEffect_sameRoles {request : ChannelRequest}
    (h : ChannelEffect host member isOwner request host') :
    host.community.SameRoles host'.community := by
  cases h <;> exact ⟨rfl, rfl⟩

theorem submitEvent_sameRoles {event : Event} :
    host.community.SameRoles (host.submitEvent K moment event).1.community := by
  unfold Host.submitEvent
  split
  · exact .refl
  · unfold Host.declareChannel
    split <;> exact ⟨rfl, rfl⟩

theorem dispatch_touchesBelow (request : Request) : host.community.TouchesBelow
    (host.dispatch K member false moment request).1.community
    (host.community.getHighestRolePosition member) := by
  cases request with
  | channel request =>
    exact (channelEffect_sameRoles (channelRequest_effect request)).touchesBelow _
  | role request => exact roleRequest_touchesBelow request
  | member request => exact memberEffect_touchesBelow (memberRequest_effect request)
  | submitEvent event => exact submitEvent_sameRoles.touchesBelow _
  | _ => exact (sameRoles_frame.dispatch rfl).touchesBelow _

/-- What a member who is not the owner asks for, by a request, an upload or a download. -/
def HostOp.IsOwnRequest (member : PublicKey) (op : HostOp) : Prop :=
  (∃ request, op = .request member false request) ∨
    (∃ channelId upload, op = .upload member false channelId upload) ∨
      ∃ fileId, op = .download member false fileId

theorem perform_touchesBelow {op : HostOp} (h : op.IsOwnRequest member) :
    host.community.TouchesBelow (host.perform K moment op).1.community
      (host.community.getHighestRolePosition member) := by
  rcases h with ⟨request, rfl⟩ | ⟨channelId, upload, rfl⟩ | ⟨fileId, rfl⟩
  · cases hgate : host.contentBlockReason member with
    | none =>
      rw [Host.perform, Host.handleRequest_of_open hgate]
      exact dispatch_touchesBelow request
    | some reason =>
      unfold Host.perform Host.handleRequest
      dsimp only
      split_ifs
      · rw [hgate]
        exact SameRoles.refl.touchesBelow _
      · exact dispatch_touchesBelow request
  · refine SameRoles.touchesBelow (sameRoles_frame.perform ?_ ?_ ?_) _ <;> simp
  · refine SameRoles.touchesBelow (sameRoles_frame.perform ?_ ?_ ?_) _ <;> simp

/-- Rank never rises by one's own hand: in every run of requests that one member makes, who is
not the owner, from a state that a server has reached, its highest position never exceeds the one
at the start; and every role that is created, moved, edited, deleted, assigned or removed lies
below the position that it has at the time, before as after. -/
theorem rank_kept {setup : Setup} {before tr : List (Transition Host (Moment × HostOp))}
    {start : Host} (_hbefore : HostRun K (.firstRun setup) before start)
    (hrun : HostRun K start tr host) (hown : ∀ x ∈ tr, x.event.2.IsOwnRequest member) :
    host.community.getHighestRolePosition member ≤
        start.community.getHighestRolePosition member ∧
      ∀ x ∈ tr, x.pre.community.TouchesBelow x.post.community
        (x.pre.community.getHighestRolePosition member) := by
  have hbelow (x) (hx : x ∈ tr) : x.pre.community.TouchesBelow x.post.community
      (x.pre.community.getHighestRolePosition member) := by
    have hstep : (x.pre.perform K x.event.1 x.event.2).1 = x.post := hrun.step_of_mem hx
    exact hstep ▸ perform_touchesBelow (hown x hx)
  have hkept := hrun.kept (Q := fun host => host.community.getHighestRolePosition member ≤
      start.community.getHighestRolePosition member) le_rfl
    fun x hx _ hpre => (highest_le_of_touchesBelow (hbelow x hx)).trans hpre
  refine ⟨?_, hbelow⟩
  exact hrun.good_end (Q := fun host => host.community.getHighestRolePosition member ≤
    start.community.getHighestRolePosition member) le_rfl fun x hx => (hkept x hx).2

open SampleLog SampleHost

/-- Alice gives Bob a role that may manage roles. -/
def promoted : List (Moment × HostOp) :=
  joined ++ requests 9
    [(alice, .role (.createRole "manager" manageRoles none (some 2) none)),
     (alice, .role (.assignRole (key bob) 2))]

/-- Bob creates a role, moves it as high as he may, and takes it. -/
def ownHand : List (Moment × HostOp) :=
  [(momentAt 12, .request (key bob) false (.role (.createRole "own" 0 none (some 0) none))),
   (momentAt 13, .request (key bob) false
     (.role (.updateRole 3 ⟨none, none, none, some 1, none⟩))),
   (momentAt 14, .request (key bob) false (.role (.assignRole (key bob) 3)))]

theorem rank_kept_by_bob :
    (hostAfter promoted).community.getHighestRolePosition (key bob) = 2 ∧
      (ownHand.foldl perform (hostAfter promoted)).community.getHighestRolePosition
        (key bob) ≤ (hostAfter promoted).community.getHighestRolePosition (key bob) := by
  refine ⟨by decide +kernel, (rank_kept (run_path promoted)
    (Execution.of_path perform ownHand) ?_).1⟩
  simp only [ownHand, Execution.path, List.forall_mem_cons, List.not_mem_nil, false_imp_iff,
    implies_true, and_true]
  exact ⟨.inl ⟨_, rfl⟩, .inl ⟨_, rfl⟩, .inl ⟨_, rfl⟩⟩

end Server
