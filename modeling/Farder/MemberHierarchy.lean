import Farder.Server.MemberRows
import Farder.Server.SampleHost

/-! # The hierarchy of members

A member's row is removed, banned or timed out by four kinds of requests. Three of them compare
the roles of the two members, without asking whether the target owns the server; the fourth
asks for a permission only. -/
namespace Server

open EventLog Guarded Permissions

variable {K : Crypto} {host host' : Host} {member target : PublicKey} {isOwner : Bool}
  {moment : Moment}

/-- A row that is there afterwards too, not banned and not timed out by what has happened. -/
def Spared (before after : Option MemberRow) : Prop :=
  ∀ row ∈ before, ∃ row' ∈ after, (row'.banned = true → row.banned = true) ∧
    (row'.timeoutUntil = none ∨ row'.timeoutUntil = row.timeoutUntil)

def Host.Spares (host host' : Host) (target : PublicKey) : Prop :=
  Spared (host.community.getMember target) (host'.community.getMember target)

/-- The owner, and any other member whose highest role is not below the actor's. -/
def Host.Protects (host : Host) (member target : PublicKey) : Prop :=
  host.owner = some target ∨ target ≠ member ∧
    host.community.getHighestRolePosition member ≤ host.community.getHighestRolePosition target

/-- A request that passes its checks and acts on the row of the target: a kick, a ban or a
timeout that is new, or the removal of the target as if it were a bot, when it has no roles. -/
def Host.Strikes (host : Host) (member : PublicKey) (isOwner : Bool) (moment : Moment)
    (target : PublicKey) (row : MemberRow) : Request → Prop
  | .member (.kickMember memberKey) => memberKey = target ∧
      host.requireMemberBelow member isOwner target kickMembers "KICK_MEMBERS" = .ok () ∧
      host.community.isSystemIdentity target = false
  | .member (.banMember memberKey _) => memberKey = target ∧
      host.requireMemberBelow member isOwner target banMembers "BAN_MEMBERS" = .ok () ∧
      host.community.isSystemIdentity target = false ∧ row.banned = false
  | .member (.timeoutMember memberKey untilMs _) => memberKey = target ∧
      host.requireMemberBelow member isOwner target timeoutMembers "TIMEOUT_MEMBERS" = .ok () ∧
      (moment.nowMs < untilMs ∧ untilMs ≤ moment.nowMs + maxTimeoutMs) ∧
      row.timeoutUntil ≠ some untilMs
  | .member (.removeBot botPublicKey) => botPublicKey = target ∧
      has (host.resolveBasePerms member isOwner) manageServer = true ∧
      host.community.isSystemIdentity target = false ∧
      ∀ x ∈ host.community.memberRoles, x.1 ≠ target
  | _ => False

/-! ## What spares a row -/

theorem spared_of_map {before after : Option MemberRow} {f : MemberRow → MemberRow}
    (h : after = before.map f) (hbanned : ∀ row, (f row).banned = true → row.banned = true)
    (htimeout : ∀ row, (f row).timeoutUntil = none ∨ (f row).timeoutUntil = row.timeoutUntil) :
    Spared before after := by
  intro row hrow
  rw [Option.mem_def] at hrow
  subst hrow
  exact ⟨f row, h, hbanned row, htimeout row⟩

theorem Host.KeepsMembers.spares (h : host.KeepsMembers host') : host.Spares host' target := by
  rcases h target with h | h
  · exact spared_of_map (h.trans (Option.map_id' ..).symm) (fun _ hbanned => hbanned)
      fun _ => .inr rfl
  · exact spared_of_map h (fun _ hbanned => hbanned) fun _ => .inl rfl

theorem spares_of_eq (h : host'.community.members = host.community.members) :
    host.Spares host' target :=
  (Host.KeepsMembers.of_eq h).spares

theorem spares_updateMember {key : PublicKey} {f : MemberRow → MemberRow}
    (h : key = target → ∀ row ∈ host.community.getMember target,
      ((f row).banned = true → row.banned = true) ∧
        ((f row).timeoutUntil = none ∨ (f row).timeoutUntil = row.timeoutUntil)) :
    host.Spares (host.withCommunity (host.community.updateMember key f)) target := by
  intro row hrow
  simp only [Host.withCommunity, getMember_updateMember]
  split_ifs with hkey
  · subst hkey
    exact ⟨f row, by simp [Option.mem_def.mp hrow], h rfl row hrow⟩
  · exact ⟨row, hrow, id, .inr rfl⟩

theorem spares_erase {key : PublicKey} (hkey : key ≠ target)
    (h : host'.community.members = host.community.members.erase key) :
    host.Spares host' target := by
  intro row hrow
  refine ⟨row, ?_, id, .inr rfl⟩
  rw [Community.getMember, h, FiniteMap.lookup_erase_eq, if_neg (Ne.symm hkey)]
  exact hrow

theorem not_spares_erase {row : MemberRow} (hrow : host.community.getMember target = some row)
    (h : host'.community.members = host.community.members.erase target) :
    ¬host.Spares host' target := by
  intro hspares
  obtain ⟨row', hrow', -⟩ := hspares row hrow
  rw [Community.getMember, h, FiniteMap.lookup_erase_eq, if_pos rfl] at hrow'
  cases hrow'

/-! ## The requests about members -/

theorem memberEffect_spares {request : MemberRequest}
    (heff : MemberEffect host member isOwner moment request host')
    (h : ∀ row ∈ host.community.getMember target,
      ¬host.Strikes member isOwner moment target row (.member request)) :
    host.Spares host' target := by
  cases heff with
  | @kickMember memberKey hbelow hremovable =>
    by_cases hkey : memberKey = target
    · subst hkey
      exact fun row hrow => absurd ⟨rfl, hbelow, hremovable⟩ (h row hrow)
    · exact spares_erase hkey rfl
  | banMember hbelow hremovable =>
    refine spares_updateMember fun hkey row hrow => ⟨fun _ => ?_, .inr rfl⟩
    subst hkey
    cases hbanned : row.banned with
    | true => rfl
    | false => exact absurd ⟨rfl, hbelow, hremovable, hbanned⟩ (h row hrow)
  | unbanMember hperm =>
    exact spares_updateMember fun hkey row hrow => ⟨fun hbanned => absurd hbanned nofun, .inr rfl⟩
  | @timeoutMember memberKey untilMs reason hbelow hrange =>
    refine spares_updateMember fun hkey row hrow => ⟨id, .inr ?_⟩
    subst hkey
    by_contra hne
    exact h row hrow ⟨rfl, hbelow, hrange, Ne.symm hne⟩
  | removeTimeout hbelow =>
    exact spares_updateMember fun hkey row hrow => ⟨id, .inl rfl⟩
  | createInvite hperm hinvite => exact spares_of_eq (createInvite_members hinvite)
  | updateProfile =>
    exact spares_updateMember fun hkey row hrow => ⟨id, .inr rfl⟩
  | addBot hperm hregister hbot =>
    intro row hrow
    have hthere : host.community.getMember target ≠ none := by simp [Option.mem_def.mp hrow]
    have hsame := addBot_sameRow hthere hregister hbot
    exact ⟨row, hsame ▸ hrow, id, .inr rfl⟩
  | @removeBot botPublicKey community hperm hremovable hremove =>
    simp only [Community.removeMemberRow, bind_eq_ok, pure_eq_ok, ensure_eq_ok] at hremove
    obtain ⟨⟨⟩, hroles, rfl⟩ := hremove
    by_cases hkey : botPublicKey = target
    · subst hkey
      exact fun row hrow => absurd ⟨rfl, hperm, hremovable, hroles⟩ (h row hrow)
    · exact spares_erase hkey rfl
  | _ => exact spares_of_eq rfl

theorem not_spares_updateMember {row : MemberRow} {f : MemberRow → MemberRow}
    (hrow : host.community.getMember target = some row)
    (h : (f row).banned = true ∧ row.banned = false ∨
      (f row).timeoutUntil ≠ none ∧ (f row).timeoutUntil ≠ row.timeoutUntil) :
    ¬host.Spares (host.withCommunity (host.community.updateMember target f)) target := by
  intro hspares
  obtain ⟨row', hrow', hbanned, htimeout⟩ := hspares row hrow
  simp only [Host.withCommunity, getMember_updateMember, if_true, hrow, Option.map_some,
    Option.mem_def, Option.some.injEq] at hrow'
  subst hrow'
  rcases h with ⟨hnew, hold⟩ | ⟨hsome, hne⟩
  · rw [hbanned hnew] at hold
    cases hold
  · exact htimeout.elim hsome hne

theorem not_spares_of_strikes {request : MemberRequest} {row : MemberRow}
    (hrow : host.community.getMember target = some row)
    (h : host.Strikes member isOwner moment target row (.member request)) :
    ¬host.Spares (host.handleMemberRequest member isOwner moment request).1 target := by
  cases request with
  | kickMember target =>
    obtain ⟨rfl, hbelow, hremovable⟩ := h
    have hwritten : (host.kickMember member isOwner target).1 =
        host.withCommunity (host.community.removeMember target) :=
      Host.commit_of_ok <| bind_eq_ok.mpr
        ⟨(), hbelow, bind_eq_ok.mpr ⟨(), requireRemovable_eq_ok.mpr hremovable, rfl⟩⟩
    exact not_spares_erase hrow (by rw [Host.handleMemberRequest, hwritten]; rfl)
  | banMember target reason =>
    obtain ⟨rfl, hbelow, hremovable, hbanned⟩ := h
    have hwritten : (host.banMember member isOwner target reason).1 =
        host.withCommunity (host.community.banMember target reason) :=
      Host.commit_of_ok <| bind_eq_ok.mpr
        ⟨(), hbelow, bind_eq_ok.mpr ⟨(), requireRemovable_eq_ok.mpr hremovable, rfl⟩⟩
    rw [Host.handleMemberRequest, hwritten]
    exact not_spares_updateMember hrow (.inl ⟨rfl, hbanned⟩)
  | timeoutMember target untilMs reason =>
    obtain ⟨rfl, hbelow, hrange, hnew⟩ := h
    have hwritten : (host.timeoutMember member isOwner moment target untilMs reason).1 =
        host.withCommunity (host.community.setTimeout target untilMs reason) :=
      Host.commit_of_ok <| bind_eq_ok.mpr
        ⟨(), hbelow, bind_eq_ok.mpr ⟨(), ensure_eq_ok.mpr hrange, rfl⟩⟩
    rw [Host.handleMemberRequest, hwritten]
    exact not_spares_updateMember hrow (.inr ⟨Option.some_ne_none _, Ne.symm hnew⟩)
  | removeBot target =>
    obtain ⟨rfl, hperm, hremovable, hroles⟩ := h
    have hdeleted : (do
        host.requireBasePerm member isOwner manageServer "MANAGE_SERVER"
        host.requireRemovable target
        return host.withCommunity (host.community.removeBot target) : Checked Host) =
          .ok (host.withCommunity (host.community.removeBot target)) :=
      bind_eq_ok.mpr ⟨(), requireBasePerm_eq_ok.mpr hperm,
        bind_eq_ok.mpr ⟨(), requireRemovable_eq_ok.mpr hremovable, rfl⟩⟩
    have hwritten : (host.removeBot member isOwner target).1 =
        host.withCommunity { host.community.removeBot target with
          members := host.community.members.erase target } := by
      rw [Host.removeBot, hdeleted]
      refine Host.commit_of_ok (map_eq_ok.mpr ⟨_, bind_eq_ok.mpr ⟨(), ?_, rfl⟩, rfl⟩)
      exact ensure_eq_ok.mpr hroles
    exact not_spares_erase hrow (by rw [Host.handleMemberRequest, hwritten]; rfl)
  | _ => exact h.elim

theorem not_strikes_of_not_member {request : Request} {row : MemberRow}
    (h : ∀ r, request ≠ .member r) : ¬host.Strikes member isOwner moment target row request := by
  cases request with
  | member request => exact absurd rfl (h request)
  | _ => exact id

/-- A request spares a member exactly if it is stopped by the gate or does not strike. -/
theorem spares_iff {request : Request} :
    host.Spares (host.handleRequest K member isOwner moment request).1 target ↔
      (host.contentBlockReason member = none → ∀ row ∈ host.community.getMember target,
        ¬host.Strikes member isOwner moment target row request) := by
  by_cases hrequest : ∃ r, request = .member r
  · obtain ⟨request, rfl⟩ := hrequest
    cases hgate : host.contentBlockReason member with
    | some reason =>
      rw [Host.handleRequest_of_blocked rfl hgate]
      exact iff_of_true (spares_of_eq rfl) nofun
    | none =>
      rw [Host.handleRequest_of_open hgate]
      constructor
      · exact fun hspares _ row hrow hstrikes => not_spares_of_strikes hrow hstrikes hspares
      · exact fun h => memberEffect_spares (memberRequest_effect request) (h rfl)
  · rw [not_exists] at hrequest
    exact iff_of_true (handleRequest_keeps hrequest).spares
      fun _ _ _ => not_strikes_of_not_member hrequest

/-- In every state, a request removes, bans and times out nobody whom the hierarchy protects, if
and only if it is stopped by the gate or strikes none of them. -/
theorem hierarchy_respected_iff {request : Request} :
    (∀ target, host.Protects member target →
      host.Spares (host.handleRequest K member isOwner moment request).1 target) ↔
    (host.contentBlockReason member = none → ∀ target, host.Protects member target →
      ∀ row ∈ host.community.getMember target,
        ¬host.Strikes member isOwner moment target row request) := by
  simp only [spares_iff]
  exact ⟨fun h hgate target hprotects => h target hprotects hgate,
    fun h target hprotects hgate => h hgate target hprotects⟩

open SampleLog SampleHost

/-- Bob is given a role above that of all members, the only one that Alice has. -/
def moderated : List (Moment × HostOp) :=
  joined ++ requests 8
    [(alice, .role (.createRole "mods" (kickMembers ||| manageRoles ||| manageServer) none
      (some 1) none)),
     (alice, .role (.assignRole (key bob) 2))]

/-- Bob kicks the owner; or he takes her last role, and removes her as a bot. -/
theorem owner_removed :
    let host := hostAfter moderated
    let bare := hostAfter (moderated ++ requests 10 [(bob, .role (.removeRole (key alice) 1))])
    HostRun crypto start (path moderated) host ∧
      host.owner = some (key alice) ∧ host.community.getMember (key alice) ≠ none ∧
      ((host.handleRequest crypto (key bob) false (momentAt 11)
        (.member (.kickMember (key alice)))).1.community.getMember (key alice) = none) ∧
      bare.owner = some (key alice) ∧ bare.community.getMember (key alice) ≠ none ∧
      (bare.handleRequest crypto (key bob) false (momentAt 11)
        (.member (.removeBot (key alice)))).1.community.getMember (key alice) = none :=
  ⟨run_path _, by decide +kernel, by decide +kernel, by decide +kernel, by decide +kernel,
    by decide +kernel, by decide +kernel⟩

end Server
