import Farder.Server.MemberRows
import Farder.Server.SampleHost

/-! # How long a ban lasts

A ban is a column of the banned member's row. It lasts as long as the row does, and it is
recorded at all only if there is a row. -/
namespace Server

open EventLog Guarded Permissions

variable {K : Crypto} {host host' : Host} {member target : PublicKey} {isOwner : Bool}
  {moment : Moment} {op : HostOp}

def Host.Bans (host : Host) (target : PublicKey) : Prop :=
  ∃ row ∈ host.community.getMember target, row.banned = true

instance : Decidable (host.Bans target) :=
  inferInstanceAs (Decidable (∃ row ∈ host.community.getMember target, row.banned = true))

def HostOp.bans (target : PublicKey) : HostOp → Prop
  | .request _ _ (.member (.banMember memberKey _)) => memberKey = target
  | _ => False

def HostOp.unbans (target : PublicKey) : HostOp → Prop
  | .request _ _ (.member (.unbanMember memberKey)) => memberKey = target
  | _ => False

def HostOp.isHandshakeOf (target : PublicKey) : HostOp → Prop
  | .handshake member .. => member = target
  | _ => False

/-- A kick of the target, or its removal as a bot, that passes its checks; or a sweep of pending
deletions at which the target's is due. -/
def Host.RemovesRow (host : Host) (target : PublicKey) (e : Moment × HostOp) : Prop :=
  match e.2 with
  | .request member isOwner (.member (.kickMember memberKey)) => memberKey = target ∧
      host.contentBlockReason member = none ∧
      host.requireMemberBelow member isOwner target kickMembers "KICK_MEMBERS" = .ok () ∧
      host.community.isSystemIdentity target = false
  | .request member isOwner (.member (.removeBot botPublicKey)) => botPublicKey = target ∧
      host.contentBlockReason member = none ∧
      has (host.resolveBasePerms member isOwner) manageServer = true ∧
      host.community.isSystemIdentity target = false ∧
      ∀ x ∈ host.community.memberRoles, x.1 ≠ target
  | .executePendingDeletions =>
    ∃ req ∈ host.db.expiredDeletionRequests e.1.now, req.memberKey = target
  | _ => False

theorem Host.SameRow.bans (h : host.SameRow host' target) (hbans : host.Bans target) :
    host'.Bans target := by
  rw [Bans, h]
  exact hbans

theorem Host.KeepsMembers.bans (h : host.KeepsMembers host') (hbans : host.Bans target) :
    host'.Bans target := by
  obtain ⟨row, hrow, hbanned⟩ := hbans
  rcases h target with h | h
  · exact ⟨row, h ▸ hrow, hbanned⟩
  · exact ⟨row.cleared, by rw [h, Option.mem_def.mp hrow]; rfl, hbanned⟩

theorem bans_updateMember {key : PublicKey} {f : MemberRow → MemberRow}
    (h : key = target → ∀ row, row.banned = true → (f row).banned = true)
    (hbans : host.Bans target) :
    (host.withCommunity (host.community.updateMember key f)).Bans target := by
  obtain ⟨row, hrow, hbanned⟩ := hbans
  simp only [Host.Bans, Host.withCommunity, getMember_updateMember]
  split_ifs with hkey
  · subst hkey
    exact ⟨f row, by rw [Option.mem_def.mp hrow]; rfl, h rfl row hbanned⟩
  · exact ⟨row, hrow, hbanned⟩

theorem bans_erase {key : PublicKey} (hkey : key ≠ target) (hbans : host.Bans target)
    (h : host'.community.members = host.community.members.erase key) : host'.Bans target := by
  obtain ⟨row, hrow, hbanned⟩ := hbans
  refine ⟨row, ?_, hbanned⟩
  rw [Community.getMember, h, FiniteMap.lookup_erase_eq, if_neg (Ne.symm hkey)]
  exact hrow

theorem unbanMember_accepted {memberKey : PublicKey}
    (hgate : host.contentBlockReason member = none)
    (hperm : has (host.resolveBasePerms member isOwner) banMembers = true) :
    host.Accepts K (moment, .request member isOwner (.member (.unbanMember memberKey))) := by
  have hwritten : (do
      host.requireBasePerm member isOwner banMembers "BAN_MEMBERS"
      return host.withCommunity (host.community.unbanMember memberKey) : Checked Host) =
        .ok (host.withCommunity (host.community.unbanMember memberKey)) :=
    bind_eq_ok.mpr ⟨(), requireBasePerm_eq_ok.mpr hperm, rfl⟩
  rw [Host.Accepts, Host.perform, Host.handleRequest_of_open hgate]
  exact ⟨_, Host.commit_answer hwritten⟩

/-- A request about members lifts a ban only if it is an accepted one to lift it, or removes
the row. -/
theorem memberRequest_bans {request : MemberRequest} (hbans : host.Bans target)
    (hunban : ¬((HostOp.request member isOwner (.member request)).unbans target ∧
      host.Accepts K (moment, .request member isOwner (.member request))))
    (hkept : ¬host.RemovesRow target (moment, .request member isOwner (.member request))) :
    (host.handleRequest K member isOwner moment (.member request)).1.Bans target := by
  cases hgate : host.contentBlockReason member with
  | some reason =>
    rw [Host.handleRequest_of_blocked rfl hgate]
    exact hbans
  | none =>
    rw [Host.handleRequest_of_open hgate, Host.dispatch]
    have heff := @memberRequest_effect host member isOwner moment request
    generalize (host.handleMemberRequest member isOwner moment request).1 = host' at heff ⊢
    cases heff with
    | @kickMember memberKey hbelow hremovable =>
      refine bans_erase ?_ hbans rfl
      rintro rfl
      exact hkept ⟨rfl, hgate, hbelow, hremovable⟩
    | banMember hbelow hremovable => exact bans_updateMember (fun _ _ _ => rfl) hbans
    | @unbanMember memberKey hperm =>
      refine bans_updateMember (fun hkey => ?_) hbans
      exact absurd ⟨hkey, unbanMember_accepted hgate hperm⟩ hunban
    | timeoutMember hbelow hrange => exact bans_updateMember (fun _ _ => id) hbans
    | removeTimeout hbelow => exact bans_updateMember (fun _ _ => id) hbans
    | createInvite hperm hinvite =>
      exact (Host.KeepsMembers.of_eq (createInvite_members hinvite)).bans hbans
    | updateProfile => exact bans_updateMember (fun _ _ => id) hbans
    | addBot hperm hregister hbot =>
      have hrow : host.community.getMember target ≠ none := by
        obtain ⟨row, hrow, -⟩ := hbans
        simp [Option.mem_def.mp hrow]
      exact (addBot_sameRow hrow hregister hbot).bans hbans
    | @removeBot botPublicKey community hperm hremovable hremove =>
      simp only [Community.removeMemberRow, bind_eq_ok, pure_eq_ok, ensure_eq_ok] at hremove
      obtain ⟨⟨⟩, hroles, rfl⟩ := hremove
      refine bans_erase ?_ hbans rfl
      rintro rfl
      exact hkept ⟨rfl, hgate, hperm, hremovable, hroles⟩
    | _ => exact hbans

/-- A step that is not an accepted one to lift the ban, and does not remove the row, keeps it. -/
theorem perform_bans {e : Moment × HostOp} (hbans : host.Bans target)
    (hunban : ¬(e.2.unbans target ∧ host.Accepts K e)) (hkept : ¬host.RemovesRow target e) :
    (host.perform K e.1 e.2).1.Bans target := by
  obtain ⟨moment, op⟩ := e
  cases op with
  | request member isOwner request =>
    by_cases hrequest : ∃ r, request = .member r
    · obtain ⟨request, rfl⟩ := hrequest
      exact memberRequest_bans hbans hunban hkept
    · exact (handleRequest_keeps (not_exists.mp hrequest)).bans hbans
  | handshake member displayName credentials genesis =>
    by_cases hne : target = member
    · subst hne
      obtain ⟨row, hrow, hbanned⟩ := hbans
      simp only [Host.perform, Host.handshake, Option.mem_def.mp hrow]
      exact ⟨row, hrow, hbanned⟩
    · exact (handshake_sameRow hne).bans hbans
  | upload member isOwner channelId upload =>
    simp only [Host.perform, Host.auxiliary]
    split
    · exact hbans
    · exact (Host.SameRow.keeps upload_community).bans hbans
  | download member isOwner fileId =>
    simp only [Host.perform, Host.auxiliary]
    split <;> exact hbans
  | purgeExpiredMessages => exact (Host.SameRow.keeps sweep_community).bans hbans
  | executePendingDeletions =>
    have hsame : host.SameRow
        (host.executeDeletions (host.db.expiredDeletionRequests moment.now)) target :=
      executeDeletions_sameRow fun req hreq heq => hkept ⟨req, hreq, heq⟩
    exact hsame.bans hbans
  | cleanupOrphanedFile fileId => exact hbans
  | continueCommand command outcome =>
    exact Host.KeepsMembers.bans keepsMembers_frame.continueCommand hbans

theorem handshake_refused {e : Moment × HostOp} (hbans : host.Bans target)
    (h : e.2.isHandshakeOf target) :
    ¬host.Accepts K e ∧ (host.perform K e.1 e.2).1 = host := by
  obtain ⟨moment, op⟩ := e
  cases op with
  | handshake member displayName credentials genesis =>
    obtain rfl : member = target := h
    obtain ⟨row, hrow, hbanned⟩ := hbans
    simp only [Host.Accepts, Host.perform, Host.handshake, Option.mem_def.mp hrow, and_true]
    rintro ⟨answer, h⟩
    simp [Host.authenticateExistingMember, hbanned] at h
  | _ => exact h.elim

theorem gate_of_accepted {request : Request} (hmember : request.requiresMembership = true)
    (h : host.Accepts K (moment, .request member isOwner request)) :
    host.contentBlockReason member = none := by
  obtain ⟨answer, h⟩ := h
  cases hgate : host.contentBlockReason member with
  | none => rfl
  | some reason =>
    rw [Host.perform, Host.handleRequest_of_blocked hmember hgate] at h
    cases h

theorem eq_of_bans (h : op.bans target) : ∃ member isOwner reason,
    op = .request member isOwner (.member (.banMember target reason)) := by
  unfold HostOp.bans at h
  split at h
  · subst h
    exact ⟨_, _, _, rfl⟩
  · exact h.elim

theorem ban_written {reason : Option String}
    (haccepted : host.Accepts K
      (moment, .request member isOwner (.member (.banMember target reason)))) :
    (host.handleRequest K member isOwner moment (.member (.banMember target reason))).1 =
      host.withCommunity (host.community.banMember target reason) := by
  have hgate := gate_of_accepted rfl haccepted
  obtain ⟨answer, h⟩ := haccepted
  simp only [Host.perform, Host.handleRequest_of_open hgate, Host.dispatch,
    Host.handleMemberRequest] at h ⊢
  have hwritten := Host.commit_answered h
  simp only [bind_eq_ok, pure_eq_ok] at hwritten
  obtain ⟨⟨⟩, -, ⟨⟩, -, heq⟩ := hwritten
  rw [Host.banMember, ← heq]

theorem ban_recorded {e : Moment × HostOp} (hban : e.2.bans target)
    (haccepted : host.Accepts K e) (hrow : host.community.getMember target ≠ none) :
    (host.perform K e.1 e.2).1.Bans target := by
  obtain ⟨moment, op⟩ := e
  obtain ⟨member, isOwner, reason, rfl⟩ := eq_of_bans hban
  obtain ⟨row, hrow⟩ := Option.ne_none_iff_exists'.mp hrow
  rw [Host.perform, ban_written haccepted]
  simp [Host.Bans, Host.withCommunity, Community.banMember, getMember_updateMember, hrow]

/-- In every run: a ban that is accepted of a member with a row stays recorded, and keeps the
member out, until one to lift it is accepted, as long as nothing removes the row. -/
theorem ban_lasts {start : Host} {before after : List (Transition Host (Moment × HostOp))}
    {ban : Transition Host (Moment × HostOp)}
    (hrun : HostRun K start (before ++ ban :: after) host)
    (hban : ban.event.2.bans target) (haccepted : ban.pre.Accepts K ban.event)
    (hunban : ∀ x ∈ after, ¬(x.event.2.unbans target ∧ x.pre.Accepts K x.event))
    (hrow : ban.pre.community.getMember target ≠ none)
    (hkept : ∀ x ∈ after, ¬x.pre.RemovesRow target x.event) :
    ban.post.Bans target ∧ ∀ x ∈ after, x.post.Bans target ∧
      (x.event.2.isHandshakeOf target → ¬x.pre.Accepts K x.event ∧ x.post = x.pre) := by
  obtain ⟨-, hstep, hafter⟩ := hrun.split_at
  have hrecorded : ban.post.Bans target := hstep ▸ ban_recorded hban haccepted hrow
  refine ⟨hrecorded, fun x hx => ?_⟩
  obtain ⟨hpre, hpost⟩ := hafter.kept (Q := fun host => host.Bans target) hrecorded
    (fun x hx hstep hbans => hstep ▸ perform_bans hbans (hunban x hx) (hkept x hx)) x hx
  refine ⟨hpost, fun hhandshake => ?_⟩
  obtain ⟨hrefused, hsame⟩ := handshake_refused hpre hhandshake
  exact ⟨hrefused, (hafter.step_of_mem hx).symm.trans hsame⟩

open SampleLog SampleHost

def banOfBob : Moment × HostOp :=
  (momentAt 8, .request (key alice) true (.member (.banMember (key bob) none)))

def handshakeOfBob : Moment × HostOp :=
  (momentAt 10, .handshake (key bob) "Bob" ⟨some "welcome", none⟩ genesis)

/-- Bob is banned, and comes back with an invite. -/
theorem ban_lasts_for_bob :
    let ban := transition (hostAfter joined) banOfBob
    let back := transition ban.post handshakeOfBob
    ban.post.Bans (key bob) ∧ ∀ x ∈ [back], x.post.Bans (key bob) ∧
      (x.event.2.isHandshakeOf (key bob) → ¬x.pre.Accepts crypto x.event ∧ x.post = x.pre) := by
  intro ban back
  have hrun : HostRun crypto start (path joined ++ ban :: [back]) back.post :=
    (run_path joined).trans (.trans (.single rfl) (.single rfl))
  refine ban_lasts hrun rfl (by decide +kernel) ?_ (by decide +kernel) ?_
  · simp only [List.forall_mem_singleton]
    exact fun h => h.1
  · simp only [List.forall_mem_singleton]
    exact id

/-- Bob is banned and then kicked, and the invite lets him in again. -/
theorem ban_lost :
    let banned := perform (hostAfter joined) banOfBob
    let kicked := perform banned
      (momentAt 9, .request (key alice) true (.member (.kickMember (key bob))))
    HostRun crypto start (path (joined ++ [banOfBob,
        (momentAt 9, .request (key alice) true (.member (.kickMember (key bob)))),
        handshakeOfBob])) (perform kicked handshakeOfBob) ∧
      (hostAfter joined).Accepts crypto banOfBob ∧ banned.Bans (key bob) ∧
      ¬kicked.Bans (key bob) ∧ kicked.Accepts crypto handshakeOfBob ∧
      (perform kicked handshakeOfBob).community.getMember (key bob) ≠ none := by
  intro banned kicked
  refine ⟨?_, by decide +kernel, by decide +kernel, by decide +kernel, by decide +kernel,
    by decide +kernel⟩
  exact run_path _

end Server
