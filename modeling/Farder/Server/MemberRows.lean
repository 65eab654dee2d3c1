import Farder.Server.HostFrame

/-! # What requests do to the rows of members

Only the requests about members write to these rows; all others at most clear a timeout that
has expired. -/
namespace Server

open EventLog Guarded Permissions

variable {K : Crypto} {host host' host'' : Host} {member : PublicKey} {isOwner : Bool}
  {moment : Moment}

def MemberRow.cleared (row : MemberRow) : MemberRow :=
  { row with timeoutUntil := none, timeoutReason := none }

theorem getMember_updateMember (c : Community) (key pk : PublicKey) (f : MemberRow → MemberRow) :
    (c.updateMember key f).getMember pk =
      if pk = key then (c.getMember key).map f else c.getMember pk :=
  FiniteMap.lookup_adjust _ _ _ _

/-- Every row is as it was, up to a timeout that has been cleared. -/
def Host.KeepsMembers (host host' : Host) : Prop :=
  ∀ pk, host'.community.getMember pk = host.community.getMember pk ∨
    host'.community.getMember pk = (host.community.getMember pk).map MemberRow.cleared

namespace Host.KeepsMembers

theorem of_eq (h : host'.community.members = host.community.members) : host.KeepsMembers host' :=
  fun pk => .inl (by rw [Community.getMember, Community.getMember, h])

theorem refl : host.KeepsMembers host := of_eq rfl

theorem trans (h : host.KeepsMembers host') (h' : host'.KeepsMembers host'') :
    host.KeepsMembers host'' := by
  intro pk
  rcases h pk with h | h <;> rcases h' pk with h' | h' <;> rw [h', h]
  · exact .inl rfl
  · exact .inr rfl
  · exact .inr rfl
  · rw [Option.map_map]
    exact .inr rfl

theorem expireTimeout (pk : PublicKey) (nowMs : ℕ) :
    host.KeepsMembers (host.expireTimeout pk nowMs) := by
  rcases expireTimeout_eq host.community pk nowMs with h | h
  · exact of_eq (by simp only [Host.expireTimeout, h]; rfl)
  · intro key
    simp only [Host.expireTimeout, h, Host.withCommunity, Community.clearTimeout,
      getMember_updateMember]
    split_ifs with hkey
    · exact .inr (by rw [hkey]; rfl)
    · exact .inl rfl

end Host.KeepsMembers

open Host

theorem channelEffect_keeps {request : ChannelRequest}
    (h : ChannelEffect host member isOwner request host') : host.KeepsMembers host' := by
  cases h <;> exact .of_eq rfl

theorem roleEffect_keeps {request : RoleRequest}
    (h : RoleEffect host member isOwner request host') : host.KeepsMembers host' := by
  cases h with
  | deleteRole role hbelow hdelete =>
    simp only [Community.deleteRole, bind_eq_ok, pure_eq_ok] at hdelete
    obtain ⟨role, -, ⟨⟩, -, rfl⟩ := hdelete
    exact .of_eq rfl
  | assignRole role hbelow hassign =>
    simp only [Community.assignRole, bind_eq_ok, pure_eq_ok] at hassign
    obtain ⟨⟨⟩, -, rfl⟩ := hassign
    exact .of_eq rfl
  | _ => exact .of_eq rfl

theorem keepsMembers_frame : Host.Frame Host.KeepsMembers where
  refl _ := .refl
  trans _ _ _ h h' := h.trans h'
  expireTimeout _ pk nowMs := .expireTimeout pk nowMs
  withDb _ _ _ := .of_eq rfl
  insertChannel _ _ _ _ _ _ := .of_eq rfl
  pinned _ _ := .of_eq rfl
  running _ _ := .of_eq rfl
  dmParticipants _ _ := .of_eq rfl
  clientProtocol _ _ := .of_eq rfl

theorem submitEvent_keeps {event : Event} :
    host.KeepsMembers (host.submitEvent K moment event).1 := by
  unfold Host.submitEvent
  split
  · exact .refl
  · refine .of_eq ?_
    unfold declareChannel
    split <;> rfl

/-- No request but one about members does more to their rows than to clear timeouts. -/
theorem dispatch_keeps {request : Request} (h : ∀ r, request ≠ .member r) :
    host.KeepsMembers (host.dispatch K member isOwner moment request).1 := by
  cases request with
  | channel request => exact channelEffect_keeps (channelRequest_effect request)
  | role request => exact roleEffect_keeps (roleRequest_effect request)
  | member request => exact absurd rfl (h request)
  | submitEvent event => exact submitEvent_keeps
  | _ => exact keepsMembers_frame.dispatch rfl

theorem handleRequest_keeps {request : Request} (h : ∀ r, request ≠ .member r) :
    host.KeepsMembers (host.handleRequest K member isOwner moment request).1 := by
  unfold Host.handleRequest
  split_ifs
  · split
    · exact .refl
    · exact dispatch_keeps h
  · exact dispatch_keeps h

def Host.SameRow (host host' : Host) (pk : PublicKey) : Prop :=
  host'.community.getMember pk = host.community.getMember pk

theorem Host.SameRow.keeps {pk : PublicKey} (h : host'.community = host.community) :
    host.SameRow host' pk := by
  rw [SameRow, h]

theorem addBot_sameRow {pk key : PublicKey} {label kind : String} {now : ℕ}
    {registered community : Community} (hpk : host.community.getMember pk ≠ none)
    (hregister : host.community.registerMember key label true now = .ok registered)
    (hbot : registered.registerBot key kind = .ok community) :
    host.SameRow (host.withCommunity community) pk := by
  simp only [Community.registerMember, Community.registerBot, bind_eq_ok, pure_eq_ok,
    ensure_eq_ok] at hregister hbot
  obtain ⟨⟨⟩, hnone, rfl⟩ := hregister
  obtain ⟨⟨⟩, -, rfl⟩ := hbot
  have hne : pk ≠ key := fun heq => hpk (heq ▸ hnone)
  simp only [Host.SameRow, Host.withCommunity, Community.getMember, FiniteMap.lookup_insert_eq,
    if_neg hne]

theorem createInvite_members {c c' : Community} {code : String}
    {maxUses expiresInSecs targetChannel : Option ℕ} {now : ℕ}
    (h : c.createInvite member code maxUses expiresInSecs targetChannel now = .ok c') :
    c'.members = c.members := by
  simp only [Community.createInvite, bind_eq_ok, pure_eq_ok] at h
  obtain ⟨expiresAt, -, ⟨⟩, -, rfl⟩ := h
  rfl

theorem register_sameRow {pk : PublicKey} {displayName : String} {now : ℕ} (hne : pk ≠ member)
    (h : host.register member displayName now = .ok host') : host.SameRow host' pk := by
  simp only [Host.register, Community.registerMember, bind_eq_ok, ensure_eq_ok, pure_eq_ok] at h
  obtain ⟨registered, ⟨⟨⟩, -, rfl⟩, h⟩ := h
  have hrow : (host.community.members.insert member
      ⟨displayName, now, false, false, none, none, none, false⟩).lookup pk =
        host.community.members.lookup pk := by
    rw [FiniteMap.lookup_insert_eq, if_neg hne]
  split at h
  · simp only [map_eq_ok, Community.assignRole, bind_eq_ok, pure_eq_ok] at h
    obtain ⟨community, ⟨⟨⟩, -, rfl⟩, rfl⟩ := h
    exact hrow
  · obtain rfl := pure_eq_ok.mp h
    exact hrow

theorem claim_community {genesis : Genesis} :
    (host.claim K member genesis).community = host.community := by
  unfold Host.claim
  split <;> rfl

theorem authenticateNewMember_sameRow {pk : PublicKey} {displayName : String}
    {credentials : Credentials} {genesis : Genesis} (hne : pk ≠ member)
    (h : host.authenticateNewMember K member moment displayName credentials genesis = .ok host') :
    host.SameRow host' pk := by
  unfold Host.authenticateNewMember at h
  split at h
  · simp only [bind_eq_ok, pure_eq_ok] at h
    obtain ⟨token, -, ⟨⟩, -, registered, hregister, rfl⟩ := h
    have hrow : host.SameRow registered pk := register_sameRow hne hregister
    rw [Host.SameRow, claim_community]
    exact hrow
  · simp only [bind_eq_ok, prefixed_eq_ok, Community.useInvite, pure_eq_ok] at h
    obtain ⟨community, ⟨invite, -, rfl⟩, hregister⟩ := h
    have hrow := register_sameRow hne hregister
    exact hrow
  · simp only [bind_eq_ok, pure_eq_ok] at h
    obtain ⟨⟨⟩, -, registered, hregister, rfl⟩ := h
    have hrow : host.SameRow registered pk := register_sameRow hne hregister
    rw [Host.SameRow, claim_community]
    exact hrow

theorem handshake_sameRow {pk : PublicKey} {displayName : String} {credentials : Credentials}
    {genesis : Genesis} (hne : pk ≠ member) :
    host.SameRow (host.handshake K member moment displayName credentials genesis).1 pk := by
  unfold Host.handshake
  split
  · rfl
  · exact commit_effect (P := fun host' => host.SameRow host' pk) rfl
      fun host' h => authenticateNewMember_sameRow hne h

theorem upload_community {channelId : ℕ} {upload : Upload} :
    (host.upload K member isOwner moment channelId upload).1.community = host.community := by
  exact PlainFrame.upload_rule (P := fun host' => host'.community = host.community) rfl
    fun _ _ => rfl

theorem executeDeletions_sameRow {pk : PublicKey} {requests : List DeletionRequest}
    (h : ∀ req ∈ requests, req.memberKey ≠ pk) :
    host.SameRow (host.executeDeletions requests) pk := by
  induction requests generalizing host with
  | nil => rfl
  | cons req requests ih =>
    obtain ⟨hne, h⟩ := List.forall_mem_cons.mp h
    unfold Host.executeDeletions
    split
    · refine (ih h).trans ?_
      simp only [Host.withCommunity, Community.removeMember, Community.getMember,
        FiniteMap.lookup_erase_eq, if_neg (Ne.symm hne)]
    · rfl

theorem sweep_community {swept : Checked Db} : (host.sweep swept).community = host.community := by
  unfold Host.sweep
  split <;> rfl

end Server
