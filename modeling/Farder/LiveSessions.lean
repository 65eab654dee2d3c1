import Farder.BanLasts

/-! # Removed members on live sessions

A kick and a ban write to the table of members, and no connection looks there after its
handshake. What turns a request away is the log: a key that is not a member of the log gets past
the gate with the requests of newcomers only. -/
namespace Server

open EventLog Guarded Permissions

variable {K : Crypto} {host host' : Host} {member target : PublicKey} {isOwner : Bool}
  {moment : Moment}

def HostOp.kicks (target : PublicKey) : HostOp → Prop
  | .request _ _ (.member (.kickMember memberKey)) => memberKey = target
  | _ => False

def HostOp.removes (target : PublicKey) (op : HostOp) : Prop := op.kicks target ∨ op.bans target

/-- What arrives on a connection of the member. -/
def HostOp.isBy (target : PublicKey) : HostOp → Prop
  | .request member _ _ => member = target
  | .upload member .. => member = target
  | .download member .. => member = target
  | _ => False

/-- The same but for the versions that connections have negotiated, which are not stored. -/
def Host.SameStore (host host' : Host) : Prop :=
  { host' with clientProtocol := host.clientProtocol } = host

def Response.hasContent : Response → Bool
  | .history _ => true
  | .searchResults _ => true
  | .mlsControl .. => true
  | .file .. => true
  | .dmList _ => true
  | _ => false

/-- The request leaves the stored state as it is, and is answered without any content. -/
def Host.Harmless (K : Crypto) (host : Host) (e : Moment × HostOp) : Prop :=
  host.SameStore (host.perform K e.1 e.2).1 ∧
    ∀ answer, (host.perform K e.1 e.2).2 = .ok answer → answer.response.hasContent = false

/-- There is a log, and the target is not a member of it. -/
def Host.ShutsOut (host : Host) (target : PublicKey) : Prop :=
  ∃ ls ∈ host.server.logState, ¬ls.IsMember target

instance : Decidable (host.ShutsOut target) :=
  inferInstanceAs (Decidable (∃ ls ∈ host.server.logState, ¬ls.IsMember target))

/-- The event passes every check of a submission, and `trial` is the log that has it. -/
def Host.LogTakes (K : Crypto) (host : Host) (moment : Moment) (event : Event)
    (trial : LogState) : Prop :=
  ∃ ls ∈ host.server.logState, checkIngestCapsAt event moment.now = .ok () ∧
    checkEpochClaim ls event.core.payload = .ok () ∧ ls.apply K event = .ok trial ∧
    host.db.checkPosted event = .ok () ∧ ∃ x, host.db.ingest K event = .ok x

/-- The log takes an event that the target submits, or one that makes it a member. -/
def Host.LetsIn (K : Crypto) (host : Host) (target : PublicKey) (e : Moment × HostOp) : Prop :=
  match e.2 with
  | .request member _ (.submitEvent event) =>
    ∃ trial, host.LogTakes K e.1 event trial ∧ (member = target ∨ trial.IsMember target)
  | _ => False

theorem eq_of_kicks {op : HostOp} (h : op.kicks target) : ∃ member isOwner,
    op = .request member isOwner (.member (.kickMember target)) := by
  unfold HostOp.kicks at h
  split at h
  · subst h
    exact ⟨_, _, rfl⟩
  · exact h.elim

namespace Host

/-! ## Who changes the log -/

theorem ShutsOut.of_eq (h : host'.server.logState = host.server.logState)
    (hshut : host.ShutsOut target) : host'.ShutsOut target := by
  rw [ShutsOut, h]
  exact hshut

theorem ShutsOut.gate (h : host.ShutsOut target) : ∃ reason,
    host.contentBlockReason target = some reason := by
  obtain ⟨ls, hls, hmember⟩ := h
  simp only [contentBlockReason, Option.mem_def.mp hls, if_neg hmember]
  split_ifs <;> exact ⟨_, rfl⟩

theorem channelEffect_logState {request : ChannelRequest}
    (h : ChannelEffect host member isOwner request host') :
    host'.server.logState = host.server.logState := by
  cases h <;> rfl

theorem roleEffect_logState {request : RoleRequest}
    (h : RoleEffect host member isOwner request host') :
    host'.server.logState = host.server.logState := by
  cases h <;> rfl

theorem memberEffect_logState {request : MemberRequest}
    (h : MemberEffect host member isOwner moment request host') :
    host'.server.logState = host.server.logState := by
  cases h <;> rfl

theorem logState_frame :
    Host.Frame fun host host' => host'.server.logState = host.server.logState where
  refl _ := rfl
  trans _ _ _ h h' := h'.trans h
  expireTimeout _ _ _ := rfl
  withDb _ _ _ := rfl
  insertChannel _ _ _ _ _ _ := rfl
  pinned _ _ := rfl
  running _ _ := rfl
  dmParticipants _ _ := rfl
  clientProtocol _ _ := rfl

theorem dispatch_logState {request : Request} (h : ∀ event, request ≠ .submitEvent event) :
    (host.dispatch K member isOwner moment request).1.server.logState = host.server.logState := by
  cases request with
  | channel request => exact channelEffect_logState (channelRequest_effect request)
  | role request => exact roleEffect_logState (roleRequest_effect request)
  | member request => exact memberEffect_logState (memberRequest_effect request)
  | submitEvent event => exact absurd rfl (h event)
  | _ => exact logState_frame.dispatch rfl

/-- A submission either goes through all the checks, or leaves everything as it is. -/
theorem submitEvent_cases (event : Event) :
    (∃ trial, host.LogTakes K moment event trial ∧
      (host.submitEvent K moment event).1.server.logState = some trial) ∨
    ((host.submitEvent K moment event).1 = host ∧
      ∃ failure, (host.submitEvent K moment event).2 = .error failure) := by
  unfold submitEvent
  split
  · next failure _ => exact .inr ⟨rfl, failure, rfl⟩
  · next server orphans hok =>
    simp only [ServerState.submitEvent, bind_eq_ok, context_eq_ok, prefixed_eq_ok, pure_eq_ok,
      Prod.mk.injEq] at hok
    obtain ⟨ls, hls, ⟨⟩, hcaps, ⟨⟩, hepoch, trial, happly, ⟨⟩, hposted, x, hingest, rfl, -⟩ := hok
    exact .inl ⟨trial, ⟨ls, hls, hcaps, hepoch, happly, hposted, x, hingest⟩, rfl⟩

theorem handleRequest_shutsOut {request : Request} (hshut : host.ShutsOut target)
    (hkept : ¬host.LetsIn K target (moment, .request member isOwner request)) :
    (host.handleRequest K member isOwner moment request).1.ShutsOut target := by
  have hdispatch : (host.dispatch K member isOwner moment request).1.ShutsOut target := by
    by_cases hsubmit : ∃ event, request = .submitEvent event
    · obtain ⟨event, rfl⟩ := hsubmit
      rcases @submitEvent_cases K host moment event with
        ⟨trial, htakes, hlog⟩ | ⟨heq, -⟩
      · exact ⟨trial, hlog, fun hmember => hkept ⟨trial, htakes, .inr hmember⟩⟩
      · exact hshut.of_eq (congrArg (·.server.logState) heq)
    · exact hshut.of_eq (dispatch_logState (not_exists.mp hsubmit))
  unfold handleRequest
  split_ifs
  · split
    · exact hshut
    · exact hdispatch
  · exact hdispatch

theorem register_shutsOut {displayName : String} {now : ℕ} (hshut : host.ShutsOut target)
    (h : host.register member displayName now = .ok host') : host'.ShutsOut target := by
  simp only [register, bind_eq_ok] at h
  obtain ⟨registered, -, h⟩ := h
  split at h
  · obtain ⟨community, -, rfl⟩ := map_eq_ok.mp h
    exact hshut
  · obtain rfl := pure_eq_ok.mp h
    exact hshut

theorem claim_shutsOut {genesis : Genesis} (hne : target ≠ member) (hshut : host.ShutsOut target) :
    (host.claim K member genesis).ShutsOut target := by
  unfold claim
  split
  · exact hshut
  · refine ⟨_, rfl, ?_⟩
    show target ∉ ({member} : Finset PublicKey)
    simpa using hne

theorem authenticateNewMember_shutsOut {displayName : String} {credentials : Credentials}
    {genesis : Genesis} (hne : target ≠ member) (hshut : host.ShutsOut target)
    (h : host.authenticateNewMember K member moment displayName credentials genesis = .ok host') :
    host'.ShutsOut target := by
  unfold authenticateNewMember at h
  split at h
  · simp only [bind_eq_ok, pure_eq_ok] at h
    obtain ⟨token, -, ⟨⟩, -, registered, hregister, rfl⟩ := h
    exact claim_shutsOut hne ((register_shutsOut hshut hregister).of_eq rfl)
  · simp only [bind_eq_ok] at h
    obtain ⟨community, -, hregister⟩ := h
    have hused : (host.withCommunity community).ShutsOut target := hshut
    exact register_shutsOut hused hregister
  · simp only [bind_eq_ok, pure_eq_ok] at h
    obtain ⟨⟨⟩, -, registered, hregister, rfl⟩ := h
    exact claim_shutsOut hne (register_shutsOut hshut hregister)

theorem executeDeletions_logState {reqs : List DeletionRequest} :
    (host.executeDeletions reqs).server.logState = host.server.logState := by
  induction reqs generalizing host with
  | nil => rfl
  | cons req reqs ih =>
    unfold executeDeletions
    split
    · exact ih
    · rfl

/-- No operation lets the target in but an accepted handshake of its own, or the log. -/
theorem perform_shutsOut {e : Moment × HostOp} (hshut : host.ShutsOut target)
    (hnotback : ¬(e.2.isHandshakeOf target ∧ host.Accepts K e)) (hkept : ¬host.LetsIn K target e) :
    (host.perform K e.1 e.2).1.ShutsOut target := by
  obtain ⟨moment, op⟩ := e
  cases op with
  | request member isOwner request => exact handleRequest_shutsOut hshut hkept
  | handshake member displayName credentials genesis =>
    simp only [perform, handshake]
    cases hrow : host.community.getMember member with
    | some row => exact hshut
    | none =>
      refine commit_effect (P := fun host' => host'.ShutsOut target) hshut fun host' h => ?_
      refine authenticateNewMember_shutsOut ?_ hshut h
      rintro rfl
      have hanswer : (host.commit
          (host.authenticateNewMember K target moment displayName credentials genesis)
          fun _ => return .of .ok []).2 = .ok (.of .ok []) := commit_answer h
      refine hnotback ⟨rfl, .of .ok [], ?_⟩
      simp only [perform, handshake, hrow]
      exact hanswer
  | upload member isOwner channelId upload =>
    simp only [perform, auxiliary]
    split
    · exact hshut
    · exact PlainFrame.upload_rule (P := fun host' => host'.ShutsOut target) hshut fun _ _ => hshut
  | download member isOwner fileId =>
    simp only [perform, auxiliary]
    split <;> exact hshut
  | purgeExpiredMessages =>
    simp only [perform, sweep]
    split <;> exact hshut
  | executePendingDeletions => exact hshut.of_eq executeDeletions_logState
  | cleanupOrphanedFile fileId => exact hshut
  | continueCommand command outcome => exact hshut.of_eq logState_frame.continueCommand

theorem kick_written
    (haccepted : host.Accepts K
      (moment, .request member isOwner (.member (.kickMember target)))) :
    (host.handleRequest K member isOwner moment (.member (.kickMember target))).1 =
      host.withCommunity (host.community.removeMember target) := by
  have hgate := gate_of_accepted rfl haccepted
  obtain ⟨answer, h⟩ := haccepted
  simp only [perform, handleRequest_of_open hgate, dispatch, handleMemberRequest] at h ⊢
  have hwritten := commit_answered h
  simp only [bind_eq_ok, pure_eq_ok] at hwritten
  obtain ⟨⟨⟩, -, ⟨⟩, -, heq⟩ := hwritten
  rw [kickMember, ← heq]

theorem removal_recorded {e : Moment × HostOp} (hremoves : e.2.removes target)
    (haccepted : host.Accepts K e) :
    ∀ row ∈ (host.perform K e.1 e.2).1.community.getMember target, row.banned = true := by
  obtain ⟨moment, op⟩ := e
  rcases hremoves with hkick | hban
  · obtain ⟨member, isOwner, rfl⟩ := eq_of_kicks hkick
    rw [perform, kick_written haccepted]
    simp [withCommunity, Community.removeMember, Community.getMember]
  · obtain ⟨member, isOwner, reason, rfl⟩ := eq_of_bans hban
    rw [perform, ban_written haccepted]
    intro row hrow
    simp only [withCommunity, Community.banMember, getMember_updateMember, if_true,
      Option.mem_def, Option.map_eq_some_iff] at hrow
    obtain ⟨row, -, rfl⟩ := hrow
    rfl

/-! ## What a request from outside does -/

theorem harmless_of_refused {e : Moment × HostOp} {failure : Failure}
    (h : host.perform K e.1 e.2 = (host, .error failure)) : host.Harmless K e := by
  rw [Harmless, h]
  exact ⟨rfl, fun answer hanswer => absurd hanswer (by simp)⟩

theorem harmless_of_answered {e : Moment × HostOp} {answer : Answer}
    (h : host.perform K e.1 e.2 = (host', .ok answer)) (hsame : host.SameStore host')
    (hcontent : answer.response.hasContent = false) : host.Harmless K e := by
  rw [Harmless, h]
  refine ⟨hsame, fun answer' h => ?_⟩
  rw [← Except.ok.inj h]
  exact hcontent

/-- A request of somebody who is not a member is turned away, or one of a newcomer's. -/
theorem request_harmless {request : Request} {reason : String}
    (hgate : host.contentBlockReason member = some reason)
    (hkept : ¬host.LetsIn K member (moment, .request member isOwner request)) :
    host.Harmless K (moment, .request member isOwner request) := by
  by_cases hmember : request.requiresMembership = true
  · exact harmless_of_refused (handleRequest_of_blocked hmember hgate)
  · have hdispatch : host.handleRequest K member isOwner moment request =
        host.dispatch K member isOwner moment request := if_neg hmember
    cases request with
    | submitEvent event =>
      rcases @submitEvent_cases K host moment event with
        ⟨trial, htakes, -⟩ | ⟨hsame, failure, hfailure⟩
      · have hlets : host.LetsIn K member (moment, .request member isOwner (.submitEvent event)) :=
          ⟨trial, htakes, .inl rfl⟩
        exact absurd hlets hkept
      · exact harmless_of_refused (hdispatch.trans (Prod.ext hsame hfailure))
    | negotiateProtocol clientVersion => exact harmless_of_answered hdispatch rfl rfl
    | bootstrap => exact harmless_of_answered hdispatch rfl rfl
    | _ => exact absurd rfl hmember

/-- Whatever arrives from a key that is shut out is turned away, unless the log takes it. -/
theorem harmless_of_shutsOut {e : Moment × HostOp} (hshut : host.ShutsOut target)
    (hby : e.2.isBy target) (hkept : ¬host.LetsIn K target e) : host.Harmless K e := by
  obtain ⟨reason, hgate⟩ := hshut.gate
  have haux : ∀ handle : Host × Checked Answer, host.auxiliary target handle =
      (host, .error (.rejected s!"auxiliary stream denied: {reason}")) := by
    intro handle
    rw [auxiliary, hgate]
  obtain ⟨moment, op⟩ := e
  cases op with
  | request member isOwner request =>
    obtain rfl : member = target := hby
    exact request_harmless hgate hkept
  | upload member isOwner channelId upload =>
    obtain rfl : member = target := hby
    exact harmless_of_refused (haux _)
  | download member isOwner fileId =>
    obtain rfl : member = target := hby
    exact harmless_of_refused (haux _)
  | _ => exact hby.elim

end Host

/-- In every run: after a removal that is accepted, and until the target is admitted by a
handshake, nothing that arrives from it changes what is stored or is answered with content, if
the target is out of the log as well when its next request arrives, and the log then takes none
of its events and none that makes it a member. -/
theorem removal_on_sessions {start : Host}
    {before idle after : List (Transition Host (Moment × HostOp))}
    {removal : Transition Host (Moment × HostOp)}
    (hrun : HostRun K start (before ++ removal :: (idle ++ after)) host)
    (hremoves : removal.event.2.removes target) (haccepted : removal.pre.Accepts K removal.event)
    (hnotback : ∀ x ∈ idle ++ after, ¬(x.event.2.isHandshakeOf target ∧ x.pre.Accepts K x.event))
    (hidle : ∀ x ∈ idle, ¬x.event.2.isBy target)
    (hshut : ∀ x ∈ after.head?, x.pre.ShutsOut target)
    (hkept : ∀ x ∈ after, ¬x.pre.LetsIn K target x.event) :
    (∀ row ∈ removal.post.community.getMember target, row.banned = true) ∧
      ∀ x ∈ idle ++ after, x.event.2.isBy target → x.pre.Harmless K x.event := by
  obtain ⟨-, hstep, hlater⟩ := hrun.split_at
  obtain ⟨mid, -, hafter⟩ := hlater.split
  simp only [List.forall_mem_append] at hnotback ⊢
  refine ⟨hstep ▸ Host.removal_recorded hremoves haccepted,
    fun x hx hby => absurd hby (hidle x hx), fun x hx hby => ?_⟩
  have hmid : mid.ShutsOut target := by
    cases after with
    | nil => exact absurd hx List.not_mem_nil
    | cons y rest => exact hafter.of_cons.1 ▸ hshut y rfl
  obtain ⟨hpre, -⟩ := hafter.kept (Q := fun host => host.ShutsOut target) hmid
    (fun x hx hstep h => hstep ▸ Host.perform_shutsOut h (hnotback.2 x hx) (hkept x hx)) x hx
  exact Host.harmless_of_shutsOut hpre hby (hkept x hx)

open SampleLog SampleHost

def kickOfBob : Moment × HostOp :=
  (momentAt 9, .request (key alice) true (.member (.kickMember (key bob))))

def logRemovalOfBob : Event :=
  nextEvent (hostAfter joined).db.events ⟨alice, a0, 8, .memberRemoved (key bob)⟩

def postOfBob : Moment × HostOp :=
  (momentAt 10, .request (key bob) false (.message (.sendMessage 1 "hello" none [])))

/-- Bob is out of the log when he is kicked, and his old session is of no use to him. -/
theorem removal_on_sessions_of_bob :
    let kick := transition (hostAfter (joined ++
      [(momentAt 8, .request (key alice) true (.submitEvent logRemovalOfBob))])) kickOfBob
    let post := transition kick.post postOfBob
    (∀ row ∈ kick.post.community.getMember (key bob), row.banned = true) ∧
      ∀ x ∈ [] ++ [post], x.event.2.isBy (key bob) → x.pre.Harmless crypto x.event := by
  intro kick post
  have hrun : HostRun crypto start (path (joined ++
      [(momentAt 8, .request (key alice) true (.submitEvent logRemovalOfBob))]) ++
        kick :: ([] ++ [post])) post.post :=
    (run_path _).trans (.trans (.single rfl) (.single rfl))
  refine removal_on_sessions hrun (.inl rfl) (by decide +kernel) ?_ (by simp) ?_ ?_
  · simp only [List.nil_append, List.forall_mem_singleton]
    exact fun h => h.1
  · simp only [List.head?_cons, Option.mem_some_iff, forall_eq']
    decide +kernel
  · simp only [List.forall_mem_singleton]
    exact id

/-- Bob is kicked, and goes on reading and posting on his old session. -/
theorem kicked_session :
    HostRun crypto start (path (joined ++ [kickOfBob])) (hostAfter (joined ++ [kickOfBob])) ∧
      (hostAfter joined).Accepts crypto kickOfBob ∧
      (hostAfter (joined ++ [kickOfBob])).community.getMember (key bob) = none ∧
      (perform (hostAfter (joined ++ [kickOfBob])) postOfBob).db.messages.rows ≠
        (hostAfter (joined ++ [kickOfBob])).db.messages.rows ∧
      ((hostAfter (joined ++ [kickOfBob])).perform crypto (momentAt 11) (.request (key bob)
        false (.read (.fetchHistory 1 none 10)))).2.toOption.map (·.response.hasContent) =
          some true :=
  ⟨run_path _, by decide +kernel, by decide +kernel, by decide +kernel, by decide +kernel⟩

end Server
