import Farder.Server.Hub

/-! # The entries of connections

A connection registers once, under its own member; so the entry of a member is always that of a
connection of this member which has registered. -/
namespace Server

open EventLog Guarded Permissions

variable {K : Crypto} {hub hub' : Hub} {task : ℕ} {member pk : PublicKey} {isOwner : Bool}
  {moment : Moment} {op : HubOp}

def Duty.isRegister : Duty → Bool
  | .register _ => true
  | _ => false

namespace Hub

def registrations (hub : Hub) (task : ℕ) : List Duty := (hub.duties task).filter Duty.isRegister

def memberOf (hub : Hub) (task : ℕ) : Option PublicKey :=
  (hub.connections task).map Connection.member

end Hub

theorem any_eq_some {α : Type} {p : α → Bool} {o : Option α} :
    o.any p = true ↔ ∃ x, o = some x ∧ p x = true := by
  cases o <;> simp

theorem enabled_request {request : SessionRequest}
    (h : hub.Enabled K (.request task moment request)) :
    ∃ c, hub.connections task = some c ∧ c.receiving = true ∧ hub.duties task = [] := by
  obtain ⟨c, hc, hreceiving⟩ := any_eq_some.mp h.1
  exact ⟨c, hc, hreceiving, h.2.1⟩

theorem enabled_act (h : hub.Enabled K (.act task)) :
    ∃ duty rest, hub.duties task = duty :: rest ∧ duty.command = none := by
  obtain ⟨duty, hhead, hduty⟩ := any_eq_some.mp h
  obtain ⟨rest, hduties⟩ := List.head?_eq_some_iff.mp hhead
  exact ⟨duty, rest, hduties, of_decide_eq_true hduty⟩

theorem enabled_continueCommand {outcome : Except String CommandOutcome}
    (h : hub.Enabled K (.continueCommand task moment outcome)) :
    ∃ command rest, hub.duties task = .continueCommand command :: rest := by
  obtain ⟨duty, hhead, hduty⟩ := any_eq_some.mp h
  obtain ⟨rest, hduties⟩ := List.head?_eq_some_iff.mp hhead
  cases duty with
  | continueCommand command => exact ⟨command, rest, hduties⟩
  | _ => exact absurd hduty (by simp [Duty.command])

theorem registrations_assign {l : List Duty} {other : ℕ} :
    (hub.assign task l).registrations other =
      if other = task then l.filter Duty.isRegister else hub.registrations other := by
  simp only [Hub.registrations, Hub.assign, Function.update_apply]
  split_ifs <;> rfl

/-! ## What duties bring about -/

theorem enter_registers {displayName : String} {handle : Option ℕ} :
    (enter task member displayName handle).filter Duty.isRegister = [.register member] := by
  unfold enter
  split <;> rfl

/-- The duties that a request of a member adds. -/
def Duty.answers (member : PublicKey) : Duty → Prop
  | .continueCommand _ => True
  | .respond => True
  | .announce _ => True
  | .cleanupOrphanedFile _ => True
  | .insertSubscriptions other _ => other = member
  | _ => False

theorem answers_announcements {α : Type} {l : List α} {f : α → Broadcast} :
    ∀ duty ∈ Duty.respond :: l.map fun x => .announce (f x), duty.answers member := by
  simp only [List.mem_cons, List.mem_map]
  rintro duty (rfl | ⟨x, -, rfl⟩) <;> trivial

theorem handleStream_answers {request : SessionRequest} :
    ∀ duty ∈ (hub.handleStream member isOwner request).2, duty.answers member := by
  cases request with
  | updatePresence presence limited =>
    simp only [Hub.handleStream]
    split_ifs <;> simp [Duty.answers]
  | leaveStream => exact answers_announcements
  | setTrack => exact answers_announcements
  | setDeafen => exact answers_announcements
  | setMute => exact answers_announcements
  | _ => simp [Hub.handleStream, Duty.answers]

theorem afterRequest_answers {request : Request} {answer : Answer} :
    ∀ duty ∈ Hub.afterRequest member isOwner request answer, duty.answers member := by
  unfold Hub.afterRequest Hub.announcements
  split <;> simp only [List.mem_append, List.mem_cons, List.mem_map, List.not_mem_nil, or_false]
  · rintro duty rfl
    trivial
  · rintro duty (rfl | ⟨b, -, rfl⟩ | ⟨fileId, -, rfl⟩) <;> trivial

theorem afterCommand_answers {step : Checked CommandStep} :
    ∀ duty ∈ Hub.afterCommand step, duty.answers member := by
  unfold Hub.afterCommand Hub.announcements
  split <;> simp only [List.mem_append, List.mem_map, List.mem_cons, List.not_mem_nil, or_false]
  · rintro duty rfl
    trivial
  · rintro duty (⟨b, -, rfl⟩ | rfl) <;> trivial
  · rintro duty rfl
    trivial

theorem handle_answers {request : SessionRequest} :
    ∀ duty ∈ (hub.handle K member isOwner moment request).2, duty.answers member := by
  cases request with
  | server request =>
    simp only [Hub.handle]
    split
    · exact afterRequest_answers
    · simp [Duty.answers]
  | _ =>
    simp only [Hub.handle]
    split
    · simp [Duty.answers]
    · exact handleStream_answers

theorem registers_of_answers {l : List Duty} (h : ∀ duty ∈ l, ∃ pk, duty.answers pk) :
    l.filter Duty.isRegister = [] := by
  refine List.filter_eq_nil_iff.mpr fun duty hduty => ?_
  obtain ⟨pk, hanswers⟩ := h duty hduty
  cases duty with
  | register => exact hanswers.elim
  | _ => simp [Duty.isRegister]

theorem handle_registers {request : SessionRequest} :
    (hub.handle K member isOwner moment request).2.filter Duty.isRegister = [] :=
  registers_of_answers fun duty hduty => ⟨member, handle_answers duty hduty⟩

theorem afterCommand_registers {step : Checked CommandStep} :
    (Hub.afterCommand step).filter Duty.isRegister = [] :=
  registers_of_answers fun duty hduty => ⟨⟨0⟩, afterCommand_answers duty hduty⟩

/-- The duties of a connection that has ended. -/
def Duty.isTeardown : Duty → Bool
  | .announce _ => true
  | .revalidate _ => true
  | .deliver _ => true
  | .endSession => true
  | .dropVoice _ => true
  | .dropHandle _ => true
  | .dropClient _ => true
  | .dropSubscriptions _ => true
  | .dropPresence _ => true
  | _ => false

theorem teardown_isTeardown {c : Connection} : ∀ duty ∈ c.teardown, duty.isTeardown = true := by
  unfold Connection.teardown cleanupSession
  cases c.handle <;> simp [Duty.isTeardown]

theorem command_of_isTeardown {duty : Duty} (h : duty.isTeardown = true) :
    duty.command = none := by
  cases duty with
  | continueCommand => exact absurd h (by simp [Duty.isTeardown])
  | _ => rfl

/-- An announcement brings a delivery, and a sweep where it may change what is visible. -/
theorem carryOut_added {duty added : Duty} (h : added ∈ (hub.carryOut task duty).2) :
    ∃ b, duty = .announce b ∧ (added = .deliver b ∨ ∃ owner, added = .revalidate owner) := by
  cases duty with
  | announce b =>
    refine ⟨b, rfl, ?_⟩
    simp only [Hub.carryOut] at h
    split_ifs at h
    · rcases List.mem_cons.mp h with rfl | h
      · exact .inr ⟨_, rfl⟩
      · exact .inl (List.mem_singleton.mp h)
    · exact .inl (List.mem_singleton.mp h)
  | _ => exact absurd h List.not_mem_nil

theorem carryOut_registers {duty : Duty} :
    (hub.carryOut task duty).2.filter Duty.isRegister = [] := by
  refine List.filter_eq_nil_iff.mpr fun added hadded => ?_
  obtain ⟨b, -, rfl | ⟨owner, rfl⟩⟩ := carryOut_added hadded <;> simp [Duty.isRegister]

theorem teardown_registers {c : Connection} : c.teardown.filter Duty.isRegister = [] := by
  refine List.filter_eq_nil_iff.mpr fun duty hduty => ?_
  have hteardown := teardown_isTeardown duty hduty
  cases duty with
  | register => exact absurd hteardown (by simp [Duty.isTeardown])
  | _ => simp [Duty.isRegister]

theorem runCommand_answer {host : Host} {channelId : ℕ} {trigger : String} {answer : Answer}
    (h : (host.perform K moment (.request member isOwner (.runCommand channelId trigger))).2 =
      .ok answer) : answer = .of .other [] := by
  have hrun : (host.runCommand member isOwner moment channelId trigger).2 = .ok answer := by
    rwa [Host.perform_of_accepts ⟨answer, h⟩] at h
  unfold Host.runCommand at hrun
  split_ifs at hrun
  rw [Host.commit_answer (Host.commit_answered hrun)] at hrun
  exact (Except.ok.inj hrun).symm

/-! ## What a step leaves alone -/

theorem handleStream_queues {request : SessionRequest} :
    (hub.handleStream member isOwner request).1.queues = hub.queues := by
  cases request with
  | updatePresence presence limited =>
    simp only [Hub.handleStream]
    split_ifs <;> rfl
  | _ => rfl

theorem handleStream_maps {request : SessionRequest} :
    (hub.handleStream member isOwner request).1.connections = hub.connections ∧
      (hub.handleStream member isOwner request).1.clients = hub.clients ∧
      (hub.handleStream member isOwner request).1.duties = hub.duties := by
  cases request with
  | updatePresence presence limited =>
    simp only [Hub.handleStream]
    split_ifs <;> exact ⟨rfl, rfl, rfl⟩
  | _ => exact ⟨rfl, rfl, rfl⟩

theorem handle_maps {request : SessionRequest} :
    (hub.handle K member isOwner moment request).1.connections = hub.connections ∧
      (hub.handle K member isOwner moment request).1.clients = hub.clients ∧
      (hub.handle K member isOwner moment request).1.duties = hub.duties := by
  cases request with
  | server request => exact ⟨rfl, rfl, rfl⟩
  | _ =>
    simp only [Hub.handle]
    split
    · exact ⟨rfl, rfl, rfl⟩
    · exact handleStream_maps

theorem handle_queues {request : SessionRequest} :
    (hub.handle K member isOwner moment request).1.queues = hub.queues := by
  cases request with
  | server request => rfl
  | _ =>
    simp only [Hub.handle]
    split
    · rfl
    · exact handleStream_queues

def Duty.onConnection (hub : Hub) : Duty → Connection → Connection
  | .readOwner member, c => { c with isOwner := hub.host.owner = some member }
  | .finish, c => { c with receiving := false }
  | _, c => c

@[simp] theorem onConnection_member {duty : Duty} {c : Connection} :
    (duty.onConnection hub c).member = c.member := by
  cases duty <;> rfl

theorem map_onConnection_member {duty : Duty} {c : Option Connection} :
    (c.map (duty.onConnection hub)).map Connection.member = c.map Connection.member := by
  cases c <;> simp

@[simp] theorem onConnection_handle {duty : Duty} {c : Connection} :
    (duty.onConnection hub c).handle = c.handle := by
  cases duty <;> rfl

theorem receiving_of_onConnection {duty : Duty} {c : Connection}
    (h : (duty.onConnection hub c).receiving = true) : c.receiving = true := by
  cases duty with
  | finish => exact absurd h (by simp [Duty.onConnection])
  | _ => exact h

theorem carryOut_connections {duty : Duty} : (hub.carryOut task duty).1.connections =
    Function.update hub.connections task ((hub.connections task).map (duty.onConnection hub)) := by
  have hsame : hub.connections =
      Function.update hub.connections task ((hub.connections task).map id) := by
    rw [Option.map_id, id_eq, Function.update_eq_self]
  cases duty with
  | readOwner => rfl
  | finish => rfl
  | dropClient member =>
    simp only [Hub.carryOut, Hub.dropClient]
    split_ifs <;> exact hsame
  | _ => exact hsame

theorem carryOut_duties {duty : Duty} : (hub.carryOut task duty).1.duties = hub.duties := by
  cases duty with
  | dropClient member =>
    simp only [Hub.carryOut, Hub.dropClient]
    split_ifs <;> rfl
  | _ => rfl

theorem carryOut_clients {duty : Duty} {other : ℕ}
    (h : (hub.carryOut task duty).1.clients.lookup pk = some other) :
    hub.clients.lookup pk = some other ∨ duty = .register pk ∧ other = task := by
  cases duty with
  | register member =>
    simp only [Hub.carryOut, FiniteMap.lookup_insert_eq] at h
    split_ifs at h with hpk
    · exact .inr ⟨by rw [hpk], (Option.some.inj h).symm⟩
    · exact .inl h
  | dropClient member =>
    simp only [Hub.carryOut, Hub.dropClient] at h
    split_ifs at h
    · simp only [FiniteMap.lookup_erase_eq] at h
      split_ifs at h
      exact .inl h
    · exact .inl h
  | _ => exact .inl h

/-! ## What a step makes of one task -/

/-- The task that an operation sets to work. -/
def HubOp.actor : HubOp → Option ℕ
  | .connect task .. => some task
  | .request task .. => some task
  | .act task => some task
  | .continueCommand task .. => some task
  | .fail task => some task
  | .background task _ => some task
  | _ => none

/-- `TaskStep K hub task op c duties`: the operation leaves the task with the connection `c` and
the duties `duties`. -/
inductive TaskStep (K : Crypto) (hub : Hub) (task : ℕ) :
    HubOp → Option Connection → List Duty → Prop where
  | connect {moment : Moment} {member : PublicKey} {displayName name : String}
      {credentials : Credentials} {genesis : Genesis} {handle : Option ℕ}
      (hconnection : hub.connections task = none) (hidle : hub.duties task = []) :
      TaskStep K hub task (.connect task moment member displayName credentials genesis handle)
        (some ⟨member, false, handle, true⟩) (enter task member name handle)
  | request {moment : Moment} {request : SessionRequest} {c : Connection}
      (hc : hub.connections task = some c) (hreceiving : c.receiving = true)
      (hidle : hub.duties task = []) :
      TaskStep K hub task (.request task moment request) (some c)
        (hub.handle K c.member c.isOwner moment request).2
  | act {duty : Duty} {rest : List Duty} (hduties : hub.duties task = duty :: rest) :
      TaskStep K hub task (.act task) ((hub.connections task).map (duty.onConnection hub))
        ((hub.carryOut task duty).2 ++ rest)
  | continueCommand {moment : Moment} {outcome : Except String CommandOutcome}
      {command : RunningCommand} {rest : List Duty}
      (hduties : hub.duties task = .continueCommand command :: rest) :
      TaskStep K hub task (.continueCommand task moment outcome) (hub.connections task)
        (Hub.afterCommand (hub.host.continueCommand moment command outcome).2 ++ rest)
  | fail {c : Connection} (hc : hub.connections task = some c) (hreceiving : c.receiving = true)
      (hidle : hub.duties task = [] ∨ (hub.duties task).head? = some .respond) :
      TaskStep K hub task (.fail task) (some { c with receiving := false }) c.teardown
  | background {b : Broadcast} (hconnection : hub.connections task = none)
      (hidle : hub.duties task = []) :
      TaskStep K hub task (.background task b) none [.announce b]
  | idle {e : HubOp} (hactor : e.actor ≠ some task) :
      TaskStep K hub task e (hub.connections task) (hub.duties task)

theorem task_step (hstep : HubStep K hub op hub') :
    TaskStep K hub task op (hub'.connections task) (hub'.duties task) := by
  have hidle (hactor : op.actor ≠ some task)
      (hconnections : hub'.connections task = hub.connections task)
      (hduties : hub'.duties task = hub.duties task) :
      TaskStep K hub task op (hub'.connections task) (hub'.duties task) := by
    rw [hconnections, hduties]
    exact .idle hactor
  obtain ⟨henabled, rfl⟩ := hstep
  cases op with
  | connect new moment member displayName credentials genesis handle =>
    by_cases hnew : task = new
    · subst hnew
      simp only [Hub.next, Hub.assign, Function.update_self]
      exact .connect henabled.1 henabled.2.1
    · refine hidle (by simpa [HubOp.actor] using Ne.symm hnew) ?_ ?_ <;>
        simp only [Hub.next, Hub.assign, Function.update_of_ne hnew]
  | request asker moment request =>
    obtain ⟨c, hc, hreceiving, hnone⟩ := enabled_request henabled
    obtain ⟨hconnections, -, hduties⟩ := @handle_maps K hub c.member c.isOwner moment request
    simp only [Hub.next, hc]
    by_cases hasker : task = asker
    · subst hasker
      simp only [Hub.assign, Function.update_self, hconnections, hc]
      exact .request hc hreceiving hnone
    · simp only [Hub.assign, Function.update_of_ne hasker, hconnections, hduties]
      exact .idle (by simpa [HubOp.actor] using Ne.symm hasker)
  | act actor =>
    obtain ⟨duty, rest, hduties, -⟩ := enabled_act henabled
    simp only [Hub.next, hduties, Hub.assign, carryOut_connections, carryOut_duties]
    by_cases hactor : task = actor
    · subst hactor
      simp only [Function.update_self]
      exact .act hduties
    · simp only [Function.update_of_ne hactor]
      exact .idle (by simpa [HubOp.actor] using Ne.symm hactor)
  | continueCommand actor moment outcome =>
    obtain ⟨command, rest, hduties⟩ := enabled_continueCommand henabled
    simp only [Hub.next, hduties, Hub.assign, Hub.continueCommand]
    by_cases hactor : task = actor
    · subst hactor
      simp only [Function.update_self]
      exact .continueCommand hduties
    · simp only [Function.update_of_ne hactor]
      exact .idle (by simpa [HubOp.actor] using Ne.symm hactor)
  | fail failing =>
    obtain ⟨c, hc, hreceiving⟩ := any_eq_some.mp henabled.1
    simp only [Hub.next, hc, Hub.assign, Hub.close]
    by_cases hfailing : task = failing
    · subst hfailing
      simp only [Function.update_self, Option.map_some]
      exact .fail hc (of_decide_eq_true hreceiving).1 henabled.2
    · simp only [Function.update_of_ne hfailing]
      exact .idle (by simpa [HubOp.actor] using Ne.symm hfailing)
  | receive => exact .idle (by simp [HubOp.actor])
  | datagram source raw nowMs admitted =>
    refine hidle (by simp [HubOp.actor]) ?_ ?_ <;>
      simp only [Hub.next, Hub.processInboundVoiceFrame] <;> split <;>
      first | rfl | (split <;> rfl)
  | background new b =>
    by_cases hnew : task = new
    · subst hnew
      simp only [Hub.next, Hub.assign, Function.update_self, henabled.1]
      exact .background henabled.1 henabled.2
    · refine hidle (by simpa [HubOp.actor] using Ne.symm hnew) rfl ?_
      simp only [Hub.next, Hub.assign, Function.update_of_ne hnew]
  | other => exact .idle (by simp [HubOp.actor])

/-- The member and the handle of the connection of a task. -/
def Hub.seatOf (hub : Hub) (task : ℕ) : Option (PublicKey × Option ℕ) :=
  (hub.connections task).map fun c => (c.member, c.handle)

theorem seat_step (hstep : HubStep K hub op hub') {seat : PublicKey × Option ℕ}
    (h : hub.seatOf task = some seat) : hub'.seatOf task = some seat := by
  have htask : TaskStep K hub task op _ _ := task_step hstep
  unfold Hub.seatOf at *
  generalize hub'.connections task = c' at *
  generalize hub'.duties task = duties' at *
  cases htask with
  | connect hconnection => exact absurd h (by simp [hconnection])
  | request hc => rw [← h, hc]
  | act => rw [← h]; cases hub.connections task <;> simp
  | continueCommand => exact h
  | fail hc => rw [← h, hc]; rfl
  | background hconnection => exact absurd h (by simp [hconnection])
  | idle => exact h

theorem done_of_run {tr : List (Transition Hub HubOp)} {duty : Duty}
    (hrun : HubRun K hub tr hub') (hcommand : duty.command = none)
    (hduty : duty ∈ hub.duties task)
    (hfail : ∀ x ∈ tr, x.event = .fail task → duty ∉ x.pre.duties task) :
    duty ∈ hub'.duties task ∨
      ∃ x ∈ tr, x.event = .act task ∧ (x.pre.duties task).head? = some duty := by
  induction hrun with
  | nil => exact .inl hduty
  | @snoc pre post e tr hrun hstep ih =>
    rcases ih fun x hx => hfail x (by simp [hx]) with hmem | ⟨x, hx, hdone⟩
    · have hfail : e = .fail task → duty ∉ pre.duties task := hfail ⟨pre, e, post⟩ (by simp)
      have htask : TaskStep K pre task e _ _ := task_step hstep
      generalize post.connections task = c' at *
      generalize post.duties task = duties' at *
      cases htask with
      | connect _ hidle => exact absurd hmem (by simp [hidle])
      | request _ _ hidle => exact absurd hmem (by simp [hidle])
      | @act first rest hduties =>
        rw [hduties, List.mem_cons] at hmem
        rcases hmem with rfl | hmem
        · exact .inr ⟨⟨pre, .act task, post⟩, by simp, rfl, by rw [hduties]; rfl⟩
        · exact .inl (List.mem_append_right _ hmem)
      | continueCommand hduties =>
        rw [hduties, List.mem_cons] at hmem
        rcases hmem with rfl | hmem
        · exact absurd hcommand (by simp [Duty.command])
        · exact .inl (List.mem_append_right _ hmem)
      | fail => exact absurd hmem (hfail rfl)
      | background _ hidle => exact absurd hmem (by simp [hidle])
      | idle => exact .inl hmem
    · exact .inr ⟨x, by simp [hx], hdone⟩

/-! ## Connections that have ended -/

structure Hub.Ended (hub : Hub) (task : ℕ) : Prop where
  closed : ∃ c, hub.connections task = some c ∧ c.receiving = false
  teardown : ∀ duty ∈ hub.duties task, duty.isTeardown = true

theorem ended_of_fail (hstep : HubStep K hub (.fail task) hub') :
    hub'.Ended task ∧ ∃ c, hub.connections task = some c ∧ hub'.duties task = c.teardown := by
  obtain ⟨⟨hsome, -⟩, rfl⟩ := hstep
  obtain ⟨c, hc, -⟩ := any_eq_some.mp hsome
  have hduties : (hub.next K (.fail task)).duties task = c.teardown := by
    simp only [Hub.next, hc, Hub.assign, Function.update_self]
  refine ⟨⟨⟨{ c with receiving := false }, ?_, rfl⟩, ?_⟩, c, hc, hduties⟩
  · simp only [Hub.next, hc, Hub.assign, Hub.close, Function.update_self, Option.map_some]
  · rw [hduties]
    exact teardown_isTeardown

theorem ended_step (h : hub.Ended task) (hstep : HubStep K hub op hub') :
    hub'.Ended task ∧ op ≠ .fail task ∧ ∀ moment request, op ≠ .request task moment request := by
  obtain ⟨⟨c, hc, hclosed⟩, hteardown⟩ := h
  have htask : TaskStep K hub task op _ _ := task_step hstep
  suffices h : ((∃ c, hub'.connections task = some c ∧ c.receiving = false) ∧
      ∀ duty ∈ hub'.duties task, duty.isTeardown = true) ∧ op ≠ .fail task ∧
        ∀ moment request, op ≠ .request task moment request from ⟨⟨h.1.1, h.1.2⟩, h.2⟩
  generalize hub'.connections task = c' at *
  generalize hub'.duties task = duties' at *
  cases htask with
  | connect hconnection => exact absurd hc (by simp [hconnection])
  | request hc' hreceiving => simp_all
  | @act duty rest hduties =>
    rw [hduties] at hteardown
    refine ⟨⟨⟨duty.onConnection hub c, by rw [hc, Option.map_some], ?_⟩, ?_⟩, by simp, by simp⟩
    · by_contra hreceiving
      rw [receiving_of_onConnection (by simpa using hreceiving)] at hclosed
      exact absurd hclosed (by simp)
    · intro d hd
      rcases List.mem_append.mp hd with hd | hd
      · obtain ⟨b, -, rfl | ⟨owner, rfl⟩⟩ := carryOut_added hd <;> rfl
      · exact hteardown d (List.mem_cons_of_mem _ hd)
  | continueCommand hduties =>
    exact absurd (hteardown _ (hduties ▸ List.mem_cons_self)) (by simp [Duty.isTeardown])
  | fail hc' hreceiving => simp_all
  | background hconnection => exact absurd hc (by simp [hconnection])
  | idle hactor =>
    refine ⟨⟨⟨c, hc, hclosed⟩, hteardown⟩, ?_, ?_⟩
    · rintro rfl
      exact hactor rfl
    · rintro moment request rfl
      exact hactor rfl

theorem entered_step (hstep : HubStep K hub op hub') (h : hub.memberOf task = some pk) :
    hub'.memberOf task = some pk ∧
      (hub'.registrations task).Sublist (hub.registrations task) := by
  have htask : TaskStep K hub task op _ _ := task_step hstep
  unfold Hub.memberOf Hub.registrations at *
  generalize hub'.connections task = c' at *
  generalize hub'.duties task = duties' at *
  cases htask with
  | connect hconnection => exact absurd h (by simp [hconnection])
  | request hc => exact ⟨by rw [← h, hc], by rw [handle_registers]; exact List.nil_sublist _⟩
  | @act duty rest hduties =>
    refine ⟨map_onConnection_member.trans h, ?_⟩
    rw [List.filter_append, carryOut_registers, List.nil_append, hduties]
    exact (List.sublist_cons_self _ _).filter _
  | continueCommand hduties =>
    refine ⟨h, ?_⟩
    rw [List.filter_append, afterCommand_registers, List.nil_append, hduties]
    exact (List.sublist_cons_self _ _).filter _
  | fail hc => exact ⟨by rw [← h, hc]; rfl, by rw [teardown_registers]; exact List.nil_sublist _⟩
  | background hconnection => exact absurd h (by simp [hconnection])
  | idle => exact ⟨h, .refl _⟩

theorem carryOut_queues {duty : Duty} {other : ℕ} : (hub.carryOut task duty).1.queues other =
    match duty with
    | .deliver b => (hub.deliver b).queues other
    | _ => hub.queues other := by
  cases duty with
  | dropClient member =>
    simp only [Hub.carryOut, Hub.dropClient]
    split_ifs <;> rfl
  | _ => rfl

theorem queued_step (hstep : HubStep K hub op hub') {notice : Notice}
    (h : notice ∈ hub'.queues task) : notice ∈ hub.queues task ∨
      ∃ actor b c, op = .act actor ∧ (hub.duties actor).head? = some (.deliver b) ∧
        b.notice = notice ∧ hub.recipient b task = some c := by
  obtain ⟨-, rfl⟩ := hstep
  cases op with
  | request asker moment request =>
    simp only [Hub.next] at h
    split at h
    · exact .inl h
    · next c _ =>
      have hqueues := @handle_queues K hub c.member c.isOwner moment request
      exact .inl (congrFun hqueues task ▸ h)
  | act actor =>
    simp only [Hub.next] at h
    split at h
    · exact .inl h
    · next duty rest hduties =>
      have h : notice ∈ (hub.carryOut actor duty).1.queues task := h
      rw [carryOut_queues] at h
      split at h
      · next b _ =>
        simp only [Hub.deliver] at h
        split_ifs at h with hroom
        · rcases List.mem_append.mp h with h | h
          · exact .inl h
          · obtain ⟨c, hc⟩ := Option.isSome_iff_exists.mp hroom.1
            exact .inr ⟨actor, b, c, rfl, by rw [hduties, List.head?_cons],
              (List.mem_singleton.mp h).symm, hc⟩
        · exact .inl h
      · exact .inl h
  | continueCommand actor moment outcome =>
    simp only [Hub.next] at h
    split at h <;> exact .inl h
  | fail failing =>
    simp only [Hub.next] at h
    split at h <;> exact .inl h
  | receive receiver =>
    simp only [Hub.next, Function.update_apply] at h
    split_ifs at h with hreceiver
    · exact .inl (hreceiver ▸ List.mem_of_mem_tail h)
    · exact .inl h
  | datagram source raw nowMs admitted =>
    simp only [Hub.next, Hub.processInboundVoiceFrame] at h
    split at h
    · exact .inl h
    · split at h <;> exact .inl h
  | _ => exact .inl h

theorem recipient_eq_some {b : Broadcast} {c : Connection} : hub.recipient b task = some c ↔
    hub.connections task = some c ∧ hub.clients.lookup c.member = some task ∧
      c.receiving = true ∧ hub.addressed b.target c.member = true ∧
      hub.mayReceive c.member b.notice = true := by
  simp only [Hub.recipient, Option.filter_eq_some_iff, decide_eq_true_eq]

structure Hub.Wired (hub : Hub) : Prop where
  once : ∀ task, (hub.registrations task).length ≤ 1
  mine : ∀ task pk, .register pk ∈ hub.registrations task → hub.memberOf task = some pk
  entered : ∀ pk task, hub.clients.lookup pk = some task →
    hub.memberOf task = some pk ∧ hub.registrations task = []

theorem clients_step (hstep : HubStep K hub op hub') (h : hub'.clients.lookup pk = some task) :
    hub.clients.lookup pk = some task ∨
      ∃ rest, op = .act task ∧ hub.duties task = .register pk :: rest := by
  obtain ⟨henabled, rfl⟩ := hstep
  cases op with
  | request asker moment request =>
    obtain ⟨c, hc, -⟩ := enabled_request henabled
    simp only [Hub.next, hc] at h
    have hclients := (@handle_maps K hub c.member c.isOwner moment request).2.1
    exact .inl (hclients ▸ h)
  | act actor =>
    obtain ⟨duty, rest, hduties, -⟩ := enabled_act henabled
    simp only [Hub.next, hduties] at h
    rcases carryOut_clients h with h | ⟨rfl, rfl⟩
    · exact .inl h
    · exact .inr ⟨rest, rfl, hduties⟩
  | continueCommand actor moment outcome =>
    simp only [Hub.next] at h
    split at h <;> exact .inl h
  | fail failing =>
    simp only [Hub.next] at h
    split at h <;> exact .inl h
  | datagram source raw nowMs admitted =>
    simp only [Hub.next, Hub.processInboundVoiceFrame] at h
    split at h
    · exact .inl h
    · split at h <;> exact .inl h
  | _ => exact .inl h

namespace Hub.Wired

theorem start {host : Host} : (Hub.start host).Wired where
  once _ := Nat.zero_le 1
  mine _ _ h := absurd h List.not_mem_nil
  entered _ _ h := absurd h (by simp [Hub.start])

theorem memberOf_of_register (h : hub.Wired) {rest : List Duty}
    (hduties : hub.duties task = .register pk :: rest) :
    hub.memberOf task = some pk ∧ rest.filter Duty.isRegister = [] := by
  have hregisters : hub.registrations task = .register pk :: rest.filter Duty.isRegister := by
    rw [Hub.registrations, hduties]
    rfl
  refine ⟨h.mine task pk (by simp [hregisters]), ?_⟩
  have honce := h.once task
  rw [hregisters, List.length_cons] at honce
  exact List.length_eq_zero_iff.mp (by omega)

theorem step (h : hub.Wired) (hstep : HubStep K hub op hub') : hub'.Wired := by
  refine ⟨fun task => ?_, fun task pk hpk => ?_, fun pk task hpk => ?_⟩
  · have honce := h.once task
    have htask : TaskStep K hub task op _ _ := task_step hstep
    unfold Hub.registrations at *
    generalize hub'.connections task = c' at *
    generalize hub'.duties task = duties' at *
    cases htask with
    | connect => rw [enter_registers]; exact Nat.le_refl 1
    | request => rw [handle_registers]; exact Nat.zero_le 1
    | @act duty rest hduties =>
      rw [List.filter_append, carryOut_registers, List.nil_append]
      rw [hduties] at honce
      exact ((List.sublist_cons_self _ _).filter _).length_le.trans honce
    | continueCommand hduties =>
      rw [List.filter_append, afterCommand_registers, List.nil_append]
      rw [hduties] at honce
      exact ((List.sublist_cons_self _ _).filter _).length_le.trans honce
    | fail => rw [teardown_registers]; exact Nat.zero_le 1
    | background => exact Nat.zero_le 1
    | idle => exact honce
  · have hmine := h.mine task pk
    have htask : TaskStep K hub task op _ _ := task_step hstep
    unfold Hub.registrations Hub.memberOf at *
    generalize hub'.connections task = c' at *
    generalize hub'.duties task = duties' at *
    cases htask with
    | connect =>
      rw [enter_registers, List.mem_singleton, Duty.register.injEq] at hpk
      rw [hpk, Option.map_some]
    | request => exact absurd hpk (by rw [handle_registers]; exact List.not_mem_nil)
    | @act duty rest hduties =>
      rw [List.filter_append, carryOut_registers, List.nil_append] at hpk
      rw [hduties] at hmine
      rw [map_onConnection_member]
      exact hmine (((List.sublist_cons_self _ _).filter _).subset hpk)
    | continueCommand hduties =>
      rw [List.filter_append, afterCommand_registers, List.nil_append] at hpk
      rw [hduties] at hmine
      exact hmine (((List.sublist_cons_self _ _).filter _).subset hpk)
    | fail => exact absurd hpk (by rw [teardown_registers]; exact List.not_mem_nil)
    | background => exact absurd hpk List.not_mem_nil
    | idle => exact hmine hpk
  · rcases clients_step hstep hpk with hpk | ⟨rest, rfl, hduties⟩
    · obtain ⟨hmember, hnone⟩ := h.entered pk task hpk
      obtain ⟨hmember, hregisters⟩ := entered_step hstep hmember
      exact ⟨hmember, List.sublist_nil.mp (hnone ▸ hregisters)⟩
    · obtain ⟨hmember, hrest⟩ := h.memberOf_of_register hduties
      refine ⟨(entered_step hstep hmember).1, ?_⟩
      obtain ⟨-, rfl⟩ := hstep
      simp only [Hub.next, hduties, registrations_assign]
      rw [if_pos trivial, List.filter_append, carryOut_registers, hrest, List.append_nil]

end Hub.Wired

theorem wired_of_run {host : Host} {tr : List (Transition Hub HubOp)}
    (hrun : HubRun K (.start host) tr hub) : hub.Wired :=
  hrun.invariant (I := Hub.Wired) .start fun _ _ _ h hstep => h.step hstep

/-! ## Connections that are served -/

/-- The member whose connection a task serves: it has registered, and is not closed. -/
def Hub.served (hub : Hub) (task : ℕ) : Option PublicKey :=
  ((hub.connections task).filter fun c =>
    c.receiving ∧ hub.registrations task = []).map Connection.member

theorem served_eq_some : hub.served task = some pk ↔
    ∃ c, hub.connections task = some c ∧ c.receiving = true ∧ c.member = pk ∧
      hub.registrations task = [] := by
  simp only [Hub.served, Option.map_eq_some_iff, Option.filter_eq_some_iff, decide_eq_true_eq]
  constructor
  · rintro ⟨c, ⟨hc, hreceiving, hnone⟩, hmember⟩
    exact ⟨c, hc, hreceiving, hmember, hnone⟩
  · rintro ⟨c, hc, hreceiving, hmember, hnone⟩
    exact ⟨c, ⟨hc, hreceiving, hnone⟩, hmember⟩

theorem served_congr (hconnections : hub'.connections task = hub.connections task)
    (hregisters : hub'.registrations task = hub.registrations task) :
    hub'.served task = hub.served task := by
  rw [Hub.served, Hub.served, hconnections, hregisters]

def Hub.Registers (hub : Hub) (op : HubOp) (task : ℕ) (pk : PublicKey) : Prop :=
  op = .act task ∧ (hub.duties task).head? = some (.register pk) ∧
    ∃ c, hub.connections task = some c ∧ c.receiving = true

theorem served_request {other : ℕ} {request : SessionRequest}
    (henabled : hub.Enabled K (.request other moment request)) :
    (hub.next K (.request other moment request)).served task = hub.served task := by
  obtain ⟨c, hc, -, hidle⟩ := enabled_request henabled
  obtain ⟨hconnections, -, hduties⟩ := @handle_maps K hub c.member c.isOwner moment request
  simp only [Hub.next, hc]
  refine served_congr (congrFun hconnections task) ?_
  rw [registrations_assign, handle_registers]
  split_ifs with hother
  · rw [hother, Hub.registrations, hidle, List.filter_nil]
  · rw [Hub.registrations, hduties, Hub.registrations]

theorem served_register (hwired : hub.Wired) (h : hub.Registers (.act task) task pk) :
    (hub.next K (.act task)).served task = some pk := by
  obtain ⟨-, hhead, c, hc, hreceiving⟩ := h
  obtain ⟨rest, hduties⟩ := List.head?_eq_some_iff.mp hhead
  obtain ⟨hmember, hrest⟩ := hwired.memberOf_of_register hduties
  rw [Hub.memberOf, hc, Option.map_some, Option.some.injEq] at hmember
  refine served_eq_some.mpr ⟨c, ?_, hreceiving, hmember, ?_⟩
  · simp only [Hub.next, hduties]
    exact hc
  · simp only [Hub.next, hduties, registrations_assign]
    rw [if_pos trivial, List.filter_append, carryOut_registers, hrest, List.append_nil]

theorem served_step (hwired : hub.Wired) (hstep : HubStep K hub op hub')
    (h : hub'.served task = some pk) : hub.served task = some pk ∨ hub.Registers op task pk := by
  obtain ⟨c, hc, hreceiving, hmember, hnone⟩ := served_eq_some.mp h
  have htask : TaskStep K hub task op _ _ := task_step hstep
  rw [Hub.registrations] at hnone
  rw [hc] at htask
  generalize hub'.duties task = duties' at *
  generalize hsome : some c = c' at htask
  cases htask with
  | connect => exact absurd hnone (by simp [enter_registers])
  | request hc' _ hidle =>
    obtain rfl := Option.some.inj hsome
    exact .inl (served_eq_some.mpr ⟨c, hc', hreceiving, hmember, by
      rw [Hub.registrations, hidle, List.filter_nil]⟩)
  | @act duty rest hduties =>
    obtain ⟨c', hc', rfl⟩ := Option.map_eq_some_iff.mp hsome.symm
    rw [onConnection_member] at hmember
    have hreceiving := receiving_of_onConnection hreceiving
    rw [List.filter_append, carryOut_registers, List.nil_append] at hnone
    by_cases hduty : ∃ pk, duty = .register pk
    · obtain ⟨pk', rfl⟩ := hduty
      obtain ⟨hpk', -⟩ := hwired.memberOf_of_register hduties
      rw [Hub.memberOf, hc', Option.map_some, hmember, Option.some.injEq] at hpk'
      exact .inr ⟨rfl, by rw [hduties, hpk']; rfl, c', hc', hreceiving⟩
    · refine .inl (served_eq_some.mpr ⟨c', hc', hreceiving, hmember, ?_⟩)
      have hduty : duty.isRegister = false := by
        cases duty with
        | register pk => exact absurd ⟨pk, rfl⟩ hduty
        | _ => rfl
      rw [Hub.registrations, hduties, List.filter_cons_of_neg (by simp [hduty]), hnone]
  | continueCommand hduties =>
    rw [List.filter_append, afterCommand_registers, List.nil_append] at hnone
    refine .inl (served_eq_some.mpr ⟨c, hsome.symm, hreceiving, hmember, ?_⟩)
    rw [Hub.registrations, hduties, List.filter_cons_of_neg (by simp [Duty.isRegister]), hnone]
  | fail =>
    obtain rfl := Option.some.inj hsome
    exact absurd hreceiving (by simp)
  | background => exact absurd hsome (by simp)
  | idle =>
    exact .inl (served_eq_some.mpr ⟨c, hsome.symm, hreceiving, hmember, hnone⟩)

end Server
