import Farder.ChannelSeparation
import Farder.Server.SampleHost

/-! # Submitting an event is atomic

The handler of `SubmitEvent` checks an event on a copy of the authorization state, writes it in
one transaction and takes the advanced state over last. Whatever is submitted, refused
submissions and restarts among it, what the server holds in memory is the replay of its stored
log, and the derived channels have the classes that the log gives them. -/
namespace Server

open EventLog EventLog.LogState Guarded

/-- A transaction on the database: an error in the body undoes what the body has written. -/
def Db.transaction {α : Type} (db : Db) (body : Db → Checked (Db × α)) : Db × Checked α :=
  match body db with
  | .ok (db', a) => (db', .ok a)
  | .error err => (db, .error err)

/-- What the server does: it handles one submission after the other, and may be restarted. -/
inductive Arrival where
  | submit (event : Event) (now : ℕ)
  | restart

namespace ServerState

variable (K : Crypto) (st : ServerState)

/-- The checks before the first write; the result is the advanced copy of the authorization
state. -/
def checkSubmit (event : Event) (now : ℕ) : Checked LogState := do
  let ls ← context st.logState "server is not running the event log (no genesis yet)"
  prefixed "event rejected: " (checkIngestCapsAt event now)
  checkEpochClaim ls event.core.payload
  let trial ← prefixed "event rejected: " (ls.apply K event)
  st.db.checkPosted event
  return trial

/-- The handler of `SubmitEvent`: the server that it leaves behind, and its answer. -/
def serveSubmit (event : Event) (now : ℕ) : ServerState × Checked (EventHash × ℕ) :=
  match st.checkSubmit K event now with
  | .error err => (st, .error err)
  | .ok trial =>
    let (db, written) := st.db.transaction fun db => db.ingest K event
    match written with
    | .error err => ({ st with db }, .error err)
    | .ok _ => ({ db, logState := some trial }, .ok (event.hash K, event.core.timestamp))

/-- Only a restart can fail to leave a running server behind. -/
def arrive (arrival : Arrival) : Checked ServerState :=
  match arrival with
  | .submit event now => .ok (st.serveSubmit K event now).1
  | .restart => st.restart K

end ServerState

abbrev ArrivalRun (K : Crypto) (st : ServerState) (tr : List (Transition ServerState Arrival))
    (st' : ServerState) : Prop :=
  Execution (fun st arrival st' => st.arrive K arrival = .ok st') st tr st'

variable {K : Crypto} {g : Genesis} {st₀ st st' : ServerState} {ls ls' : LogState} {e : Event}
  {now : ℕ} {arrival : Arrival} {tr : List (Transition ServerState Arrival)}

theorem submitEvent_eq : st.submitEvent K e now = (do
    let trial ← st.checkSubmit K e now
    let (db, orphans) ← st.db.ingest K e
    return ({ db, logState := some trial }, orphans)) := by
  simp only [ServerState.submitEvent, ServerState.checkSubmit, bind_assoc, pure_bind]

/-- The handler does what the checked description of a submission says, and nothing where that
one is refused. -/
theorem serveSubmit_eq : st.serveSubmit K e now =
    match st.submitEvent K e now with
    | .ok (st', _) => (st', .ok (e.hash K, e.core.timestamp))
    | .error err => (st, .error err) := by
  rw [submitEvent_eq]
  simp only [ServerState.serveSubmit, Db.transaction]
  cases st.checkSubmit K e now with
  | error err => rfl
  | ok trial =>
    cases st.db.ingest K e with
    | error err => rfl
    | ok written => rfl

theorem serveSubmit_refused {err : Failure} (h : (st.serveSubmit K e now).2 = .error err) :
    (st.serveSubmit K e now).1 = st := by
  rw [serveSubmit_eq] at h ⊢
  cases hsubmit : st.submitEvent K e now with
  | ok accepted => simp [hsubmit] at h
  | error _ => rfl

/-! ## Stored commits took effect -/

/-- The commit is not a stale one in the state that its prefix of the log folds to. -/
def CommitsApplied (K : Crypto) (g : Genesis) (events : List Event) : Prop :=
  ∀ a e b, events = a ++ e :: b → ∀ p, e.core.payload = .mlsCommit p →
    ∃ s, replay K g a = .ok s ∧ s.checkPayloadAuthz e = .ok .apply

theorem commit_current {p : MlsCommit} (hclaim : checkEpochClaim ls e.core.payload = .ok ())
    (happly : ls.apply K e = .ok ls') (hp : e.core.payload = .mlsCommit p) :
    ls.checkPayloadAuthz e = .ok .apply := by
  obtain ⟨v, hv⟩ := verdict_of_apply happly
  have hcommit : ls.checkMlsCommit e p = .ok v := by simpa only [checkPayloadAuthz, hp] using hv
  obtain ⟨group, hg, ⟨rfl, -⟩ | ⟨rfl, hgen, hepoch⟩⟩ := checkMlsCommit_eq_ok.mp hcommit
  · exact hv
  · simp [checkEpochClaim, hp, epochClaim, mlsCurrentEpoch, hg, hgen, hepoch] at hclaim

theorem CommitsApplied.snoc {events : List Event} (h : CommitsApplied K g events)
    (hreplay : replay K g events = .ok ls)
    (hnew : ∀ p, e.core.payload = .mlsCommit p → ls.checkPayloadAuthz e = .ok .apply) :
    CommitsApplied K g (events ++ [e]) := by
  intro a e' b heq p hp
  rcases List.eq_nil_or_concat b with rfl | ⟨b, e'', rfl⟩
  · obtain ⟨rfl, rfl⟩ := List.append_singleton_inj.mp heq
    exact ⟨ls, hreplay, hnew p hp⟩
  · rw [List.concat_eq_append, ← List.cons_append, ← List.append_assoc] at heq
    exact h a e' b (List.append_singleton_inj.mp heq).1 p hp

/-- The log knows every declared channel under the class it was declared with. -/
def ClassesRecorded (events : List Event) (ls : LogState) : Prop :=
  ∀ e ∈ events, ∀ p, e.core.payload = .channelCreated p →
    ls.channelClass p.channelId = some p.cls

theorem channelClass_declared {p : ChannelCreated} (happly : ls.apply K e = .ok ls')
    (hp : e.core.payload = .channelCreated p) : ls'.channelClass p.channelId = some p.cls := by
  obtain ⟨key, m, -, heff, rfl⟩ := apply_cases happly
  cases heff with
  | channelCreated q hq =>
    obtain rfl : q = p := EventPayload.channelCreated.inj (hq.symm.trans hp)
    simp [channelClass, recordAccepted, advanceChain, createChannel]
  | _ => simp_all

theorem ClassesRecorded.snoc {events : List Event} (h : ClassesRecorded events ls)
    (happly : ls.apply K e = .ok ls') : ClassesRecorded (events ++ [e]) ls' := by
  intro e' he' p hp
  rcases List.mem_append.mp he' with he' | he'
  · exact ChannelSeparation.class_kept happly (h e' he' p hp)
  · obtain rfl := List.mem_singleton.mp he'
    exact channelClass_declared happly hp

/-- The invariant of a run of submissions and restarts. -/
structure Served (K : Crypto) (g : Genesis) (st : ServerState) (ls : LogState) : Prop extends
    Running K g st ls where
  commits : CommitsApplied K g st.db.events
  classes : ClassesRecorded st.db.events ls

theorem Established.served (h : Established K g st) : Served K g st (fromGenesis K g) :=
  ⟨h.running, by simp [CommitsApplied, h.events], by simp [ClassesRecorded, h.events]⟩

theorem Served.submitted {l : List ℕ} (h : Served K g st ls)
    (hsubmit : st.submitEvent K e now = .ok (st', l)) : ∃ ls', Served K g st' ls' := by
  obtain ⟨ls₁, hrunning⟩ := (h.toRunning.submitted hsubmit).running
  obtain ⟨ls₀, ls', hls, happly, hls', -, heff⟩ := Server.submitted hsubmit
  obtain rfl := Option.some.inj (h.logState.symm.trans hls)
  obtain rfl := Option.some.inj (hrunning.logState.symm.trans hls')
  have hevents : st'.db.events = st.db.events ++ [e] := heff.events
  have hclaim : checkEpochClaim ls e.core.payload = .ok () := by
    simp only [submitEvent_eq, ServerState.checkSubmit, bind_eq_ok, context_eq_ok] at hsubmit
    obtain ⟨-, ⟨ls₂, hls₂, -, -, ⟨⟩, hclaim, -⟩, -⟩ := hsubmit
    obtain rfl := Option.some.inj (hls.symm.trans hls₂)
    exact hclaim
  refine ⟨ls₁, hrunning, ?_, ?_⟩
  · rw [hevents]
    exact h.commits.snoc h.replay fun p hp => commit_current hclaim happly hp
  · rw [hevents]
    exact h.classes.snoc happly

theorem Served.arrived (h : Served K g st ls) (harrive : st.arrive K arrival = .ok st') :
    ∃ ls', Served K g st' ls' := by
  cases arrival with
  | submit event now =>
    have hst' : (st.serveSubmit K event now).1 = st' := Except.ok.inj harrive
    rw [serveSubmit_eq] at hst'
    cases hsubmit : st.submitEvent K event now with
    | error err =>
      obtain rfl : st = st' := by simpa [hsubmit] using hst'
      exact ⟨ls, h⟩
    | ok accepted =>
      obtain ⟨st₁, l⟩ := accepted
      obtain rfl : st₁ = st' := by simpa [hsubmit] using hst'
      exact h.submitted hsubmit
  | restart =>
    have hrestart : st.restart K = .ok st' := harrive
    have hst' := hrestart
    rw [restart_eq h.toConsistent h.derived, Except.ok.injEq] at hst'
    have hevents : st'.db.events = st.db.events := by
      rw [← hst']
      exact congrArg View.events view_passes
    have hlog : st'.logState = some ls := by rw [← hst']
    obtain ⟨ls', hrunning⟩ := (h.toRunning.restarted hrestart).running
    obtain rfl := Option.some.inj (hlog.symm.trans hrunning.logState)
    exact ⟨ls, hrunning, hevents ▸ h.commits, hevents ▸ h.classes⟩

theorem served_of_run (hst : Established K g st₀) (h : ArrivalRun K st₀ tr st) :
    ∃ ls, Served K g st ls :=
  h.invariant (I := fun st => ∃ ls, Served K g st ls) ⟨_, hst.served⟩
    fun _ _ _ ⟨_, hs⟩ harrive => hs.arrived harrive

/-- After any run of submissions, accepted or refused, and restarts: the state in memory is the
replay of the stored log, and another restart succeeds; a refused submission leaves the server
as it was; every stored commit took effect in its place; and every declared channel has the
class that the log records for it. -/
theorem submit_atomic (hst : Established K g st₀) (h : ArrivalRun K st₀ tr st) :
    (∃ ls, st.logState = some ls ∧ replay K g st.db.events = .ok ls ∧
      (∃ st', st.restart K = .ok st') ∧
      ∀ e ∈ st.db.events, ∀ p, e.core.payload = .channelCreated p →
        (st.db.channelRow p.channelId).bind ChannelRow.contentClass = some p.cls ∧
          ls.channelClass p.channelId = some p.cls) ∧
    (∀ event now err, (st.serveSubmit K event now).2 = .error err →
      (st.serveSubmit K event now).1 = st) ∧
    CommitsApplied K g st.db.events := by
  obtain ⟨ls, hserved⟩ := served_of_run hst h
  refine ⟨⟨ls, hserved.logState, hserved.replay, ?_, ?_⟩, ?_, hserved.commits⟩
  · exact ⟨_, restart_eq hserved.toConsistent hserved.derived⟩
  · intro e he p hp
    exact ⟨hserved.declared e he p hp, hserved.classes e he p hp⟩
  · intro event now err herr
    exact serveSubmit_refused herr

open SampleLog SampleServer

/-- Two of Alice's devices commit to one epoch of a channel; the second commit is bounced. -/
def racedCommits : List Arrival :=
  let commit : EventPayload :=
    .mlsCommit ⟨e2eeChannelIdFloor, 0, 0, [], [], [], 0, 1, 0, "", 0⟩
  (signed
    [⟨alice, a0, 1, cert alice a0 none⟩,
     ⟨alice, a0, 1, .channelCreated ⟨e2eeChannelIdFloor, "sealed", "text", .e2ee, none⟩⟩,
     ⟨alice, a1, 1, cert alice a1 none⟩,
     ⟨alice, a0, 2, commit⟩,
     ⟨alice, a1, 2, commit⟩]).map (fun e => .submit e e.core.timestamp) ++ [.restart]

def arrivalsOf (arrivals : List Arrival) : List (Transition ServerState Arrival) :=
  Execution.transitions (ServerState.arrive crypto) founded arrivals

def afterArrivals (arrivals : List Arrival) : ServerState :=
  Execution.stateAfter (ServerState.arrive crypto) founded arrivals

theorem submit_atomic_racedCommits :
    let st := afterArrivals racedCommits
    (arrivalsOf racedCommits).length = 6 ∧ st.db.events.length = 4 ∧
    (∃ ls, st.logState = some ls ∧ replay crypto genesis st.db.events = .ok ls ∧
      (∃ st', st.restart crypto = .ok st') ∧
      ∀ e ∈ st.db.events, ∀ p, e.core.payload = .channelCreated p →
        (st.db.channelRow p.channelId).bind ChannelRow.contentClass = some p.cls ∧
          ls.channelClass p.channelId = some p.cls) ∧
    (∀ event now err, (st.serveSubmit crypto event now).2 = .error err →
      (st.serveSubmit crypto event now).1 = st) ∧
    CommitsApplied crypto genesis st.db.events :=
  ⟨by decide +kernel, by decide +kernel,
    submit_atomic established_founded (Execution.of_transitions racedCommits)⟩

end Server
