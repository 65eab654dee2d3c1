import Farder.Server.HubWiring
import Farder.Server.SampleHub

/-! # Changes and their announcements

A request is committed, answered and announced, in this order, and an announcement is put on
bounded queues. So every event of a request comes to every connection that is to get it, and
every file it has orphaned is cleaned up, as long as no connection fails before it has announced
what it has done, and every queue has room for what is delivered. -/
namespace Server

open EventLog Guarded Permissions

variable {K : Crypto} {hub hub' : Hub} {task other : ℕ} {op : HubOp} {moment : Moment}
  {event : Broadcast} {fileId : ℕ} {host : Host}
  {tr a b : List (Transition Hub HubOp)} {x : Transition Hub HubOp}

def Duty.announced : Duty → Option Broadcast
  | .announce event => some event
  | _ => none

namespace Hub

variable (hub : Hub)

/-- What a request is answered, or a step of a command, if it is not refused. -/
def answer (K : Crypto) : HubOp → Option Answer
  | .request task moment (.server request) => (hub.connections task).bind fun c =>
    (hub.host.perform K moment (.request c.member c.isOwner request)).2.toOption
  | .continueCommand task moment outcome =>
    ((hub.duties task).head?.bind Duty.command).bind fun command =>
      (hub.host.perform K moment (.continueCommand command outcome)).2.toOption
  | _ => none

/-- The events of an operation: those that the answer brings, those of a request about streams or
presences, and that of a sweep. -/
def events (K : Crypto) (op : HubOp) : List Broadcast :=
  ((hub.answer K op).toList.flatMap fun answer => answer.events.map BroadcastEvent.broadcast) ++
    match op with
    | .request _ _ (.server _) => []
    | .request task moment request => (hub.connections task).toList.flatMap fun c =>
      (hub.handle K c.member c.isOwner moment request).2.filterMap Duty.announced
    | .background _ b => [b]
    | _ => []

def orphans (K : Crypto) (op : HubOp) : List ℕ :=
  (hub.answer K op).toList.flatMap Answer.orphans

/-- Is the event for the connection that a task serves? -/
def Entitled (event : Broadcast) (task : ℕ) : Prop :=
  ∃ pk, hub.served task = some pk ∧ hub.addressed event.target pk = true ∧
    hub.mayReceive pk event.notice = true

/-- The connection can be reached: it holds the entry of its member, and its queue has room. -/
def Reachable (task : ℕ) : Prop :=
  ∀ pk, hub.served task = some pk → hub.clients.lookup pk = some task ∧
    (hub.queues task).length < queueCapacity

/-- No connection fails before it has announced what it has done, and everyone can be reached
who is to get an event. -/
def KeepsAnnouncing : HubOp → Prop
  | .fail task => ∀ duty ∈ hub.duties task, duty = .respond
  | .act task => ∀ event, (hub.duties task).head? = some (.deliver event) →
      ∀ other, hub.Entitled event other → hub.Reachable other
  | _ => True

end Hub

/-- A step by which a task puts an event on the queue of everyone who is entitled to it. -/
structure Delivers (task : ℕ) (event : Broadcast) (x : Transition Hub HubOp) : Prop where
  acts : x.event = .act task
  head : (x.pre.duties task).head? = some (.deliver event)
  queued : ∀ other, x.pre.Entitled event other →
    x.post.queues other = x.pre.queues other ++ [event.notice]

structure Cleans (task : ℕ) (fileId : ℕ) (x : Transition Hub HubOp) : Prop where
  acts : x.event = .act task
  head : (x.pre.duties task).head? = some (.cleanupOrphanedFile fileId)
  cleaned : x.post.host.db = x.pre.host.db.cleanupOrphanedFile fileId

/-! ## What an operation leaves to be done -/

theorem announce_of_answer {answer : Answer}
    (h : event ∈ answer.events.map BroadcastEvent.broadcast) :
    .announce event ∈ Hub.announcements answer := by
  obtain ⟨e, he, rfl⟩ := List.mem_map.mp h
  exact List.mem_map.mpr ⟨e, he, rfl⟩

theorem continueCommand_orphans {command : RunningCommand}
    {outcome : Except String CommandOutcome} {step : CommandStep}
    (h : (host.continueCommand moment command outcome).2 = .ok step) : step.told.orphans = [] := by
  have hpass : ∀ {host : Host} {passed : Checked RunningCommand},
      (host.pass passed).2 = .ok step → step.told.orphans = [] := by
    rintro host (failure | command) hpassed
    · exact absurd hpassed (by simp [Host.pass])
    · obtain rfl := Except.ok.inj hpassed
      rfl
  unfold Host.continueCommand at h
  split_ifs at h
  cases hstage : command.stage with
  | admitted => exact hpass (by simpa only [hstage] using h)
  | found row => exact hpass (by simpa only [hstage] using h)
  | cleared row =>
    simp only [hstage] at h
    obtain ⟨answer, hanswer, rfl⟩ := map_eq_ok.mp h
    rw [Host.postCommand, Host.commit_answer (Host.commit_answered hanswer)] at hanswer
    obtain rfl := Except.ok.inj hanswer
    rfl

theorem request_duties {c : Connection} {r : Request} {answer : Answer}
    (hanswer : (hub.host.perform K moment (.request c.member c.isOwner r)).2 = .ok answer) :
    (∀ event ∈ answer.events.map BroadcastEvent.broadcast, .announce event ∈
        (hub.handle K c.member c.isOwner moment (.server r)).2) ∧
      ∀ fileId ∈ answer.orphans, .cleanupOrphanedFile fileId ∈
        (hub.handle K c.member c.isOwner moment (.server r)).2 := by
  simp only [Hub.handle, hanswer]
  unfold Hub.afterRequest
  split
  · obtain rfl := runCommand_answer hanswer
    exact ⟨List.forall_mem_nil _, List.forall_mem_nil _⟩
  · refine ⟨fun event hevent => ?_, fun fileId hfile => ?_⟩
    · exact List.mem_cons_of_mem _ (List.mem_append_left _ (announce_of_answer hevent))
    · exact List.mem_cons_of_mem _ (List.mem_append_right _ (List.mem_map.mpr ⟨_, hfile, rfl⟩))

theorem command_duties {command : RunningCommand} {outcome : Except String CommandOutcome}
    {answer : Answer}
    (hanswer : (hub.host.perform K moment (.continueCommand command outcome)).2 = .ok answer) :
    (∀ event ∈ answer.events.map BroadcastEvent.broadcast, .announce event ∈
        Hub.afterCommand (hub.host.continueCommand moment command outcome).2) ∧
      answer.orphans = [] := by
  obtain ⟨step, hstep, rfl⟩ := map_eq_ok.mp hanswer
  refine ⟨fun event hevent => ?_, continueCommand_orphans hstep⟩
  rw [hstep]
  cases step with
  | next command => exact absurd hevent List.not_mem_nil
  | answer answer => exact List.mem_append_left _ (announce_of_answer hevent)

/-- The task of an operation has to announce its events after it, and to clean up the files. -/
theorem duties_of_step (hstep : HubStep K hub op hub') (hactor : op.actor = some task) :
    (∀ event ∈ hub.events K op, .announce event ∈ hub'.duties task) ∧
      ∀ fileId ∈ hub.orphans K op, .cleanupOrphanedFile fileId ∈ hub'.duties task := by
  obtain ⟨henabled, rfl⟩ := hstep
  cases op with
  | request asker moment request =>
    obtain rfl : asker = task := Option.some.inj hactor
    obtain ⟨c, hc, -⟩ := enabled_request henabled
    have hduties : (hub.next K (.request asker moment request)).duties asker =
        (hub.handle K c.member c.isOwner moment request).2 := by
      simp only [Hub.next, hc, Hub.assign, Function.update_self]
    rw [hduties]
    cases request with
    | server r =>
      simp only [Hub.events, Hub.orphans, Hub.answer, hc, Option.bind_some, List.append_nil]
      cases hanswer : (hub.host.perform K moment (.request c.member c.isOwner r)).2 with
      | error failure => exact ⟨by simp [Except.toOption], by simp [Except.toOption]⟩
      | ok answer => simpa [Except.toOption] using request_duties hanswer
    | _ =>
      refine ⟨fun event hevent => ?_, by simp [Hub.orphans, Hub.answer]⟩
      simp only [Hub.events, Hub.answer, Option.toList_none, List.flatMap_nil, List.nil_append, hc,
        Option.toList_some, List.flatMap_cons, List.append_nil, List.mem_filterMap] at hevent
      obtain ⟨duty, hduty, hevent⟩ := hevent
      cases duty with
      | announce =>
        obtain rfl := Option.some.inj hevent
        exact hduty
      | _ => exact absurd hevent (by simp [Duty.announced])
  | continueCommand actor moment outcome =>
    obtain rfl : actor = task := Option.some.inj hactor
    obtain ⟨command, rest, hduties⟩ := enabled_continueCommand henabled
    simp only [Hub.events, Hub.orphans, Hub.answer, Hub.next, hduties, Hub.assign,
      Function.update_self, List.head?_cons, Option.bind_some, Duty.command, List.append_nil,
      Hub.continueCommand]
    cases hanswer : (hub.host.perform K moment (.continueCommand command outcome)).2 with
    | error failure => exact ⟨by simp [Except.toOption], by simp [Except.toOption]⟩
    | ok answer =>
      obtain ⟨hevents, horphans⟩ := command_duties hanswer
      refine ⟨fun event hevent => List.mem_append_left _ (hevents event ?_), ?_⟩
      · simpa [Except.toOption] using hevent
      · simp [Except.toOption, horphans]
  | background new b =>
    obtain rfl : new = task := Option.some.inj hactor
    refine ⟨fun event hevent => ?_, by simp [Hub.orphans, Hub.answer]⟩
    obtain rfl : event = b := by simpa [Hub.events, Hub.answer] using hevent
    simp [Hub.next, Hub.assign]
  | _ => exact ⟨by simp [Hub.events, Hub.answer], by simp [Hub.orphans, Hub.answer]⟩

theorem delivered {owner : ℕ} (hstep : HubStep K x.pre x.event x.post)
    (hact : x.event = .act task) (hhead : (x.pre.duties task).head? = some (.deliver event)) :
    x.post.queues owner = (x.pre.deliver event).queues owner := by
  obtain ⟨-, hpost⟩ := hstep
  obtain ⟨rest, hduties⟩ := List.head?_eq_some_iff.mp hhead
  rw [hpost, hact]
  simp only [Hub.next, hduties]
  exact congrFun rfl owner

/-- Everyone who is entitled to an event gets it exactly if everyone who is can be reached. -/
theorem delivers_iff (hstep : HubStep K x.pre x.event x.post) (hact : x.event = .act task)
    (hhead : (x.pre.duties task).head? = some (.deliver event)) :
    Delivers task event x ↔ ∀ other, x.pre.Entitled event other → x.pre.Reachable other := by
  constructor
  · rintro ⟨-, -, hqueued⟩ other hentitled pk hserved
    have hqueue := hqueued other hentitled
    rw [delivered hstep hact hhead] at hqueue
    simp only [Hub.deliver] at hqueue
    split_ifs at hqueue with hroom
    · obtain ⟨c, hc⟩ := Option.isSome_iff_exists.mp hroom.1
      obtain ⟨hc, hentry, -⟩ := recipient_eq_some.mp hc
      obtain ⟨c', hc', -, hmember, -⟩ := served_eq_some.mp hserved
      obtain rfl := Option.some.inj (hc.symm.trans hc')
      exact ⟨hmember ▸ hentry, hroom.2⟩
    · exact absurd hqueue (by simp)
  · intro hreachable
    refine ⟨hact, hhead, fun other hentitled => ?_⟩
    obtain ⟨pk, hserved, haddressed, hmay⟩ := id hentitled
    obtain ⟨hentry, hroom⟩ := hreachable other hentitled pk hserved
    obtain ⟨c, hc, hreceiving, rfl, -⟩ := served_eq_some.mp hserved
    have hrecipient : x.pre.recipient event other = some c :=
      recipient_eq_some.mpr ⟨hc, hentry, hreceiving, haddressed, hmay⟩
    rw [delivered hstep hact hhead]
    simp only [Hub.deliver]
    rw [if_pos ⟨by rw [hrecipient]; rfl, hroom⟩]

/-- A task that keeps announcing does what it has to do, other than to respond and to go on with
a command. -/
theorem done_of_keeps {duty : Duty} (hrun : HubRun K hub tr hub')
    (hkeeps : ∀ x ∈ tr, x.pre.KeepsAnnouncing x.event) (hduty : duty ∈ hub.duties task)
    (hne : duty ≠ .respond) (hcommand : duty.command = none) : duty ∈ hub'.duties task ∨
      ∃ a x b, tr = a ++ x :: b ∧ x.event = .act task ∧
        (x.pre.duties task).head? = some duty := by
  have hdone := done_of_run hrun hcommand hduty fun x hx hfail hmem => by
    have hkeeps := hkeeps x hx
    rw [hfail] at hkeeps
    exact hne (hkeeps duty hmem)
  refine hdone.imp id fun ⟨x, hx, hact, hhead⟩ => ?_
  obtain ⟨a, b, rfl⟩ := List.append_of_mem hx
  exact ⟨a, x, b, rfl, hact, hhead⟩

theorem delivered_of_announced (hrun : HubRun K hub tr hub')
    (hkeeps : ∀ x ∈ tr, x.pre.KeepsAnnouncing x.event)
    (hannounce : .announce event ∈ hub.duties task) :
    (.announce event ∈ hub'.duties task ∨ .deliver event ∈ hub'.duties task) ∨
      ∃ x ∈ tr, Delivers task event x := by
  rcases done_of_keeps hrun hkeeps hannounce (by simp) rfl
    with hpending | ⟨a, x, b, rfl, hact, hhead⟩
  · exact .inl (.inl hpending)
  obtain ⟨-, hstep, hlater⟩ := hrun.split_at
  have hdeliver : .deliver event ∈ x.post.duties task := by
    obtain ⟨rest, hduties⟩ := List.head?_eq_some_iff.mp hhead
    obtain ⟨-, hpost⟩ := hstep
    rw [hpost, hact]
    simp only [Hub.next, hduties, Hub.assign, Function.update_self, Hub.carryOut]
    split_ifs <;> simp
  have hlaterKeeps : ∀ y ∈ b, y.pre.KeepsAnnouncing y.event := fun y hy => hkeeps y (by simp [hy])
  rcases done_of_keeps hlater hlaterKeeps hdeliver (by simp) rfl with
    hpending | ⟨c, y, d, rfl, hact, hhead⟩
  · exact .inl (.inr hpending)
  · have hy := hkeeps y (by simp)
    rw [hact] at hy
    refine .inr ⟨y, by simp, (delivers_iff hlater.split_at.2.1 hact hhead).mpr ?_⟩
    exact hy event hhead

theorem cleaned_of_orphaned (hrun : HubRun K hub tr hub')
    (hkeeps : ∀ x ∈ tr, x.pre.KeepsAnnouncing x.event)
    (horphan : .cleanupOrphanedFile fileId ∈ hub.duties task) :
    .cleanupOrphanedFile fileId ∈ hub'.duties task ∨ ∃ x ∈ tr, Cleans task fileId x := by
  rcases done_of_keeps hrun hkeeps horphan (by simp) rfl with hpending | ⟨a, x, b, rfl, hact, hhead⟩
  · exact .inl hpending
  refine .inr ⟨x, by simp, hact, hhead, ?_⟩
  obtain ⟨-, hstep, -⟩ := hrun.split_at
  obtain ⟨rest, hduties⟩ := List.head?_eq_some_iff.mp hhead
  obtain ⟨-, hpost⟩ := hstep
  rw [hpost, hact]
  simp only [Hub.next, hduties]
  rfl

/-- In every run that keeps announcing, each event of each request, of each step of a command and of
each sweep comes to everyone who is entitled to it, and each file that it has orphaned is cleaned
up, unless its task has yet to do so. -/
theorem changes_announced (hrun : HubRun K (.start host) tr hub)
    (hkeeps : ∀ x ∈ tr, x.pre.KeepsAnnouncing x.event) :
    ∀ a x b, tr = a ++ x :: b → ∀ task, x.event.actor = some task →
      (∀ event ∈ x.pre.events K x.event,
        (.announce event ∈ hub.duties task ∨ .deliver event ∈ hub.duties task) ∨
          ∃ y ∈ b, Delivers task event y) ∧
      ∀ fileId ∈ x.pre.orphans K x.event,
        .cleanupOrphanedFile fileId ∈ hub.duties task ∨ ∃ y ∈ b, Cleans task fileId y := by
  rintro a x b rfl task hactor
  obtain ⟨-, hstep, hlater⟩ := hrun.split_at
  have hkeeps : ∀ y ∈ b, y.pre.KeepsAnnouncing y.event := fun y hy => hkeeps y (by simp [hy])
  obtain ⟨hevents, horphans⟩ := duties_of_step hstep hactor
  exact ⟨fun event hevent => delivered_of_announced hlater hkeeps (hevents event hevent),
    fun fileId hfile => cleaned_of_orphaned hlater hkeeps (horphans fileId hfile)⟩

/-! ## A requester that leaves, and a queue that is full -/

open SampleLog SampleHost SampleHub

def createsPlans : SessionRequest := .server (.channel (.createChannel "plans" .text none none))

def bothConnected : List HubOp := connects 1 10 alice ++ connects 2 11 bob

def creationAnnounced : List HubOp := bothConnected ++ asks 1 12 createsPlans 5

/-- Alice's connection fails when the answer is sent to her. -/
def creationUnanswered : List HubOp :=
  bothConnected ++ .request 1 (momentAt 12) createsPlans :: .fail 1 :: acts 1 10

/-- Alice clears her presence until Bob's queue is full; then she creates a channel. -/
def creationCrowdedOut : List HubOp :=
  bothConnected ++ (List.replicate 63 (asks 1 12 (.updatePresence none false) 3)).flatten ++
    asks 1 12 createsPlans 5

def Notice.isChannelCreated : Notice → Bool
  | .server (.channelCreated _) => true
  | _ => false

/-- The task that the operation connects. -/
def HubOp.newcomer : HubOp → Option ℕ
  | .connect new .. => some new
  | _ => none

theorem unconnected_of_run (hrun : HubRun K (.start host) tr hub)
    (hnone : ∀ x ∈ tr, x.event.newcomer ≠ some task) : hub.connections task = none := by
  induction hrun with
  | nil => rfl
  | @snoc pre post e tr hrun hstep ih =>
    have ih := ih fun x hx => hnone x (by simp [hx])
    have he : e.newcomer ≠ some task := hnone ⟨pre, e, post⟩ (by simp)
    have htask : TaskStep K pre task e _ _ := task_step hstep
    generalize post.connections task = c' at *
    generalize post.duties task = duties' at *
    cases htask with
    | connect => exact absurd rfl he
    | request hc => exact absurd hc (by simp [ih])
    | act => rw [ih, Option.map_none]
    | continueCommand => exact ih
    | fail hc => exact absurd hc (by simp [ih])
    | background => rfl
    | idle => exact ih

/-- Is nobody to fail, and everyone of the first tasks to be reached? -/
def announcesBelow (n : ℕ) (x : Transition Hub HubOp) : Bool :=
  match x.event with
  | .fail _ => false
  | .act _ => ∀ other < n, (x.pre.connections other).all fun c =>
      (x.pre.duties other).any Duty.isRegister ∨ x.pre.clients.lookup c.member = some other ∧
        (x.pre.queues other).length < queueCapacity
  | _ => true

theorem keepsAnnouncing_of_below {n : ℕ} (hrun : HubRun K (.start host) tr hub)
    (hconnects : ∀ x ∈ tr, x.event.newcomer.all (· < n) = true)
    (hbelow : ∀ x ∈ tr, announcesBelow n x = true) :
    ∀ x ∈ tr, x.pre.KeepsAnnouncing x.event := by
  intro x hx
  have hannounces := hbelow x hx
  obtain ⟨a, b, rfl⟩ := List.append_of_mem hx
  have hpre := hrun.split_at.1
  unfold announcesBelow at hannounces
  unfold Hub.KeepsAnnouncing
  split
  · next hevent => exact absurd hannounces (by simp [hevent])
  · next task hevent =>
    rw [hevent] at hannounces
    rintro event - other - pk hserved
    obtain ⟨c, hc, -, rfl, hnone⟩ := served_eq_some.mp hserved
    have hlt : other < n := by
      by_contra hge
      have hnone := unconnected_of_run hpre fun y hy hnew => by
        have hsmall := hconnects y (by simp [hy])
        rw [hnew, Option.all_some, decide_eq_true_eq] at hsmall
        exact hge hsmall
      exact absurd hc (by simp [hnone])
    have hall := of_decide_eq_true hannounces other hlt
    rw [hc, Option.all_some, decide_eq_true_eq] at hall
    refine hall.resolve_left fun hregister => ?_
    obtain ⟨duty, hduty, hregister⟩ := List.any_eq_true.mp hregister
    exact List.filter_eq_nil_iff.mp hnone duty hduty hregister
  · trivial

theorem changes_announced_of_alice :
    HubRun crypto start (path creationAnnounced) (hubAfter creationAnnounced) ∧
      ∀ a x b, path creationAnnounced = a ++ x :: b → ∀ task, x.event.actor = some task →
        (∀ event ∈ x.pre.events crypto x.event,
          (.announce event ∈ (hubAfter creationAnnounced).duties task ∨
              .deliver event ∈ (hubAfter creationAnnounced).duties task) ∨
            ∃ y ∈ b, Delivers task event y) ∧
        ∀ fileId ∈ x.pre.orphans crypto x.event,
          .cleanupOrphanedFile fileId ∈ (hubAfter creationAnnounced).duties task ∨
            ∃ y ∈ b, Cleans task fileId y :=
  have hrun : HubRun crypto start (path creationAnnounced) (hubAfter creationAnnounced) :=
    run_path (by decide +kernel)
  ⟨hrun, changes_announced hrun (keepsAnnouncing_of_below (n := 3) hrun (by decide +kernel)
    (by decide +kernel))⟩

/-- The channel is created, Bob is connected, and the task of the request has nothing left to
do; but nothing announces the channel to him. -/
def Unannounced (ops : List HubOp) : Prop :=
  HubRun crypto start (path ops) (hubAfter ops) ∧
    (∃ x ∈ path ops, x.event = .request 1 (momentAt 12) createsPlans ∧
      (x.pre.events crypto x.event).any (fun event =>
        event.target = .all ∧ event.notice.isChannelCreated)) ∧
    (hubAfter ops).host.db.channels.length = 2 ∧ (hubAfter ops).duties 1 = [] ∧
    (hubAfter ops).served 2 = some (key bob) ∧
    ∀ notice ∈ (hubAfter ops).queues 2, notice.isChannelCreated = false

theorem changes_unannounced : Unannounced creationUnanswered ∧ Unannounced creationCrowdedOut :=
  ⟨⟨run_path (by decide +kernel), ⟨_, mem_path (l := bothConnected), rfl, by decide +kernel⟩,
      by decide +kernel, by decide +kernel, by decide +kernel, by decide +kernel⟩,
    run_path (by decide +kernel),
    ⟨_, mem_path (l := bothConnected ++
      (List.replicate 63 (asks 1 12 (.updatePresence none false) 3)).flatten), rfl,
      by decide +kernel⟩,
    by decide +kernel, by decide +kernel, by decide +kernel, by decide +kernel⟩

end Server
