import Farder.Client.Resync
import Farder.SealedAuthorship

/-! # Catching up is bounded

Whatever the server answers, a sealed message is submitted only so often, and the chain of the device
goes on once if it is accepted in the end. The cursor goes back only if the last page of a fetch
makes it. -/
namespace Client

open EventLog Effects

/-- What goes over the transport, one way and the other. -/
inductive Exchange where
  | submitted (e : Event) (answer : Answer)
  | fetched (since : ℕ) (answer : Except TransportError MlsControl)

abbrev Trace := List Exchange

/-- The transport with a record of what is submitted, and of the pages that are asked for. -/
def Transport.tracing {σ : Type} (T : Transport σ) : Transport (σ × Trace) where
  now w := T.now w.1
  submitEvent e w :=
    let answer := T.submitEvent e w.1
    (answer.1, answer.2, w.2 ++ [.submitted e answer.1])
  fetchMlsControl channelId since w :=
    let answer := T.fetchMlsControl channelId since w.1
    (answer.1, answer.2, w.2 ++ [.fetched since answer.1])
  fetchKeyPackages member w :=
    let answer := T.fetchKeyPackages member w.1
    (answer.1, answer.2, w.2)
  fetchDeviceCerts identity w :=
    let answer := T.fetchDeviceCerts identity w.1
    (answer.1, answer.2, w.2)

def submissions (trace : Trace) : Log :=
  trace.filterMap fun x =>
    match x with
    | .submitted e answer => some (e, answer)
    | .fetched _ _ => none

abbrev Fetch := ℕ × Except TransportError MlsControl

def fetches (trace : Trace) : List Fetch :=
  trace.filterMap fun x =>
    match x with
    | .submitted _ _ => none
    | .fetched since answer => some (since, answer)

def citedEpoch (e : Event) : Option ℕ :=
  match e.core.payload with
  | .messagePostedE2ee p => some p.epoch
  | _ => none

def epochs (trace : Trace) : List ℕ := (submissions trace).filterMap fun x => citedEpoch x.1

def cursors {ε : Type} (trace : Trace) (result : Except ε ResyncOutcome) : List ℕ :=
  (fetches trace).map Prod.fst ++ (result.toOption.map ResyncOutcome.nextAcceptSeq).toList

/-- The condition on the pages: one that says that there are no more ends at or after the cursor
that it has been asked for with. -/
def EndsForward (trace : Trace) : Prop :=
  ∀ since page, (since, .ok page) ∈ fetches trace → page.more = false → since ≤ page.nextAcceptSeq

/-- No streak of one number is longer than `max`, if there has been one of `run` times `last`. -/
def Paced (max : ℕ) : (run last : ℕ) → List ℕ → Prop
  | _, _, [] => True
  | run, last, n :: ns => if n = last then run < max ∧ Paced max (run + 1) last ns else Paced max 1 n ns

section Paced

variable {max run last k n : ℕ} {l : List ℕ}

theorem Paced.prefix_le (h : Paced max run last l) (hmax : 0 < max) (hrun : run ≤ max)
    (hk : List.replicate k n <+: l) : k ≤ max ∧ (n = last → run + k ≤ max) := by
  induction l generalizing run last k with
  | nil =>
    have hzero : k = 0 := by simpa using hk
    omega
  | cons a l ih =>
    cases k with
    | zero => exact ⟨Nat.zero_le _, fun _ => hrun⟩
    | succ k =>
      obtain ⟨rfl, hrest⟩ := List.cons_prefix_cons.mp hk
      by_cases hlast : n = last
      · rw [Paced, if_pos hlast] at h
        have hstreak := (ih h.2 h.1 hrest).2 hlast
        omega
      · rw [Paced, if_neg hlast] at h
        have hstreak := (ih h hmax hrest).2 rfl
        exact ⟨by omega, fun heq => absurd heq hlast⟩

theorem Paced.infix_le (h : Paced max run last l) (hmax : 0 < max) (hrun : run ≤ max)
    (hk : List.replicate k n <:+: l) : k ≤ max := by
  induction l generalizing run last with
  | nil =>
    have hzero : k = 0 := by simpa using hk
    omega
  | cons a l ih =>
    rcases List.infix_cons_iff.mp hk with hprefix | hinfix
    · exact (h.prefix_le hmax hrun hprefix).1
    · by_cases hlast : a = last
      · rw [Paced, if_pos hlast] at h
        exact ih h.2 h.1 hinfix
      · rw [Paced, if_neg hlast] at h
        exact ih h hmax hinfix

end Paced

/-! ## The trail of the cursor -/

/-- Each page is asked for with the cursor that the page before has led to, and one that is not the
last leads further. A fetch that fails is the last one, and then nothing is returned. -/
def Trail : (cursor : ℕ) → List Fetch → (returned : Option ℕ) → Prop
  | cursor, [], returned => ∀ c ∈ returned, c = cursor
  | cursor, (since, .error _) :: rest, returned => since = cursor ∧ rest = [] ∧ returned = none
  | cursor, (since, .ok page) :: rest, returned =>
    since = cursor ∧
      (page.more = true ∧ page.nextAcceptSeq ≤ since ∧ rest = [] ∧ returned = none ∨
        (page.more = true → since < page.nextAcceptSeq) ∧ Trail page.nextAcceptSeq rest returned)

section Trail

variable {cursor next : ℕ} {l l' : List Fetch} {returned : Option ℕ}

theorem Trail.append (h : Trail cursor l (some next)) (h' : Trail next l' returned) :
    Trail cursor (l ++ l') returned := by
  induction l generalizing cursor with
  | nil =>
    obtain rfl := h next rfl
    exact h'
  | cons x l ih =>
    obtain ⟨since, answer⟩ := x
    cases answer with
    | error e => exact absurd h.2.2 (by simp)
    | ok page =>
      obtain ⟨hsince, ⟨-, -, -, hnone⟩ | ⟨hmore, hrest⟩⟩ := h
      · cases hnone
      · exact ⟨hsince, .inr ⟨hmore, ih hrest⟩⟩

theorem Trail.dropped (h : Trail cursor l returned) : Trail cursor l none := by
  induction l generalizing cursor with
  | nil => exact fun c hc => nomatch hc
  | cons x l ih =>
    obtain ⟨since, answer⟩ := x
    cases answer with
    | error e => exact ⟨h.1, h.2.1, rfl⟩
    | ok page =>
      obtain ⟨hsince, ⟨hmore, hstalled, hrest, -⟩ | ⟨hmore, hrest⟩⟩ := h
      · exact ⟨hsince, .inl ⟨hmore, hstalled, hrest, rfl⟩⟩
      · exact ⟨hsince, .inr ⟨hmore, ih hrest⟩⟩

theorem Trail.single (cursor : ℕ) (page : MlsControl) : Trail cursor [(cursor, .ok page)] none := by
  by_cases hstalled : page.more = true ∧ page.nextAcceptSeq ≤ cursor
  · exact ⟨rfl, .inl ⟨hstalled.1, hstalled.2, rfl, rfl⟩⟩
  · refine ⟨rfl, .inr ⟨fun hmore => ?_, fun c hc => nomatch hc⟩⟩
    exact Nat.lt_of_not_le fun hle => hstalled ⟨hmore, hle⟩

theorem Trail.monotone (h : Trail cursor l returned)
    (hforward : ∀ since page, (since, .ok page) ∈ l → page.more = false →
      since ≤ page.nextAcceptSeq) :
    (l.map Prod.fst ++ returned.toList).Pairwise (· ≤ ·) ∧
      ∀ c ∈ l.map Prod.fst ++ returned.toList, cursor ≤ c := by
  induction l generalizing cursor with
  | nil =>
    cases returned with
    | none => simp
    | some c =>
      obtain rfl := h c rfl
      simp
  | cons x l ih =>
    obtain ⟨since, answer⟩ := x
    cases answer with
    | error e =>
      obtain ⟨rfl, rfl, rfl⟩ := h
      simp
    | ok page =>
      obtain ⟨rfl, ⟨-, -, rfl, rfl⟩ | ⟨hmore, hrest⟩⟩ := h
      · simp
      · obtain ⟨hsorted, hbound⟩ := ih hrest fun since page hmem =>
          hforward since page (List.mem_cons_of_mem _ hmem)
        have hle : since ≤ page.nextAcceptSeq := by
          by_cases hlast : page.more = true
          · exact Nat.le_of_lt (hmore hlast)
          · exact hforward since page List.mem_cons_self (by simpa using hlast)
        simp only [List.map_cons, List.cons_append, List.pairwise_cons, List.mem_cons,
          forall_eq_or_imp]
        refine ⟨⟨fun c hc => hle.trans (hbound c hc), hsorted⟩, Nat.le_refl _, fun c hc => ?_⟩
        exact hle.trans (hbound c hc)

/-- If the cursor never goes back on the way to what is returned, the pages end forward. -/
theorem Trail.forward {c : ℕ} (h : Trail cursor l (some c))
    (hsorted : (l.map Prod.fst ++ [c]).Pairwise (· ≤ ·)) :
    ∀ since page, (since, .ok page) ∈ l → since ≤ page.nextAcceptSeq := by
  induction l generalizing cursor with
  | nil => exact fun _ _ hmem => nomatch hmem
  | cons x l ih =>
    obtain ⟨since, answer⟩ := x
    cases answer with
    | error e => exact absurd h.2.2 (by simp)
    | ok page =>
      obtain ⟨rfl, ⟨-, -, -, hnone⟩ | ⟨-, hrest⟩⟩ := h
      · cases hnone
      · simp only [List.map_cons, List.cons_append, List.pairwise_cons] at hsorted
        intro since' page' hmem
        rcases List.mem_cons.mp hmem with heq | hmem
        · obtain ⟨rfl, hpage⟩ := Prod.mk.inj heq
          obtain rfl := Except.ok.inj hpage
          -- The next cursor is the first one of the rest.
          apply hsorted.1
          cases l with
          | nil =>
            obtain rfl := hrest c rfl
            simp
          | cons y l =>
            obtain ⟨since'', answer⟩ := y
            cases answer <;> simp [hrest.1]
        · exact ih hrest hsorted.2 since' page' hmem

end Trail

variable {M : OpenMls} {σ : Type} {K : Crypto} {C : EnvelopeCodec} {T : Transport σ} {actor : Actor}
  {certs : CertResolver}

/-- What a failed check leaves: nothing is submitted. -/
def Unsent {α : Type} (s : Session M (σ × Trace)) (r : Except E2eeError α)
    (s' : Session M (σ × Trace)) : Prop :=
  s'.world.2 = s.world.2 ∧ s'.chain = s.chain ∧ ∃ err, r = .error err ∧ ∀ te, err ≠ .transport te

/-- One event is submitted, and the chain goes on with it if it is accepted. -/
def Sent (K : Crypto) (s : Session M (σ × Trace)) (r : Except E2eeError SealedSendOutcome)
    (s' : Session M (σ × Trace)) : Prop :=
  ∃ e answer, citedEpoch e = some s.group.epoch ∧
    s'.world.2 = s.world.2 ++ [.submitted e answer] ∧
    match answer with
    | .ok _ => (∃ send, r = .ok send) ∧ s'.chain = ChainState.advance K e
    | .error err => r = .error (.transport err) ∧ s'.chain = s.chain

theorem submitNext_traced (e : Event) (s : Session M (σ × Trace)) :
    submitNext K T.tracing e s =
      match (T.submitEvent e s.world.1).1 with
      | .ok accepted => (.ok accepted, ⟨ChainState.advance K e, s.group,
          (T.submitEvent e s.world.1).2, s.world.2 ++ [.submitted e (.ok accepted)]⟩)
      | .error err => (.error (.transport err), ⟨s.chain, s.group,
          (T.submitEvent e s.world.1).2, s.world.2 ++ [.submitted e (.error err)]⟩) := by
  cases hanswer : (T.submitEvent e s.world.1).1 <;>
    simp [submitNext, submit, advance, Transport.tracing, Prog.run_bind, hanswer]

variable (K C T actor) in
theorem sendSealed_traced (ctx : SealContext) (confirmed : Bool) (s : Session M (σ × Trace)) :
    let run := sendSealed C K T.tracing actor ctx confirmed s
    Unsent s run.1 run.2 ∨ Sent K s run.1 run.2 := by
  dsimp only
  unfold sendSealed
  by_cases hconfirmed : confirmed = false
  · rw [if_pos hconfirmed]
    exact .inl ⟨rfl, rfl, _, rfl, fun te h => by cases h⟩
  rw [if_neg hconfirmed]
  simp only [authzHead, Prog.bind_assoc, Prog.run_get_bind]
  cases hhead : s.chain.lastEventHash with
  | none => exact .inl ⟨rfl, rfl, _, rfl, fun te h => by cases h⟩
  | some head =>
    cases hencoded : C.encode ctx.envelope with
    | none => exact .inl ⟨rfl, rfl, _, rfl, fun te h => by cases h⟩
    | some encoded =>
      simp only [Prog.ofOption, Prog.pure_bind]
      rw [Prog.run_bind, Prog.run_ofExcept]
      rcases hlimits : checkPresealLimits ctx.envelope encoded.length with err | _
      · exact .inl ⟨rfl, rfl, _, rfl, fun te h => by cases h⟩
      simp only [Except.mapError, Prog.run_get_bind]
      rw [Prog.run_bind, onGroup]
      rcases hsealed : (s.group.sealMessage C ctx.envelope).1 with err | ciphertext
      · exact .inl ⟨rfl, rfl, _, rfl, fun te h => by cases h⟩
      simp only [Except.mapError]
      split_ifs with hcap
      · exact .inl ⟨rfl, rfl, _, rfl, fun te h => by cases h⟩
      right
      rw [Prog.run_bind]
      simp only [nextEvent]
      rw [Prog.run_bind, submitNext_traced]
      rcases hanswer : (T.submitEvent _ s.world.1).1 with err | accepted
      · exact ⟨_, .error err, rfl, rfl, rfl, rfl⟩
      · exact ⟨_, .ok accepted, rfl, rfl, ⟨_, rfl⟩, rfl⟩

@[simp] theorem submissions_append (trace trace' : Trace) :
    submissions (trace ++ trace') = submissions trace ++ submissions trace' := List.filterMap_append

@[simp] theorem fetches_append (trace trace' : Trace) :
    fetches (trace ++ trace') = fetches trace ++ fetches trace' := List.filterMap_append

@[simp] theorem epochs_append (trace trace' : Trace) :
    epochs (trace ++ trace') = epochs trace ++ epochs trace' := by
  simp [epochs, List.filterMap_append]

structure Fetched (cursor : ℕ) (s : Session M (σ × Trace)) (trace : Trace)
    (r : Except E2eeError (List Event × ℕ)) (s' : Session M (σ × Trace)) : Prop where
  world : s'.world.2 = s.world.2 ++ trace
  chain : s'.chain = s.chain
  group : s'.group = s.group
  submissions : submissions trace = []
  trail : Trail cursor (fetches trace) (r.toOption.map Prod.snd)

theorem fetchMlsControl_traced (channelId cursor : ℕ) (s : Session M (σ × Trace)) :
    fetchMlsControl T.tracing channelId cursor s =
      ((T.fetchMlsControl channelId cursor s.world.1).1.mapError .transport,
        ⟨s.chain, s.group, (T.fetchMlsControl channelId cursor s.world.1).2,
          s.world.2 ++ [.fetched cursor (T.fetchMlsControl channelId cursor s.world.1).1]⟩) := rfl

theorem fetchControl_traced (channelId pages cursor : ℕ) (s : Session M (σ × Trace)) :
    let run := fetchControl T.tracing channelId pages cursor s
    ∃ trace, Fetched cursor s trace run.1 run.2 := by
  dsimp only
  unfold fetchControl
  induction pages generalizing cursor s with
  | zero => exact ⟨[], by simp [followPages], rfl, rfl, rfl, fun c hc => nomatch hc⟩
  | succ pages ih =>
    rw [followPages, Prog.run_bind, fetchMlsControl_traced]
    rcases hpage : (T.fetchMlsControl channelId cursor s.world.1).1 with err | page
    · exact ⟨[.fetched cursor (.error err)], rfl, rfl, rfl, rfl, rfl, rfl, rfl⟩
    simp only [Except.mapError]
    rw [Prog.run_bind, Prog.run_ofExcept]
    rcases hdecoded : decodeControl page.events with err | found
    · exact ⟨[.fetched cursor (.ok page)], rfl, rfl, rfl, rfl, Trail.single cursor page⟩
    by_cases hlast : page.more = false
    · simp only [if_pos hlast]
      refine ⟨[.fetched cursor (.ok page)], rfl, rfl, rfl, rfl, rfl, .inr ⟨fun hmore => ?_, ?_⟩⟩
      · exact absurd (hlast.symm.trans hmore) (by simp)
      · exact fun c hc => (Option.mem_some_iff.mp hc).symm
    by_cases hstalled : page.nextAcceptSeq ≤ cursor
    · simp only [if_neg hlast, if_pos hstalled]
      exact ⟨[.fetched cursor (.ok page)], rfl, rfl, rfl, rfl, Trail.single cursor page⟩
    · simp only [if_neg hlast, if_neg hstalled]
      rw [Prog.run_bind_pure]
      obtain ⟨trace, hrest⟩ := ih page.nextAcceptSeq ⟨s.chain, s.group,
        ((T.fetchMlsControl channelId cursor s.world.1).2,
          s.world.2 ++ [.fetched cursor (.ok page)])⟩
      refine ⟨.fetched cursor (.ok page) :: trace, ?_, hrest.chain, hrest.group,
        hrest.submissions, rfl, .inr ⟨fun _ => Nat.lt_of_not_le hstalled, ?_⟩⟩
      · rw [hrest.world]
        simp
      · have htrail := hrest.trail
        rcases hrun : (followPages (fetchMlsControl T.tracing channelId) decodeControl
          "fetch_mls_control returned more=true without advancing the cursor" pages
          page.nextAcceptSeq _).1 with err | rest
        · rw [hrun] at htrail
          exact htrail
        · rw [hrun] at htrail
          exact htrail

variable (K certs) in
theorem applyCommits_traced (events : List Event) (s : Session M (σ × Trace)) :
    let run := applyCommits K certs events s
    run.2.world = s.world ∧ run.2.chain = s.chain := by
  have hfetched (e : Event) : Keeps (fun s' => s'.world = s.world ∧ s'.chain = s.chain)
      (applyFetched (M := M) (σ := σ × Trace) K certs e) := by
    unfold applyFetched
    split
    · refine Keeps.get.bind fun _ => Keeps.bind (fun _ h => h) fun _ => ?_
      split
      · exact Keeps.fail _
      · exact Keeps.pure _
      · split_ifs
        · exact Keeps.pure _
        · exact Keeps.fail _
      · exact Keeps.fail _
    · exact Keeps.pure _
  have hall : Keeps (fun s' => s'.world = s.world ∧ s'.chain = s.chain)
      (applyCommits (M := M) (σ := σ × Trace) K certs events) := by
    induction events with
    | nil => exact Keeps.pure _
    | cons e events ih => exact (hfetched e).bind fun _ => ih
  exact hall s ⟨rfl, rfl⟩

/-- The chain goes on once if a message is accepted in the end, and not at all if it is not. -/
def ChainOnce (K : Crypto) {ε α : Type} (chain chain' : ChainState) (log : Log) (r : Except ε α) :
    Prop :=
  match r with
  | .ok _ => ∃ e, acceptedIn log = [e] ∧ chain' = ChainState.advance K e
  | .error _ => acceptedIn log = [] ∧ chain' = chain

/-- What the loop does from where its counters and its cursor are. -/
structure Bounded (K : Crypto) (unproductive attempts cursor : ℕ) (s : Session M (σ × Trace))
    (trace : Trace) (r : Except E2eeError ResyncOutcome) (s' : Session M (σ × Trace)) : Prop where
  world : s'.world.2 = s.world.2 ++ trace
  count : attempts + (submissions trace).length ≤ maxTotalResyncAttempts
  paced : Paced maxUnproductiveResyncAttempts unproductive s.group.epoch (epochs trace)
  first : ∀ n ∈ (epochs trace).head?, n = s.group.epoch
  chain : ChainOnce K s.chain s'.chain (submissions trace) r
  trail : Trail cursor (fetches trace) (r.toOption.map ResyncOutcome.nextAcceptSeq)

section Loop

variable {unproductive attempts cursor next : ℕ} {s s₁ s' : Session M (σ × Trace)} {e : Event}
  {err : TransportError} {trace trace' : Trace} {r : Except E2eeError ResyncOutcome}

theorem epochs_of_none (h : submissions trace = []) : epochs trace = [] := by
  rw [epochs, h]
  rfl

theorem epochs_submitted {n : ℕ} {answer : Answer} (he : citedEpoch e = some n) :
    epochs (.submitted e answer :: trace) = n :: epochs trace := by
  simp [epochs, submissions, he]

theorem Bounded.stopped (hu : unproductive < maxUnproductiveResyncAttempts)
    (ha : attempts < maxTotalResyncAttempts) (he : citedEpoch e = some s.group.epoch)
    (hworld : s'.world.2 = s.world.2 ++ .submitted e (.error err) :: trace)
    (hchain : s'.chain = s.chain) (hnone : submissions trace = [])
    (htrail : Trail cursor (fetches trace) none) (e' : E2eeError) :
    Bounded K unproductive attempts cursor s (.submitted e (.error err) :: trace) (.error e') s' := by
  have hsubmissions : submissions (.submitted e (.error err) :: trace) = [(e, .error err)] := by
    rw [show submissions (.submitted e (.error err) :: trace) =
      (e, .error err) :: submissions trace from rfl, hnone]
  refine ⟨hworld, ?_, ?_, ?_, ?_, htrail⟩
  · rw [hsubmissions]
    exact ha
  · rw [epochs_submitted he, epochs_of_none hnone, Paced, if_pos rfl]
    exact ⟨hu, trivial⟩
  · rw [epochs_submitted he]
    exact fun n hn => (Option.mem_some_iff.mp hn).symm
  · rw [hsubmissions]
    exact ⟨rfl, hchain⟩

theorem Bounded.again (hu : unproductive < maxUnproductiveResyncAttempts)
    (he : citedEpoch e = some s.group.epoch)
    (hworld : s₁.world.2 = s.world.2 ++ .submitted e (.error err) :: trace)
    (hchain : s₁.chain = s.chain) (hnone : submissions trace = [])
    (htrail : Trail cursor (fetches trace) (some next))
    (h : Bounded K (if s₁.group.epoch = s.group.epoch then unproductive + 1 else 0) (attempts + 1)
      next s₁ trace' r s') :
    Bounded K unproductive attempts cursor s (.submitted e (.error err) :: trace ++ trace') r s' := by
  have hsubmissions : submissions (.submitted e (.error err) :: trace ++ trace') =
      (e, .error err) :: submissions trace' := by
    rw [submissions_append, show submissions (.submitted e (.error err) :: trace) =
      (e, .error err) :: submissions trace from rfl, hnone]
    rfl
  have hepochs : epochs (.submitted e (.error err) :: trace ++ trace') =
      s.group.epoch :: epochs trace' := by
    rw [epochs_append, epochs_submitted he, epochs_of_none hnone]
    rfl
  refine ⟨?_, ?_, ?_, ?_, ?_, ?_⟩
  · rw [h.world, hworld, List.append_assoc]
  · have hcount := h.count
    rw [hsubmissions, List.length_cons]
    omega
  · rw [hepochs, Paced, if_pos rfl]
    refine ⟨hu, ?_⟩
    have hpaced := h.paced
    by_cases hepoch : s₁.group.epoch = s.group.epoch
    · rwa [if_pos hepoch, hepoch] at hpaced
    · -- The next attempt is made in another epoch.
      rw [if_neg hepoch] at hpaced
      have hfirst := h.first
      cases hrest : epochs trace' with
      | nil => trivial
      | cons n ns =>
        rw [hrest] at hpaced hfirst
        obtain rfl := hfirst n rfl
        rw [Paced, if_pos rfl] at hpaced
        rw [Paced, if_neg hepoch]
        exact hpaced.2
  · rw [hepochs]
    exact fun n hn => (Option.mem_some_iff.mp hn).symm
  · have honce := h.chain
    rw [hchain] at honce
    rw [hsubmissions]
    exact honce
  · rw [fetches_append]
    exact htrail.append h.trail

theorem Bounded.unsent (ha : attempts < maxTotalResyncAttempts) (hworld : s'.world.2 = s.world.2)
    (hchain : s'.chain = s.chain) (e' : E2eeError) :
    Bounded K unproductive attempts cursor s [] (.error e') s' where
  world := by rw [hworld, List.append_nil]
  count := Nat.le_of_lt ha
  paced := trivial
  first _ hn := nomatch hn
  chain := ⟨rfl, hchain⟩
  trail _ hc := nomatch hc

theorem Bounded.accepted (hu : unproductive < maxUnproductiveResyncAttempts)
    (ha : attempts < maxTotalResyncAttempts) (he : citedEpoch e = some s.group.epoch)
    {answer : EventAccepted} (hworld : s'.world.2 = s.world.2 ++ [.submitted e (.ok answer)])
    (hchain : s'.chain = ChainState.advance K e) (send : SealedSendOutcome) :
    Bounded K unproductive attempts cursor s [.submitted e (.ok answer)] (.ok ⟨send, cursor⟩) s' where
  world := hworld
  count := ha
  paced := by
    rw [epochs_submitted he, Paced, if_pos rfl]
    exact ⟨hu, trivial⟩
  first := by
    rw [epochs_submitted he]
    exact fun n hn => (Option.mem_some_iff.mp hn).symm
  chain := ⟨e, rfl, hchain⟩
  trail c hc := (Option.mem_some_iff.mp hc).symm

variable (K C T actor certs) in
theorem resyncLoop_traced (ctx : SealContext) (confirmed : Bool) (pages turns : ℕ)
    (hu : unproductive < maxUnproductiveResyncAttempts) (ha : attempts < maxTotalResyncAttempts)
    (s : Session M (σ × Trace)) :
    let run := resyncLoop K C T.tracing actor certs ctx confirmed pages turns unproductive attempts
      s.group.epoch cursor s
    ∃ trace, Bounded K unproductive attempts cursor s trace run.1 run.2 := by
  induction turns generalizing unproductive attempts cursor s with
  | zero => exact ⟨[], Bounded.unsent ha rfl rfl _⟩
  | succ turns ih =>
    dsimp only
    rw [resyncLoop, Prog.run_attempt_bind]
    rcases sendSealed_traced K C T actor ctx confirmed s with
      ⟨hworld, hchain, err, hrun, hnot⟩ | ⟨e, answer, he, hworld, hanswer⟩
    · rw [hrun]
      cases err with
      | transport te => exact absurd rfl (hnot te)
      | _ => exact ⟨[], Bounded.unsent ha hworld hchain _⟩
    cases answer with
    | ok accepted =>
      obtain ⟨⟨send, hrun⟩, hchain⟩ := hanswer
      rw [hrun]
      exact ⟨_, Bounded.accepted hu ha he hworld hchain send⟩
    | error err =>
      obtain ⟨hrun, hchain⟩ := hanswer
      rw [hrun]
      by_cases hstale : err.isStaleEpoch = false
      · simp only [if_pos hstale]
        exact ⟨_, Bounded.stopped hu ha he hworld hchain rfl
          (fun c hc => nomatch hc) _⟩
      simp only [if_neg hstale]
      set s₁ := (sendSealed C K T.tracing actor ctx confirmed s).2
      obtain ⟨trace, hfetched⟩ := fetchControl_traced (T := T) ctx.key.channelId pages cursor s₁
      rw [Prog.run_bind]
      generalize fetchControl T.tracing ctx.key.channelId pages cursor s₁ = fetched at hfetched ⊢
      obtain ⟨found, s₂⟩ := fetched
      have hworld₂ : s₂.world.2 = s.world.2 ++ .submitted e (.error err) :: trace := by
        rw [hfetched.world, hworld]
        simp
      have hchain₂ : s₂.chain = s.chain := hfetched.chain.trans hchain
      cases found with
      | error err' =>
        exact ⟨.submitted e (.error err) :: trace, Bounded.stopped hu ha he hworld₂ hchain₂
          hfetched.submissions hfetched.trail err'⟩
      | ok found =>
        obtain ⟨events, next⟩ := found
        have htrail : Trail cursor (fetches trace) (some next) := hfetched.trail
        obtain ⟨happlied, hkept⟩ := applyCommits_traced K certs events s₂
        simp only
        rw [Prog.run_bind]
        generalize applyCommits K certs events s₂ = applied at happlied hkept ⊢
        obtain ⟨done, s₃⟩ := applied
        have hworld₃ : s₃.world.2 = s.world.2 ++ .submitted e (.error err) :: trace := by
          rw [happlied, hworld₂]
        have hchain₃ : s₃.chain = s.chain := hkept.trans hchain₂
        have hstopped (err' : E2eeError) := Bounded.stopped (K := K) hu ha he hworld₃ hchain₃
          hfetched.submissions htrail.dropped err'
        cases done with
        | error err' => exact ⟨_, hstopped err'⟩
        | ok _ =>
          simp only [Prog.run_get_bind]
          by_cases hspent : s₃.group.epoch = s.group.epoch ∧ maxUnproductiveResyncAttempts ≤
              if s₃.group.epoch = s.group.epoch then unproductive + 1 else 0
          · rw [if_pos hspent]
            exact ⟨_, hstopped _⟩
          rw [if_neg hspent]
          by_cases hall : maxTotalResyncAttempts ≤ attempts + 1
          · rw [if_pos hall]
            exact ⟨_, hstopped _⟩
          rw [if_neg hall]
          have hu' : (if s₃.group.epoch = s.group.epoch then unproductive + 1 else 0) <
              maxUnproductiveResyncAttempts := by
            by_cases hepoch : s₃.group.epoch = s.group.epoch
            · rw [if_pos hepoch] at hspent ⊢
              omega
            · rw [if_neg hepoch]
              decide
          obtain ⟨trace', hrest⟩ := ih hu' (Nat.lt_of_not_le hall) s₃
          exact ⟨_, Bounded.again hu he hworld₃ hchain₃ hfetched.submissions htrail hrest⟩

end Loop

/-! ## The loop ends by itself -/

def CursorsFit (T : Transport σ) : Prop :=
  ∀ channelId since w page, (T.fetchMlsControl channelId since w).1 = .ok page →
    page.nextAcceptSeq < 2 ^ 64

theorem followPages_enough {S α : Type} {fetch : ℕ → Prog S E2eeError MlsControl}
    {decode : List (Option Event) → Except E2eeError (List α)} {stalled : String} {bound : ℕ}
    (hfetch : ∀ cursor s page, (fetch cursor s).1 = .ok page → page.nextAcceptSeq < bound)
    {pages pages' cursor : ℕ} (hcursor : cursor < bound) (hpages : bound ≤ pages + cursor)
    (hpages' : bound ≤ pages' + cursor) (s : S) :
    followPages fetch decode stalled pages cursor s =
      followPages fetch decode stalled pages' cursor s := by
  induction pages generalizing pages' cursor s with
  | zero => omega
  | succ pages ih =>
    obtain ⟨pages', rfl⟩ : ∃ n, pages' = n + 1 := ⟨pages' - 1, by omega⟩
    rw [followPages, followPages, Prog.run_bind, Prog.run_bind]
    rcases hpage : fetch cursor s with ⟨err | page, s'⟩
    · rfl
    have hfit := hfetch cursor s page (by rw [hpage])
    simp only
    rw [Prog.run_bind, Prog.run_bind, Prog.run_ofExcept]
    rcases decode page.events with err | found
    · rfl
    simp only
    split_ifs with hlast hstalled
    · rfl
    · rfl
    · have hrest : followPages fetch decode stalled pages page.nextAcceptSeq s' =
          followPages fetch decode stalled pages' page.nextAcceptSeq s' :=
        ih hfit (by omega) (by omega) s'
      rw [Prog.run_bind, Prog.run_bind, hrest]

theorem followPages_fits {S α : Type} {fetch : ℕ → Prog S E2eeError MlsControl}
    {decode : List (Option Event) → Except E2eeError (List α)} {stalled : String} {bound : ℕ}
    (hfetch : ∀ cursor s page, (fetch cursor s).1 = .ok page → page.nextAcceptSeq < bound)
    {pages cursor next : ℕ} {s : S} {found : List α}
    (h : (followPages fetch decode stalled pages cursor s).1 = .ok (found, next)) :
    next < bound := by
  induction pages generalizing cursor s found with
  | zero => cases h
  | succ pages ih =>
    rw [followPages, Prog.run_bind] at h
    rcases hpage : fetch cursor s with ⟨err | page, s'⟩
    · rw [hpage] at h
      cases h
    have hfit := hfetch cursor s page (by rw [hpage])
    rw [hpage] at h
    simp only at h
    rw [Prog.run_bind, Prog.run_ofExcept] at h
    rcases hdecoded : decode page.events with err | found'
    · rw [hdecoded] at h
      cases h
    rw [hdecoded] at h
    simp only at h
    split_ifs at h with hlast hstalled
    · obtain ⟨-, rfl⟩ := Prod.mk.inj (Except.ok.inj h)
      exact hfit
    · cases h
    · rw [Prog.run_bind_pure] at h
      rcases hrest : (followPages fetch decode stalled pages page.nextAcceptSeq s').1 with
        err | ⟨found'', next'⟩
      · rw [hrest] at h
        cases h
      · rw [hrest] at h
        obtain ⟨-, rfl⟩ := Prod.mk.inj (Except.ok.inj h)
        exact ih hrest

theorem fits_of_fetched (hfit : CursorsFit T) (channelId cursor : ℕ) (s : Session M σ)
    (page : MlsControl) (h : (fetchMlsControl T channelId cursor s).1 = .ok page) :
    page.nextAcceptSeq < 2 ^ 64 := by
  unfold fetchMlsControl at h
  rcases hanswer : (T.fetchMlsControl channelId cursor s.world).1 with err | page'
  · simp [hanswer, Except.mapError] at h
  · simp only [hanswer, Except.mapError, Except.ok.injEq] at h
    exact h ▸ hfit channelId cursor _ page' hanswer

theorem resyncLoop_enough (hfit : CursorsFit T) (ctx : SealContext) (confirmed : Bool)
    {pages pages' turns turns' unproductive attempts lastEpoch cursor : ℕ}
    (hcursor : cursor < 2 ^ 64) (hpages : 2 ^ 64 ≤ pages) (hpages' : 2 ^ 64 ≤ pages')
    (ha : attempts < maxTotalResyncAttempts) (hturns : maxTotalResyncAttempts ≤ turns + attempts)
    (hturns' : maxTotalResyncAttempts ≤ turns' + attempts) (s : Session M σ) :
    resyncLoop K C T actor certs ctx confirmed pages turns unproductive attempts lastEpoch cursor s =
      resyncLoop K C T actor certs ctx confirmed pages' turns' unproductive attempts lastEpoch
        cursor s := by
  induction turns generalizing turns' unproductive attempts lastEpoch cursor s with
  | zero => omega
  | succ turns ih =>
    obtain ⟨turns', rfl⟩ : ∃ n, turns' = n + 1 := ⟨turns' - 1, by omega⟩
    rw [resyncLoop, resyncLoop, Prog.run_attempt_bind, Prog.run_attempt_bind]
    generalize sendSealed C K T actor ctx confirmed s = sent
    obtain ⟨err | send, s₁⟩ := sent
    swap
    · rfl
    cases err with
    | transport err =>
      by_cases hstale : err.isStaleEpoch = false
      · simp only [if_pos hstale]
      simp only [if_neg hstale]
      have hfetch : fetchControl T ctx.key.channelId pages cursor s₁ =
          fetchControl T ctx.key.channelId pages' cursor s₁ :=
        followPages_enough (fits_of_fetched hfit _) hcursor (by omega) (by omega) s₁
      rw [Prog.run_bind, Prog.run_bind, hfetch]
      rcases hfetched : fetchControl T ctx.key.channelId pages' cursor s₁ with
        ⟨err' | ⟨events, next⟩, s₂⟩
      · rfl
      have hnext : next < 2 ^ 64 := followPages_fits (fits_of_fetched hfit _)
        (congrArg Prod.fst hfetched)
      simp only
      rw [Prog.run_bind, Prog.run_bind]
      rcases applyCommits K certs events s₂ with ⟨err' | _, s₃⟩
      · rfl
      simp only [Prog.run_get_bind]
      generalize (if s₃.group.epoch = lastEpoch then unproductive + 1 else 0) = unproductive'
      by_cases hspent : s₃.group.epoch = lastEpoch ∧ maxUnproductiveResyncAttempts ≤ unproductive'
      · rw [if_pos hspent, if_pos hspent]
      rw [if_neg hspent, if_neg hspent]
      by_cases hall : maxTotalResyncAttempts ≤ attempts + 1
      · rw [if_pos hall, if_pos hall]
      · rw [if_neg hall, if_neg hall]
        exact ih hnext (Nat.lt_of_not_le hall) (by omega) (by omega) s₃
    | _ => rfl

/-! ## Calls that are answered in any way -/

def Session.traced (s : Session M σ) : Session M (σ × Trace) := ⟨s.chain, s.group, (s.world, [])⟩

/-- What holds of a call that catches up, whatever the server answers. -/
structure ResyncSound (K : Crypto) (since : ℕ) (chain chain' : ChainState) (trace : Trace)
    (r : Except E2eeError ResyncOutcome) : Prop where
  total : (submissions trace).length ≤ maxTotalResyncAttempts
  unproductive : ∀ k epoch, List.replicate k epoch <:+: epochs trace →
    k ≤ maxUnproductiveResyncAttempts
  chain : ChainOnce K chain chain' (submissions trace) r
  cursor : (since :: cursors trace r).Pairwise (· ≤ ·)

variable (K C actor certs) in
/-- Over pages that end forward the loop is bounded and honest, and it comes to its end. If it
returns and its cursor has not gone back, the pages have ended forward. -/
theorem resync_bounded (hfit : CursorsFit T) (ctx : SealContext) (confirmed : Bool)
    (turns pages since : ℕ) (hturns : maxTotalResyncAttempts ≤ turns) (hpages : 2 ^ 64 ≤ pages)
    (hsince : since < 2 ^ 64) (s : Session M σ) :
    let call (turns pages : ℕ) := sendSealedResync K C T.tracing actor certs ctx confirmed turns
      pages since s.traced
    let run := call turns pages
    call maxTotalResyncAttempts (2 ^ 64) = run ∧
      (EndsForward run.2.world.2 →
        ResyncSound K since s.chain run.2.chain run.2.world.2 run.1) ∧
      ∀ out, run.1 = .ok out → ResyncSound K since s.chain run.2.chain run.2.world.2 run.1 →
        EndsForward run.2.world.2 := by
  have hfit' : CursorsFit T.tracing := fun channelId since w page h =>
    hfit channelId since w.1 page h
  intro call run
  have hu : 0 < maxUnproductiveResyncAttempts := by decide
  obtain ⟨trace, hbounded⟩ := resyncLoop_traced K C T actor certs ctx confirmed pages turns hu
    (show 0 < maxTotalResyncAttempts by decide) s.traced
  have hworld : run.2.world.2 = trace := hbounded.world
  rw [hworld]
  refine ⟨?_, fun hforward => ?_, fun out hout hsound => ?_⟩
  · exact resyncLoop_enough hfit' ctx confirmed hsince (Nat.le_refl _) hpages (by decide)
      (Nat.le_refl _) (by omega) s.traced
  · obtain ⟨hsorted, hfrom⟩ := hbounded.trail.monotone hforward
    refine ⟨?_, fun k epoch hstreak => ?_, hbounded.chain, List.pairwise_cons.mpr ⟨hfrom, hsorted⟩⟩
    · have hcount := hbounded.count
      omega
    · exact hbounded.paced.infix_le hu (Nat.zero_le _) hstreak
  · have hsorted := (List.pairwise_cons.mp hsound.cursor).2
    have htrail : Trail since (fetches trace) (some out.nextAcceptSeq) := by
      have htrail := hbounded.trail
      change Trail since (fetches trace) (run.1.toOption.map ResyncOutcome.nextAcceptSeq) at htrail
      rwa [hout] at htrail
    rw [cursors, hout] at hsorted
    exact fun since page hmem _ => htrail.forward hsorted since page hmem

section Sample

open SampleLog SampleMls

/-- The first message comes too late, and the next one is accepted. Each fetch is answered with one
page that ends at the same cursor. -/
def late (cursor : ℕ) : Transport ℕ where
  now _ := 4
  submitEvent _ w :=
    (if w = 0 then .error (.serverRejected "stale-epoch") else .ok ⟨"posted", 4⟩, w + 1)
  fetchMlsControl _ _ w := (.ok ⟨[], cursor, false⟩, w)
  fetchKeyPackages _ w := (.ok [], w)
  fetchDeviceCerts _ w := (.ok [], w)

def aliceLate : Session mls ℕ := ⟨⟨9, some "head", 8⟩, SealedAuthorship.threeLeaves 0, 0⟩

def alicesCall (cursor turns pages : ℕ) :
    Except E2eeError ResyncOutcome × Session mls (ℕ × Trace) :=
  sendSealedResync crypto SealedAuthorship.codec (late cursor).tracing ⟨a0, alice, "1"⟩
    (fun _ _ => none) SealedAuthorship.aliceContext true turns pages 5 aliceLate.traced

theorem cursorsFit_late : CursorsFit (late 6) := by
  intro channelId since w page h
  obtain rfl := Except.ok.inj h
  exact show 6 < 2 ^ 64 by decide

theorem fetches_late :
    fetches (alicesCall 6 12 (2 ^ 64)).2.world.2 = [(5, .ok ⟨[], 6, false⟩)] := by
  decide +kernel

theorem endsForward_late : EndsForward (alicesCall 6 12 (2 ^ 64)).2.world.2 := by
  intro since page hmem _
  rw [fetches_late, List.mem_singleton] at hmem
  obtain ⟨rfl, hpage⟩ := Prod.mk.inj hmem
  obtain rfl := Except.ok.inj hpage
  exact show 5 ≤ 6 by decide

theorem resync_bounded_late :
    alicesCall 6 maxTotalResyncAttempts (2 ^ 64) = alicesCall 6 12 (2 ^ 64) ∧
      ResyncSound crypto 5 aliceLate.chain (alicesCall 6 12 (2 ^ 64)).2.chain
        (alicesCall 6 12 (2 ^ 64)).2.world.2 (alicesCall 6 12 (2 ^ 64)).1 := by
  have h := resync_bounded crypto SealedAuthorship.codec ⟨a0, alice, "1"⟩ (fun _ _ => none)
    cursorsFit_late SealedAuthorship.aliceContext true 12 (2 ^ 64) 5 (by decide) (Nat.le_refl _)
    (by decide) aliceLate
  have hforward := endsForward_late
  dsimp only at h
  unfold alicesCall at hforward ⊢
  exact ⟨h.1, h.2.1 hforward⟩

/-- The page ends before the cursor that it has been asked for with, and that is what is returned. -/
theorem cursor_goes_back :
    (alicesCall 3 10 2).1.toOption.map ResyncOutcome.nextAcceptSeq = some 3 ∧
      ¬ResyncSound crypto 5 aliceLate.chain (alicesCall 3 10 2).2.chain
        (alicesCall 3 10 2).2.world.2 (alicesCall 3 10 2).1 := by
  refine ⟨by decide +kernel, fun h => ?_⟩
  have hsorted := h.cursor
  revert hsorted
  decide +kernel

end Sample

end Client
