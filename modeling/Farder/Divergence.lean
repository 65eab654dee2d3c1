import Farder.Client.SampleMls
import Farder.Client.Transcript

/-! # Divergence is reported

A commit of the client's own is merged before the server judges it. The error of a refused commit
says that the group has diverged. A commit without an answer, and a Welcome that is not accepted,
are reported as failures of the transport. -/
namespace Divergence

open EventLog Effects Client

variable {M : OpenMls} {K : Crypto} {actor : Actor}

/-- What a transport is going to answer; it does not answer any more events than these. -/
structure Script where
  now : ℕ
  answers : List Answer
  keyPackages : Leaf → Except TransportError (List (Option Event))
  deviceCerts : PublicKey → Except TransportError (List (Option Event))
  control : ℕ → ℕ → Except TransportError MlsControl

def lost : Answer := .error (.transport "connection lost")

def Script.answer (w : Script) : Answer := w.answers.headD lost

def Script.rest (w : Script) : Script := { w with answers := w.answers.tail }

def Script.transport : Transport Script where
  now := Script.now
  submitEvent _ w := (w.answer, w.rest)
  fetchMlsControl channelId since w := (w.control channelId since, w)
  fetchKeyPackages member w := (w.keyPackages member, w)
  fetchDeviceCerts identity w := (w.deviceCerts identity, w)

inductive OwnCommit where
  | bootstrap (key : ChannelKey) (storeInstanceHash : Digest)
  | rekey (ctx : CommitContext)
  | discharge (ctx : CommitContext) (deadLeaves : List Leaf)
  | add (ctx : CommitContext) (member : Leaf)

variable (K) (actor) in
def OwnCommit.run {σ : Type} (T : Transport σ) : OwnCommit → Action M σ ℕ
  | .bootstrap key hash => do return (← bootstrapGroup K T actor key hash).localEpoch
  | .rekey ctx => do return (← rekeyChannel K T actor ctx).localEpoch
  | .discharge ctx dead => do return (← dischargeDrift K T actor ctx dead).localEpoch
  | .add ctx member => do return (← addMember K T actor ctx member).localEpoch

variable (K) in
/-- A merge without success is an error of divergence, the chain goes on with the accepted events,
and after a success the group is one epoch past that of the commit. -/
def Reports (chain : ChainState) (epoch : ℕ)
    (done : Except E2eeError ℕ × Session M (Script × Log)) : Prop :=
  (done.2.group.epoch ≠ epoch → ∀ e, done.1 = .error e → e.isDiverged = true) ∧
  done.2.chain = chain.after K (acceptedIn done.2.world.2) ∧
  ∀ localEpoch, done.1 = .ok localEpoch → localEpoch = done.2.group.epoch ∧
    ∃ e p, e ∈ acceptedIn done.2.world.2 ∧ e.core.payload = .mlsCommit p ∧
      done.2.group.epoch = p.epoch + 1

variable (K) (actor) in
def ReportsDivergence (call : OwnCommit) (chain : ChainState) (group : MlsChannelGroup M)
    (script : Script) : Prop :=
  Reports K chain group.epoch
    (call.run K actor Script.transport.recording ⟨chain, group, script, []⟩)

/-- The server has answered. -/
def Definite : Answer → Prop
  | .error (.transport _) => False
  | _ => True

def Answered (merged : Except String CommitOutcome × MlsChannelGroup M) (epoch : ℕ)
    (script : Script) : Prop :=
  match merged.1 with
  | .error _ => merged.2.epoch = epoch
  | .ok _ => Definite script.answer

/-- If an add is merged, the server answers it, and if it takes it then it takes the Welcome too. -/
def Invited (merged : Except String CommitOutcome × MlsChannelGroup M) (chain : ChainState)
    (epoch : ℕ) (script : Script) : Prop :=
  match merged.1 with
  | .error _ => merged.2.epoch = epoch
  | .ok outcome => outcome.welcomeBytes.isSome ∧ chain.lastEventHash.isSome ∧
      Definite script.answer ∧ (script.answer.isOk = true → script.rest.answer.isOk = true)

variable (K) in
/-- The condition on what the call meets. -/
def Settled (call : OwnCommit) (chain : ChainState) (group : MlsChannelGroup M)
    (script : Script) : Prop :=
  match call with
  | .bootstrap _ _ => chain.lastEventHash.isSome →
      Answered group.selfUpdate group.epoch script
  | .rekey _ => chain.lastEventHash.isSome → Answered group.selfUpdate group.epoch script
  | .discharge _ dead => chain.lastEventHash.isSome → dead ≠ [] →
      Answered (group.removeMembers dead) group.epoch script
  | .add _ member => ∀ events, script.keyPackages member = .ok events →
      ∀ keyPackage hash, newestKeyPackage (M := M) K member events = .ok (keyPackage, hash) →
        Invited (group.addMembers [keyPackage]) chain group.epoch script

/-- Merging a staged commit leads to the epoch that it was staged with. -/
def MergeMoves (M : OpenMls) : Prop :=
  ∀ g staged g', M.merge g staged = some g' → M.epoch g' = M.stagedEpoch staged

theorem stagedCommitSummary_epoch {g : MlsChannelGroup M} {staged : M.Staged}
    {summary : ProcessedCommit} (h : g.stagedCommitSummary staged = .ok summary) :
    M.stagedEpoch staged = summary.epoch + 1 := by
  unfold MlsChannelGroup.stagedCommitSummary at h
  cases hadds : (M.stagedAdds staged).mapM actualLeaf with
  | error e => simp [hadds, bind, Except.bind] at h
  | ok adds =>
    cases hremoves : (M.stagedRemoves staged).mapM g.removedMember with
    | error e => simp [hadds, hremoves, bind, Except.bind] at h
    | ok removes =>
      simp only [hadds, hremoves, bind, Except.bind] at h
      split_ifs at h with hzero
      obtain rfl := Except.ok.inj h
      simp only
      omega

theorem finishOwnCommit_ok {g g' : MlsChannelGroup M} {own : Client.OwnCommit M.Message M.Staged}
    {outcome : CommitOutcome} (hM : MergeMoves M) (h : g.finishOwnCommit own = (.ok outcome, g')) :
    outcome.epoch = g.epoch ∧ g'.epoch = g.epoch + 1 := by
  unfold MlsChannelGroup.finishOwnCommit at h
  split at h
  · simp at h
  · next summary hsummary =>
    split_ifs at h with hepoch
    · simp at h
    · split at h
      · simp at h
      · next inner hmerge =>
        have hmoved := hM _ _ _ hmerge
        have hstaged := stagedCommitSummary_epoch hsummary
        split at h
        · simp at h
        · simp at h
        · obtain ⟨hout, rfl⟩ := Prod.mk.inj h
          obtain rfl := Except.ok.inj hout
          refine ⟨rfl, ?_⟩
          show M.epoch inner = _
          rw [hmoved, hstaged, not_not.mp hepoch]

theorem commitOwn_ok {g g' : MlsChannelGroup M}
    {own : Option (Client.OwnCommit M.Message M.Staged)} {failed : String}
    {outcome : CommitOutcome} (hM : MergeMoves M) (h : g.commitOwn own failed = (.ok outcome, g')) :
    outcome.epoch = g.epoch ∧ g'.epoch = g.epoch + 1 := by
  cases own with
  | none => simp [MlsChannelGroup.commitOwn] at h
  | some own => exact finishOwnCommit_ok hM h

theorem isDiverged_refusal (rateLimited : Bool) {err : TransportError} (localEpoch : ℕ) :
    (refusal rateLimited err localEpoch).isDiverged = true ↔ Definite (.error err) := by
  unfold refusal
  cases err with
  | serverRejected reason => split_ifs <;> simp [E2eeError.isDiverged, Definite]
  | transport message =>
    simp [TransportError.isStaleEpoch, TransportError.isCommitRateLimited,
      TransportError.rejectedWith, E2eeError.isDiverged, Definite]

variable {chain : ChainState} {group group' : MlsChannelGroup M} {script : Script} {log : Log}

theorem reports_error {e : E2eeError} (he : e.isDiverged = false) {epoch : ℕ} :
    Reports K chain epoch (.error e, ⟨chain, group', script, []⟩) ↔ group'.epoch = epoch := by
  constructor
  · rintro ⟨hmerged, -⟩
    by_contra hne
    exact absurd (hmerged hne e rfl) (by simp [he])
  · intro hepoch
    exact ⟨fun hne => absurd hepoch hne, rfl, nofun⟩

variable (K) (actor) in
def commitOf (ctx : CommitContext) (head : EventHash) (outcome : CommitOutcome)
    (adds : List DeclaredAdd) (removes : List DeclaredRemove) (chain : ChainState)
    (group : MlsChannelGroup M) (now : ℕ) : Event :=
  buildNextEvent K actor ctx.key.logServerId chain now
    (.mlsCommit (commitPayload ctx head outcome adds removes group))

theorem submitCommit_run {rateLimited : Bool} {e : Event} :
    submitCommit K Script.transport.recording rateLimited e ⟨chain, group, script, log⟩ =
      match script.answer with
      | .ok accepted => (.ok accepted,
          ⟨ChainState.advance K e, group, script.rest, log ++ [(e, .ok accepted)]⟩)
      | .error err => (.error (refusal rateLimited err group.epoch),
          ⟨chain, group, script.rest, log ++ [(e, .error err)]⟩) := by
  cases hanswer : script.answer <;>
    simp [submitCommit, submit, advance, Transport.recording, Script.transport, Prog.run_bind,
      hanswer]

theorem reports_commit {ctx : CommitContext} {head : EventHash} {rateLimited : Bool}
    {outcome : CommitOutcome} {removes : List DeclaredRemove} {epoch : ℕ}
    (hauthored : outcome.epoch = epoch) (hmoved : group'.epoch = epoch + 1) :
    Reports K chain epoch ((do
      let submitted ← commitAndReport K Script.transport.recording actor ctx head rateLimited
        outcome removes
      return submitted.localEpoch : Action M (Script × Log) ℕ) ⟨chain, group', script, []⟩) ↔
      Definite script.answer := by
  set e := commitOf K actor ctx head outcome [] removes chain group' script.now with he
  have hrun : commitAndReport K Script.transport.recording actor ctx head rateLimited outcome
      removes ⟨chain, group', script, []⟩ = ((submitCommit K Script.transport.recording
        rateLimited e >>= fun accepted => do
          return ⟨accepted.eventHash, (← Prog.get).group.epoch, group'.epochAuthenticator,
            outcome.postTreeHash⟩ : Action M (Script × Log) CommitSubmitted)
        ⟨chain, group', script, []⟩) := rfl
  rw [Prog.run_bind, hrun, Prog.run_bind, submitCommit_run]
  cases hanswer : script.answer with
  | ok accepted =>
    simp only [Definite, iff_true]
    refine ⟨nofun, by simp, ?_⟩
    intro localEpoch hlocal
    refine ⟨(Except.ok.inj hlocal).symm, e, _, by simp, rfl, ?_⟩
    exact hmoved.trans (congrArg (· + 1) hauthored.symm)
  | error err =>
    rw [← isDiverged_refusal rateLimited group'.epoch]
    constructor
    · rintro ⟨hmerged, -⟩
      exact hmerged (by show group'.epoch ≠ epoch; omega) _ rfl
    · intro hdiverged
      refine ⟨fun _ err' herr => ?_, by simp, nofun⟩
      obtain rfl := Except.error.inj herr
      exact hdiverged

theorem reports_authored {ctx : CommitContext} {head : EventHash} {rateLimited : Bool}
    {op : MlsChannelGroup M → Except String CommitOutcome × MlsChannelGroup M} {failed : String}
    (removes : CommitOutcome → List DeclaredRemove)
    (hop : ∀ outcome g', op group = (.ok outcome, g') →
      outcome.epoch = group.epoch ∧ g'.epoch = group.epoch + 1) :
    Reports K chain group.epoch ((do
      let outcome ← onGroup op failed
      let submitted ← commitAndReport K Script.transport.recording actor ctx head rateLimited
        outcome (removes outcome)
      return submitted.localEpoch : Action M (Script × Log) ℕ) ⟨chain, group, script, []⟩) ↔
      Answered (op group) group.epoch script := by
  rw [Prog.run_bind]
  rcases hdone : op group with ⟨e | outcome, g'⟩
  · simp only [onGroup, hdone, Except.mapError, Answered]
    exact reports_error rfl
  · obtain ⟨hauthored, hmoved⟩ := hop outcome g' hdone
    simp only [onGroup, hdone, Except.mapError, Answered]
    exact reports_commit hauthored hmoved

theorem selfUpdate_ok (hM : MergeMoves M) (outcome : CommitOutcome) (g' : MlsChannelGroup M)
    (h : group.selfUpdate = (.ok outcome, g')) :
    outcome.epoch = group.epoch ∧ g'.epoch = group.epoch + 1 := commitOwn_ok hM h

theorem removeMembers_ok {members : List Leaf} (hM : MergeMoves M) (outcome : CommitOutcome)
    (g' : MlsChannelGroup M) (h : group.removeMembers members = (.ok outcome, g')) :
    outcome.epoch = group.epoch ∧ g'.epoch = group.epoch + 1 := by
  unfold MlsChannelGroup.removeMembers at h
  split at h
  · simp at h
  · exact commitOwn_ok hM h

theorem reports_headed {missing : String} {body : EventHash → Action M (Script × Log) CommitSubmitted}
    {settled : Prop}
    (hbody : ∀ head, Reports K chain group.epoch
      ((do return (← body head).localEpoch : Action M (Script × Log) ℕ)
        ⟨chain, group, script, []⟩) ↔ settled) :
    Reports K chain group.epoch ((do
      let submitted ← authzHead missing >>= body
      return submitted.localEpoch : Action M (Script × Log) ℕ) ⟨chain, group, script, []⟩) ↔
      (chain.lastEventHash.isSome → settled) := by
  rcases hhead : chain.lastEventHash with _ | head
  · simp only [authzHead, Prog.bind_assoc, Prog.run_get_bind, hhead, Prog.ofOption,
      Prog.run_fail_bind, Option.isSome_none, Bool.false_eq_true, false_imp_iff, iff_true]
    exact (reports_error rfl).mpr rfl
  · simp only [authzHead, Prog.bind_assoc, Prog.run_get_bind, hhead, Prog.ofOption,
      Prog.pure_bind, Option.isSome_some, true_imp_iff]
    exact hbody head

theorem reports_bootstrap {key : ChannelKey} {hash : Digest} (hM : MergeMoves M) :
    ReportsDivergence K actor (.bootstrap key hash) chain group script ↔
      Settled K (.bootstrap key hash) chain group script := by
  refine reports_headed fun head => ?_
  rw [Prog.bind_assoc]
  exact reports_authored (fun _ => []) (selfUpdate_ok hM)

theorem reports_rekey {ctx : CommitContext} (hM : MergeMoves M) :
    ReportsDivergence K actor (.rekey ctx) chain group script ↔
      Settled K (.rekey ctx) chain group script := by
  refine reports_headed fun head => ?_
  rw [Prog.bind_assoc]
  exact reports_authored (fun _ => []) (selfUpdate_ok hM)

theorem reports_discharge {ctx : CommitContext} {dead : List Leaf} (hM : MergeMoves M) :
    ReportsDivergence K actor (.discharge ctx dead) chain group script ↔
      Settled K (.discharge ctx dead) chain group script := by
  refine reports_headed fun head => ?_
  by_cases hdead : dead = []
  · rw [if_pos hdead]
    simp only [hdead, ne_eq, not_true_eq_false, false_imp_iff, iff_true]
    exact (reports_error rfl).mpr rfl
  · rw [if_neg hdead, Prog.bind_assoc]
    simp only [ne_eq, hdead, not_false_eq_true, true_imp_iff]
    exact reports_authored _ (removeMembers_ok hM)

/-! ## Adding a member -/

theorem newestKeyPackage_error {member : Leaf} {events : List (Option Event)} {e : E2eeError}
    (h : newestKeyPackage (M := M) K member events = .error e) : e.isDiverged = false := by
  unfold newestKeyPackage at h
  rcases hlast : events.getLast? with _ | _ | event
  · simp only [hlast, bind, Except.bind] at h
    obtain rfl := Except.error.inj h
    rfl
  · simp only [hlast, bind, Except.bind] at h
    obtain rfl := Except.error.inj h
    rfl
  · simp only [hlast, bind, Except.bind] at h
    split at h
    · split at h
      · split at h
        · obtain rfl := Except.error.inj h
          rfl
        · split_ifs at h
          · cases h
          · obtain rfl := Except.error.inj h
            rfl
      · obtain rfl := Except.error.inj h
        rfl
    · obtain rfl := Except.error.inj h
      rfl

variable (K) (actor) in
/-- The commit of an add and its Welcome. -/
def invite (ctx : CommitContext) (member : Leaf) (keyPackageHash : EventHash)
    (outcome : CommitOutcome) (welcome : List UInt8) (postEpochAuthenticator : Digest)
    (head : EventHash) : Action M (Script × Log) AddMemberOutcome := do
  let commit ← commitEvent K Script.transport.recording actor ctx head outcome
    [⟨member.1, member.2, keyPackageHash⟩] (declaredRemoves outcome)
  let accepted ← submitCommit K Script.transport.recording false commit
  let welcomed ← submitWelcome K Script.transport.recording actor ctx accepted.eventHash member
    welcome
  return ⟨accepted.eventHash, welcomed.eventHash, (← Prog.get).group.epoch,
    postEpochAuthenticator, outcome.postTreeHash⟩

theorem submitNext_run {e : Event} :
    submitNext K Script.transport.recording e ⟨chain, group, script, log⟩ =
      match script.answer with
      | .ok accepted => (.ok accepted,
          ⟨ChainState.advance K e, group, script.rest, log ++ [(e, .ok accepted)]⟩)
      | .error err => (.error (.transport err),
          ⟨chain, group, script.rest, log ++ [(e, .error err)]⟩) := by
  cases hanswer : script.answer <;>
    simp [submitNext, submit, advance, Transport.recording, Script.transport, Prog.run_bind,
      hanswer]

theorem reports_invite {ctx : CommitContext} {member : Leaf} {keyPackageHash : EventHash}
    {outcome : CommitOutcome} {welcome : List UInt8} {authenticator : Digest} {head : EventHash}
    {epoch : ℕ} (hauthored : outcome.epoch = epoch) (hmoved : group'.epoch = epoch + 1) :
    Reports K chain epoch ((do
      let submitted ← invite K actor ctx member keyPackageHash outcome welcome authenticator head
      return submitted.localEpoch : Action M (Script × Log) ℕ) ⟨chain, group', script, []⟩) ↔
      Definite script.answer ∧ (script.answer.isOk = true → script.rest.answer.isOk = true) := by
  have hne : group'.epoch ≠ epoch := by omega
  simp only [invite, commitEvent, nextEvent, Prog.run_bind, submitCommit_run]
  cases hanswer : script.answer with
  | error err =>
    rw [← isDiverged_refusal false group'.epoch]
    simp only [Except.isOk, Except.toBool, Bool.false_eq_true, false_imp_iff, and_true]
    constructor
    · rintro ⟨hmerged, -⟩
      exact hmerged hne _ rfl
    · intro hdiverged
      refine ⟨fun _ err' herr => ?_, by simp, fun _ h => by cases h⟩
      obtain rfl := Except.error.inj herr
      exact hdiverged
  | ok accepted =>
    simp only [submitWelcome, nextEvent, Prog.run_bind, submitNext_run]
    cases hwelcome : script.rest.answer with
    | error err =>
      simp only [Definite, Except.isOk, Except.toBool, Bool.false_eq_true, imp_false, true_and,
        not_true_eq_false, iff_false]
      rintro ⟨hmerged, -⟩
      exact absurd (hmerged hne _ rfl) (by simp [E2eeError.isDiverged])
    | ok welcomed =>
      simp only [Definite, Except.isOk, Except.toBool, imp_self, and_self, iff_true]
      refine ⟨fun _ _ h => (by cases h), by simp, ?_⟩
      intro localEpoch hlocal
      refine ⟨(Except.ok.inj hlocal).symm, _, _, List.mem_cons_self, rfl, ?_⟩
      exact hmoved.trans (congrArg (· + 1) hauthored.symm)

theorem addMembers_ok {keyPackages : List M.KeyPackage} (hM : MergeMoves M)
    (outcome : CommitOutcome) (g' : MlsChannelGroup M)
    (h : group.addMembers keyPackages = (.ok outcome, g')) :
    outcome.epoch = group.epoch ∧ g'.epoch = group.epoch + 1 := commitOwn_ok hM h

/-- An add that is merged and fails before it is submitted says nothing of the group. -/
theorem not_reports_error {e : E2eeError} (he : e.isDiverged = false) {epoch : ℕ}
    (hmoved : group'.epoch = epoch + 1) :
    ¬Reports K chain epoch (.error e, ⟨chain, group', script, []⟩) := by
  rw [reports_error he]
  omega

theorem reports_added {ctx : CommitContext} {member : Leaf} {keyPackage : M.KeyPackage}
    {keyPackageHash : EventHash} (hM : MergeMoves M) :
    Reports K chain group.epoch ((do
      let outcome ← onGroup (·.addMembers [keyPackage]) "add member"
      let welcome ← Prog.ofOption outcome.welcomeBytes
        (.mls "add_members produced no welcome for a single add")
      let postEpochAuthenticator := (← Prog.get).group.epochAuthenticator
      let head ← authzHead "add_member needs a prior event to attest its folded head"
      let submitted ← invite K actor ctx member keyPackageHash outcome welcome
        postEpochAuthenticator head
      return submitted.localEpoch : Action M (Script × Log) ℕ) ⟨chain, group, script, []⟩) ↔
      Invited (group.addMembers [keyPackage]) chain group.epoch script := by
  rw [Prog.run_bind]
  rcases hdone : group.addMembers [keyPackage] with ⟨e | outcome, g'⟩
  · simp only [onGroup, hdone, Except.mapError, Invited]
    exact reports_error rfl
  · obtain ⟨hauthored, hmoved⟩ := addMembers_ok hM outcome g' hdone
    simp only [onGroup, hdone, Except.mapError, Invited]
    rcases hwelcome : outcome.welcomeBytes with _ | welcome
    · simp only [Prog.ofOption, Prog.run_fail_bind, Option.isSome_none, Bool.false_eq_true,
        false_and, iff_false]
      exact not_reports_error rfl hmoved
    rcases hhead : chain.lastEventHash with _ | head
    · simp only [Prog.ofOption, Prog.pure_bind, Prog.run_get_bind, authzHead, Prog.bind_assoc,
        hhead, Prog.run_fail_bind, Option.isSome_none, Bool.false_eq_true, false_and, and_false,
        iff_false]
      exact not_reports_error rfl hmoved
    · simp only [Prog.ofOption, Prog.pure_bind, Prog.run_get_bind, authzHead, Prog.bind_assoc,
        hhead, Option.isSome_some, true_and]
      exact reports_invite hauthored hmoved

theorem fetchKeyPackages_run {member : Leaf} :
    fetchKeyPackages Script.transport.recording member ⟨chain, group, script, log⟩ =
      ((script.keyPackages member).mapError .transport, ⟨chain, group, script, log⟩) := rfl

theorem reports_add {ctx : CommitContext} {member : Leaf} (hM : MergeMoves M) :
    ReportsDivergence K actor (.add ctx member) chain group script ↔
      Settled K (.add ctx member) chain group script := by
  simp only [ReportsDivergence, OwnCommit.run, addMember, Settled, Prog.bind_assoc]
  rw [Prog.run_bind, fetchKeyPackages_run]
  rcases hevents : script.keyPackages member with err | events
  · simp only [Except.mapError, reduceCtorEq, false_imp_iff, implies_true, iff_true]
    exact (reports_error rfl).mpr rfl
  simp only [Except.mapError, Except.ok.injEq, forall_eq']
  rw [Prog.run_bind]
  rcases hnewest : newestKeyPackage (M := M) K member events with err | ⟨keyPackage, hash⟩
  · simp only [Prog.run_ofExcept, reduceCtorEq, false_imp_iff, implies_true, iff_true]
    exact (reports_error (newestKeyPackage_error hnewest)).mpr rfl
  · have hadded := @reports_added M K actor chain group script ctx member keyPackage hash hM
    simp only [invite, Prog.bind_assoc] at hadded
    simpa [Prog.bind_assoc] using hadded

theorem reports_iff {call : OwnCommit} (hM : MergeMoves M) :
    ReportsDivergence K actor call chain group script ↔ Settled K call chain group script := by
  cases call with
  | bootstrap key hash => exact reports_bootstrap hM
  | rekey ctx => exact reports_rekey hM
  | discharge ctx dead => exact reports_discharge hM
  | add ctx member => exact reports_add hM

/-! ## The loop over the members -/

def isCommit (e : Event) : Bool :=
  match e.core.payload with
  | .mlsCommit _ => true
  | _ => false

def commitsIn (log : Log) : ℕ := (acceptedIn log).countP isCommit

/-- Each commit that is submitted is built on the accepted ones: a merge that was not accepted
would have left the group in a later epoch. -/
def InStep (epoch : ℕ) (log : Log) : Prop :=
  ∀ before e answer after p, log = before ++ (e, answer) :: after →
    e.core.payload = .mlsCommit p → p.epoch = epoch + commitsIn before

/-- No commit is refused but as one that has come too late, and each one is answered. -/
def Heeded (log : Log) : Prop :=
  ∀ x ∈ log, isCommit x.1 = true →
    x.2.isOk = true ∨ x.2 = .error (.serverRejected "stale-epoch")

instance {log : Log} : Decidable (Heeded log) :=
  inferInstanceAs (Decidable (∀ x ∈ log, isCommit x.1 = true →
    x.2.isOk = true ∨ x.2 = .error (.serverRejected "stale-epoch")))

theorem Heeded.of_append {log log' : Log} (h : Heeded (log ++ log')) : Heeded log :=
  fun x hmem => h x (List.mem_append_left _ hmem)

theorem InStep.snoc {epoch : ℕ} {e : Event} {answer : Answer} (h : InStep epoch log)
    (he : ∀ p, e.core.payload = .mlsCommit p → p.epoch = epoch + commitsIn log) :
    InStep epoch (log ++ [(e, answer)]) := by
  intro before e' answer' after p hlog hp
  rcases List.append_eq_append_iff.mp hlog with ⟨middle, rfl, htail⟩ | ⟨middle, rfl, htail⟩
  · cases middle with
    | nil =>
      obtain ⟨hpair, -⟩ := List.cons.inj htail
      obtain ⟨rfl, rfl⟩ := Prod.mk.inj hpair
      simpa using he p hp
    | cons x middle => simp at htail
  · cases middle with
    | nil =>
      obtain ⟨hpair, -⟩ := List.cons.inj htail
      obtain ⟨rfl, rfl⟩ := Prod.mk.inj hpair
      simpa using he p hp
    | cons x middle =>
      obtain ⟨rfl, -⟩ := List.cons.inj htail
      exact h before e' answer' middle p rfl hp

theorem commitsIn_snoc {e : Event} {answer : Answer} :
    commitsIn (log ++ [(e, answer)]) =
      commitsIn log + if answer.isOk = true ∧ isCommit e = true then 1 else 0 := by
  cases answer with
  | ok accepted => by_cases hcommit : isCommit e = true <;> simp [commitsIn, hcommit, Except.isOk,
      Except.toBool]
  | error err => simp [commitsIn, Except.isOk, Except.toBool]

variable {σ : Type} {epoch : ℕ}

/-- The submitted commits have been in step, and the group is where the accepted ones lead. -/
def Calm (epoch : ℕ) (s : Session M (σ × Log)) : Prop :=
  Heeded s.world.2 → InStep epoch s.world.2 ∧
    (s.chain.lastEventHash.isSome → s.group.epoch = epoch + commitsIn s.world.2)

def Orderly (epoch : ℕ) (s : Session M (σ × Log)) : Prop :=
  Heeded s.world.2 → InStep epoch s.world.2

def Merged (epoch : ℕ) (outcome : CommitOutcome) (s : Session M (σ × Log)) : Prop :=
  Heeded s.world.2 → InStep epoch s.world.2 ∧
    (s.chain.lastEventHash.isSome → outcome.epoch = epoch + commitsIn s.world.2 ∧
      s.group.epoch = outcome.epoch + 1)

theorem Calm.orderly {s : Session M (σ × Log)} (h : Calm epoch s) : Orderly epoch s :=
  fun hheeded => (h hheeded).1

variable {T : Transport σ}

theorem isStaleEpoch_iff {err : TransportError} :
    err.isStaleEpoch = true ↔ err = .serverRejected "stale-epoch" := by
  cases err <;> simp [TransportError.isStaleEpoch]

theorem isStaleEpochDiverged_refusal {rateLimited : Bool} {err : TransportError}
    {localEpoch : ℕ} :
    (refusal rateLimited err localEpoch).isStaleEpochDiverged = err.isStaleEpoch := by
  unfold refusal
  split_ifs with hstale
  · simp [E2eeError.isStaleEpochDiverged, hstale]
  · simp [E2eeError.isStaleEpochDiverged, hstale]
  · cases err <;> simp [E2eeError.isStaleEpochDiverged, hstale]

/-- Where an attempt to add a member leaves the session. -/
def AfterAdd {α : Type} (epoch : ℕ) (r : Except E2eeError α) (s : Session M (σ × Log)) : Prop :=
  match r with
  | .ok _ => Calm epoch s
  | .error e => if e.isStaleEpochDiverged then Orderly epoch s else Calm epoch s

theorem submitCommit_afterAdd {outcome : CommitOutcome} {e : Event} {p : MlsCommit}
    (hp : e.core.payload = .mlsCommit p) (hepoch : p.epoch = outcome.epoch) :
    Triple (fun s : Session M (σ × Log) => Merged epoch outcome s ∧
        s.chain.lastEventHash.isSome)
      (submitCommit K T.recording false e)
      fun r s => AfterAdd epoch r s ∧ s.chain.lastEventHash.isSome := by
  rintro s ⟨hmerged, hhead⟩
  have hcommit : isCommit e = true := by simp [isCommit, hp]
  have hinstep (h : Heeded s.world.2) (answer : Answer) :
      InStep epoch (s.world.2 ++ [(e, answer)]) := by
    obtain ⟨hbefore, hgroup⟩ := hmerged h
    refine hbefore.snoc fun p' hp' => ?_
    obtain rfl := EventPayload.mlsCommit.inj (hp.symm.trans hp')
    rw [hepoch, (hgroup hhead).1]
  cases hanswer : (T.submitEvent e s.world.1).1 with
  | ok accepted =>
    simp only [submitCommit, submit, advance, Transport.recording, Prog.run_bind, hanswer,
      Prog.run_modify, Prog.run_pure, AfterAdd]
    refine ⟨fun hheeded => ?_, rfl⟩
    obtain ⟨hauthored, hmoved⟩ := (hmerged hheeded.of_append).2 hhead
    refine ⟨hinstep hheeded.of_append _, fun _ => ?_⟩
    simp only [commitsIn_snoc, Except.isOk, Except.toBool, hcommit]
    simp only [and_self, ↓reduceIte]
    omega
  | error err =>
    simp only [submitCommit, submit, Transport.recording, Prog.run_bind, hanswer, Prog.run_get,
      Prog.run_fail, AfterAdd, isStaleEpochDiverged_refusal]
    refine ⟨?_, hhead⟩
    by_cases hstale : err.isStaleEpoch = true
    · rw [if_pos hstale]
      exact fun hheeded => hinstep hheeded.of_append _
    · rw [if_neg hstale]
      intro hheeded
      rcases hheeded (e, .error err) (by simp) hcommit with hok | hrefused
      · simp [Except.isOk, Except.toBool] at hok
      · exact absurd (isStaleEpoch_iff.mpr (Except.error.inj hrefused)) hstale

theorem Calm.submitted {s s' : Session M (σ × Log)} {e : Event} {answer : Answer}
    (h : Calm epoch s) (hhead : s.chain.lastEventHash.isSome) (hcommit : isCommit e = false)
    (hgroup : s'.group = s.group) (hlog : s'.world.2 = s.world.2 ++ [(e, answer)]) :
    Calm epoch s' := by
  intro hheeded
  rw [hlog] at hheeded
  obtain ⟨hinstep, haligned⟩ := h hheeded.of_append
  have hnone (p : MlsCommit) (hp : e.core.payload = .mlsCommit p) :
      p.epoch = epoch + commitsIn s.world.2 := by simp [isCommit, hp] at hcommit
  rw [hlog, hgroup, commitsIn_snoc]
  refine ⟨hinstep.snoc hnone, fun _ => ?_⟩
  simpa [hcommit] using haligned hhead

theorem afterAdd_error {α : Type} {s : Session M (σ × Log)} {e : E2eeError} (h : Calm epoch s)
    (he : e.isStaleEpochDiverged = false) : AfterAdd (α := α) epoch (.error e) s := by
  simpa [AfterAdd, he] using h

theorem submitNext_afterAdd {e : Event} (hcommit : isCommit e = false) :
    Triple (fun s : Session M (σ × Log) => Calm epoch s ∧ s.chain.lastEventHash.isSome)
      (submitNext K T.recording e) (AfterAdd epoch) := by
  rintro s ⟨hcalm, hhead⟩
  cases hanswer : (T.submitEvent e s.world.1).1 with
  | ok accepted =>
    simp only [submitNext, submit, advance, Transport.recording, Prog.run_bind, hanswer,
      Prog.run_modify, Prog.run_pure]
    exact hcalm.submitted hhead hcommit rfl rfl
  | error err =>
    simp only [submitNext, submit, Transport.recording, Prog.run_bind, hanswer, Prog.run_fail]
    exact afterAdd_error (hcalm.submitted hhead hcommit rfl rfl) rfl

/-- A Welcome comes with each commit that adds, and messages can be written as bytes. -/
structure Inviting (M : OpenMls) : Prop where
  welcome : ∀ g keyPackages own, M.addMembers g keyPackages = some own → own.welcome.isSome
  toBytes : ∀ message, (M.toBytes message).isSome

theorem addMembers_inviting (group : MlsChannelGroup M) (keyPackages : List M.KeyPackage)
    (hM : Inviting M) :
    match (group.addMembers keyPackages).1 with
    | .error _ => (group.addMembers keyPackages).2 = group
    | .ok outcome => outcome.welcomeBytes.isSome := by
  unfold MlsChannelGroup.addMembers MlsChannelGroup.commitOwn
  rcases hown : M.addMembers group.inner keyPackages with _ | own
  · rfl
  obtain ⟨welcome, hwelcome⟩ := Option.isSome_iff_exists.mp (hM.welcome _ _ _ hown)
  obtain ⟨commitBytes, hcommit⟩ := Option.isSome_iff_exists.mp (hM.toBytes own.message)
  obtain ⟨welcomeBytes, hbytes⟩ := Option.isSome_iff_exists.mp (hM.toBytes welcome)
  simp only [MlsChannelGroup.finishOwnCommit]
  rcases group.stagedCommitSummary own.staged with e | summary
  · rfl
  simp only
  split_ifs
  · rfl
  rcases M.merge group.inner own.staged with _ | inner
  · rfl
  simp [hwelcome, hcommit, hbytes]

theorem addMembers_merged {keyPackages : List M.KeyPackage} (hM : MergeMoves M)
    (hinviting : Inviting M) :
    Triple (Calm (M := M) (σ := σ) epoch) (onGroup (·.addMembers keyPackages) "add member")
      fun r s => match r with
        | .ok outcome => Merged epoch outcome s ∧ outcome.welcomeBytes.isSome
        | .error e => AfterAdd (α := Unit) epoch (.error e) s := by
  rintro ⟨chain, group, world⟩ hs
  have hinvited := addMembers_inviting group keyPackages hinviting
  rcases hdone : group.addMembers keyPackages with ⟨e | outcome, g'⟩
  · obtain rfl : g' = group := by simpa [hdone] using hinvited
    simpa [onGroup, hdone, Except.mapError, AfterAdd, E2eeError.isStaleEpochDiverged] using hs
  · obtain ⟨hauthored, hmoved⟩ := addMembers_ok hM outcome g' hdone
    simp only [onGroup, hdone, Except.mapError]
    refine ⟨fun hheeded => ⟨(hs hheeded).1, fun hhead => ?_⟩, by simpa [hdone] using hinvited⟩
    have haligned : group.epoch = epoch + commitsIn world.2 := (hs hheeded).2 hhead
    exact ⟨hauthored.trans haligned, hmoved.trans (congrArg (· + 1) hauthored.symm)⟩

theorem fetchKeyPackages_afterAdd {member : Leaf} :
    Triple (Calm (M := M) epoch) (fetchKeyPackages T.recording member) (AfterAdd epoch) := by
  intro s hs
  cases hanswer : (T.fetchKeyPackages member s.world.1).1 with
  | ok events =>
    simp only [fetchKeyPackages, Transport.recording, hanswer, Except.mapError]
    exact hs
  | error err =>
    simp only [fetchKeyPackages, Transport.recording, hanswer, Except.mapError]
    exact afterAdd_error hs rfl

theorem newestKeyPackage_afterAdd {member : Leaf} {events : List (Option Event)} :
    Triple (Calm (M := M) (σ := σ) epoch)
      (Prog.ofExcept (newestKeyPackage (M := M) K member events)) (AfterAdd epoch) := by
  intro s hs
  rcases hnewest : newestKeyPackage (M := M) K member events with e | keyPackage
  · have hnot := newestKeyPackage_error hnewest
    refine afterAdd_error hs ?_
    cases e with
    | staleEpochDiverged localEpoch => simp [E2eeError.isDiverged] at hnot
    | _ => rfl
  · exact hs

theorem authzHead_merged {outcome : CommitOutcome} {missing : String} :
    Triple (Merged (M := M) (σ := σ) epoch outcome) (authzHead missing) fun r s =>
      match r with
      | .ok _ => Merged epoch outcome s ∧ s.chain.lastEventHash.isSome
      | .error e => AfterAdd (α := EventHash) epoch (.error e) s := by
  intro s hs
  rcases hhead : s.chain.lastEventHash with _ | head
  · simp only [authzHead, Prog.run_get_bind, hhead, Prog.ofOption, Prog.run_fail]
    refine afterAdd_error (fun hheeded => ⟨(hs hheeded).1, fun h => ?_⟩) rfl
    simp [hhead] at h
  · simp only [authzHead, Prog.run_get_bind, hhead, Prog.ofOption, Prog.run_pure]
    exact ⟨hs, rfl⟩

theorem addMember_afterAdd {ctx : CommitContext} {member : Leaf} (hM : MergeMoves M)
    (hinviting : Inviting M) :
    Triple (Calm (M := M) (σ := σ) epoch) (addMember K T.recording actor ctx member)
      (AfterAdd epoch) := by
  unfold addMember
  refine fetchKeyPackages_afterAdd.bind (fun events => ?_) fun _ _ h => h
  refine newestKeyPackage_afterAdd.bind (fun newest => ?_) fun _ _ h => h
  refine (addMembers_merged hM hinviting).bind (fun outcome => ?_) fun _ _ h => h
  rcases hwelcome : outcome.welcomeBytes with _ | welcome
  · exact fun s hs => absurd hs.2 (by simp [hwelcome])
  rw [Prog.ofOption, Prog.pure_bind]
  refine Triple.get_bind fun s => ?_
  refine (authzHead_merged.pre fun _ h => h.1.1).bind (fun head => ?_) fun _ _ h => h
  -- The commit cites the epoch before the merge.
  refine nextEvent_bind fun s => ?_
  refine ((submitCommit_afterAdd rfl rfl).pre fun _ h => h.1).bind (fun accepted => ?_)
    fun _ _ h => h.1
  refine Triple.bind (R := AfterAdd epoch) ?_ (fun welcomed => ?_) fun _ _ h => h
  · exact nextEvent_bind fun s => (submitNext_afterAdd rfl).pre fun _ h => h.1
  · exact Triple.get_bind fun _ => Triple.pure fun _ h => h.1

variable {O : Outside σ}

theorem offChannel_triple {α : Type} {x : Action M σ α} {P : Session M σ → Prop}
    {Q : Except E2eeError α → Session M σ → Prop} (h : Triple P x Q) :
    Triple (fun d : Desk M σ => P d.session) (offChannel x) fun r d => Q r d.session :=
  fun d hd => h d.session hd

theorem onChannel_triple {α : Type} {channelId : ℕ} {groupId : String} {x : Action M σ α}
    {P : Session M σ → Prop} {Q : Except E2eeError α → Session M σ → Prop} (h : Triple P x Q) :
    Triple (fun d : Desk M σ => P d.session) (onChannel channelId groupId x)
      fun r d => Q r d.session := fun d hd => h d.session hd

theorem memberLiveLeaves_calm {identity : PublicKey} :
    Keeps (Calm (M := M) epoch) (memberLiveLeaves K T.recording identity) := by
  have hfetch : Keeps (Calm (M := M) epoch) (fetchDeviceCerts T.recording identity) := fun _ h => h
  exact hfetch.bind fun _ => (Keeps.ofExcept _).bind fun _ => Keeps.get.bind fun _ => Keeps.pure _

/-- Where a command, or a part of one, leaves the desk. -/
def AfterCommand {α : Type} (epoch : ℕ) : Except String α → Desk M (σ × Log) → Prop :=
  Ends (fun d => Calm epoch d.session) fun d => Orderly epoch d.session

theorem write_afterCommand {f : Files M → Files M} :
    Triple (fun d : Desk M (σ × Log) => Calm epoch d.session) (write O.recording f)
      (AfterCommand epoch) := by
  intro d hd
  have hcalm (world : σ) : Calm epoch { d.session with world := (world, d.session.world.2) } := hd
  cases hwritten : (O.writes d.session.world.1).1 with
  | true =>
    simp only [write, Outside.recording, hwritten, ↓reduceIte]
    exact hcalm _
  | false =>
    simp only [write, Outside.recording, hwritten, Bool.false_eq_true, ↓reduceIte]
    exact (hcalm _).orderly

theorem saveChain_afterCommand :
    Triple (fun d : Desk M (σ × Log) => Calm epoch d.session) (saveChain O.recording)
      (AfterCommand epoch) := fun d hd => write_afterCommand { d with ds := _ } hd

theorem getMembers_afterCommand :
    Triple (fun d : Desk M (σ × Log) => Calm epoch d.session) (getMembers O.recording)
      (AfterCommand epoch) := by
  intro d hd
  cases hanswer : (O.getMembers d.session.world.1).1 with
  | ok members =>
    simp only [getMembers, Outside.recording, hanswer]
    exact hd
  | error e =>
    simp only [getMembers, Outside.recording, hanswer]
    exact Calm.orderly (s := { d.session with world := _ }) hd

theorem addDevice_afterCommand {ctx : CommitContext} {member : Leaf} (hM : MergeMoves M)
    (hinviting : Inviting M) :
    Triple (fun d : Desk M (σ × Log) => Calm epoch d.session)
      (addDevice K O.recording actor ctx member) (AfterCommand epoch) := by
  unfold addDevice
  refine Triple.get_bind fun d => ?_
  rcases d.session.group.leaves with e | leaves
  · exact Triple.fail fun _ h => Calm.orderly h.1
  simp only
  split_ifs
  · exact Triple.pure fun _ h => h.1
  have hfetch : Keeps (Calm (M := M) epoch) (fetchKeyPackages O.recording.toTransport member) :=
    fun _ h => h
  refine Triple.attempt_bind ((offChannel_triple (.of_keeps hfetch)).pre fun _ h => h.1)
    fun r => ?_
  rcases r with e | events
  · exact Triple.pure fun _ h => h
  simp only
  rcases keyPackageGate (M := M) events with reason | _
  · exact Triple.pure fun _ h => h
  refine Triple.attempt_bind (onChannel_triple (addMember_afterAdd hM hinviting)) fun r => ?_
  rcases r with e | outcome
  · simp only
    split_ifs with hstale
    · refine Triple.fail fun d hd => ?_
      simpa [AfterAdd, AfterCommand, Ends, hstale] using hd
    · refine Triple.pure fun d hd => ?_
      simpa [AfterAdd, AfterCommand, Ends, hstale] using hd
  · refine saveChain_afterCommand.bind (fun _ => ?_) fun _ _ h => h
    exact write_afterCommand.bind (fun _ => Triple.pure fun _ h => h) fun _ _ h => h

theorem addIdentity_afterCommand {ctx : CommitContext} {identity : PublicKey} (hM : MergeMoves M)
    (hinviting : Inviting M) :
    Triple (fun d : Desk M (σ × Log) => Calm epoch d.session)
      (addIdentity K O.recording actor ctx identity) (AfterCommand epoch) := by
  refine Triple.attempt_bind (offChannel_triple (.of_keeps memberLiveLeaves_calm)) fun r => ?_
  rcases r with e | _ | ⟨leaf, leaves⟩
  · exact Triple.pure fun _ h => h
  · exact Triple.pure fun _ h => h
  · exact Triple.collect fun member _ => addDevice_afterCommand hM hinviting

theorem addCurrentMembersToGroup_afterCommand (ctx : CommitContext) (hM : MergeMoves M)
    (hinviting : Inviting M) :
    Triple (fun d : Desk M (σ × Log) => Calm epoch d.session)
      (addCurrentMembersToGroup K O.recording actor ctx) (AfterCommand epoch) := by
  refine getMembers_afterCommand.bind (fun members => ?_) fun _ _ h => h
  exact (Triple.collect fun _ _ => addIdentity_afterCommand hM hinviting).bind
    (fun outcomes => Triple.pure fun _ h => h) fun _ _ h => h

/-! ## What is reported -/

/-- A commit of the client's own that is merged and not accepted is reported as a divergence if and
only if the server answers it, and accepts the Welcome that goes with it. The loop over the members
submits nothing after such a merge, as long as the server answers each commit and refuses none but
as one that has come too late. -/
theorem divergence_reported_iff (hM : MergeMoves M) :
    (∀ K actor call chain (group : MlsChannelGroup M) script,
      ReportsDivergence K actor call chain group script ↔ Settled K call chain group script) ∧
    (Inviting M → ∀ (K : Crypto) (actor : Actor) (σ : Type) (O : Outside σ) (ctx : CommitContext)
      (d : Desk M (σ × Log)), d.session.world.2 = [] →
      Heeded (addCurrentMembersToGroup K O.recording actor ctx d).2.session.world.2 →
        InStep d.session.group.epoch
          (addCurrentMembersToGroup K O.recording actor ctx d).2.session.world.2) := by
  refine ⟨fun K actor call chain group script => reports_iff hM, ?_⟩
  intro hinviting K actor σ O ctx d hlog hheeded
  have hstart : Calm d.session.group.epoch d.session := by
    intro _
    rw [hlog]
    exact ⟨fun before e answer after p h => by simp at h, fun _ => rfl⟩
  have hcommand : Triple (fun d' : Desk M (σ × Log) => Calm d.session.group.epoch d'.session)
      (addCurrentMembersToGroup K O.recording actor ctx) (AfterCommand d.session.group.epoch) :=
    addCurrentMembersToGroup_afterCommand ctx hM hinviting
  have hend := hcommand d hstart
  rcases hrun : addCurrentMembersToGroup K O.recording actor ctx d with ⟨e | outcomes, d'⟩
  · rw [hrun] at hend hheeded
    exact hend hheeded
  · rw [hrun] at hend hheeded
    exact (hend hheeded).1

section Sample

open SampleLog SampleMls

theorem mergeMoves_mls : MergeMoves mls := by
  rintro g staged _ ⟨⟩
  rfl

theorem inviting_mls : Inviting mls := by
  refine ⟨?_, fun _ => rfl⟩
  rintro g keyPackages _ ⟨⟩
  rfl

def steward : Actor := ⟨a0, alice, "1"⟩

def channel : CommitContext := ⟨⟨"1", 7⟩, 0, 0⟩

/-- Alice's chain, after two events, and her group, with herself in it. -/
def chainAfter : ChainState := ⟨2, some "head", 1⟩

def aliceAlone : MlsChannelGroup mls := ⟨⟨"1/7/generation-0", 0, 0, [(0, leafOf alice a0)]⟩, 0⟩

/-- A server that is not heard of again. -/
def silent : Script := ⟨0, [], fun _ => .ok [], fun _ => .ok [], fun _ _ => .ok ⟨[], 0, false⟩⟩

/-- Bob's device, with its certificate and its KeyPackage. -/
def bobsEvents : List Event :=
  signed [⟨bob, b0, 1, cert bob b0 none⟩, ⟨bob, b0, 1, .mlsKeyPackagePublished ⟨[1], 0, 100⟩⟩]

/-- A server that knows Bob, and answers in this way. -/
def withBob (answers : List Answer) : Script :=
  { silent with
    answers
    keyPackages := fun _ => .ok ((bobsEvents.drop 1).map some)
    deviceCerts := fun _ => .ok ((bobsEvents.take 1).map some) }

def outside : Outside Script where
  toTransport := Script.transport
  getMembers w := (.ok [key alice, key bob], w)
  writes w := (true, w)

def desk (answers : List Answer) : Desk mls (Script × Log) :=
  ⟨⟨chainAfter, aliceAlone, withBob answers, []⟩, ⟨2, some "head", 1, true, true⟩,
    ⟨none, ∅, ∅, ∅⟩⟩

def logOf (answers : List Answer) : Log :=
  (addCurrentMembersToGroup crypto outside.recording steward channel (desk answers)).2.session.world.2

theorem divergence_reported_iff_sample :
    (ReportsDivergence crypto steward (.rekey channel) chainAfter aliceAlone (withBob []) ↔
      Settled crypto (.rekey channel) chainAfter aliceAlone (withBob [])) ∧
    (logOf [.ok ⟨"commit", 1⟩, .ok ⟨"welcome", 1⟩]).length = 2 ∧
    InStep 0 (logOf [.ok ⟨"commit", 1⟩, .ok ⟨"welcome", 1⟩]) :=
  have hboth := divergence_reported_iff mergeMoves_mls
  ⟨hboth.1 _ _ _ _ _ _, by decide +kernel,
    hboth.2 inviting_mls crypto steward Script outside channel
      (desk [.ok ⟨"commit", 1⟩, .ok ⟨"welcome", 1⟩]) rfl (by decide +kernel)⟩

/-- The answer to a rekey is lost. The group is in the next epoch, and what is reported is a failure
of the transport. -/
theorem lost_rekey_not_reported :
    ¬∀ (M : OpenMls), MergeMoves M → ∀ K actor call chain (group : MlsChannelGroup M) script,
      ReportsDivergence K actor call chain group script := by
  intro h
  have hreports := h mls mergeMoves_mls crypto steward (.rekey channel) chainAfter aliceAlone silent
  have hsettled := (reports_rekey mergeMoves_mls).mp hreports (by rfl)
  exact hsettled

end Sample
end Divergence
