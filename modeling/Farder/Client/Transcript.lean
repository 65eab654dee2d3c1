import Farder.Client.Reset

/-! # Transcripts

All that a client submits, with the answers. The chain of the device goes on with each event that
is accepted, and with no other. -/
namespace Client

open EventLog Effects

abbrev Answer := Except TransportError EventAccepted
abbrev Log := List (Event × Answer)

variable {M : OpenMls} {σ : Type} {K : Crypto} {actor : Actor}

def Transport.recording (T : Transport σ) : Transport (σ × Log) where
  now w := T.now w.1
  submitEvent e w :=
    let answer := T.submitEvent e w.1
    (answer.1, answer.2, w.2 ++ [(e, answer.1)])
  fetchMlsControl channelId since w :=
    let answer := T.fetchMlsControl channelId since w.1
    (answer.1, answer.2, w.2)
  fetchKeyPackages member w :=
    let answer := T.fetchKeyPackages member w.1
    (answer.1, answer.2, w.2)
  fetchDeviceCerts identity w :=
    let answer := T.fetchDeviceCerts identity w.1
    (answer.1, answer.2, w.2)

def Outside.recording (O : Outside σ) : Outside (σ × Log) where
  toTransport := O.toTransport.recording
  getMembers w :=
    let answer := O.getMembers w.1
    (answer.1, answer.2, w.2)
  writes w :=
    let written := O.writes w.1
    (written.1, written.2, w.2)

def acceptedIn (log : Log) : List Event :=
  log.filterMap fun x => if x.2.isOk then some x.1 else none

@[simp] theorem acceptedIn_nil : acceptedIn [] = [] := rfl

@[simp] theorem acceptedIn_cons_ok {log : Log} {e : Event} {a : EventAccepted} :
    acceptedIn ((e, .ok a) :: log) = e :: acceptedIn log := rfl

@[simp] theorem acceptedIn_cons_error {log : Log} {e : Event} {err : TransportError} :
    acceptedIn ((e, .error err) :: log) = acceptedIn log := rfl

@[simp] theorem acceptedIn_append {log log' : Log} :
    acceptedIn (log ++ log') = acceptedIn log ++ acceptedIn log' := List.filterMap_append

def ChainState.after (K : Crypto) (chain : ChainState) (events : List Event) : ChainState :=
  events.foldl (fun _ e => ChainState.advance K e) chain

namespace ChainState

variable {chain : ChainState}

@[simp] theorem after_nil : chain.after K [] = chain := rfl

@[simp] theorem after_cons {e : Event} {events : List Event} :
    chain.after K (e :: events) = (advance K e).after K events := rfl

@[simp] theorem after_append {events events' : List Event} :
    chain.after K (events ++ events') = (chain.after K events).after K events' :=
  List.foldl_append

end ChainState

/-- The chain of the session is the one that was there, after all accepted events. -/
def Follows (K : Crypto) (chain : ChainState) (s : Session M (σ × Log)) : Prop :=
  s.chain = chain.after K (acceptedIn s.world.2)

section Keeps

variable {T : Transport σ} {chain : ChainState}

theorem submitNext_follows {e : Event} :
    Keeps (Follows K chain) (submitNext (M := M) K T.recording e) := by
  intro s hs
  cases hanswer : (T.submitEvent e s.world.1).1 with
  | ok accepted =>
    simp [submitNext, submit, advance, Transport.recording, Prog.run_bind, hanswer, Follows]
  | error err =>
    simp only [submitNext, submit, Transport.recording, Prog.run_bind, hanswer, Prog.run_fail]
    simpa [Follows] using hs

theorem submitCommit_follows {rateLimited : Bool} {e : Event} :
    Keeps (Follows K chain) (submitCommit (M := M) K T.recording rateLimited e) := by
  intro s hs
  cases hanswer : (T.submitEvent e s.world.1).1 with
  | ok accepted =>
    simp [submitCommit, submit, advance, Transport.recording, Prog.run_bind, hanswer, Follows]
  | error err =>
    simp only [submitCommit, submit, Transport.recording, Prog.run_bind, hanswer, Prog.run_get,
      Prog.run_fail]
    simpa [Follows] using hs

theorem onGroup_follows {α : Type}
    {op : MlsChannelGroup M → Except String α × MlsChannelGroup M} {failed : String} :
    Keeps (Follows K chain) (onGroup (σ := σ × Log) op failed) := fun _ hs => hs

theorem nextEvent_follows {serverId : ServerId} {payload : MlsChannelGroup M → EventPayload} :
    Keeps (Follows K chain) (nextEvent K T.recording actor serverId payload) := fun _ hs => hs

theorem authzHead_follows {missing : String} :
    Keeps (Follows K chain) (authzHead (M := M) (σ := σ × Log) missing) :=
  Keeps.get.bind fun _ => Keeps.ofOption _ _

theorem fetchKeyPackages_follows {member : Leaf} :
    Keeps (Follows K chain) (fetchKeyPackages (M := M) T.recording member) := fun _ hs => hs

theorem commitAndReport_follows {ctx : CommitContext} {head : EventHash} {rateLimited : Bool}
    {outcome : CommitOutcome} {removes : List DeclaredRemove} :
    Keeps (Follows K chain)
      (commitAndReport (M := M) K T.recording actor ctx head rateLimited outcome removes) :=
  Keeps.get.bind fun _ => nextEvent_follows.bind fun _ => submitCommit_follows.bind fun _ =>
    Keeps.get.bind fun _ => Keeps.pure _

theorem bootstrapGroup_follows {key : ChannelKey} {hash : Digest} :
    Keeps (Follows K chain) (bootstrapGroup (M := M) K T.recording actor key hash) :=
  authzHead_follows.bind fun _ => onGroup_follows.bind fun _ => commitAndReport_follows

theorem rekeyChannel_follows {ctx : CommitContext} :
    Keeps (Follows K chain) (rekeyChannel (M := M) K T.recording actor ctx) :=
  authzHead_follows.bind fun _ => onGroup_follows.bind fun _ => commitAndReport_follows

theorem dischargeDrift_follows {ctx : CommitContext} {dead : List Leaf} :
    Keeps (Follows K chain) (dischargeDrift (M := M) K T.recording actor ctx dead) := by
  refine authzHead_follows.bind fun _ => ?_
  split_ifs
  · exact Keeps.fail _
  · exact onGroup_follows.bind fun _ => commitAndReport_follows

theorem addMember_follows {ctx : CommitContext} {member : Leaf} :
    Keeps (Follows K chain) (addMember (M := M) K T.recording actor ctx member) := by
  refine fetchKeyPackages_follows.bind fun _ => (Keeps.ofExcept _).bind fun _ =>
    onGroup_follows.bind fun _ => (Keeps.ofOption _ _).bind fun _ => Keeps.get.bind fun _ => ?_
  refine authzHead_follows.bind fun _ => nextEvent_follows.bind fun _ =>
    submitCommit_follows.bind fun _ => ?_
  exact (nextEvent_follows.bind fun _ => submitNext_follows).bind fun _ =>
    Keeps.get.bind fun _ => Keeps.pure _

end Keeps

theorem nextEvent_bind {T : Transport σ} {serverId : ServerId} {α : Type}
    {payload : MlsChannelGroup M → EventPayload} {f : Event → Action M σ α}
    {P : Session M σ → Prop} {Q : Except E2eeError α → Session M σ → Prop}
    (h : ∀ s, Triple (fun t => P t ∧ t = s)
      (f (buildNextEvent K actor serverId s.chain (T.now s.world) (payload s.group))) Q) :
    Triple P (nextEvent K T actor serverId payload >>= f) Q := fun s hs => h s s ⟨hs, rfl⟩

end Client
