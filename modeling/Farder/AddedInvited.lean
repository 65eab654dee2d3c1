import Farder.Client.SampleMls
import Farder.Client.Transcript
import Farder.Client.Wire

/-! # Added means invited

An add is two events, the commit and the Welcome that cites it. In between, the Welcome is nowhere
but in the call. -/
namespace AddedInvited

open EventLog Effects Client

variable {M : OpenMls} {K : Crypto} {actor : Actor}

/-- A steward adds a device; what the call works on, and what it is going to meet. -/
structure Call (M : OpenMls) where
  actor : Actor
  ctx : CommitContext
  member : Leaf
  chain : ChainState
  group : MlsChannelGroup M
  happenings : List Happening
  reads : List Bool

inductive Move (M : OpenMls) where
  | others (now : ℕ) (events : List Event)
  | add (call : Call M)

/-- A call that is over, with the group that it has left and what it has submitted. -/
structure Attempt (M : OpenMls) where
  call : Call M
  left : MlsChannelGroup M
  submitted : List Submission

structure Scene (M : OpenMls) where
  wire : Wire
  attempts : List (Attempt M)

variable (K) in
def Call.run (call : Call M) (w : Wire) :
    Except E2eeError AddMemberOutcome × Session M Wire :=
  addMember K (wire K) call.actor call.ctx call.member ⟨call.chain, call.group,
    { w with submitted := [], happenings := call.happenings, reads := call.reads }⟩

variable (K) in
def perform (s : Scene M) (move : Move M) : Scene M :=
  match move with
  | .others now events => { s with wire := events.foldl (Wire.take K) { s.wire with now } }
  | .add call =>
    let left := (call.run K s.wire).2
    ⟨left.world, s.attempts ++ [⟨call, left.group, left.world.submitted⟩]⟩

variable (K) in
def after (g : Genesis) (moves : List (Move M)) : Scene M :=
  moves.foldl (perform K) ⟨Wire.start K g, []⟩

def isWelcomeFor (commit : EventHash) (leaf : Leaf) (e : Event) : Bool :=
  match e.core.payload with
  | .mlsWelcome p => decide (p.commit = commit ∧ (p.forMember, p.forDevice) = leaf)
  | _ => false

/-- The log has a Welcome for the leaf that cites the commit. -/
def Welcomed (w : Wire) (commit : EventHash) (leaf : Leaf) : Prop :=
  ∃ e ∈ w.events, isWelcomeFor commit leaf e = true

variable (K) in
/-- The loop over the members still submits the Welcome, when it comes to the leaf again. -/
def StillHeld (a : Attempt M) (commit : EventHash) (leaf : Leaf) : Prop :=
  ∃ (σ : Type) (O : Outside σ) (d : Desk M (σ × Log)), d.session.group = a.left ∧
    d.session.world.2 = [] ∧
    ∃ x ∈ (addDevice K O.recording a.call.actor a.call.ctx leaf d).2.session.world.2,
      isWelcomeFor commit leaf x.1 = true

variable (K) in
/-- The leaves that are pending after a steward's commit are invited, or are going to be. -/
def Invited (s : Scene M) : Prop :=
  ∀ a ∈ s.attempts, ∀ x ∈ a.submitted, ∀ p, x.event.core.payload = .mlsCommit p →
    x.taken K = true → ∀ add ∈ p.adds, ∀ group, s.wire.log.mlsGroups.lookup p.channelId = some group →
      add.leaf ∈ group.leavesPending →
        Welcomed s.wire (x.event.hash K) add.leaf ∨ StillHeld K a (x.event.hash K) add.leaf

def isWelcome (e : Event) : Bool :=
  match e.core.payload with
  | .mlsWelcome _ => true
  | _ => false

def isCommit (e : Event) : Bool :=
  match e.core.payload with
  | .mlsCommit _ => true
  | _ => false

variable (K) in
/-- If the server takes a commit then the steward hears of it, and it takes each Welcome. -/
def Carried (s : Scene M) : Prop :=
  ∀ a ∈ s.attempts, ∀ x ∈ a.submitted,
    (isCommit x.event = true → x.taken K = true → x.fate = .heard) ∧
      (isWelcome x.event = true → x.taken K = true)

variable (K) in
/-- A commit of the call adds its member only, and goes with a Welcome if it is heard of. -/
def Tried (member : Leaf) (w : Wire) : Prop :=
  ∀ x ∈ w.submitted, ∀ p, x.event.core.payload = .mlsCommit p →
    (∀ add ∈ p.adds, add.leaf = member) ∧
      (x.taken K = true → x.fate = .heard →
        ∃ y ∈ w.submitted, isWelcomeFor (x.event.hash K) member y.event = true)

/-- Nothing is submitted yet. -/
def Quiet (w : Wire) : Prop := w.submitted = []

theorem Quiet.tried {member : Leaf} {w : Wire} (h : Quiet w) : Tried K member w := by
  intro x hx
  rw [show w.submitted = [] from h] at hx
  simp at hx

theorem fetchKeyPackages_quiet {member : Leaf} :
    Keeps (Over (M := M) Quiet) (fetchKeyPackages (wire K) member) := fun _ hs => hs

/-- After the commit is submitted: it is the only submission, and if it is accepted then it has
been taken, and the answer names it. -/
theorem submitCommit_once {rateLimited : Bool} {e : Event} :
    Triple (Over (M := M) Quiet) (submitCommit K (wire K) rateLimited e) fun r s =>
      ∃ x, s.world.submitted = [x] ∧ x.event = e ∧ match r with
        | .ok accepted => accepted.eventHash = e.hash K
        | .error _ => ¬(x.taken K = true ∧ x.fate = .heard) := by
  rintro ⟨chain, group, w⟩ hs
  have hsubmitted : (w.submit K e).2.submitted = [w.meets K e] := by
    rw [Wire.submit_submitted, show w.submitted = [] from hs, List.nil_append]
  cases hanswer : (w.submit K e).1 with
  | ok accepted =>
    simp only [submitCommit, submit, wire, advance, Prog.run_bind, hanswer, Prog.run_modify,
      Prog.run_pure]
    exact ⟨_, hsubmitted, rfl, (Wire.submit_ok hanswer).1⟩
  | error err =>
    simp only [submitCommit, submit, wire, Prog.run_bind, hanswer, Prog.run_get, Prog.run_fail]
    exact ⟨_, hsubmitted, rfl, Wire.submit_error hanswer⟩

theorem submitNext_twice {e : Event} {x : Submission} :
    Triple (fun s : Session M Wire => s.world.submitted = [x]) (submitNext K (wire K) e)
      fun _ s => ∃ y, s.world.submitted = [x, y] ∧ y.event = e := by
  rintro ⟨chain, group, w⟩ hs
  have hsubmitted : (w.submit K e).2.submitted = [x, w.meets K e] := by
    rw [Wire.submit_submitted, show w.submitted = [x] from hs, List.singleton_append]
  cases hanswer : (w.submit K e).1 with
  | ok accepted =>
    simp only [submitNext, submit, wire, advance, Prog.run_bind, hanswer, Prog.run_modify,
      Prog.run_pure]
    exact ⟨_, hsubmitted, rfl⟩
  | error err =>
    simp only [submitNext, submit, wire, Prog.run_bind, hanswer, Prog.run_fail]
    exact ⟨_, hsubmitted, rfl⟩

/-- The commit adds the member and nobody else. -/
def AddsOnly (member : Leaf) (e : Event) : Prop :=
  ∃ p, e.core.payload = .mlsCommit p ∧ ∀ add ∈ p.adds, add.leaf = member

theorem tried_commit {member : Leaf} {w : Wire} {x : Submission} (hw : w.submitted = [x])
    (hx : AddsOnly member x.event) (hnot : ¬(x.taken K = true ∧ x.fate = .heard)) :
    Tried K member w := by
  intro y hy p hp
  obtain rfl : y = x := by simpa [hw] using hy
  obtain ⟨p', hp', hadds⟩ := hx
  obtain rfl := EventPayload.mlsCommit.inj (hp.symm.trans hp')
  exact ⟨hadds, fun htaken hfate => absurd ⟨htaken, hfate⟩ hnot⟩

theorem tried_both {member : Leaf} {w : Wire} {x y : Submission} (hw : w.submitted = [x, y])
    (hx : AddsOnly member x.event) (hy : isWelcomeFor (x.event.hash K) member y.event = true) :
    Tried K member w := by
  intro z hz p hp
  have hmem : z = x ∨ z = y := by simpa [hw] using hz
  rcases hmem with rfl | rfl
  · obtain ⟨p', hp', hadds⟩ := hx
    obtain rfl := EventPayload.mlsCommit.inj (hp.symm.trans hp')
    exact ⟨hadds, fun _ _ => ⟨y, by simp [hw], hy⟩⟩
  · simp [isWelcomeFor, hp] at hy

theorem addMember_tried {ctx : CommitContext} {member : Leaf} :
    Triple (Over (M := M) Quiet) (addMember K (wire K) actor ctx member)
      fun _ s => Tried K member s.world := by
  unfold addMember
  refine Triple.bind (.of_keeps fetchKeyPackages_quiet) (fun events => ?_) fun _ _ h => h.tried
  refine Triple.bind (.of_keeps (.ofExcept _)) (fun newest => ?_) fun _ _ h => h.tried
  refine Triple.bind (.of_keeps onGroup_over) (fun outcome => ?_) fun _ _ h => h.tried
  refine Triple.bind (.of_keeps (.ofOption _ _)) (fun welcome => ?_) fun _ _ h => h.tried
  refine Triple.get_bind fun s => ?_
  refine Triple.bind ((Triple.of_keeps authzHead_over).pre fun _ h => h.1) (fun head => ?_)
    fun _ _ h => h.tried
  refine nextEvent_bind fun s => ?_
  refine Triple.bind (submitCommit_once.pre fun _ h => h.1) (fun accepted => ?_) ?_
  · -- The commit has been accepted: the Welcome follows, and cites it.
    rintro s' ⟨x, hx, hevent, haccepted⟩
    have hadds : AddsOnly member x.event := by
      rw [hevent]
      exact ⟨_, rfl, by simp [commitPayload, DeclaredAdd.leaf]⟩
    have hwelcome : Triple (fun s : Session M Wire => s.world.submitted = [x])
        (submitWelcome K (wire K) actor ctx accepted.eventHash member welcome)
        fun _ s => Tried K member s.world := by
      refine nextEvent_bind fun s t ht => ?_
      obtain ⟨y, hy, hwelcome⟩ := submitNext_twice t ht.1
      refine tried_both hy hadds ?_
      rw [hwelcome]
      simp [isWelcomeFor, buildNextEvent, Event.sign, haccepted, hevent]
    refine hwelcome.bind (Q := fun _ s => Tried K member s.world) (fun welcomed => ?_)
      (fun _ _ h => h) s' hx
    exact Triple.get_bind fun _ => Triple.pure fun _ h => h.1
  · rintro e s' ⟨x, hx, hevent, hnot⟩
    refine tried_commit hx ?_ hnot
    rw [hevent]
    exact ⟨_, rfl, by simp [commitPayload, DeclaredAdd.leaf]⟩

variable (K) in
/-- What each call that is over has left behind. -/
structure Sound (s : Scene M) : Prop where
  tried : ∀ a ∈ s.attempts, ∀ x ∈ a.submitted, ∀ p, x.event.core.payload = .mlsCommit p →
    ∀ add ∈ p.adds, x.taken K = true → x.fate = .heard →
      ∃ y ∈ a.submitted, isWelcomeFor (x.event.hash K) add.leaf y.event = true
  logged : ∀ a ∈ s.attempts, ∀ x ∈ a.submitted, x.taken K = true → x.event ∈ s.wire.events

theorem perform_sound {s : Scene M} {move : Move M} (h : Sound K s) :
    Sound K (perform K s move) := by
  cases move with
  | others now events =>
    have hgrows : s.wire.taken <+: (events.foldl (Wire.take K) { s.wire with now }).taken :=
      Wire.foldl_take (P := fun w => s.wire.taken <+: w.taken)
        (fun _ _ h => h.trans Wire.take_grows) events (List.prefix_refl _)
    exact ⟨h.tried, fun a ha x hx htaken =>
      (hgrows.map Transition.event).subset (h.logged a ha x hx htaken)⟩
  | add call =>
    set w : Wire := { s.wire with
      submitted := [], happenings := call.happenings, reads := call.reads }
    have hgrows : s.wire.taken <+: (call.run K s.wire).2.world.taken :=
      addMember_over (Wire.keeps_taken s.wire.taken) ⟨call.chain, call.group, w⟩
        (List.prefix_refl _)
    have hlogged : (call.run K s.wire).2.world.Logged K :=
      addMember_over Wire.keeps_logged ⟨call.chain, call.group, w⟩ fun x hx => by simp [w] at hx
    have htried : Tried K call.member (call.run K s.wire).2.world :=
      addMember_tried ⟨call.chain, call.group, w⟩ rfl
    constructor
    · intro a ha x hx p hp add hadd htaken hfate
      rcases List.mem_append.mp ha with ha | ha
      · exact h.tried a ha x hx p hp add hadd htaken hfate
      · obtain rfl := List.mem_singleton.mp ha
        obtain ⟨hadds, hwelcome⟩ := htried x hx p hp
        rw [hadds add hadd]
        exact hwelcome htaken hfate
    · intro a ha x hx htaken
      rcases List.mem_append.mp ha with ha | ha
      · exact (hgrows.map Transition.event).subset (h.logged a ha x hx htaken)
      · obtain rfl := List.mem_singleton.mp ha
        exact hlogged x hx htaken

theorem sound_after {g : Genesis} (moves : List (Move M)) : Sound K (after K g moves) := by
  induction moves using List.reverseRecOn with
  | nil => exact ⟨by simp [after], by simp [after]⟩
  | append_singleton moves move ih =>
    rw [after, List.foldl_append]
    exact perform_sound ih

theorem isWelcome_of_for {commit : EventHash} {leaf : Leaf} {e : Event}
    (h : isWelcomeFor commit leaf e = true) : isWelcome e = true := by
  unfold isWelcomeFor at h
  unfold isWelcome
  split at h <;> simp_all

/-- As long as no word of a taken commit is lost and no Welcome is, the leaves that stewards' commits
leave pending are invited. -/
theorem invited_of_carried (M : OpenMls) (K : Crypto) (g : Genesis) (moves : List (Move M))
    (hcarried : Carried K (after K g moves)) : Invited K (after K g moves) := by
  intro a ha x hx p hp htaken add hadd group hgroup hpending
  have hsound := sound_after (K := K) (g := g) moves
  have hfate : x.fate = .heard := (hcarried a ha x hx).1 (by simp [isCommit, hp]) htaken
  obtain ⟨y, hy, hwelcome⟩ := hsound.tried a ha x hx p hp add hadd htaken hfate
  have hdelivered := (hcarried a ha y hy).2 (isWelcome_of_for hwelcome)
  exact .inl ⟨y.event, hsound.logged a ha y hy hdelivered, hwelcome⟩

theorem addDevice_skips {σ : Type} {O : Outside σ} {ctx : CommitContext} {member : Leaf}
    {d : Desk M σ} {leaves : List ActualLeaf} (hleaves : d.session.group.leaves = .ok leaves)
    (hmember : member ∈ leaves.map ActualLeaf.member) :
    addDevice K O actor ctx member d =
      (.ok (.skipped member.1 (some member.2) "already a member"), d) := by
  simp only [addDevice, Prog.run_get_bind, hleaves, if_pos hmember]
  rfl

section Sample

open SampleLog SampleMls

/-- Alice's server with an encrypted channel, and Bob's device with a KeyPackage. -/
def beforeAdd : List Event :=
  signed (twoMembers.take 5 ++ [⟨bob, b0, 1, .mlsKeyPackagePublished ⟨[1], 0, 100⟩⟩])

def steward : Actor := ⟨a0, alice, "1"⟩

def channel : CommitContext := ⟨⟨"1", 7⟩, 0, 0⟩

def bobsLeaf : Leaf := (key bob, device b0)

def alicesChain : ChainState :=
  ChainState.after crypto ⟨0, none, 0⟩ (beforeAdd.filter fun e => e.core.author = key alice)

/-- Alice adds Bob's device, and this becomes of the commit and of the Welcome. -/
def addBob (commit welcome : Fate) : List (Move mls) :=
  [.others 1 beforeAdd,
    .add ⟨steward, channel, bobsLeaf, alicesChain,
      ⟨⟨"1/7/generation-0", 0, 0, [(0, leafOf alice a0)]⟩, 0⟩, [⟨[], 2, commit⟩, ⟨[], 2, welcome⟩],
      []⟩]

instance {M : OpenMls} {K : Crypto} {s : Scene M} : Decidable (Carried K s) :=
  inferInstanceAs (Decidable (∀ a ∈ s.attempts, ∀ x ∈ a.submitted,
    (isCommit x.event = true → x.taken K = true → x.fate = .heard) ∧
      (isWelcome x.event = true → x.taken K = true)))

theorem invited_of_carried_sample :
    (after crypto genesis (addBob .heard .heard)).wire.events.length = 8 ∧
      Invited crypto (after crypto genesis (addBob .heard .heard)) :=
  ⟨by decide +kernel, invited_of_carried mls crypto genesis (addBob .heard .heard)
    (by decide +kernel)⟩

def commitIn (e : Event) : Option MlsCommit :=
  match e.core.payload with
  | .mlsCommit p => some p
  | _ => none

attribute [local instance] lawfulBEq_leaf

/-- The leaf is pending after the commit, nothing invites it, and it stands in the steward's tree. -/
def Stranded (s : Scene mls) (a : Attempt mls) (x : Submission) (p : MlsCommit)
    (add : DeclaredAdd) : Prop :=
  (∃ group ∈ (s.wire.log.mlsGroups.lookup p.channelId).toList, add.leaf ∈ group.leavesPending) ∧
    (∀ e ∈ s.wire.events, isWelcomeFor (x.event.hash crypto) add.leaf e = false) ∧
    ∃ leaves ∈ a.left.leaves.toOption.toList, add.leaf ∈ leaves.map ActualLeaf.member

instance {s : Scene mls} {a : Attempt mls} {x : Submission} {p : MlsCommit} {add : DeclaredAdd} :
    Decidable (Stranded s a x p add) := by
  unfold Stranded
  infer_instance

theorem stranded : ∃ a ∈ (after crypto genesis (addBob .heard .dropped)).attempts,
    ∃ x ∈ a.submitted, x.taken crypto = true ∧ ∃ p ∈ (commitIn x.event).toList, ∃ add ∈ p.adds,
      Stranded (after crypto genesis (addBob .heard .dropped)) a x p add := by
  decide +kernel

/-- Nobody invites Bob any more: the loop takes him for a member. -/
theorem not_always_invited :
    ¬∀ (M : OpenMls) (K : Crypto) (g : Genesis) (moves : List (Move M)),
      Invited K (after K g moves) := by
  intro h
  obtain ⟨a, ha, x, hx, htaken, p, hp, add, hadd, ⟨group, hgroup, hpending⟩, hnone, leaves,
    hleaves, hmember⟩ := stranded
  have hpayload : x.event.core.payload = .mlsCommit p := by
    have hcommit := Option.mem_toList.mp hp
    unfold commitIn at hcommit
    split at hcommit
    · next hpayload => exact hpayload.trans (congrArg _ (Option.some.inj hcommit))
    · cases hcommit
  have htree : a.left.leaves = .ok leaves := by
    have hsome := Option.mem_toList.mp hleaves
    rcases hl : a.left.leaves with e | l
    · rw [hl] at hsome
      cases hsome
    · rw [hl] at hsome
      exact congrArg _ (Option.some.inj hsome)
  rcases h mls crypto genesis (addBob .heard .dropped) a ha x hx p hpayload htaken add hadd group
      (Option.mem_toList.mp hgroup) hpending with ⟨e, he, hwelcome⟩ | ⟨σ, O, d, hleft, hlog, y, hy, -⟩
  · rw [hnone e he] at hwelcome
    exact Bool.false_ne_true hwelcome
  · rw [addDevice_skips (by rw [hleft, htree]) hmember, hlog] at hy
    exact absurd hy List.not_mem_nil

end Sample
end AddedInvited
