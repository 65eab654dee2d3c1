import Farder.Client.Reset
import Farder.Client.Transcript
import Farder.Client.Wire
import Farder.KeyPackageUse

/-! # The choice of a KeyPackage

Whoever adds a device takes the last KeyPackage that the server returns for it. The server returns
the oldest ones, used or not: there may be a live one that is not taken. -/
namespace Client

open EventLog EventLog.LogState Effects

variable {K : Crypto} {M : OpenMls} {σ : Type}

/-- A KeyPackage that a commit may cite: published by the device, not used and not expired. -/
def LivePackage (s : LogState) (member : Leaf) (r : EventRef) : Prop :=
  ∃ exp, KeyPackageUse.Live s.keyPackages member r exp ∧ s.logPos < exp ∧
    r ∉ s.consumedKeyPackages

def served (member : Leaf) (events : List Event) : Except TransportError (List (Option Event)) :=
  .ok ((keyPackagesOf member events).map some)

def noPackages : E2eeError := .chain "member has no published key packages"

def Session.recorded (s : Session M σ) : Session M (σ × Log) :=
  ⟨s.chain, s.group, (s.world, [])⟩

/-- Each commit in the record adds the device with this KeyPackage. -/
def Cites (member : Leaf) (r : EventRef) (log : Log) : Prop :=
  ∀ x ∈ log, ∀ p, x.1.core.payload = .mlsCommit p → p.adds = [⟨member.1, member.2, r⟩]

variable (K) in
/-- The client finds a live KeyPackage of the device: a commit that adds the device cites one, a
reset takes one, and neither fails because there is none. -/
structure FindsLive (s : LogState) (member : Leaf) (events : List Event) : Prop where
  add : ∀ (M : OpenMls) (σ : Type) (T : Transport σ) (actor : Actor) (ctx : CommitContext)
    (session : Session M σ),
    (T.fetchKeyPackages member session.world).1 = served member events →
    let run := addMember K T.recording actor ctx member session.recorded
    (∃ r, LivePackage s member r ∧ Cites member r run.2.world.2) ∧ run.1 ≠ .error noPackages
  reset : ∀ (M : OpenMls) (σ : Type) (T : Transport σ) (session : Session M σ),
    (T.fetchKeyPackages member session.world).1 = served member events →
    match (fetchResetPackage T member session).1 with
    | .ok keyPackage => ∃ e ∈ events, ∃ p, e.core.payload = .mlsKeyPackagePublished p ∧
        LivePackage s member (e.hash K) ∧ M.readKeyPackage p.keyPackage = some keyPackage
    | .error e => e ≠ missingForReset member

variable (K) in
/-- The condition: of the oldest KeyPackages of the device, as many as one answer holds, the last
one is live. -/
def LastServedLive (s : LogState) (member : Leaf) (events : List Event) : Prop :=
  ∃ e, (keyPackagesOf member events).getLast? = some e ∧ LivePackage s member (e.hash K)

/-! ## What is served -/

theorem mem_of_served {member : Leaf} {events : List Event} {e : Event}
    (h : e ∈ keyPackagesOf member events) :
    e ∈ events ∧ e.leaf = member ∧ ∃ p, e.core.payload = .mlsKeyPackagePublished p := by
  obtain ⟨hmem, hkind⟩ := List.mem_filter.mp (List.mem_of_mem_take h)
  refine ⟨hmem, ?_⟩
  split at hkind
  · next p hp => exact ⟨of_decide_eq_true hkind, p, hp⟩
  · cases hkind

theorem served_of_live {g : Genesis} {s : LogState} {tr : List (Transition LogState Event)}
    (h : Run K g tr s) {member : Leaf} {r : EventRef} (hlive : LivePackage s member r) :
    ∃ e, (keyPackagesOf member (tr.map Transition.event)).getLast? = some e := by
  obtain ⟨exp, hheld, -⟩ := hlive
  obtain ⟨y, hy, p, hp, hleaf, -⟩ := KeyPackageUse.live_published h hheld
  have hne : keyPackagesOf member (tr.map Transition.event) ≠ [] := by
    rw [keyPackagesOf, Ne, List.take_eq_nil_iff, not_or]
    refine ⟨by decide, fun hnone => ?_⟩
    refine List.filter_eq_nil_iff.mp hnone y.event (List.mem_map_of_mem hy) ?_
    simp only [hp, hleaf, decide_true]
  exact ⟨_, List.getLast?_eq_some_getLast hne⟩

/-! ## What is chosen -/

section Chosen

variable {member : Leaf} {events : List Event} {e : Event} {p : MlsKeyPackagePublished}

theorem newestKeyPackage_served (hlast : events.getLast? = some e)
    (hp : e.core.payload = .mlsKeyPackagePublished p) {keyPackage : M.KeyPackage}
    {hash : EventHash}
    (h : newestKeyPackage (M := M) K member (events.map some) = .ok (keyPackage, hash)) :
    hash = e.hash K := by
  simp only [newestKeyPackage, List.getLast?_map, hlast, Option.map_some, hp, bind,
    Except.bind] at h
  cases hread : M.readKeyPackage p.keyPackage with
  | none => simp [hread] at h
  | some kp =>
    simp only [hread] at h
    split at h
    · simp at h
    · split_ifs at h
      exact (Prod.mk.inj (Except.ok.inj h)).2.symm

variable (K M member) in
theorem newestKeyPackage_found (hlast : events.getLast? = some e)
    (hp : e.core.payload = .mlsKeyPackagePublished p) :
    newestKeyPackage (M := M) K member (events.map some) ≠ .error noPackages := by
  simp only [newestKeyPackage, List.getLast?_map, hlast, Option.map_some, hp, bind, Except.bind]
  cases hread : M.readKeyPackage p.keyPackage with
  | none => simp [noPackages]
  | some kp =>
    simp only
    split
    · simp [noPackages]
    · split_ifs <;> simp [noPackages, pure, Except.pure]

theorem mismatch_ne (member : Leaf) :
    E2eeError.chain "fetched key package credential does not match the member being reset" ≠
      missingForReset member := by
  intro h
  have htext := congrArg (fun m => m.toList.head?) (E2eeError.chain.inj h)
  simp [String.toList_append, show (toString "member ").toList.head? = some 'm' from rfl] at htext

variable (member) in
theorem resetKeyPackage_served (hlast : events.getLast? = some e)
    (hp : e.core.payload = .mlsKeyPackagePublished p) :
    match resetKeyPackage (M := M) member (events.map some) with
    | .ok keyPackage => M.readKeyPackage p.keyPackage = some keyPackage
    | .error err => err ≠ missingForReset member := by
  simp only [resetKeyPackage, List.getLast?_map, hlast, Option.map_some, hp, bind, Except.bind]
  cases hread : M.readKeyPackage p.keyPackage with
  | none => simp [missingForReset]
  | some kp =>
    cases hcredential : (M.keyPackageLeaf kp).credential with
    | none => simp [hcredential, missingForReset]
    | some leaf =>
      by_cases hleaf : leaf = member
      · simp [hcredential, hleaf, pure, Except.pure]
      · simp only [hcredential, if_neg hleaf]
        exact mismatch_ne member

end Chosen

/-! ## What is submitted -/

/-- The record of a session goes on citing the KeyPackage and no other, and a failure is not for
want of one. -/
def Adds {α : Type} (member : Leaf) (r : EventRef) (x : Action M (σ × Log) α) : Prop :=
  ∀ s, Cites member r s.world.2 → Cites member r (x s).2.world.2 ∧ (x s).1 ≠ .error noPackages

namespace Adds

variable {α β : Type} {member : Leaf} {r : EventRef} {x : Action M (σ × Log) α}

theorem pure (a : α) : Adds member r (pure a : Action M (σ × Log) α) :=
  fun _ h => ⟨h, by simp⟩

theorem fail {e : E2eeError} (he : e ≠ noPackages) :
    Adds member r (Prog.fail e : Action M (σ × Log) α) :=
  fun _ h => ⟨h, by simpa using he⟩

theorem get_bind {f : Session M (σ × Log) → Action M (σ × Log) α}
    (hf : ∀ s, Adds member r (f s)) : Adds member r (Prog.get >>= f) := fun s h => hf s s h

theorem ofOption (o : Option α) {e : E2eeError} (he : e ≠ noPackages) :
    Adds member r (Prog.ofOption o e : Action M (σ × Log) α) := by
  cases o with
  | none => exact fail he
  | some a => exact pure a

theorem bind {f : α → Action M (σ × Log) β} (hx : Adds member r x)
    (hf : ∀ a, Adds member r (f a)) : Adds member r (x >>= f) := by
  intro s hs
  obtain ⟨hmid, herror⟩ := hx s hs
  rw [Prog.run_bind]
  rcases hrun : x s with ⟨e | a, s'⟩
  · rw [hrun] at hmid herror
    exact ⟨hmid, by simpa using herror⟩
  · rw [hrun] at hmid
    exact hf a s' hmid

theorem onGroup {op : MlsChannelGroup M → Except String α × MlsChannelGroup M} {failed : String} :
    Adds member r (onGroup (σ := σ × Log) op failed) := by
  intro s hs
  refine ⟨hs, ?_⟩
  unfold Client.onGroup
  cases hdone : (op s.group).1 <;> simp [Except.mapError, hdone, noPackages]

theorem nextEvent_bind {K : Crypto} {T : Transport σ} {actor : Actor} {serverId : ServerId}
    {payload : MlsChannelGroup M → EventPayload} {f : Event → Action M (σ × Log) α}
    (h : ∀ s : Session M (σ × Log), Adds member r
      (f (buildNextEvent K actor serverId s.chain (T.now s.world.1) (payload s.group)))) :
    Adds member r (nextEvent K T.recording actor serverId payload >>= f) :=
  fun s hs => h s s hs

end Adds

section Submitted

variable {T : Transport σ} {actor : Actor} {member : Leaf} {r : EventRef}

theorem Cites.snoc {log : Log} {e : Event} {answer : Answer} (h : Cites member r log)
    (he : ∀ p, e.core.payload = .mlsCommit p → p.adds = [⟨member.1, member.2, r⟩]) :
    Cites member r (log ++ [(e, answer)]) := by
  intro x hx
  rcases List.mem_append.mp hx with hx | hx
  · exact h x hx
  · obtain rfl := List.mem_singleton.mp hx
    exact he

theorem submit_adds {e : Event}
    (he : ∀ p, e.core.payload = .mlsCommit p → p.adds = [⟨member.1, member.2, r⟩]) :
    Adds (M := M) member r (submit T.recording e) :=
  fun _ hs => ⟨hs.snoc he, by simp [submit]⟩

theorem advance_adds {e : Event} : Adds (M := M) (σ := σ) member r (advance K e) :=
  fun _ hs => ⟨hs, by simp [advance]⟩

theorem refusal_ne {rateLimited : Bool} {err : TransportError} {epoch : ℕ} :
    refusal rateLimited err epoch ≠ noPackages := by
  unfold refusal noPackages
  split_ifs
  · simp
  · simp
  · cases err <;> simp

theorem submitCommit_adds {rateLimited : Bool} {e : Event}
    (he : ∀ p, e.core.payload = .mlsCommit p → p.adds = [⟨member.1, member.2, r⟩]) :
    Adds (M := M) member r (submitCommit K T.recording rateLimited e) := by
  refine (submit_adds he).bind fun answer => ?_
  cases answer with
  | ok accepted => exact advance_adds.bind fun _ => Adds.pure accepted
  | error err => exact Adds.get_bind fun _ => Adds.fail refusal_ne

theorem submitNext_adds {e : Event} (he : ∀ p, e.core.payload ≠ .mlsCommit p) :
    Adds (M := M) member r (submitNext K T.recording e) := by
  refine (submit_adds fun p hp => absurd hp (he p)).bind fun answer => ?_
  cases answer with
  | ok accepted => exact advance_adds.bind fun _ => Adds.pure accepted
  | error err => exact Adds.fail (by simp [noPackages])

variable (K actor) in
theorem addMember_adds (ctx : CommitContext) {session : Session M σ} {events : List Event}
    {e : Event} {p : MlsKeyPackagePublished}
    (hserved : (T.fetchKeyPackages member session.world).1 = .ok (events.map some))
    (hlast : events.getLast? = some e) (hp : e.core.payload = .mlsKeyPackagePublished p) :
    let run := addMember K T.recording actor ctx member session.recorded
    Cites member (e.hash K) run.2.world.2 ∧ run.1 ≠ .error noPackages := by
  have hfetch : fetchKeyPackages (M := M) T.recording member session.recorded =
      (.ok (events.map some), ⟨session.chain, session.group,
        ((T.fetchKeyPackages member session.world).2, [])⟩) := by
    simp only [fetchKeyPackages, Transport.recording, Session.recorded, hserved]
    rfl
  have hnone : Cites member (e.hash K) ([] : Log) := fun x hx => absurd hx List.not_mem_nil
  simp only [addMember]
  rw [Prog.bind_of_ok hfetch, Prog.run_bind, Prog.run_ofExcept]
  rcases hnewest : newestKeyPackage (M := M) K member (events.map some) with err | ⟨kp, hash⟩
  · refine ⟨hnone, ?_⟩
    have hfound := newestKeyPackage_found K M member hlast hp
    rw [hnewest] at hfound
    simpa using hfound
  obtain rfl := newestKeyPackage_served hlast hp hnewest
  refine Adds.bind ?_ ?_ _ hnone
  · exact Adds.onGroup
  intro outcome
  refine (Adds.ofOption _ (by simp [noPackages])).bind fun welcome => ?_
  refine Adds.get_bind fun _ => Adds.bind ?_ fun head => ?_
  · exact Adds.get_bind fun _ => Adds.ofOption _ (by simp [noPackages])
  refine Adds.nextEvent_bind fun _ => ?_
  refine (submitCommit_adds ?_).bind fun accepted => ?_
  · intro commit hcommit
    obtain rfl := EventPayload.mlsCommit.inj hcommit
    rfl
  refine Adds.bind ?_ fun _ => Adds.get_bind fun _ => Adds.pure _
  exact Adds.nextEvent_bind fun _ => submitNext_adds fun _ h => by cases h

end Submitted

/-! ## Exactly when a live KeyPackage is found -/

/-- A library in which everything succeeds; a group is its epoch. -/
def willing (member : Leaf) : OpenMls where
  Group := ℕ
  Staged := ℕ
  Message := Unit
  KeyPackage := Unit
  Keys := Unit
  newGroup _ _ := some 0
  groupId _ := ""
  epoch g := g
  epochAuthenticator _ := 0
  exportTreeHash _ := some 0
  members _ := []
  addMembers g _ := some ⟨(), some (), g + 1⟩
  removeMembers g _ := some ⟨(), none, g + 1⟩
  selfUpdate g := some ⟨(), none, g + 1⟩
  stagedAdds _ := [⟨some member, []⟩]
  stagedRemoves _ := []
  stagedTreeHash _ := 0
  stagedEpoch staged := staged
  merge _ staged := some staged
  processMessage g _ := (none, g)
  createMessage g _ := (none, g)
  toBytes _ := some []
  noKeys := ()
  generateKeyPackage _ _ := none
  readKeyPackage _ := some ()
  keyPackageLeaf _ := ⟨some member, []⟩
  stageWelcome _ _ := none

/-- A server that serves these events and takes all that is submitted. -/
def still (events : List Event) : Transport Unit where
  now _ := 0
  submitEvent _ w := (.ok ⟨"", 0⟩, w)
  fetchMlsControl _ _ w := (.ok ⟨[], 0, false⟩, w)
  fetchKeyPackages member w := (served member events, w)
  fetchDeviceCerts _ w := (.ok [], w)

def steward (member : Leaf) : Session (willing member) Unit :=
  ⟨⟨0, some "", 0⟩, ⟨(0 : ℕ), 0⟩, ()⟩

theorem cited_of_still {K : Crypto} {member : Leaf} {events : List Event} {e : Event}
    {p : MlsKeyPackagePublished} (hlast : (keyPackagesOf member events).getLast? = some e)
    (hp : e.core.payload = .mlsKeyPackagePublished p) {actor : Actor} {ctx : CommitContext}
    {r : EventRef}
    (h : Cites member r (addMember K (still events).recording actor ctx member
      (steward member).recorded).2.world.2) : r = e.hash K := by
  have hfetch : fetchKeyPackages (still events).recording member (steward member).recorded =
      (.ok ((keyPackagesOf member events).map some), (steward member).recorded) := rfl
  have hnewest : newestKeyPackage (M := willing member) K member
      ((keyPackagesOf member events).map some) = .ok ((), e.hash K) := by
    simp [newestKeyPackage, List.getLast?_map, hlast, hp, bind, Except.bind, willing, pure,
      Except.pure]
  rw [addMember, Prog.bind_of_ok hfetch, Prog.run_bind, Prog.run_ofExcept, hnewest] at h
  have hadds : [(⟨member.1, member.2, e.hash K⟩ : DeclaredAdd)] = [⟨member.1, member.2, r⟩] :=
    h _ (List.Mem.head _) _ rfl
  simpa using hadds.symm

section Found

variable {K : Crypto} {g : Genesis} {s : LogState} {tr : List (Transition LogState Event)}
  {member : Leaf}

theorem findsLive_of_lastServed {events : List Event} (h : LastServedLive K s member events) :
    FindsLive K s member events := by
  obtain ⟨e, hlast, hlive⟩ := h
  obtain ⟨hmem, -, p, hp⟩ := mem_of_served (List.mem_of_getLast? hlast)
  constructor
  · intro M σ T actor ctx session hserved
    obtain ⟨hcites, hne⟩ := addMember_adds K actor ctx hserved hlast hp
    exact ⟨⟨_, hlive, hcites⟩, hne⟩
  · intro M σ T session hserved
    have hchosen := resetKeyPackage_served (M := M) member hlast hp
    have hfetched : (fetchResetPackage T member session).1 =
        resetKeyPackage member ((keyPackagesOf member events).map some) := by
      simp [fetchResetPackage, fetchKeyPackages, Prog.run_bind, hserved, served, Except.mapError]
    rw [hfetched]
    split at hchosen
    · exact ⟨e, hmem, p, hp, hlive, hchosen⟩
    · exact hchosen

theorem lastServed_of_findsLive {events : List Event} {e : Event}
    (hlast : (keyPackagesOf member events).getLast? = some e)
    (h : FindsLive K s member events) : LivePackage s member (e.hash K) := by
  obtain ⟨-, -, p, hp⟩ := mem_of_served (List.mem_of_getLast? hlast)
  obtain ⟨⟨r, hr, hcites⟩, -⟩ := h.add (willing member) Unit (still _) ⟨⟨0⟩, ⟨0⟩, ""⟩
    ⟨⟨"", 0⟩, 0, 0⟩ (steward member) rfl
  obtain rfl := cited_of_still hlast hp hcites
  exact hr

/-- Of a device with a live KeyPackage the client finds one exactly when the last one that is
served is live. -/
theorem live_package_found (h : Run K g tr s) (hlive : ∃ r, LivePackage s member r) :
    FindsLive K s member (tr.map Transition.event) ↔
      LastServedLive K s member (tr.map Transition.event) := by
  refine ⟨fun hfinds => ?_, findsLive_of_lastServed⟩
  obtain ⟨r, hr⟩ := hlive
  obtain ⟨e, hlast⟩ := served_of_live h hr
  exact ⟨e, hlast, lastServed_of_findsLive hlast hfinds⟩

end Found

section Sample

open SampleLog

instance {s : LogState} {member : Leaf} {r : EventRef} : Decidable (LivePackage s member r) :=
  decidable_of_iff (∃ m ∈ s.keyPackages.lookup member, ∃ exp ∈ m.lookup r,
      s.logPos < exp ∧ r ∉ s.consumedKeyPackages) <| by
    constructor
    · rintro ⟨m, hm, exp, hexp, hlive⟩
      exact ⟨exp, ⟨m, hm, hexp⟩, hlive⟩
    · rintro ⟨exp, ⟨m, hm, hexp⟩, hlive⟩
      exact ⟨m, hm, exp, hexp, hlive⟩

def bobsDevice : Leaf := (SampleLog.key bob, device b0)

/-- Bob's device has published one KeyPackage, and a second one. -/
def another : Entry := ⟨bob, b0, 1, .mlsKeyPackagePublished ⟨[1], 0, 100⟩⟩

def published : List Entry := twoMembers.take 6 ++ [another]

def second : Event := SampleLog.nextEvent (signed (twoMembers.take 6)) another

def secondUsed : List Entry :=
  published ++ [⟨alice, a0, 2, commit 0 0 [⟨SampleLog.key bob, bobsDevice.2, ref bob b0 3⟩] []⟩]

abbrev steps (entries : List Entry) : List (Transition LogState Event) :=
  accepted crypto genesis (signed entries)

theorem live_package_found_published :
    FindsLive crypto (stateOf published) bobsDevice ((steps published).map Transition.event) :=
  (live_package_found (run_accepted (signed published))
    ⟨ref bob b0 2, by decide +kernel⟩).mpr ⟨second, by decide +kernel, by decide +kernel⟩

/-- The first one is live, and the client takes the second one. -/
theorem live_package_missed :
    Run crypto genesis (steps secondUsed) (stateOf secondUsed) ∧
      LivePackage (stateOf secondUsed) bobsDevice (ref bob b0 2) ∧
      ¬FindsLive crypto (stateOf secondUsed) bobsDevice
        ((steps secondUsed).map Transition.event) := by
  refine ⟨run_accepted _, by decide +kernel, fun h => ?_⟩
  have hlast : (keyPackagesOf bobsDevice ((steps secondUsed).map Transition.event)).getLast? =
      some second := by decide +kernel
  exact absurd (lastServed_of_findsLive hlast h) (by decide +kernel)

end Sample

end Client
