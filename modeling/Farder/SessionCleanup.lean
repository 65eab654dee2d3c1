import Farder.Server.Registries
import Farder.Server.SampleHub

/-! # The end of a superseded connection

The maps are torn down by identity, without a test of whose the entries are. So a newer
connection keeps what it has entered as long as it enters it after the older one has dropped it,
and as long as no version of the older one is left to it. -/
namespace Server

open EventLog Guarded Permissions

variable {K : Crypto} {hub : Hub} {older newer : ℕ} {c c₀ : Connection} {e : Entries}
  {a b : List (Transition Hub HubOp)} {x : Transition Hub HubOp} {host : Host} {r : Registry}

/-! ## A connection and one that supersedes it -/

/-- In the run `a ++ x :: b`, the step `x` registers the connection `c` of a task; the older
connection `c₀` of the same member has registered before, and has ended when the run does. -/
structure Superseded (K : Crypto) (host : Host) (older newer : ℕ) (c₀ c : Connection)
    (a : List (Transition Hub HubOp)) (x : Transition Hub HubOp)
    (b : List (Transition Hub HubOp)) (hub : Hub) : Prop where
  run : HubRun K (.start host) (a ++ x :: b) hub
  event : x.event = .act newer
  registers : (x.pre.duties newer).head? = some (.register c.member)
  seated : x.pre.connections older = some c₀
  same : c₀.member = c.member
  entered : x.pre.registrations older = []
  failed : ∃ y ∈ a ++ x :: b, y.event = .fail older
  ended : hub.duties older = []

/-- The entries that there would be if what the older connection does after the step `x` were
done before it. -/
def movedEntries (older : ℕ) (c : Connection) (x : Transition Hub HubOp)
    (b : List (Transition Hub HubOp)) : Entries :=
  Execution.replay (enact c) (b.filter fun y => !own older y)
    (enact c x (Execution.replay (enact c) (b.filter (own older)) (x.pre.entriesOf c)))

/-- Nothing is entered by others before the older connection drops it, and no version of the
older connection is left to the newer one. -/
structure KeepsApart (older : ℕ) (c : Connection) (x : Transition Hub HubOp)
    (b : List (Transition Hub HubOp)) : Prop where
  registries : ∀ r : Registry, b.Pairwise fun y z =>
    own older z = true → r.drops c z = true → own older y = true ∨ r.writes c y = false
  version : (∀ y ∈ b, dropsClient older c y = false) ∨
    (x.pre.host.clientProtocol.lookup c.member = none ∧ ∀ y ∈ b, speaks older y = false) ∨
    ∃ b₁ y b₂ other, b = b₁ ++ y :: b₂ ∧ other ≠ older ∧ speaks other y = true ∧
      y.pre.memberOf other = some c.member ∧ ∀ z ∈ b₂, speaks older z = false

namespace Superseded

variable (h : Superseded K host older newer c₀ c a x b hub)
include h

theorem steps : HubStep K x.pre x.event x.post ∧ HubRun K x.post b hub := h.run.split_at.2

theorem enacted {y : Transition Hub HubOp} (hy : y ∈ b) :
    y.post.entriesOf c = enact c y (y.pre.entriesOf c) :=
  effect_step (h.steps.2.step_of_mem hy)

theorem not_writes : r.writes c x = false := by
  simp only [Registry.writes, h.event, h.registers, Option.any_some]
  cases r <;> rfl

theorem torn : ∃ (p q : List (Transition Hub HubOp)) (y : Transition Hub HubOp)
    (c₁ : Connection), a ++ x :: b = p ++ y :: q ∧ y.event = .fail older ∧
      c₁.member = c.member ∧ c₁.handle = c₀.handle ∧ (∀ z ∈ q, z.pre.Ended older) ∧
      ∀ duty ∈ c₁.teardown, ∃ z ∈ q, z.event = .act older ∧
        (z.pre.duties older).head? = some duty := by
  obtain ⟨y, hy, hfail⟩ := h.failed
  obtain ⟨p, q, hsplit⟩ := List.append_of_mem hy
  have hrun := h.run
  rw [hsplit] at hrun
  obtain ⟨hp, hfails, hq⟩ := hrun.split_at
  have hkept : ∀ {s t : Hub} {l : List (Transition Hub HubOp)} {seat}, HubRun K s l t →
      s.seatOf older = some seat → t.seatOf older = some seat := fun hrun hseat =>
    hrun.invariant (I := fun s => s.seatOf older = some _) hseat fun _ _ _ hseat hstep =>
      seat_step hstep hseat
  obtain ⟨hended, c₁, hc₁, hduties⟩ := ended_of_fail (hfail ▸ hfails)
  have hseat : hub.seatOf older = some (c.member, c₀.handle) :=
    hkept ((Execution.single h.steps.1).trans h.steps.2) (by
      rw [Hub.seatOf, h.seated, ← h.same]; rfl)
  have hseat₁ : hub.seatOf older = some (c₁.member, c₁.handle) :=
    hkept ((Execution.single hfails).trans hq) (by rw [Hub.seatOf, hc₁]; rfl)
  rw [hseat, Option.some.injEq, Prod.mk.injEq] at hseat₁
  have hall := hq.kept (Q := fun s => s.Ended older) hended
    fun z _ hstep hended => (ended_step hended hstep).1
  refine ⟨p, q, y, c₁, hsplit, hfail, hseat₁.1.symm, hseat₁.2.symm, fun z hz => (hall z hz).1,
    fun duty hduty => ?_⟩
  have hcommand := command_of_isTeardown (teardown_isTeardown duty hduty)
  have hdone := done_of_run hq hcommand (hduties.symm ▸ hduty) fun z hz hfail =>
    absurd hfail (ended_step (hall z hz).1 (hq.step_of_mem hz)).2.1
  exact hdone.resolve_left (by rw [h.ended]; exact List.not_mem_nil)

theorem agree_of_idle (hidle : ∀ y ∈ b, own older y = true →
      r.writes c y = false ∧ r.drops c y = false) :
    r.Agree (movedEntries older c x b) (hub.entriesOf c) := by
  obtain ⟨hstep, hb⟩ := h.steps
  have hmoved : r.Agree (Execution.replay (enact c) (b.filter (own older)) (x.pre.entriesOf c))
      (x.pre.entriesOf c) := by
    refine Execution.replay_keeps (P := fun v => r.Agree v (x.pre.entriesOf c))
      (fun y hy v hv => ?_) agree_refl
    obtain ⟨hy, hown⟩ := List.mem_filter.mp hy
    obtain ⟨hwrites, hdrops⟩ := hidle y hy hown
    exact agree_trans (agree_symm (enact_own hown hwrites hdrops)) hv
  have hstart : r.Agree (enact c x (Execution.replay (enact c) (b.filter (own older))
      (x.pre.entriesOf c))) (x.post.entriesOf c) := by
    rw [effect_step hstep]
    exact enact_congr hmoved
  refine hb.replay_agrees (f := fun s => s.entriesOf c) (g := enact c)
    (R := fun v v' => r.Agree v v') hstart (fun y hy => h.enacted hy)
    (fun y _ _ _ => enact_congr) fun y hy hown v hv => ?_
  obtain ⟨hwrites, hdrops⟩ := hidle y hy hown
  exact agree_trans hv (enact_own hown hwrites hdrops)

/-- What the older connection drops before others enter it is as it would be. -/
theorem agree_of_dropped {z : Transition Hub HubOp} {b₁ b₂ : List (Transition Hub HubOp)}
    (hb : b = b₁ ++ z :: b₂) (hown : own older z = true) (hdrops : r.drops c z = true)
    (hbefore : ∀ y ∈ b₁, own older y = true ∨ r.writes c y = false)
    (hafter : ∀ y ∈ b₂, own older y = true → r.writes c y = false ∧ r.drops c y = false) :
    r.Agree (movedEntries older c x b) (hub.entriesOf c) := by
  obtain ⟨hstep, hrun⟩ := h.steps
  rw [hb] at hrun
  obtain ⟨-, hz, hrun⟩ := hrun.split_at
  have hmoved : r.Cleared (Execution.replay (enact c) (b.filter (own older))
      (x.pre.entriesOf c)) := by
    rw [hb, List.filter_append, List.filter_cons_of_pos hown, Execution.replay_append,
      Execution.replay_cons]
    refine Execution.replay_keeps (P := r.Cleared) (fun y hy v hv => ?_) (enact_drops hdrops)
    obtain ⟨hy, hown⟩ := List.mem_filter.mp hy
    exact enact_cleared (hafter y hy hown).1 hv
  have hbetween : r.Cleared (Execution.replay (enact c) (b₁.filter fun y => !own older y)
      (enact c x (Execution.replay (enact c) (b.filter (own older)) (x.pre.entriesOf c)))) := by
    refine Execution.replay_keeps (P := r.Cleared) (fun y hy v hv => ?_)
      (enact_cleared h.not_writes hmoved)
    obtain ⟨hy, hother⟩ := List.mem_filter.mp hy
    exact enact_cleared ((hbefore y hy).resolve_left (by simpa using hother)) hv
  have hdropped : r.Cleared (z.post.entriesOf c) := by
    rw [effect_step hz]
    exact enact_drops hdrops
  unfold movedEntries
  rw [hb] at hbetween ⊢
  rw [List.filter_append, List.filter_cons_of_neg (by simp [hown]), Execution.replay_append]
  refine hrun.replay_agrees (f := fun s => s.entriesOf c) (g := enact c)
    (R := fun v v' => r.Agree v v') (agree_of_cleared hbetween hdropped)
    (fun y hy => h.enacted (by simp [hb, hy])) (fun y _ _ _ => enact_congr)
    fun y hy hown v hv => ?_
  obtain ⟨hwrites, hdrops⟩ := hafter y hy hown
  exact agree_trans hv (enact_own hown hwrites hdrops)

theorem ne : newer ≠ older := by
  rintro rfl
  obtain ⟨rest, hduties⟩ := List.head?_eq_some_iff.mp h.registers
  have hnone := h.entered
  simp [Hub.registrations, hduties, Duty.isRegister] at hnone

/-- Without a common handle, the older connection leaves that of the newer one alone. -/
theorem idle_handle (hhandle : c.handle = none ∨ c₀.handle ≠ c.handle) :
    ∀ y ∈ b, own older y = true → Registry.relayVoiceHandles.writes c y = false ∧
      Registry.relayVoiceHandles.drops c y = false := by
  intro y hy hown
  obtain ⟨b₁, b₂, rfl⟩ := List.append_of_mem hy
  have hrun := h.run
  rw [← List.cons_append, ← List.append_assoc] at hrun
  obtain ⟨hpre, hstep, -⟩ := hrun.split_at
  have hkept : y.pre.seatOf older = some (c₀.member, c₀.handle) :=
    (h.steps.2.split_at.1).invariant (I := fun s => s.seatOf older = some (c₀.member, c₀.handle))
      (seat_step h.steps.1 (by rw [Hub.seatOf, h.seated]; rfl))
      fun _ _ _ hseat hstep => seat_step hstep hseat
  have hother : ∀ duty n, (y.pre.duties older).head? = some duty → duty.handleOf = some n →
      c.handle ≠ some n := by
    rintro duty n hhead hn hc
    obtain ⟨member, hseat⟩ := ownHandles_of_run hpre older duty (List.mem_of_head? hhead) n hn
    rw [hkept, Option.some.injEq, Prod.mk.injEq] at hseat
    rcases hhandle with hnone | hne
    · exact absurd hc (by simp [hnone])
    · exact hne (hseat.2.trans hc.symm)
  unfold own at hown
  split at hown
  · next asker _ request hevent =>
    refine ⟨?_, by simp [Registry.drops, hevent]⟩
    simp only [Registry.writes, hevent]
    cases request <;> simp
  · next actor hevent =>
    simp only [decide_eq_true_eq] at hown
    obtain ⟨rfl, -⟩ := hown
    simp only [Registry.writes, Registry.drops, hevent]
    cases hhead : (y.pre.duties actor).head? with
    | none => simp
    | some duty =>
      simp only [Option.any_some]
      cases duty <;> simp only [Registry.writtenBy, Registry.droppedBy, true_and, and_true] <;>
        simpa using hother _ _ hhead rfl
  · exact absurd hown (by simp)

omit h in
/-- Apart from a handle that the newer one does not have, the end of the older connection drops
what the maps hold under its identity. -/
theorem teardown_drops {c₁ : Connection} (hmember : c₁.member = c.member)
    (hhandle : c₁.handle = c₀.handle) :
    (r = .relayVoiceHandles ∧ (c.handle = none ∨ c₀.handle ≠ c.handle)) ∨
      ∃ duty ∈ c₁.teardown, r.droppedBy c duty = true := by
  cases r with
  | voiceConnections =>
    exact .inr ⟨.dropVoice c₁.member, by simp [Connection.teardown],
      by simp [Registry.droppedBy, hmember]⟩
  | relayVoiceHandles =>
    by_cases hne : c.handle = none ∨ c₀.handle ≠ c.handle
    · exact .inl ⟨rfl, hne⟩
    · simp only [not_or, not_not] at hne
      obtain ⟨n, hn⟩ := Option.ne_none_iff_exists'.mp hne.1
      refine .inr ⟨.dropHandle n, ?_, by simp [Registry.droppedBy, hn]⟩
      simp [Connection.teardown, hhandle, hne.2, hn]
  | subscriptions =>
    exact .inr ⟨.dropSubscriptions c₁.member, by simp [Connection.teardown, cleanupSession],
      by simp [Registry.droppedBy, hmember]⟩
  | presences =>
    exact .inr ⟨.dropPresence c₁.member, by simp [Connection.teardown, cleanupSession],
      by simp [Registry.droppedBy, hmember]⟩

omit h in
theorem own_of_drops (hevent : x.event = .act older) (hdrops : r.drops c x = true) :
    own older x = true := by
  simp only [Registry.drops, hevent] at hdrops
  obtain ⟨duty, hduty, hdrops⟩ := any_eq_some.mp hdrops
  simp only [own, hevent, hduty, Option.any_some]
  cases duty <;> cases r <;> simp_all [Registry.droppedBy, Duty.isSweep]

omit h in
theorem not_writes_of_ended {y : Transition Hub HubOp} (hended : y.pre.Ended older)
    (hstep : HubStep K y.pre y.event y.post) (hown : own older y = true) :
    r.writes c y = false := by
  unfold own at hown
  split at hown
  · next asker moment request hevent =>
    obtain rfl := of_decide_eq_true hown
    exact absurd hevent ((ended_step hended hstep).2.2 moment request)
  · next actor hevent =>
    simp only [decide_eq_true_eq] at hown
    obtain ⟨rfl, -⟩ := hown
    simp only [Registry.writes, hevent]
    cases hhead : (y.pre.duties actor).head? with
    | none => rfl
    | some duty =>
      have hteardown := hended.teardown duty (List.mem_of_head? hhead)
      rw [Option.any_some]
      cases duty <;> cases r <;> first | rfl | exact absurd hteardown (by simp [Duty.isTeardown])
  · exact absurd hown (by simp)

theorem agree (hkeeps : KeepsApart older c x b) :
    r.Agree (movedEntries older c x b) (hub.entriesOf c) := by
  obtain ⟨p, q, y, c₁, hsplit, hfail, hmember, hhandle, hended, hdone⟩ := h.torn
  rcases teardown_drops (r := r) hmember hhandle with ⟨rfl, hhandle⟩ | ⟨duty, hduty, hdrops⟩
  · exact h.agree_of_idle (h.idle_handle hhandle)
  obtain ⟨z, hz, hevent, hhead⟩ := hdone duty hduty
  have hz' : r.drops c z = true := by
    simp only [Registry.drops, hevent, hhead, Option.any_some, hdrops]
  -- the last step by which the older connection drops what it has in the map
  obtain ⟨q₁, z, q₂, rfl, hz, hlast⟩ := Execution.exists_last
    (p := fun z => own older z && r.drops c z)
    ⟨z, hz, by rw [own_of_drops hevent hz', hz', Bool.and_true]⟩
  rw [Bool.and_eq_true] at hz
  have hq : ∀ w ∈ q₂, own older w = true → r.writes c w = false ∧ r.drops c w = false := by
    intro w hw hown
    refine ⟨not_writes_of_ended (hended w (by simp [hw])) (h.run.step_of_mem ?_) hown, ?_⟩
    · rw [hsplit]
      simp [hw]
    · simpa [hown] using hlast w hw
  have hposition : a ++ x :: b = (p ++ y :: q₁) ++ z :: q₂ := by rw [hsplit]; simp
  rcases Execution.append_cons_cases hposition with ⟨d, rfl⟩ | ⟨rfl, -⟩ | ⟨d, rfl⟩
  · refine h.agree_of_dropped rfl hz.1 hz.2 (fun w hw => ?_) hq
    exact (List.pairwise_append.mp (hkeeps.registries r)).2.2 w hw z List.mem_cons_self hz.1 hz.2
  · have hown := hz.1
    simp only [own, h.event, decide_eq_true_eq] at hown
    exact absurd hown.1 h.ne
  · exact h.agree_of_idle fun w hw => hq w (by simp [hw])

/-! ### The entry of the client, and its version -/

theorem enact_registers : enact c x e = { e with client := some newer } := by
  simp only [enact, HubOp.effect, h.event, h.registers, Option.map_some, Option.getD_some,
    Duty.effect, if_true]

/-- The older connection neither registers again, nor does it get its entry back. -/
theorem past {y : Transition Hub HubOp} (hy : y ∈ b) :
    y.pre.registrations older = [] ∧ y.pre.clients.lookup c.member ≠ some older := by
  obtain ⟨hstep, hb⟩ := h.steps
  have hmember : x.pre.memberOf older = some c.member := by
    rw [Hub.memberOf, h.seated, ← h.same]
    rfl
  obtain ⟨hmember, hregisters⟩ := entered_step hstep hmember
  have hclient : x.post.clients.lookup c.member = some newer := by
    have hentries := congrArg Entries.client (effect_step (c := c) hstep)
    exact hentries.trans (congrArg Entries.client h.enact_registers)
  have hall := hb.kept (Q := fun s => s.memberOf older = some c.member ∧
      s.registrations older = [] ∧ s.clients.lookup c.member ≠ some older)
    ⟨hmember, List.sublist_nil.mp (h.entered ▸ hregisters), by
      rw [hclient, ne_eq, Option.some.injEq]
      exact h.ne⟩
    fun y _ hstep hbefore => by
      obtain ⟨hmember, hnone, hother⟩ := hbefore
      obtain ⟨hmember, hregisters⟩ := entered_step hstep hmember
      refine ⟨hmember, List.sublist_nil.mp (hnone ▸ hregisters), fun hback => ?_⟩
      rcases clients_step hstep hback with hback | ⟨rest, -, hduties⟩
      · exact hother hback
      · simp [Hub.registrations, hduties, Duty.isRegister] at hnone
  exact (hall y hy).1.2

theorem client_of_run {s t : Hub} {l : List (Transition Hub HubOp)} (hrun : HubRun K s l t)
    (hl : ∀ z ∈ l, z ∈ b) (hclient : e.client = (s.entriesOf c).client) :
    (Execution.replay (enact c) (l.filter fun z => !own older z) e).client =
      (t.entriesOf c).client := by
  refine hrun.replay_agrees (f := fun s => s.entriesOf c) (g := enact c)
    (R := fun v v' => v.client = v'.client) hclient (fun z hz => h.enacted (hl z hz))
    (fun z _ v v' hv => (slot_congr hv).1) fun z hz hown v hv => ?_
  obtain ⟨hnone, hother⟩ := h.past (hl z hz)
  exact hv.trans (own_slot hown hnone (.inr hother)).1.symm

theorem version_of_run {s : Hub} {l : List (Transition Hub HubOp)} (hrun : HubRun K s l hub)
    (hl : ∀ z ∈ l, z ∈ b) (hclient : e.client = (s.entriesOf c).client)
    (hversion : e.version = (s.entriesOf c).version)
    (hspeaks : ∀ z ∈ l, speaks older z = false) :
    (Execution.replay (enact c) (l.filter fun z => !own older z) e).version =
      (hub.entriesOf c).version := by
  refine And.right (hrun.replay_agrees (f := fun s => s.entriesOf c) (g := enact c)
    (R := fun v v' => v.client = v'.client ∧ v.version = v'.version) ⟨hclient, hversion⟩
    (fun z hz => h.enacted (hl z hz))
    (fun z _ v v' hv => ⟨(slot_congr hv.1).1, (slot_congr hv.1).2 hv.2⟩) fun z hz hown v hv => ?_)
  obtain ⟨hnone, hother⟩ := h.past (hl z hz)
  obtain ⟨hclient, hversion⟩ := @own_slot older c (z.pre.entriesOf c) z hown hnone (.inr hother)
  exact ⟨hv.1.trans hclient.symm, hv.2.trans (hversion (hspeaks z hz)).symm⟩

theorem entries_after : x.post.entriesOf c = { x.pre.entriesOf c with client := some newer } := by
  rw [← h.enact_registers]
  exact effect_step h.steps.1

theorem agree_client : (movedEntries older c x b).client = (hub.entriesOf c).client := by
  refine h.client_of_run h.steps.2 (fun _ => id) ?_
  rw [h.entries_after, h.enact_registers]

omit h in
theorem not_speaks_of_ended {y : Transition Hub HubOp} (hended : y.pre.Ended older)
    (hstep : HubStep K y.pre y.event y.post) : speaks older y = false := by
  unfold speaks
  split
  · next asker moment _ hevent =>
    rw [decide_eq_false_iff_not]
    rintro rfl
    exact (ended_step hended hstep).2.2 moment _ hevent
  · rfl

/-- The entry of the older connection was dropped before the newer one registered. -/
theorem version_of_dropped (hdropped : ∀ y ∈ b, dropsClient older c y = false) :
    (movedEntries older c x b).version = (hub.entriesOf c).version := by
  obtain ⟨p, q, y, c₁, hsplit, hfail, hmember, hhandle, hended, hdone⟩ := h.torn
  obtain ⟨z, hz, hevent, hhead⟩ := hdone (.dropClient c₁.member) (by
    simp [Connection.teardown, cleanupSession])
  obtain ⟨q₁, q₂, rfl⟩ := List.append_of_mem hz
  have hspeaks : ∀ w ∈ b, speaks older w = false := by
    have hposition : a ++ x :: b = (p ++ y :: q₁) ++ z :: q₂ := by rw [hsplit]; simp
    rcases Execution.append_cons_cases hposition with ⟨d, rfl⟩ | ⟨rfl, -⟩ | ⟨d, rfl⟩
    · have hz := hdropped z (by simp)
      simp [dropsClient, hevent, hhead, hmember] at hz
    · exact absurd (HubOp.act.inj (h.event.symm.trans hevent)) h.ne
    · exact fun w hw => not_speaks_of_ended (hended w (by simp [hw]))
        (h.steps.2.step_of_mem hw)
  refine h.version_of_run h.steps.2 (fun _ => id) ?_ ?_ hspeaks
  · rw [h.entries_after, h.enact_registers]
  · rw [h.entries_after, h.enact_registers]
    refine Execution.replay_keeps (P := fun v : Entries => v.version = (x.pre.entriesOf c).version)
      (fun w hw v hv => ?_) rfl
    obtain ⟨hw, hown⟩ := List.mem_filter.mp hw
    exact ((own_slot hown (h.past hw).1 (.inl (hdropped w hw))).2 (hspeaks w hw)).trans hv

theorem version_of_none (hnone : x.pre.host.clientProtocol.lookup c.member = none)
    (hspeaks : ∀ y ∈ b, speaks older y = false) :
    (movedEntries older c x b).version = (hub.entriesOf c).version := by
  refine h.version_of_run h.steps.2 (fun _ => id) ?_ ?_ hspeaks
  · rw [h.entries_after, h.enact_registers]
  · rw [h.entries_after, h.enact_registers]
    have hmoved : (Execution.replay (enact c) (b.filter (own older))
        (x.pre.entriesOf c)).version = none := by
      refine Execution.replay_keeps (P := fun v : Entries => v.version = none)
        (fun w hw v hv => ?_) hnone
      obtain ⟨hw, hown⟩ := List.mem_filter.mp hw
      cases hdrops : dropsClient older c w with
      | false => exact ((own_slot hown (h.past hw).1 (.inl hdrops)).2 (hspeaks w hw)).trans hv
      | true => exact version_none_of_drops hdrops hv
    exact hmoved.trans hnone.symm

theorem version_of_newer {b₁ b₂ : List (Transition Hub HubOp)} {y : Transition Hub HubOp}
    {other : ℕ} (hb : b = b₁ ++ y :: b₂) (hother : other ≠ older) (hy : speaks other y = true)
    (hmember : y.pre.memberOf other = some c.member) (hspeaks : ∀ z ∈ b₂, speaks older z = false) :
    (movedEntries older c x b).version = (hub.entriesOf c).version := by
  have hrun := h.steps.2
  rw [hb] at hrun
  obtain ⟨hrun₁, hstep, hrun₂⟩ := hrun.split_at
  obtain ⟨clientVersion, hversion⟩ := enact_speaks hy hmember
  have hown : own older y = false := own_of_speaks hother hy
  have hclient := h.client_of_run
    (e := enact c x (Execution.replay (enact c) (b.filter (own older)) (x.pre.entriesOf c)))
    hrun₁ (fun z hz => by simp [hb, hz]) (by rw [h.entries_after, h.enact_registers])
  have hpost : y.post.entriesOf c = enact c y (y.pre.entriesOf c) := effect_step hstep
  unfold movedEntries
  rw [hb] at hclient ⊢
  rw [List.filter_append, List.filter_cons_of_pos (by simp [hown]), Execution.replay_append,
    Execution.replay_cons]
  refine h.version_of_run hrun₂ (fun z hz => by simp [hb, hz]) ?_ ?_ hspeaks
  · rw [hpost]
    exact (slot_congr hclient).1
  · rw [hpost, hversion, hversion]

theorem agree_version (hkeeps : KeepsApart older c x b) :
    (movedEntries older c x b).version = (hub.entriesOf c).version := by
  rcases hkeeps.version with hdropped | ⟨hnone, hspeaks⟩ |
    ⟨b₁, y, b₂, other, hb, hother, hy, hmember, hspeaks⟩
  · exact h.version_of_dropped hdropped
  · exact h.version_of_none hnone hspeaks
  · exact h.version_of_newer hb hother hy hmember hspeaks

end Superseded

/-- When the older connection has ended, a newer one has what it would have if the older one had
ended before, in every run that keeps them apart. -/
theorem superseded_cleanup (h : Superseded K host older newer c₀ c a x b hub)
    (hkeeps : KeepsApart older c x b) : hub.entriesOf c = movedEntries older c x b :=
  (Entries.ext h.agree_client (h.agree_version hkeeps) (h.agree (r := .subscriptions) hkeeps)
    (h.agree (r := .presences) hkeeps) (h.agree (r := .voiceConnections) hkeeps)
    (h.agree (r := .relayVoiceHandles) hkeeps)).symm

/-! ## Bob connects twice -/

open SampleLog SampleHost SampleHub

def bobs : Connection := ⟨key bob, false, none, true⟩

/-- Bob is connected, and a second connection of his is about to register. -/
def secondArrives : List HubOp :=
  connects 1 10 bob ++
    [.connect 2 (momentAt 12) (key bob) "member" ⟨none, none⟩ genesis none, .act 2]

def firstEnds : List HubOp := .fail 1 :: acts 1 10

def secondServed : List HubOp :=
  acts 2 4 ++ asks 2 13 (.subscribe [1]) 2 ++
    asks 2 14 (.updatePresence (some ⟨.music, "song", none⟩) false) 3

def registration : Transition Hub HubOp :=
  ⟨hubAfter secondArrives, .act 2, advance (hubAfter secondArrives) (.act 2)⟩

/-- What comes after the registration. -/
def afterwards (ops : List HubOp) : List (Transition Hub HubOp) :=
  Execution.path advance registration.post ops

theorem superseded_of_bob {ops : List HubOp}
    (henabled : ∀ x ∈ path (secondArrives ++ .act 2 :: ops), x.pre.Enabled crypto x.event)
    (hfails : .fail 1 ∈ ops) (hidle : (hubAfter (secondArrives ++ .act 2 :: ops)).duties 1 = []) :
    Superseded crypto (hostAfter joined) 1 2 bobs bobs (path secondArrives) registration
      (afterwards ops) (hubAfter (secondArrives ++ .act 2 :: ops)) where
  run := run_append henabled
  event := rfl
  registers := by decide +kernel
  seated := by decide +kernel
  same := rfl
  entered := by decide +kernel
  failed := by
    obtain ⟨x, hx, hevent⟩ :=
      Execution.exists_of_mem_path (g := advance) (s := registration.post) hfails
    exact ⟨x, by simp [afterwards, hx], hevent⟩
  ended := hidle

theorem superseded_cleanup_of_bob :
    (hubAfter (secondArrives ++ .act 2 :: (firstEnds ++ secondServed))).entriesOf bobs =
      movedEntries 1 bobs registration (afterwards (firstEnds ++ secondServed)) :=
  superseded_cleanup (superseded_of_bob (by decide +kernel) (by simp [firstEnds])
    (by decide +kernel))
    ⟨fun r => by cases r <;> decide +kernel, .inr (.inl ⟨by decide +kernel, by decide +kernel⟩)⟩

/-- The end of the first connection drops what the second one has entered. -/
theorem session_torn_down :
    Superseded crypto (hostAfter joined) 1 2 bobs bobs (path secondArrives) registration
        (afterwards (secondServed ++ firstEnds))
        (hubAfter (secondArrives ++ .act 2 :: (secondServed ++ firstEnds))) ∧
      (hubAfter (secondArrives ++ .act 2 :: (secondServed ++ firstEnds))).entriesOf bobs =
        ⟨some 2, none, ∅, none, none, none⟩ ∧
      movedEntries 1 bobs registration (afterwards (secondServed ++ firstEnds)) =
        ⟨some 2, none, {(1, key bob)}, some ⟨.music, "song", none⟩, some (.direct 2), none⟩ :=
  ⟨superseded_of_bob (by decide +kernel) (by simp [firstEnds]) (by decide +kernel),
    by decide +kernel, by decide +kernel⟩

end Server
