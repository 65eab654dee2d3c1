import Farder.Server.HubWiring
import Farder.Server.SampleHub
import Farder.Server.Versions
import Farder.Support.History

/-! # Versions of connections

The negotiated version is kept by identity, and the queues of events by connection. The two
agree exactly as long as no connection registers while its identity speaks the second version,
and none negotiates it while another connection of the identity is served which has not. -/
namespace Server

open EventLog Guarded Permissions

variable {K : Crypto} {host host' : Host} {member : PublicKey} {isOwner : Bool} {moment : Moment}

open Host

/-! ## Connections that are served as those of newer clients -/

/-- Does the task negotiate a version that knows the end-to-end encrypted channels? -/
def HubOp.negotiates (task : ℕ) : HubOp → Bool
  | .request asker _ (.server (.negotiateProtocol clientVersion)) =>
    asker = task ∧ minClientVersionForE2ee ≤ clientVersion
  | _ => false

def HasNegotiated (tr : List (Transition Hub HubOp)) (task : ℕ) : Prop :=
  ∃ x ∈ tr, x.event.negotiates task = true

instance {tr : List (Transition Hub HubOp)} {task : ℕ} : Decidable (HasNegotiated tr task) :=
  inferInstanceAs (Decidable (∃ x ∈ tr, _))

namespace Hub

variable (hub : Hub)

def TreatsAsV2 (task : ℕ) : Prop := ∃ pk, hub.served task = some pk ∧ hub.host.connectionSpeaksV2 pk

/-- No connection gets a version that another has negotiated. -/
def KeepsVersions (tr : List (Transition Hub HubOp)) : HubOp → Prop
  | .act task => ∀ pk c, (hub.duties task).head? = some (.register pk) →
      hub.connections task = some c → c.receiving → hub.host.connectionSpeaksV2 pk = false
  | .request task _ (.server (.negotiateProtocol clientVersion)) =>
    minClientVersionForE2ee ≤ clientVersion → ∀ other ≠ task, ∀ pk, hub.served task = some pk →
      hub.served other = some pk → HasNegotiated tr other
  | _ => True

end Hub

variable {hub hub' : Hub} {tr : List (Transition Hub HubOp)} {op : HubOp} {task other : ℕ}
  {pk : PublicKey}

/-! ## When the version of an identity is recorded -/

theorem speaksV2_congr (h : host.KeepsProtocol host') :
    host'.connectionSpeaksV2 pk = host.connectionSpeaksV2 pk := by
  unfold connectionSpeaksV2 connectionProtocolVersion
  rw [h]

theorem speaksV2_negotiateProtocol {clientVersion : ℕ} :
    (host.negotiateProtocol member clientVersion).1.connectionSpeaksV2 pk =
      if pk = member then decide (minClientVersionForE2ee ≤ clientVersion)
      else host.connectionSpeaksV2 pk := by
  have hversion : (host.negotiateProtocol member clientVersion).1.connectionProtocolVersion pk =
      if pk = member then clientVersion else host.connectionProtocolVersion pk := by
    unfold negotiateProtocol connectionProtocolVersion
    rw [FiniteMap.lookup_insert_eq]
    split_ifs <;> rfl
  simp only [connectionSpeaksV2, hversion]
  split_ifs <;> rfl

theorem carryOut_speaksV2 {duty : Duty}
    (h : (hub.carryOut task duty).1.host.connectionSpeaksV2 pk = true) :
    hub.host.connectionSpeaksV2 pk = true := by
  cases duty with
  | dropClient member =>
    simp only [Hub.carryOut, Hub.dropClient] at h
    split_ifs at h
    · simp only [connectionSpeaksV2, connectionProtocolVersion, FiniteMap.lookup_erase_eq] at h
      split_ifs at h
      · exact absurd h (by decide)
      · exact h
    · exact h
  | _ => exact h

/-- A request that is not a negotiation records no version; a negotiation records that of the
member whose request it is. -/
theorem handle_speaksV2 {request : SessionRequest}
    (h : (hub.handle K member isOwner moment request).1.host.connectionSpeaksV2 pk = true) :
    hub.host.connectionSpeaksV2 pk = true ∨
      (HubOp.request task moment request).negotiates task = true ∧ member = pk := by
  cases request with
  | server request =>
    simp only [Hub.handle] at h
    by_cases hnegotiates : ∃ clientVersion, request = .negotiateProtocol clientVersion
    · obtain ⟨clientVersion, rfl⟩ := hnegotiates
      have h : (hub.host.negotiateProtocol member clientVersion).1.connectionSpeaksV2 pk = true :=
        h
      rw [speaksV2_negotiateProtocol] at h
      split_ifs at h with hpk
      · exact .inr ⟨by simpa [HubOp.negotiates] using h, hpk.symm⟩
      · exact .inl h
    · refine .inl ?_
      have hkept : hub.host.KeepsProtocol
          (hub.host.perform K moment (.request member isOwner request)).1 :=
        perform_protocol fun _ _ clientVersion heq =>
          hnegotiates ⟨clientVersion, (HostOp.request.inj heq).2.2⟩
      exact speaksV2_congr hkept ▸ h
  | _ =>
    simp only [Hub.handle] at h
    split at h
    · exact .inl h
    · rw [handleStream_host] at h
      exact .inl h

theorem speaksV2_step (hstep : HubStep K hub op hub')
    (h : hub'.host.connectionSpeaksV2 pk = true) :
    hub.host.connectionSpeaksV2 pk = true ∨ ∃ task, op.negotiates task = true ∧
      hub.served task = some pk := by
  obtain ⟨henabled, rfl⟩ := hstep
  cases op with
  | connect new moment member displayName credentials genesis handle =>
    exact .inl (speaksV2_congr handshake_sessions.protocol ▸ h)
  | request task moment request =>
    obtain ⟨c, hc, hreceiving, hidle⟩ := enabled_request henabled
    have hserved : hub.served task = some c.member :=
      served_eq_some.mpr ⟨c, hc, hreceiving, rfl, by rw [Hub.registrations, hidle, List.filter_nil]⟩
    simp only [Hub.next, hc] at h
    rcases @handle_speaksV2 K _ _ moment hub task pk request h with h | ⟨hnegotiates, rfl⟩
    · exact .inl h
    · exact .inr ⟨task, hnegotiates, hserved⟩
  | act task =>
    simp only [Hub.next] at h
    split at h
    · exact .inl h
    · exact .inl (carryOut_speaksV2 h)
  | continueCommand task moment outcome =>
    obtain ⟨command, rest, hduties⟩ := enabled_continueCommand henabled
    have hkept : hub.host.KeepsProtocol
        (hub.host.perform K moment (.continueCommand command outcome)).1 :=
      perform_protocol (by simp)
    simp only [Hub.next, hduties] at h
    exact .inl (speaksV2_congr hkept ▸ h)
  | fail task =>
    simp only [Hub.next] at h
    split at h <;> exact .inl h
  | receive => exact .inl h
  | datagram source raw nowMs admitted =>
    simp only [Hub.next, Hub.processInboundVoiceFrame] at h
    split at h
    · exact .inl h
    · split at h <;> exact .inl h
  | background => exact .inl h
  | other moment op =>
    refine .inl ?_
    have hkept : hub.host.KeepsProtocol (hub.host.perform K moment op).1 :=
      perform_protocol fun member isOwner clientVersion heq => by
        subst heq
        exact henabled.elim
    exact speaksV2_congr hkept ▸ h

theorem hasNegotiated_snoc {x : Transition Hub HubOp} :
    HasNegotiated (tr ++ [x]) task ↔ HasNegotiated tr task ∨ x.event.negotiates task = true := by
  simp [HasNegotiated, or_and_right, exists_or]

theorem negotiates_iff : op.negotiates task = true ↔ ∃ moment clientVersion,
    op = .request task moment (.server (.negotiateProtocol clientVersion)) ∧
      minClientVersionForE2ee ≤ clientVersion := by
  constructor
  · intro h
    unfold HubOp.negotiates at h
    split at h
    · simp only [decide_eq_true_eq] at h
      obtain ⟨rfl, hversion⟩ := h
      exact ⟨_, _, rfl, hversion⟩
    · exact absurd h (by simp)
  · rintro ⟨moment, clientVersion, rfl, hversion⟩
    simp [HubOp.negotiates, hversion]

theorem registered_of_negotiated {host : Host} (hrun : HubRun K (.start host) tr hub)
    (h : HasNegotiated tr task) :
    (∃ pk, hub.memberOf task = some pk) ∧ hub.registrations task = [] := by
  induction hrun with
  | nil => exact absurd h (by simp [HasNegotiated])
  | @snoc pre post e tr hrun hstep ih =>
    have hpre : (∃ pk, pre.memberOf task = some pk) ∧ pre.registrations task = [] := by
      rcases hasNegotiated_snoc.mp h with h | h
      · exact ih h
      · obtain ⟨moment, clientVersion, rfl, -⟩ := negotiates_iff.mp h
        obtain ⟨c, hc, -, hidle⟩ := enabled_request hstep.1
        exact ⟨⟨c.member, by rw [Hub.memberOf, hc, Option.map_some]⟩,
          by rw [Hub.registrations, hidle, List.filter_nil]⟩
    obtain ⟨⟨pk, hpk⟩, hnone⟩ := hpre
    obtain ⟨hmember, hregisters⟩ := entered_step hstep hpk
    exact ⟨⟨pk, hmember⟩, List.sublist_nil.mp (hnone ▸ hregisters)⟩

/-- Connections that have not negotiated are treated as first-version clients, and get no event
that these do not know. -/
structure Isolated (tr : List (Transition Hub HubOp)) (hub : Hub) : Prop where
  treated : ∀ task, hub.TreatsAsV2 task → HasNegotiated tr task
  queued : ∀ task, ∀ notice ∈ hub.queues task, notice.requiresV2 = true → HasNegotiated tr task

/-- Connections that are treated as newer clients have negotiated after a step exactly if it
gives no connection the version of another. -/
theorem treated_step {host : Host} (hrun : HubRun K (.start host) tr hub)
    (hstep : HubStep K hub op hub')
    (hgood : ∀ task, hub.TreatsAsV2 task → HasNegotiated tr task) :
    (∀ task, hub'.TreatsAsV2 task → HasNegotiated (tr ++ [⟨hub, op, hub'⟩]) task) ↔
      hub.KeepsVersions tr op := by
  have hwired := wired_of_run hrun
  constructor
  · intro hpost
    unfold Hub.KeepsVersions
    split
    · next task =>
      intro pk c hhead hc hreceiving
      by_contra hspeaks
      rw [Bool.not_eq_false] at hspeaks
      have hregisters : hub.Registers (.act task) task pk := ⟨rfl, hhead, c, hc, hreceiving⟩
      obtain ⟨rest, hduties⟩ := List.head?_eq_some_iff.mp hhead
      have htreats : hub'.TreatsAsV2 task := by
        obtain ⟨-, rfl⟩ := hstep
        refine ⟨pk, served_register hwired hregisters, ?_⟩
        simp only [Hub.next, hduties]
        exact hspeaks
      have hnegotiated := (hasNegotiated_snoc.mp (hpost task htreats)).resolve_right (by
        simp [HubOp.negotiates])
      have hnone := (registered_of_negotiated hrun hnegotiated).2
      simp [Hub.registrations, hduties, Duty.isRegister] at hnone
    · next task moment clientVersion =>
      intro hversion other hother pk hserved hserved'
      have htreats : hub'.TreatsAsV2 other := by
        obtain ⟨henabled, rfl⟩ := hstep
        refine ⟨pk, (served_request henabled).trans hserved', ?_⟩
        obtain ⟨c, hc, -, hmember, -⟩ := served_eq_some.mp hserved
        simp only [Hub.next, hc]
        have hspeaks : (hub.host.negotiateProtocol c.member clientVersion).1.connectionSpeaksV2
            pk = true := by
          rw [speaksV2_negotiateProtocol, if_pos hmember.symm, decide_eq_true hversion]
        exact hspeaks
      exact (hasNegotiated_snoc.mp (hpost other htreats)).resolve_right (by
        simp [HubOp.negotiates, hother.symm])
    · trivial
  · rintro hkeeps task ⟨pk, hserved', hspeaks'⟩
    rw [hasNegotiated_snoc]
    rcases served_step hwired hstep hserved' with hserved | ⟨rfl, hhead, c, hc, hreceiving⟩
    · rcases speaksV2_step hstep hspeaks' with hspeaks | ⟨asker, hasker, hserved'⟩
      · exact .inl (hgood task ⟨pk, hserved, hspeaks⟩)
      · obtain ⟨moment, clientVersion, rfl, hversion⟩ := negotiates_iff.mp hasker
        by_cases heq : task = asker
        · exact .inr (heq ▸ hasker)
        · exact .inl (hkeeps hversion task heq pk hserved' hserved)
    · rcases speaksV2_step hstep hspeaks' with hspeaks | ⟨asker, hasker, -⟩
      · rw [hkeeps pk c hhead hc hreceiving] at hspeaks
        exact absurd hspeaks (by simp)
      · exact absurd hasker (by simp [HubOp.negotiates])

theorem treated_of_recipient (hwired : hub.Wired) {b : Broadcast} {c : Connection}
    (h : hub.recipient b task = some c) (hv2 : b.notice.requiresV2 = true) :
    hub.TreatsAsV2 task := by
  obtain ⟨hc, hentry, hreceiving, -, hmay⟩ := recipient_eq_some.mp h
  refine ⟨c.member, served_eq_some.mpr ⟨c, hc, hreceiving, rfl, (hwired.entered _ _ hentry).2⟩, ?_⟩
  simpa [Hub.mayReceive, hv2] using hmay

theorem isolated_step {host : Host} (hrun : HubRun K (.start host) tr hub)
    (hstep : HubStep K hub op hub') (hgood : Isolated tr hub) :
    Isolated (tr ++ [⟨hub, op, hub'⟩]) hub' ↔ hub.KeepsVersions tr op := by
  rw [← treated_step hrun hstep hgood.treated]
  refine ⟨Isolated.treated, fun htreated => ⟨htreated, fun task notice hnotice hv2 => ?_⟩⟩
  refine hasNegotiated_snoc.mpr (.inl ?_)
  rcases queued_step hstep hnotice with hnotice | ⟨_, b, c, -, -, rfl, hrecipient⟩
  · exact hgood.queued task notice hnotice hv2
  · exact hgood.treated task (treated_of_recipient (wired_of_run hrun) hrecipient hv2)

/-- In every run, connections are isolated from the versions of others exactly if no step gives
one the version of another. -/
theorem versions_isolated {host : Host} (hrun : HubRun K (.start host) tr hub) :
    (∀ a x b, tr = a ++ x :: b → Isolated (a ++ [x]) x.post) ↔
      ∀ a x b, tr = a ++ x :: b → x.pre.KeepsVersions a x.event := by
  refine hrun.forall_history_iff Isolated (fun a x => x.pre.KeepsVersions a x.event) ?_
    fun a x _ _ hrun hstep hgood => isolated_step hrun hstep hgood
  exact ⟨fun task ⟨pk, hpk, _⟩ => absurd hpk (by simp [Hub.served, Hub.start]),
    fun task notice hnotice => absurd hnotice List.not_mem_nil⟩

/-! ## A newer connection of the identity -/

open SampleLog SampleHost SampleHub

/-- Alice and Bob are connected, and Bob negotiates. -/
def negotiation : List HubOp :=
  connects 1 10 alice ++ connects 2 11 bob ++ asks 2 12 (.server (.negotiateProtocol 2)) 1

/-- Bob connects, negotiates and connects anew; then the data of Alice is deleted. -/
def supersededNegotiation : List HubOp :=
  connects 1 10 bob ++ asks 1 11 (.server (.negotiateProtocol 2)) 1 ++ connects 2 12 bob ++
    .background 3 ⟨.all, .memberDataDeleted (key alice)⟩ :: acts 3 2

theorem versions_isolated_of_bob :
    (∀ a x b, path negotiation = a ++ x :: b → Isolated (a ++ [x]) x.post) ↔
      ∀ a x b, path negotiation = a ++ x :: b → x.pre.KeepsVersions a x.event :=
  versions_isolated (run_path (by decide +kernel))

theorem versions_mixed :
    HubRun crypto start (path supersededNegotiation) (hubAfter supersededNegotiation) ∧
      (hubAfter supersededNegotiation).TreatsAsV2 2 ∧
      .memberDataDeleted (key alice) ∈ (hubAfter supersededNegotiation).queues 2 ∧
      (Notice.memberDataDeleted (key alice)).requiresV2 = true ∧
      ¬HasNegotiated (path supersededNegotiation) 2 :=
  ⟨run_path (by decide +kernel), ⟨key bob, by decide +kernel, by decide +kernel⟩,
    by decide +kernel, rfl, by decide +kernel⟩

end Server
