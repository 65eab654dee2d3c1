import Farder.RecordedFacts
import Farder.SampleLog
import Mathlib.Data.Finmap
import Mathlib.Order.Lattice.Nat
import Mathlib.Tactic.Common

/-! # The corroborated clock

The log's own clock is the greatest moment that two identities have claimed. Whoever dates an event
forward moves it no further than somebody else has been already. -/
namespace CorroboratedClock

open EventLog EventLog.LogState RecordedFacts

variable {K : Crypto} {g : Genesis} {s t : LogState} {e : Event}
  {tr : List (Transition LogState Event)} {clock : FiniteMap PublicKey ℕ} {v : ℕ}

def ClaimedByTwo (clock : FiniteMap PublicKey ℕ) (v : ℕ) : Prop :=
  ∃ p q, p ≠ q ∧ (∃ a ∈ clock.lookup p, v ≤ a) ∧ ∃ b ∈ clock.lookup q, v ≤ b

theorem two_le_card_iff : 2 ≤ (clock.keys.filter fun pk => ∃ w ∈ clock.lookup pk, v ≤ w).card ↔
    ClaimedByTwo clock v := by
  have hmem : ∀ pk, pk ∈ clock.keys.filter (fun pk => ∃ w ∈ clock.lookup pk, v ≤ w) ↔
      ∃ w ∈ clock.lookup pk, v ≤ w := by
    intro pk
    rw [Finset.mem_filter, Finmap.mem_keys]
    refine ⟨And.right, fun h => ⟨?_, h⟩⟩
    obtain ⟨w, hw, -⟩ := h
    exact Finmap.mem_iff.mpr ⟨w, hw⟩
  show 1 < _ ↔ _
  rw [Finset.one_lt_card]
  constructor
  · rintro ⟨p, hp, q, hq, hne⟩
    exact ⟨p, q, hne, (hmem p).mp hp, (hmem q).mp hq⟩
  · rintro ⟨p, q, hne, hp, hq⟩
    exact ⟨p, (hmem p).mpr hp, q, (hmem q).mpr hq, hne⟩

theorem le_clock_iff : v ≤ recomputeCorroboratedClock clock ↔ v = 0 ∨ ClaimedByTwo clock v := by
  rw [le_recomputeCorroboratedClock, two_le_card_iff]

/-- What the scan computes: the greatest moment claimed by two identities, as soon as there are
two. -/
theorem isGreatest_clock (h : 2 ≤ clock.keys.card) :
    IsGreatest {v | ClaimedByTwo clock v} (recomputeCorroboratedClock clock) := by
  have hzero : ClaimedByTwo clock 0 := by
    obtain ⟨p, hp, q, hq, hne⟩ := Finset.one_lt_card.mp h
    obtain ⟨a, ha⟩ := Finmap.mem_iff.mp (Finmap.mem_keys.mp hp)
    obtain ⟨b, hb⟩ := Finmap.mem_iff.mp (Finmap.mem_keys.mp hq)
    exact ⟨p, q, hne, ⟨a, ha, Nat.zero_le a⟩, b, hb, Nat.zero_le b⟩
  constructor
  · rcases le_clock_iff.mp (le_refl (recomputeCorroboratedClock clock)) with h0 | htwo
    · exact h0.symm ▸ hzero
    · exact htwo
  · intro v hv
    exact le_clock_iff.mpr (.inr hv)

theorem clock_eq_zero (h : clock.keys.card < 2) : recomputeCorroboratedClock clock = 0 := by
  rcases le_clock_iff.mp (le_refl (recomputeCorroboratedClock clock)) with h0 | htwo
  · exact h0
  · have hle := two_le_card_iff.mpr htwo
    have hcard := Finset.card_filter_le clock.keys fun pk =>
      ∃ w ∈ clock.lookup pk, recomputeCorroboratedClock clock ≤ w
    omega

theorem scan_eq {values : List ℕ} (h : (values : Multiset ℕ) = clock.values) :
    (values.foldl topTwoStep (0, 0)).2 = recomputeCorroboratedClock clock := by
  rw [recomputeCorroboratedClock, ← h, Multiset.coe_foldl]

theorem clock_le_others (pk : PublicKey) : recomputeCorroboratedClock clock ≤
    (clock.keys.erase pk).sup fun q => (clock.lookup q).getD 0 := by
  rcases le_clock_iff.mp (le_refl (recomputeCorroboratedClock clock)) with
    h0 | ⟨p, q, hne, ⟨a, ha, hpa⟩, b, hb, hqb⟩
  · omega
  have hclaim : ∀ r c, r ≠ pk → clock.lookup r = some c → recomputeCorroboratedClock clock ≤ c →
      recomputeCorroboratedClock clock ≤
        (clock.keys.erase pk).sup fun q => (clock.lookup q).getD 0 := by
    intro r c hr hc hle
    have hkey : r ∈ clock.keys.erase pk :=
      Finset.mem_erase.mpr ⟨hr, Finmap.mem_keys.mpr (Finmap.mem_iff.mpr ⟨c, hc⟩)⟩
    refine hle.trans ?_
    have hsup := Finset.le_sup (f := fun q => (clock.lookup q).getD 0) hkey
    simpa [hc] using hsup
  by_cases hp : p = pk
  · exact hclaim q b (fun hq => hne (hp.trans hq.symm)) hb hqb
  · exact hclaim p a hp ha hpa

structure ClockKept (s : LogState) (e : Event) (t : LogState) : Prop where
  greatest : 2 ≤ t.identityClock.keys.card →
    IsGreatest {v | ClaimedByTwo t.identityClock v} t.corroboratedClock
  too_few : t.identityClock.keys.card < 2 → t.corroboratedClock = 0
  any_order : ∀ values : List ℕ, (values : Multiset ℕ) = t.identityClock.values →
    (values.foldl topTwoStep (0, 0)).2 = t.corroboratedClock
  grows : s.corroboratedClock ≤ t.corroboratedClock
  others : t.corroboratedClock ≤ (t.identityClock.keys.erase e.core.author).sup t.identityFloor
  unmoved : ∀ pk ≠ e.core.author, t.identityClock.lookup pk = s.identityClock.lookup pk

theorem identityClock_step (h : Step K s e t) :
    ∀ pk ≠ e.core.author, t.identityClock.lookup pk = s.identityClock.lookup pk := by
  obtain ⟨key, m, -, heff, rfl⟩ := apply_cases h
  obtain ⟨-, -, hclock, -⟩ := heff.bookkeeping
  intro pk hpk
  simp [recordAccepted, advanceChain, hclock, hpk]

theorem clock_kept (hs : Reachable K g s) (h : Step K s e t) : ClockKept s e t := by
  have ht : Reachable K g t := by
    obtain ⟨tr, htr⟩ := hs
    exact ⟨_, htr.snoc h⟩
  have heq := corroboratedClock_eq ht
  constructor
  · intro htwo
    exact heq ▸ isGreatest_clock htwo
  · intro hfew
    exact heq ▸ clock_eq_zero hfew
  · intro values hvalues
    exact heq ▸ scan_eq hvalues
  · exact (facts_kept hs h).corroborated_clock
  · exact heq ▸ clock_le_others e.core.author
  · exact identityClock_step h

/-- A device whose certificate outlives its own identity's claims and the log's clock is live,
whatever moment somebody else claims. -/
theorem live_of_outlives {pk : PublicKey} {d : DeviceId} (hd : d ∈ s.devicesOf pk)
    (hrevoked : d ∉ s.revokedDevices)
    (hexpiry : ∀ x ∈ s.expiryOf d, max (s.identityFloor pk) s.corroboratedClock ≤ x) (ts : ℕ) :
    d ∈ s.judgedLiveDevices pk ts := by
  refine mem_judgedLiveDevices.mpr ⟨hd, hrevoked, fun x hx => ?_⟩
  have hle := hexpiry x hx
  simp only [judgedLivenessTs]
  omega

/-- Every accepted event leaves the corroborated clock at the greatest moment claimed by two
identities, no earlier than it was and no later than the others have claimed; and in every state
reached, a device that outlives the claims of its own identity and this clock is judged live at any
claimed moment. -/
theorem corroborated_clock_of_two (h : Run K g tr t) :
    (∀ x ∈ tr, ClockKept x.pre x.event x.post) ∧
    ∀ d record, t.devices.lookup d = some record → d ∉ t.revokedDevices →
      (∀ x ∈ record.expiresAt, max (t.identityFloor record.identity) t.corroboratedClock ≤ x) →
      ∀ ts, d ∈ t.judgedLiveDevices record.identity ts := by
  constructor
  · intro x hx
    obtain ⟨a, b, rfl⟩ := List.append_of_mem hx
    obtain ⟨hpre, hstep, -⟩ := h.split_at
    exact clock_kept ⟨a, hpre⟩ hstep
  · intro d record hrecord hrevoked hexpiry ts
    have hlisted := (reachable_invariant ⟨tr, h⟩).devices d record hrecord
    refine live_of_outlives hlisted hrevoked (fun x hx => hexpiry x ?_) ts
    simpa [expiryOf, hrecord] using hx

open SampleLog in
theorem corroborated_clock_of_two_members :
    accepted crypto genesis (signed twoMembers) ≠ [] ∧
      ∀ x ∈ accepted crypto genesis (signed twoMembers), ClockKept x.pre x.event x.post :=
  ⟨by decide +kernel, (corroborated_clock_of_two (run_accepted _)).1⟩

end CorroboratedClock
