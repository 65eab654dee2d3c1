import Farder.GroupRefinement
import Farder.SampleLog

/-! # No unlogged eviction

A confirmed leaf leaves its group by its holder's own commit, by a commit after the holder
lost its place, or by the owner's reset. The timestamp of a commit decides nothing: a device
is judged no later than its holder's own claims or the corroborated clock. -/
namespace LeafEviction

open EventLog EventLog.LogState

variable {K : Crypto} {g : Genesis} {s s' : LogState} {e : Event} {c : ℕ} {pk : PublicKey}
  {d : DeviceId}

/-- The holder is no full member, or its device is revoked, or expired at the later of the
holder's own clock and the corroborated one. -/
def LostPlace (s : LogState) (pk : PublicKey) (d : DeviceId) : Prop :=
  ¬s.IsFullMember pk ∨ d ∈ s.revokedDevices ∨
    ∃ t, s.expiryOf d = some t ∧ t < max (s.identityFloor pk) s.corroboratedClock

theorem judgedLivenessTs_le (ts : ℕ) :
    s.judgedLivenessTs pk ts ≤ max (s.identityFloor pk) s.corroboratedClock :=
  max_le_max le_rfl (min_le_right _ _)

/-- A listed device whose holder has not lost its place is in good standing, whatever
timestamp the judging event claims. -/
theorem goodStanding_of_not_lostPlace (hs : Membership s) (hd : d ∈ s.devicesOf pk)
    (hplace : ¬LostPlace s pk d) (ts : ℕ) : s.LeafHolderInGoodStanding pk d ts := by
  obtain ⟨hfull, hplace⟩ := not_or.mp hplace
  obtain ⟨hrevoked, hexpiry⟩ := not_or.mp hplace
  have hmember := (not_not.mp hfull).1
  refine ⟨hmember, hs.member_not_banned pk hmember, mem_judgedLiveDevices.mpr
    ⟨hd, hrevoked, fun t ht => (judgedLivenessTs_le ts).trans ?_⟩⟩
  by_contra hlt
  exact hexpiry ⟨t, ht, not_le.mp hlt⟩

theorem device_listed_of_confirmed {owner : PublicKey} (hs : Invariant owner s)
    (hl : (pk, d) ∈ s.leavesConfirmed c) : d ∈ s.devicesOf pk := by
  cases hg : s.mlsGroups.lookup c with
  | none => simp [leavesConfirmed, hg] at hl
  | some group =>
    simp only [leavesConfirmed, hg, Option.map_some, Option.getD_some] at hl
    exact hs.leaves c group hg (pk, d) (MlsGroupRecord.mem_leaves.mpr (.inl hl))

theorem confirmed_lost {owner : PublicKey} (hs : Invariant owner s)
    (h : s.apply K e = .ok s') (hl : (pk, d) ∈ s.leavesConfirmed c)
    (hlost : (pk, d) ∉ s'.leavesConfirmed c) :
    (∃ p, e.core.payload = .mlsCommit p ∧ p.channelId = c ∧
        (e.core.author = pk ∨ LostPlace s pk d)) ∨
      ∃ p, e.core.payload = .mlsGroupReset p ∧ p.channelId = c ∧ e.core.author = owner := by
  have hstep := step_groupStep hs h c
  rw [← keyGroup_confirmed] at hl hlost
  rcases KeyGroup.confirmed_lost hstep hl hlost with ⟨cm, hcm, -, hrule⟩ | ⟨author, staged, hreset⟩
  · obtain ⟨p, hp, rfl⟩ := groupAction_eq_commit.mp hcm
    obtain ⟨hpay, rfl, -⟩ := appliedCommit_eq_some.mp hp
    refine .inl ⟨p, hpay, rfl, hrule.symm.imp_right fun hexc => ?_⟩
    by_contra hplace
    have hd := device_listed_of_confirmed hs (keyGroup_confirmed ▸ hl)
    have hmem := Finset.mem_union_left (s.keyGroup p.channelId).pending hl
    exact (mem_excused (.inl hmem)).mp hexc
      (goodStanding_of_not_lostPlace hs.membership hd hplace _)
  · obtain ⟨p, hp, -⟩ := groupAction_eq_reset.mp hreset
    obtain ⟨hpay, rfl⟩ := resetOf_eq_some.mp hp
    obtain ⟨group, -, hauth, -⟩ := reset_of_apply h hpay
    exact .inr ⟨p, hpay, rfl, hauth.owner.trans hs.owner⟩

/-- In every reachable state, an accepted event that takes a leaf out of the confirmed ones
is the holder's own commit, a commit after the holder lost its place, or a reset by the
genesis owner; and no other commit takes it out, whatever timestamp it claims. -/
theorem no_unlogged_eviction (hs : Reachable K g s) (h : s.apply K e = .ok s')
    (hl : (pk, d) ∈ s.leavesConfirmed c) :
    ((pk, d) ∉ s'.leavesConfirmed c →
      (∃ p, e.core.payload = .mlsCommit p ∧ p.channelId = c ∧ e.core.author = pk) ∨
      (∃ p, e.core.payload = .mlsCommit p ∧ p.channelId = c ∧ LostPlace s pk d) ∨
      ∃ p, e.core.payload = .mlsGroupReset p ∧ p.channelId = c ∧ e.core.author = g.owner) ∧
    (∀ p, e.core.payload = .mlsCommit p → e.core.author ≠ pk → ¬LostPlace s pk d →
      (pk, d) ∈ s'.leavesConfirmed c) := by
  have hlost := confirmed_lost (reachable_invariant hs) h hl
  refine ⟨fun hnot => ?_, fun p hp hauthor hplace => ?_⟩
  · rcases hlost hnot with ⟨p, hp, hc, hown | hplace⟩ | hreset
    · exact .inl ⟨p, hp, hc, hown⟩
    · exact .inr (.inl ⟨p, hp, hc, hplace⟩)
    · exact .inr (.inr hreset)
  · by_contra hnot
    rcases hlost hnot with ⟨-, -, -, hown | hlostPlace⟩ | ⟨q, hq, -⟩
    · exact hauthor hown
    · exact hplace hlostPlace
    · simp [hp] at hq

open SampleLog in
/-- Bob's leaf, taken out by Alice after he was banned. -/
theorem no_unlogged_eviction_banned :
    let log := twoMembers ++ [⟨alice, a0, 3, .memberBanned (key bob)⟩]
    let e := nextEvent (signed log) ⟨alice, a0, 3, commit 0 1 [] [⟨key bob, device b0⟩]⟩
    (key bob, device b0) ∈ (stateOf log).leavesConfirmed 7 ∧
      (key bob, device b0) ∉ ((stateOf log).afterEvent crypto e).leavesConfirmed 7 ∧
      ((∃ p, e.core.payload = .mlsCommit p ∧ p.channelId = 7 ∧ e.core.author = key bob) ∨
        (∃ p, e.core.payload = .mlsCommit p ∧ p.channelId = 7 ∧
          LostPlace (stateOf log) (key bob) (device b0)) ∨
        ∃ p, e.core.payload = .mlsGroupReset p ∧ p.channelId = 7 ∧
          e.core.author = genesis.owner) := by
  have hl : (key bob, device b0) ∈ (stateOf (twoMembers ++
      [⟨alice, a0, 3, .memberBanned (key bob)⟩])).leavesConfirmed 7 := by decide +kernel
  refine ⟨hl, by decide +kernel, ?_⟩
  exact (no_unlogged_eviction (reachable_stateAfter _) (apply_afterEvent (by decide +kernel)) hl).1
    (by decide +kernel)

end LeafEviction
