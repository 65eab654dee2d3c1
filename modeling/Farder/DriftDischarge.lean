import Farder.DeviceBinding
import Farder.GroupRefinement
import Farder.SampleLog

/-! # Drift can always be discharged

A group drifts when it holds leaves that it should not hold. A member who is present in the
group can always commit their removal: no rule on the pace of commits and no open reset stands
in the way, since a commit that discharges drift is exempt from both. -/
namespace DriftDischarge

open EventLog EventLog.LogState DeviceBinding

variable {K : Crypto} {g : Genesis} {s s' : LogState} {e : Event} {p : MlsCommit} {c : ℕ}
  {m : PublicKey} {d : DeviceId} {ts : ℕ} {group : MlsGroupRecord}

/-- A full member with a confirmed leaf, on a device of its own that it may still sign with. -/
structure Present (s : LogState) (c : ℕ) (m : PublicKey) (d : DeviceId) (ts : ℕ) : Prop where
  full_member : s.IsFullMember m
  confirmed : (m, d) ∈ s.leavesConfirmed c
  bound : boundTo s d = some m
  not_revoked : d ∉ s.revokedDevices
  unexpired : ∀ t ∈ s.expiryOf d, s.selfLivenessTs m ts ≤ t

instance : Decidable (Present s c m d ts) :=
  decidable_of_iff (s.IsFullMember m ∧ (m, d) ∈ s.leavesConfirmed c ∧ boundTo s d = some m ∧
      d ∉ s.revokedDevices ∧ ∀ t ∈ s.expiryOf d, s.selfLivenessTs m ts ≤ t)
    ⟨fun ⟨h₁, h₂, h₃, h₄, h₅⟩ => ⟨h₁, h₂, h₃, h₄, h₅⟩,
      fun ⟨h₁, h₂, h₃, h₄, h₅⟩ => ⟨h₁, h₂, h₃, h₄, h₅⟩⟩

/-- A correctly signed and chained commit for what the channel's group records now. -/
structure CurrentCommit (K : Crypto) (s : LogState) (c : ℕ) (e : Event) (p : MlsCommit) :
    Prop where
  server : e.core.serverId = s.serverId
  chain : s.checkChain e = .ok ()
  signature : ∀ r ∈ s.devices.lookup e.core.device,
    K.verify r.devicePubkey (K.coreBytes e.core) e.signature = true
  payload : e.core.payload = .mlsCommit p
  channel : p.channelId = c
  generation : ∀ group ∈ s.mlsGroups.lookup c, p.generation = group.generation
  epoch : ∀ group ∈ s.mlsGroups.lookup c, p.epoch = group.epoch
  authenticator : ∀ group ∈ s.mlsGroups.lookup c, ∀ a ∈ group.epochAuthenticator,
    p.prevEpochAuthenticator = a
  pin : ∀ pinned ∈ s.deviceStoreInstance.lookup e.core.device, pinned = p.storeInstanceHash

/-! ## A present member's commit -/

theorem Present.lookup (h : Present s c m d ts) : ∃ group, s.mlsGroups.lookup c = some group ∧
    (m, d) ∈ group.leavesConfirmed := by
  have hl := h.confirmed
  cases hg : s.mlsGroups.lookup c with
  | none => simp [leavesConfirmed, hg] at hl
  | some group => exact ⟨group, rfl, by simpa [leavesConfirmed, hg] using hl⟩

theorem CurrentCommit.envelope (he : CurrentCommit K s c e p) (hs : Membership s)
    (h : Present s c e.core.author e.core.device e.core.timestamp) :
    ∃ key, Envelope K s e key := by
  obtain ⟨r, hr, hid⟩ := Option.map_eq_some_iff.mp h.bound
  have hexpiry : s.certExpiry e = s.expiryOf e.core.device := by
    simp [certExpiry, he.payload]
  refine ⟨r.devicePubkey, he.server, ?_, he.signature r hr, h.not_revoked, ?_, ?_, he.chain⟩
  · rw [resolveDevicePubkey_eq_ok, he.payload]
    exact ⟨r, hr, hid, rfl⟩
  · rw [hexpiry]
    exact h.unexpired
  · exact hs.member_not_banned _ h.full_member.1

theorem removeAuthorized_of_pending (hs : Membership s) (hg : s.mlsGroups.lookup c = some group)
    {rem : DeclaredRemove} (hrem : rem.leaf ∈ s.pendingRemovals c e.core.timestamp) :
    RemoveAuthorized s e group rem := by
  obtain ⟨hpresent, hnot⟩ := (mem_pendingRemovals hg).mp hrem
  refine ⟨hpresent, fun _ => .inl ?_⟩
  intro hgood
  exact hnot ((goodStanding_iff hs).mp hgood)

/-- A present member's commit that adds what it may, removes nothing but drift, and is not
held back by the commit rate is applied. -/
theorem commit_accepted (hs : Membership s)
    (h : Present s c e.core.author e.core.device e.core.timestamp)
    (he : CurrentCommit K s c e p) (hg : s.mlsGroups.lookup c = some group)
    (hadds : ∀ add ∈ p.adds, AddAuthorized s e group add)
    (hremoves : ∀ rem ∈ p.removes, rem.leaf ∈ s.pendingRemovals c e.core.timestamp)
    (hrate : s.CommitDischargesDrift e ∨ group.CeilingDemandsRekey ∨
      ∀ last ∈ group.lastCommitEpochByAuthor.lookup e.core.author,
        last + group.commitRateGap ≤ group.epoch) :
    ∃ s', s.apply K e = .ok s' ∧ s'.mlsGroups.lookup c =
      some (group.applyCommit e.leaf (e.hash K) p (s.voidObligations c e.core.timestamp)) := by
  obtain ⟨key, henv⟩ := he.envelope hs h
  obtain ⟨group', hg', hl⟩ := h.lookup
  obtain rfl : group = group' := Option.some.inj (hg.symm.trans hg')
  have hepoch := he.epoch group hg
  obtain rfl := he.channel
  refine apply_commit henv he.payload hg ?_
  exact {
    generation := he.generation group hg
    epoch := hepoch
    pin := he.pin
    full_member := h.full_member
    creator := fun hempty => absurd (hempty ▸ hl) (Finset.notMem_empty _)
    confirmed := fun _ => hl
    chain := he.authenticator group hg
    adds := hadds
    removes := fun rem hrem => removeAuthorized_of_pending hs hg (hremoves rem hrem)
    rate := hepoch ▸ hrate }

theorem discharges_of_removal (hp : e.core.payload = .mlsCommit p) {rem : DeclaredRemove}
    (hrem : rem ∈ p.removes) (hdrift : rem.leaf ∈ s.pendingRemovals p.channelId e.core.timestamp) :
    s.CommitDischargesDrift e := by
  simp only [CommitDischargesDrift, hp]
  exact .inr ⟨rem, hrem, hdrift⟩

theorem leaf_mem_memberLeafSet (hs : DevicesListed s)
    (h : Present s c e.core.author e.core.device e.core.timestamp) {key : PublicKey}
    (henv : Envelope K s e key) (hp : e.core.payload = .mlsCommit p) :
    e.leaf ∈ s.memberLeafSet e.core.timestamp :=
  mem_memberLeafSet.mpr ⟨h.full_member.1, henv.device_live hs (by simp [hp])⟩

/-- In every reachable state a present member's commit that removes exactly the pending
removals, judged at the commit's own time, is applied, and the group then holds no leaf that
it should not hold; and near the freshness ceiling so is its empty commit. -/
theorem drift_dischargeable (hs : Reachable K g s)
    (h : Present s c e.core.author e.core.device e.core.timestamp)
    (he : CurrentCommit K s c e p) (hadds : p.adds = []) :
    (s.pendingRemovals c e.core.timestamp ≠ ∅ →
      (p.removes.map DeclaredRemove.leaf).toFinset = s.pendingRemovals c e.core.timestamp →
      ∃ s', s.apply K e = .ok s' ∧ ∀ l ∈ s'.leavesConfirmed c ∪ s'.pendingConfirmations c,
        l ∈ s.memberLeafSet e.core.timestamp) ∧
    ((∀ group ∈ s.mlsGroups.lookup c, group.CeilingDemandsRekey) → p.removes = [] →
      ∃ s', s.apply K e = .ok s') := by
  have hinv := reachable_invariant hs
  obtain ⟨group, hg, -⟩ := h.lookup
  have hnone : ∀ add ∈ p.adds, AddAuthorized s e group add := by
    intro add hadd
    rw [hadds] at hadd
    cases hadd
  constructor
  · intro hdrift hremoves
    have hmem (l : Leaf) : l ∈ p.removes.map DeclaredRemove.leaf ↔
        l ∈ s.pendingRemovals c e.core.timestamp := by
      rw [← hremoves, List.mem_toFinset]
    obtain ⟨l, hl⟩ := Finset.nonempty_iff_ne_empty.mpr hdrift
    obtain ⟨rem, hrem, rfl⟩ := List.mem_map.mp ((hmem l).mpr hl)
    have hexempt := discharges_of_removal he.payload hrem (he.channel.symm ▸ hl)
    obtain ⟨s', hs', hg'⟩ := commit_accepted hinv.membership h he hg hnone
      (fun rem hrem => (hmem _).mp (List.mem_map_of_mem hrem)) (.inl hexempt)
    refine ⟨s', hs', fun l hl => ?_⟩
    have hl : l ∈ (group.applyCommit e.leaf (e.hash K) p
        (s.voidObligations c e.core.timestamp)).leaves := by
      simpa [leavesConfirmed, pendingConfirmations, hg', MlsGroupRecord.leaves] using hl
    rcases MlsGroupRecord.mem_leaves_applyCommit.mp hl with ⟨hold | hnew, hkept⟩ | ⟨-, rfl⟩
    · by_contra hnot
      exact hkept ((hmem l).mpr ((mem_pendingRemovals hg).mpr ⟨hold, hnot⟩))
    · simp [hadds] at hnew
    · obtain ⟨key, henv⟩ := he.envelope hinv.membership h
      exact leaf_mem_memberLeafSet hinv.devices h henv he.payload
  · intro hceiling hremoves
    have hkeep : ∀ rem ∈ p.removes, rem.leaf ∈ s.pendingRemovals c e.core.timestamp := by
      intro rem hrem
      rw [hremoves] at hrem
      cases hrem
    obtain ⟨s', hs', -⟩ :=
      commit_accepted hinv.membership h he hg hnone hkeep (.inr (.inl (hceiling group hg)))
    exact ⟨s', hs'⟩

open SampleLog in
def bobBanned : List Entry := twoMembers ++ [⟨alice, a0, 3, .memberBanned (key bob)⟩]

open SampleLog in
def takesOutBob : Event :=
  nextEvent (signed bobBanned) ⟨alice, a0, 3, commit 0 1 [] [⟨key bob, device b0⟩]⟩

open SampleLog in
/-- Bob is banned. Alice, who made the last commit, takes out his leaf at once. -/
theorem drift_dischargeable_banned :
    (stateOf bobBanned).pendingRemovals 7 3 = {(key bob, device b0)} ∧
      ∃ s', (stateOf bobBanned).apply crypto takesOutBob = .ok s' ∧
        ∀ l ∈ s'.leavesConfirmed 7 ∪ s'.pendingConfirmations 7,
          l ∈ (stateOf bobBanned).memberLeafSet 3 := by
  have hpresent : Present (stateOf bobBanned) 7 (key alice) (device a0) 3 := by
    decide +kernel
  have hauth : ((stateOf bobBanned).mlsGroups.lookup 7).bind MlsGroupRecord.epochAuthenticator =
      some 1 := by decide +kernel
  have hpin : (stateOf bobBanned).deviceStoreInstance.lookup (device a0) = some 0 := by
    decide +kernel
  have hcommit : CurrentCommit crypto (stateOf bobBanned) 7 takesOutBob
      ⟨7, 0, 1, [], [], [⟨key bob, device b0⟩], 1, 2, 0, "", 0⟩ := {
    server := by decide +kernel
    chain := by decide +kernel
    signature := by decide +kernel
    payload := rfl
    channel := rfl
    generation := by decide +kernel
    epoch := by decide +kernel
    authenticator := by
      intro group hg a ha
      exact Option.some.inj (hauth.symm.trans (Option.bind_eq_some_iff.mpr ⟨group, hg, ha⟩))
    pin := by
      intro pinned hp
      exact Option.some.inj (hp.symm.trans hpin) }
  exact ⟨by decide +kernel, (drift_dischargeable (e := takesOutBob) (reachable_stateAfter _)
    hpresent hcommit rfl).1 (by decide +kernel) (by decide +kernel)⟩

end DriftDischarge
