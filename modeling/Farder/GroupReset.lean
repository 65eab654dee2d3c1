import Farder.GroupRefinement
import Farder.SampleLog

/-! # Resets are not selective

A reset has to stage Welcomes for exactly the members' live devices, without the resetter's
own, which founds the new group. The resetter is checked to be the owner, but not to be a
member: an owner who has left the server founds a group that holds its own leaf. The reset is
exactly non-selective when the owner is a member. -/
namespace GroupReset

open EventLog EventLog.LogState

variable {K : Crypto} {g : Genesis} {s s' : LogState} {e : Event} {p : MlsGroupReset}

def resetWelcomed (s : LogState) (c : ℕ) : Finset Leaf :=
  ((s.mlsGroups.lookup c).map MlsGroupRecord.resetWelcomed).getD ∅

/-- After the reset the group holds exactly the leaves that it should hold by the state
before: the resetter's confirmed, all others staged and pending, and nothing left to do. -/
structure NonSelective (s : LogState) (e : Event) (s' : LogState) (c : ℕ) : Prop where
  confirmed : s'.leavesConfirmed c = {(s.owner, e.core.device)}
  pending : s'.pendingConfirmations c = resetWelcomed s' c
  disjoint : Disjoint (s'.leavesConfirmed c) (s'.pendingConfirmations c)
  cover : s'.leavesConfirmed c ∪ s'.pendingConfirmations c = s.memberLeafSet e.core.timestamp
  no_removals : { s with mlsGroups := s'.mlsGroups }.pendingRemovals c e.core.timestamp = ∅
  no_adds : { s with mlsGroups := s'.mlsGroups }.pendingAdds c e.core.timestamp = ∅

/-- The resetter's own leaf belongs to the members' leaves exactly if the owner is a member. -/
theorem resetter_mem_memberLeafSet {key : PublicKey} (hs : DevicesListed s)
    (henv : Envelope K s e key) (hp : e.core.payload = .mlsGroupReset p)
    (howner : e.core.author = s.owner) :
    e.leaf ∈ s.memberLeafSet e.core.timestamp ↔ s.owner ∈ s.members := by
  have hlive := henv.device_live hs (by simp [hp])
  rw [mem_memberLeafSet, ← howner]
  exact and_iff_left hlive

/-- For every reachable state and accepted reset: it is exactly non-selective if and only if
the owner, who authors it, is a member. -/
theorem reset_nonSelective_iff (hs : Reachable K g s) (h : s.apply K e = .ok s')
    (hp : e.core.payload = .mlsGroupReset p) :
    NonSelective s e s' p.channelId ↔ s.owner ∈ s.members := by
  obtain ⟨key, -, henv, -, -⟩ := apply_cases h
  obtain ⟨group, -, hauth, hpost⟩ := reset_of_apply h hp
  have hleaf : e.leaf = (s.owner, e.core.device) := Prod.ext hauth.owner rfl
  have hconfirmed : s'.leavesConfirmed p.channelId = {e.leaf} := by
    simp [leavesConfirmed, hpost, MlsGroupRecord.applyReset]
  have hpending : s'.pendingConfirmations p.channelId =
      (s.memberLeafSet e.core.timestamp).erase e.leaf := by
    rw [← hauth.cover]
    simp [pendingConfirmations, hpost, MlsGroupRecord.applyReset]
  have hmem := resetter_mem_memberLeafSet (reachable_invariant hs).devices henv hp hauth.owner
  constructor
  · intro hsel
    have hcover := hsel.cover
    rw [hconfirmed] at hcover
    exact hmem.mp (hcover ▸ Finset.mem_union_left _ (Finset.mem_singleton_self _))
  · intro howner
    have hcover : s'.leavesConfirmed p.channelId ∪ s'.pendingConfirmations p.channelId =
        s.memberLeafSet e.core.timestamp := by
      rw [hconfirmed, hpending, ← Finset.insert_eq, Finset.insert_erase (hmem.mpr howner)]
    have hleaves : (group.applyReset e.leaf p).leaves = s.memberLeafSet e.core.timestamp := by
      simpa [leavesConfirmed, pendingConfirmations, hpost, MlsGroupRecord.leaves] using hcover
    refine ⟨hleaf ▸ hconfirmed, ?_, ?_, hcover, ?_, ?_⟩
    · simp [pendingConfirmations, resetWelcomed, hpost, MlsGroupRecord.applyReset]
    · rw [hconfirmed, hpending, Finset.disjoint_singleton_left]
      exact Finset.notMem_erase _ _
    · simp only [pendingRemovals, hpost, Finset.filter_eq_empty_iff, not_not]
      intro l hl
      exact hleaves ▸ hl
    · simp only [pendingAdds, hpost, Finset.filter_eq_empty_iff, not_and_or, not_not]
      intro l hl
      have hl : l ∈ s.memberLeafSet e.core.timestamp := hl
      exact MlsGroupRecord.mem_leaves.mp (hleaves ▸ hl)

open SampleLog

def aliceReset : Event :=
  nextEvent (signed (twoMembers ++
      [⟨alice, a0, 3, .mlsWelcome ⟨7, 1, "", key bob, device b0, []⟩⟩]))
    ⟨alice, a0, 3, .mlsGroupReset ⟨7, 1, [ref alice a0 4], 0⟩⟩

theorem reset_nonSelective_alice :
    let s := stateOf (twoMembers ++
      [⟨alice, a0, 3, .mlsWelcome ⟨7, 1, "", key bob, device b0, []⟩⟩])
    NonSelective s aliceReset (s.afterEvent crypto aliceReset) 7 :=
  (reset_nonSelective_iff (p := ⟨7, 1, [ref alice a0 4], 0⟩) (reachable_stateAfter _)
    (apply_afterEvent (by decide +kernel)) rfl).mpr (by decide +kernel)

/-- Alice leaves her own server and resets the group of its only channel. -/
def ownerLeft : List Entry :=
  [⟨alice, a0, 1, cert alice a0 none⟩,
   ⟨alice, a0, 1, .channelCreated ⟨7, "sealed", "text", .e2ee, none⟩⟩,
   ⟨alice, a0, 1, .memberRemoved (key alice)⟩]

def ownerReset : Event :=
  nextEvent (signed ownerLeft) ⟨alice, a0, 2, .mlsGroupReset ⟨7, 1, [], 0⟩⟩

/-- The reset is accepted, and the new group holds the leaf of somebody who is no member. -/
theorem reset_by_departed_owner :
    Reachable crypto genesis (stateOf ownerLeft) ∧
      ((stateOf ownerLeft).apply crypto ownerReset).isOk ∧
      (stateOf ownerLeft).memberLeafSet ownerReset.core.timestamp = ∅ ∧
      ((stateOf ownerLeft).afterEvent crypto ownerReset).leavesConfirmed 7 =
        {(key alice, device a0)} ∧
      ¬NonSelective (stateOf ownerLeft) ownerReset
        ((stateOf ownerLeft).afterEvent crypto ownerReset) 7 := by
  have hempty : (stateOf ownerLeft).memberLeafSet ownerReset.core.timestamp = ∅ := by
    decide +kernel
  have hleaf : ((stateOf ownerLeft).afterEvent crypto ownerReset).leavesConfirmed 7 =
      {(key alice, device a0)} := by decide +kernel
  refine ⟨reachable_stateAfter _, by decide +kernel, hempty, hleaf, fun h => ?_⟩
  have hcover := h.cover
  rw [hempty, hleaf, Finset.union_eq_empty] at hcover
  exact Finset.singleton_ne_empty _ hcover.1

end GroupReset
