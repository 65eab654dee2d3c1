import Farder.GroupRefinement
import Farder.SampleLog

/-! # Sealed content

Sealed content is accepted only while the group holds no leaf that it should not hold, from a
confirmed leaf, in the current epoch, and within the budget of that epoch. A banned, removed
or revoked leaf therefore seals its channel until a commit or a reset takes it out, or its
holder is back. -/
namespace SealedContent

open EventLog EventLog.LogState

variable {K : Crypto} {g : Genesis} {s s' t : LogState} {e : Event} {c : ℕ} {leaf : Leaf}
  {tr : List (Transition LogState Event)}

def leavesOf (s : LogState) (c : ℕ) : Finset Leaf :=
  s.leavesConfirmed c ∪ s.pendingConfirmations c

def eventsSinceLastCommit (s : LogState) (c : ℕ) : ℕ :=
  ((s.mlsGroups.lookup c).map MlsGroupRecord.eventsSinceLastCommit).getD 0

def expels (e : Event) (leaf : Leaf) : Bool :=
  match e.core.payload with
  | .memberBanned member => member = leaf.1
  | .memberRemoved member => member = leaf.1
  | .deviceRevoked device => device = leaf.2
  | _ => false

/-- The transition takes the leaf out of the group, by an applied commit or a reset. -/
def TakesOut (c : ℕ) (leaf : Leaf) (x : Transition LogState Event) : Prop :=
  leaf ∈ leavesOf x.pre c ∧ leaf ∉ leavesOf x.post c ∧
    ((x.pre.appliedCommit c x.event).isSome ∨ (x.event.resetOf c).isSome)

def Admits (pk : PublicKey) (x : Transition LogState Event) : Prop :=
  ¬x.pre.IsFullMember pk ∧ x.post.IsFullMember pk

theorem keyGroup_leaves : (s.keyGroup c).leaves = leavesOf s c := by
  rw [leavesOf, ← keyGroup_confirmed, ← keyGroup_pending]
  rfl

theorem keyGroup_spent : (s.keyGroup c).spent = eventsSinceLastCommit s c := by
  cases hg : s.mlsGroups.lookup c <;>
    simp [keyGroup, eventsSinceLastCommit, hg, KeyGroup.initial]

/-! ## Sealed until rekey -/

theorem gates_of_sealed {n k : ℕ} (h : s.apply K e = .ok s')
    (hsealed : e.sealedAs c = some (n, k)) :
    leavesOf s c ⊆ s.memberLeafSet e.core.timestamp ∧ e.leaf ∈ s.leavesConfirmed c ∧
      ∃ group, s.mlsGroups.lookup c = some group ∧ n = group.generation ∧ k = group.epoch := by
  obtain ⟨group, hg, hsend⟩ := sendAuthorized_of_apply h hsealed
  obtain ⟨hconf, hleaves, -, -⟩ := hsend.enabled hg
  rw [← keyGroup_of_lookup hg] at hleaves hconf
  rw [keyGroup_confirmed] at hconf
  exact ⟨keyGroup_leaves ▸ hleaves, hconf, group, hg, hsend.generation, hsend.epoch⟩

theorem expelled (h : Step K s e s') (hexp : expels e leaf) :
    ¬s'.IsFullMember leaf.1 ∨ leaf.2 ∈ s'.revokedDevices := by
  obtain ⟨key, m, -, heff, rfl⟩ := apply_cases h
  have hm : ¬m.IsFullMember leaf.1 ∨ leaf.2 ∈ m.revokedDevices := by
    cases heff with
    | memberBanned member hp =>
      obtain rfl : member = leaf.1 := by simpa [expels, hp] using hexp
      exact .inl fun hfull => Finset.notMem_erase _ _ hfull.1
    | memberRemoved member hp =>
      obtain rfl : member = leaf.1 := by simpa [expels, hp] using hexp
      exact .inl fun hfull => Finset.notMem_erase _ _ hfull.1
    | deviceRevoked device record hp =>
      obtain rfl : device = leaf.2 := by simpa [expels, hp] using hexp
      exact .inr (Finset.mem_insert_self _ _)
    | _ => simp_all [expels]
  exact hm

/-- Over a run a leaf stays in its group until a commit or a reset takes it out. -/
theorem leaf_stays {owner : PublicKey} (hs : Invariant owner s)
    (h : Execution (Step K) s tr t) (hl : leaf ∈ leavesOf s c) :
    leaf ∈ leavesOf t c ∨ ∃ x ∈ tr, TakesOut c leaf x := by
  rcases h.persists (fun u => leaf ∈ leavesOf u c) hl with hend | ⟨x, hx, hpre, hpost⟩
  · exact .inl hend
  · have hinv := (h.invariant_of_mem hs (fun _ _ _ => step_preserves_invariant) hx).1
    have hstep := step_groupStep hinv (h.step_of_mem hx) c
    refine .inr ⟨x, hx, hpre, hpost, ?_⟩
    rw [← keyGroup_leaves] at hpre hpost
    rcases KeyGroup.leaf_lost hstep hpre hpost with ⟨cm, hcm⟩ | ⟨author, staged, hreset⟩
    · obtain ⟨p, hp, -⟩ := groupAction_eq_commit.mp hcm
      exact .inl (by simp [hp])
    · obtain ⟨p, hp, -⟩ := groupAction_eq_reset.mp hreset
      exact .inr (by simp [hp])

/-- In every run, accepted sealed content finds the gates open; and after an expulsion of a
leaf it is accepted, whatever timestamp it claims, only when a commit or a reset has taken the
leaf out since, or its holder has become a full member again and the device is not revoked. -/
theorem sealed_until_rekey {n k : ℕ} (h : Run K g tr s) (hstep : s.apply K e = .ok s')
    (hsealed : e.sealedAs c = some (n, k)) :
    (leavesOf s c ⊆ s.memberLeafSet e.core.timestamp ∧ e.leaf ∈ s.leavesConfirmed c ∧
      ∃ group, s.mlsGroups.lookup c = some group ∧ n = group.generation ∧ k = group.epoch) ∧
    ∀ a x b leaf, tr = a ++ x :: b → expels x.event leaf → leaf ∈ leavesOf x.post c →
      (∃ z ∈ b, TakesOut c leaf z) ∨
      ((∃ z ∈ b, Admits leaf.1 z) ∧ s.IsFullMember leaf.1 ∧ leaf.2 ∉ s.revokedDevices) := by
  have hgates := gates_of_sealed hstep hsealed
  refine ⟨hgates, ?_⟩
  rintro a x b leaf rfl hexp hl
  have hinv := reachable_invariant ⟨_, h⟩
  obtain ⟨ha, hx, hb⟩ := h.split_at
  have hpost := step_preserves_invariant (reachable_invariant ⟨a, ha⟩) hx
  rcases leaf_stays hpost hb hl with hend | hout
  · -- The leaf is still there, so the gates find its holder a full member again.
    have hplace := mem_memberLeafSet.mp (hgates.1 hend)
    have hfull : s.IsFullMember leaf.1 :=
      ⟨hplace.1, hinv.membership.member_not_pending _ hplace.1⟩
    have hlive : leaf.2 ∉ s.revokedDevices := (mem_judgedLiveDevices.mp hplace.2).2.1
    refine .inr ⟨?_, hfull, hlive⟩
    rcases expelled hx hexp with hgone | hrevoked
    · rcases hb.persists (fun u => ¬u.IsFullMember leaf.1) hgone with hnot | ⟨z, hz, hpre, hpost⟩
      · exact absurd hfull hnot
      · exact ⟨z, hz, hpre, not_not.mp hpost⟩
    · have hkept : leaf.2 ∈ s.revokedDevices :=
        hb.invariant (I := fun u => leaf.2 ∈ u.revokedDevices) hrevoked
          fun _ _ _ hd hstep => revokedDevices_step hstep hd
      exact absurd hkept hlive
  · exact .inl hout

open SampleLog in
/-- Bob is banned, and Alice's commit takes his leaf out. -/
def bobExpelled : List Entry :=
  twoMembers ++ [⟨alice, a0, 3, .memberBanned (key bob)⟩,
    ⟨alice, a0, 3, commit 0 1 [] [⟨key bob, device b0⟩]⟩]

open SampleLog in
/-- Alice's next message is accepted because that commit came before it. -/
theorem sealed_until_rekey_bob :
    let e := nextEvent (signed bobExpelled)
      ⟨alice, a0, 3, .messagePostedE2ee ⟨7, 0, 2, [], none, [], ""⟩⟩
    ((stateOf bobExpelled).apply crypto e).isOk ∧
      ∃ z ∈ accepted crypto genesis (signed bobExpelled), TakesOut 7 (key bob, device b0) z := by
  intro e
  have hok : ((stateOf bobExpelled).apply crypto e).isOk := by decide +kernel
  refine ⟨hok, ?_⟩
  have hexpelled : ∃ x ∈ accepted crypto genesis (signed bobExpelled),
      expels x.event (key bob, device b0) ∧ (key bob, device b0) ∈ leavesOf x.post 7 := by
    decide +kernel
  obtain ⟨x, hx, hexp, hl⟩ := hexpelled
  obtain ⟨a, b, hsplit⟩ := List.append_of_mem hx
  rcases (sealed_until_rekey (c := 7) (n := 0) (k := 2) (run_accepted (signed bobExpelled))
    (apply_afterEvent hok) rfl).2 a x b _ hsplit hexp hl with ⟨z, hz, hout⟩ | ⟨-, hfull, -⟩
  · exact ⟨z, by simp [hsplit, hz], hout⟩
  · exact absurd hfull (by decide +kernel)

/-! ## The budget of an epoch -/

/-- In every window of a run without an applied commit or a reset of the channel, at most
`freshnessCeilingEvents` sealed events are accepted; each spends one unit of the budget, and no
other event changes it. -/
theorem freshness_budget (hs : Reachable K g s) (h : Execution (Step K) s tr t)
    (hcommit : ∀ x ∈ tr, x.pre.appliedCommit c x.event = none)
    (hreset : ∀ x ∈ tr, x.event.resetOf c = none) :
    tr.countP (fun x => x.event.SealedIn c) ≤ freshnessCeilingEvents ∧
      ∀ x ∈ tr, eventsSinceLastCommit x.post c =
        if x.event.SealedIn c then eventsSinceLastCommit x.pre c + 1
        else eventsSinceLastCommit x.pre c := by
  have hinv := reachable_invariant hs
  constructor
  · have hgroup := execution_groupStep hinv h c
    have hle := KeyGroup.sends_le hgroup
      (List.forall_mem_map.mpr fun x hx => groupAction_ne_commit (hcommit x hx))
      (List.forall_mem_map.mpr fun x hx => groupAction_ne_reset (hreset x hx))
    rw [List.countP_map] at hle
    refine (List.countP_mono_left fun x _ hx => ?_).trans hle
    exact isSend_groupAction.mpr (of_decide_eq_true hx)
  · intro x hx
    have hpre := (h.invariant_of_mem hinv (fun _ _ _ => step_preserves_invariant) hx).1
    obtain ⟨hsend, hother⟩ := KeyGroup.spent_step (step_groupStep hpre (h.step_of_mem hx) c)
      (groupAction_ne_commit (hcommit x hx)) (groupAction_ne_reset (hreset x hx))
    rw [keyGroup_spent, keyGroup_spent] at hsend hother
    split_ifs with hsealed
    · exact (hsend (isSend_groupAction.mpr hsealed)).2
    · exact hother (Bool.eq_false_iff.mpr fun hs => hsealed (isSend_groupAction.mp hs))

open SampleLog in
/-- Alice's first message spends one unit of the budget of the sample channel. -/
theorem freshness_budget_message :
    let s := stateOf twoMembers
    let e := nextEvent (signed twoMembers)
      ⟨alice, a0, 3, .messagePostedE2ee ⟨7, 0, 1, [], none, [], ""⟩⟩
    eventsSinceLastCommit (s.afterEvent crypto e) 7 = eventsSinceLastCommit s 7 + 1 := by
  intro s e
  have hstep : Step crypto s e (s.afterEvent crypto e) := apply_afterEvent (by decide +kernel)
  have hreach : Reachable crypto genesis s := reachable_stateAfter _
  have hsealed : e.SealedIn 7 := rfl
  have hspent := (freshness_budget (c := 7) hreach (Execution.single hstep) (by decide +kernel)
    (by decide +kernel)).2 _ (List.mem_singleton_self _)
  simpa only [if_pos hsealed] using hspent

end SealedContent
