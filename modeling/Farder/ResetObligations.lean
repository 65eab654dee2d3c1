import Farder.GroupReset

/-! # Obligations of a reset

A reset owes every leaf it staged a confirmed place. Sealed content waits until each of them
has confirmed or has been judged out of good standing by a commit. A confirmed leaf that its
own holder removes while in good standing is owed again, so a finished reset stays finished
exactly while no commit does that. -/
namespace ResetObligations

open EventLog EventLog.LogState GroupReset

variable {K : Crypto} {g : Genesis} {s s' t : LogState} {e : Event} {c : ℕ}
  {tr : List (Transition LogState Event)}

def ResetIncomplete (s : LogState) (c : ℕ) : Prop :=
  ∃ group ∈ s.mlsGroups.lookup c, group.ResetIncomplete

instance (s : LogState) (c : ℕ) : Decidable (ResetIncomplete s c) :=
  inferInstanceAs (Decidable (∃ group ∈ s.mlsGroups.lookup c, group.ResetIncomplete))

def Bootstraps (s : LogState) (c : ℕ) : Prop :=
  ∃ group ∈ s.mlsGroups.lookup c, group.Bootstraps

instance (s : LogState) (c : ℕ) : Decidable (Bootstraps s c) :=
  inferInstanceAs (Decidable (∃ group ∈ s.mlsGroups.lookup c, group.Bootstraps))

theorem keyGroup_complete : (s.keyGroup c).Complete ↔ ¬ResetIncomplete s c := by
  cases hg : s.mlsGroups.lookup c with
  | none => simp [keyGroup, ResetIncomplete, hg, KeyGroup.State.Complete, KeyGroup.initial]
  | some group => simp [keyGroup_of_lookup hg, ResetIncomplete, hg]

theorem keyGroup_owed : (s.keyGroup c).owed = resetWelcomed s c := by
  cases hg : s.mlsGroups.lookup c <;> simp [keyGroup, resetWelcomed, hg, KeyGroup.initial]

theorem bootstraps_of_appliedCommit {p : MlsCommit} (hp : s.appliedCommit c e = some p) :
    (s.keyGroup c).Bootstraps ↔ Bootstraps s c := by
  obtain ⟨hpay, rfl, hv⟩ := appliedCommit_eq_some.mp hp
  simp only [checkPayloadAuthz, hpay] at hv
  obtain ⟨group, hg, -⟩ := checkMlsCommit_eq_ok.mp hv
  simp [keyGroup_of_lookup hg, Bootstraps, hg]

/-! ## A finished reset -/

/-- The transition removes no leaf that is owed and in good standing, unless the leaf's own
commit founds the group and so confirms it again. -/
def KeepsObligations (c : ℕ) (x : Transition LogState Event) : Prop :=
  ∀ p ∈ x.pre.appliedCommit c x.event, ∀ rem ∈ p.removes, rem.leaf ∈ resetWelcomed x.pre c →
    x.pre.LeafHolderInGoodStanding rem.identity rem.device x.event.core.timestamp →
    Bootstraps x.pre c ∧ rem.leaf = x.event.leaf

instance (c : ℕ) (x : Transition LogState Event) : Decidable (KeepsObligations c x) := by
  unfold KeepsObligations
  infer_instance

theorem reset_finished_step_iff {owner : PublicKey} {x : Transition LogState Event}
    (hs : Invariant owner x.pre) (h : Step K x.pre x.event x.post)
    (hreset : x.event.resetOf c = none) (hdone : ¬ResetIncomplete x.pre c) :
    ¬ResetIncomplete x.post c ↔ KeepsObligations c x := by
  rw [← keyGroup_complete, KeyGroup.step_complete_iff (step_groupStep hs h c)
    (keyGroup_complete.mpr hdone) (groupAction_ne_reset hreset)]
  constructor
  · intro hall p hp rem hrem howed hgood
    obtain ⟨-, rfl, -⟩ := appliedCommit_eq_some.mp hp
    have hleaf : rem.leaf ∈ (x.pre.keyGroup p.channelId).owed := keyGroup_owed ▸ howed
    have hexc : rem.leaf ∉ x.pre.excused p.channelId x.event.core.timestamp := by
      rw [mem_excused (.inr hleaf), not_not]
      exact hgood
    obtain ⟨hboot, hown⟩ := hall _ (groupAction_eq_commit.mpr ⟨p, hp, rfl⟩) rem.leaf
      (List.mem_toFinset.mpr (List.mem_map_of_mem hrem)) hleaf hexc
    exact ⟨(bootstraps_of_appliedCommit hp).mp hboot, hown⟩
  · rintro hkeeps cm hcm l hrem howed hexc
    obtain ⟨p, hp, rfl⟩ := groupAction_eq_commit.mp hcm
    obtain ⟨-, rfl, -⟩ := appliedCommit_eq_some.mp hp
    obtain ⟨rem, hmem, rfl⟩ := List.mem_map.mp (List.mem_toFinset.mp hrem)
    have hgood : x.pre.LeafHolderInGoodStanding rem.identity rem.device
        x.event.core.timestamp := by
      by_contra hbad
      exact hexc ((mem_excused (.inr howed)).mpr hbad)
    obtain ⟨hboot, hown⟩ := hkeeps p hp rem hmem (keyGroup_owed ▸ howed) hgood
    exact ⟨(bootstraps_of_appliedCommit hp).mpr hboot, hown⟩

/-- In every run between two resets of a channel, from a state where the reset is complete:
it is complete in all later states exactly when every step keeps the obligations. -/
theorem reset_stays_finished_iff (hs : Reachable K g s) (h : Execution (Step K) s tr t)
    (hreset : ∀ x ∈ tr, x.event.resetOf c = none) (hdone : ¬ResetIncomplete s c) :
    (∀ x ∈ tr, ¬ResetIncomplete x.post c) ↔ ∀ x ∈ tr, KeepsObligations c x := by
  refine h.forall_post_iff (fun s => ¬ResetIncomplete s c) (KeepsObligations c)
    (reachable_invariant hs) hdone (fun _ _ _ => step_preserves_invariant) ?_
  intro x hx hinv hpre hstep
  exact reset_finished_step_iff hinv hstep (hreset x hx) hpre

open SampleLog in
/-- Alice adds her second device by a reset, and it confirms. -/
def finishedReset : List Entry :=
  [⟨alice, a0, 1, cert alice a0 none⟩,
   ⟨alice, a1, 1, cert alice a1 none⟩,
   ⟨alice, a0, 1, .channelCreated ⟨7, "sealed", "text", .e2ee, none⟩⟩,
   ⟨alice, a0, 1, .mlsWelcome ⟨7, 1, "", key alice, device a1, []⟩⟩,
   ⟨alice, a0, 1, .mlsGroupReset ⟨7, 1, [ref alice a0 2], 0⟩⟩,
   ⟨alice, a1, 1, .mlsLeafConfirmed ⟨7, 1, 1, 0, 0⟩⟩]

open SampleLog in
def aliceCommit (removes : List DeclaredRemove) : Event :=
  nextEvent (signed finishedReset) ⟨alice, a0, 2, commit 1 1 [] removes⟩

open SampleLog in
theorem reset_stays_finished_rekey :
    let s := stateOf finishedReset
    ¬ResetIncomplete (s.afterEvent crypto (aliceCommit [])) 7 := by
  have hstep : Step crypto (stateOf finishedReset) (aliceCommit [])
    ((stateOf finishedReset).afterEvent crypto (aliceCommit [])) :=
      apply_afterEvent (by decide +kernel)
  exact (reset_stays_finished_iff (c := 7) (reachable_stateAfter _) (Execution.single hstep)
    (by decide +kernel) (by decide +kernel)).mpr (by decide +kernel) _ (List.mem_singleton_self _)

open SampleLog in
/-- Alice's first device takes out her second one, which the reset staged: the finished reset
is incomplete again, and the channel sealed. -/
theorem reset_reopened_by_self_removal :
    let s := stateOf finishedReset
    let e := aliceCommit [⟨key alice, device a1⟩]
    Reachable crypto genesis s ∧ (s.apply crypto e).isOk ∧ e.resetOf 7 = none ∧
      ¬ResetIncomplete s 7 ∧ ResetIncomplete (s.afterEvent crypto e) 7 :=
  ⟨reachable_stateAfter _, by decide +kernel, by decide +kernel, by decide +kernel,
    by decide +kernel⟩

/-! ## Obligations are met before sealed content -/

/-- The leaf has confirmed itself, founded the group by its own commit, or been judged out of
good standing by a commit. -/
def Settles (c : ℕ) (leaf : Leaf) (x : Transition LogState Event) : Prop :=
  (∃ p, x.event.core.payload = .mlsLeafConfirmed p ∧ p.channelId = c ∧ x.event.leaf = leaf) ∨
    ∃ p, x.pre.appliedCommit c x.event = some p ∧
      ((Bootstraps x.pre c ∧ x.event.leaf = leaf) ∨
        ¬x.pre.LeafHolderInGoodStanding leaf.1 leaf.2 x.event.core.timestamp)

theorem settles_of_discharges {leaf : Leaf} {x : Transition LogState Event}
    (h : KeyGroup.Discharges leaf (x.pre.keyGroup c) (x.pre.groupAction c x.event)) :
    Settles c leaf x := by
  rcases h with hconf | ⟨cm, hcm, hwhy⟩
  · obtain ⟨p, hp, hc, rfl⟩ := groupAction_eq_confirm.mp hconf
    exact .inl ⟨p, hp, hc, rfl⟩
  · obtain ⟨p, hp, rfl⟩ := groupAction_eq_commit.mp hcm
    refine .inr ⟨p, hp, ?_⟩
    rcases hwhy with ⟨hboot, hown⟩ | hexc
    · exact .inl ⟨(bootstraps_of_appliedCommit hp).mp hboot, hown⟩
    · exact .inr (Finset.mem_filter.mp hexc).2

theorem complete_of_sealed {n k : ℕ} (h : s.apply K e = .ok s')
    (hsealed : e.sealedAs c = some (n, k)) :
    (s.keyGroup c).Complete ∧ (s.keyGroup c).generation = n := by
  obtain ⟨group, hg, hsend⟩ := sendAuthorized_of_apply h hsealed
  rw [keyGroup_of_lookup hg]
  exact ⟨(toKeyGroup_complete group).mpr hsend.complete, hsend.generation.symm⟩

theorem map_groupTransition_eq {a b : List (Transition (KeyGroup.State Leaf Digest)
    (KeyGroup.Action Leaf Digest))} {r : Transition (KeyGroup.State Leaf Digest)
    (KeyGroup.Action Leaf Digest)} (h : tr.map (groupTransition c) = a ++ r :: b) :
    ∃ tr₁ x tr₂, tr = tr₁ ++ x :: tr₂ ∧ groupTransition c x = r ∧
      tr₂.map (groupTransition c) = b := by
  obtain ⟨tr₁, rest, rfl, -, hrest⟩ := List.map_eq_append_iff.mp h
  obtain ⟨x, tr₂, rfl, hx, hb⟩ := List.map_eq_cons_iff.mp hrest
  exact ⟨tr₁, x, tr₂, rfl, hx, hb⟩

theorem staged_settled {n k : ℕ} (h : Run K g tr s) (hstep : s.apply K e = .ok s')
    (hsealed : e.sealedAs c = some (n, k)) (hn : 0 < n) :
    ∃ tr₁ r q tr₂, tr = tr₁ ++ r :: tr₂ ∧ r.event.resetOf c = some q ∧ q.newGeneration = n ∧
      (∀ x ∈ tr₂, x.event.resetOf c = none) ∧
      ∀ leaf ∈ r.pre.stagedBy q, ∃ x ∈ tr₂, Settles c leaf x := by
  obtain ⟨hcomplete, hgen⟩ := complete_of_sealed hstep hsealed
  have hgroup := execution_groupStep (invariant_genesis g) h c
  rw [keyGroup_genesis] at hgroup
  obtain ⟨a, r, b, author, staged, htr, hr, hb, hpost⟩ := KeyGroup.last_reset hgroup (hgen ▸ hn)
  obtain ⟨tr₁, x, tr₂, rfl, rfl, rfl⟩ := map_groupTransition_eq htr
  obtain ⟨q, hq, -, rfl⟩ := groupAction_eq_reset.mp hr
  refine ⟨tr₁, x, q, tr₂, rfl, hq, ?_, fun y hy => ?_, fun leaf hleaf => ?_⟩
  · obtain ⟨hpay, rfl⟩ := resetOf_eq_some.mp hq
    obtain ⟨group, -, -, hg⟩ := reset_of_apply (h.step_of_mem (x := x) (by simp)) hpay
    have hpost : (x.post.keyGroup q.channelId).generation = _ := hpost
    rw [keyGroup_of_lookup hg, hgen] at hpost
    exact hpost
  · rw [Option.eq_none_iff_forall_ne_some]
    intro q' hq'
    exact hb _ (List.mem_map_of_mem hy) _ _ (groupAction_eq_reset.mpr ⟨q', hq', rfl, rfl⟩)
  · rw [htr] at hgroup
    obtain ⟨y, hy, hdis⟩ := KeyGroup.staged_discharged hgroup hr hb hcomplete hleaf
    obtain ⟨z, hz, rfl⟩ := List.mem_map.mp hy
    exact ⟨z, hz, settles_of_discharges hdis⟩

theorem dropped_stays_sealed {owner : PublicKey} {p : MlsCommit} {leaf : Leaf}
    (hs : Invariant owner s) (h : s.apply K e = .ok s') (hp : s.appliedCommit c e = some p)
    (howed : leaf ∈ resetWelcomed s c)
    (hgood : s.LeafHolderInGoodStanding leaf.1 leaf.2 e.core.timestamp)
    (hdrop : leaf ∉ s'.leavesConfirmed c) {e₂ : Event} {s₂ : LogState} (hsealed : e₂.SealedIn c) :
    s'.apply K e₂ ≠ .ok s₂ := by
  intro h₂
  obtain ⟨⟨n, k⟩, hcited⟩ := Option.isSome_iff_exists.mp hsealed
  obtain ⟨hcomplete, -⟩ := complete_of_sealed h₂ hcited
  obtain ⟨-, hnext⟩ := step_groupStep hs h c
  rw [groupAction_eq_commit.mpr ⟨p, hp, rfl⟩] at hnext
  rw [← keyGroup_confirmed, hnext] at hdrop
  rw [hnext] at hcomplete
  rw [← keyGroup_owed] at howed
  obtain ⟨-, rfl, -⟩ := appliedCommit_eq_some.mp hp
  have hexc : leaf ∉ s.excused p.channelId e.core.timestamp := by
    rw [mem_excused (.inr howed), not_not]
    exact hgood
  exact KeyGroup.dropped_not_complete howed hexc hdrop hcomplete

/-- In every run, sealed content of a generation above zero is accepted only after every leaf
that the generation's reset staged has been settled in it; and a commit that drops a staged,
unconfirmed leaf of a member in good standing is followed by no sealed content. -/
theorem no_silent_partition (h : Run K g tr s) (hstep : s.apply K e = .ok s') :
    (∀ n k, e.sealedAs c = some (n, k) → 0 < n →
      ∃ tr₁ r q tr₂, tr = tr₁ ++ r :: tr₂ ∧ r.event.resetOf c = some q ∧ q.newGeneration = n ∧
        (∀ x ∈ tr₂, x.event.resetOf c = none) ∧
        ∀ leaf ∈ r.pre.stagedBy q, ∃ x ∈ tr₂, Settles c leaf x) ∧
    (∀ p, s.appliedCommit c e = some p → ∀ rem ∈ p.removes, rem.leaf ∈ resetWelcomed s c →
      rem.leaf ∉ s.leavesConfirmed c →
      s.LeafHolderInGoodStanding rem.identity rem.device e.core.timestamp →
      rem.leaf ∉ s'.leavesConfirmed c →
      ∀ e₂ s₂, e₂.SealedIn c → s'.apply K e₂ ≠ .ok s₂) := by
  refine ⟨fun n k hsealed hn => staged_settled h hstep hsealed hn, ?_⟩
  intro p hp rem _ howed _ hgood hdrop e₂ s₂ hsealed
  exact dropped_stays_sealed (reachable_invariant ⟨tr, h⟩) hstep hp howed hgood hdrop hsealed

open SampleLog in
/-- Alice's first message of generation 1, after her second device has confirmed. -/
theorem no_silent_partition_finishedReset :
    ∃ tr₁ r q tr₂, accepted crypto genesis (signed finishedReset) = tr₁ ++ r :: tr₂ ∧
      r.event.resetOf 7 = some q ∧ q.newGeneration = 1 ∧
      (∀ x ∈ tr₂, x.event.resetOf 7 = none) ∧
      ∀ leaf ∈ r.pre.stagedBy q, ∃ x ∈ tr₂, Settles 7 leaf x := by
  have hstep : (stateOf finishedReset).apply crypto (nextEvent (signed finishedReset)
      ⟨alice, a0, 2, .messagePostedE2ee ⟨7, 1, 1, [], none, [], ""⟩⟩) = .ok _ :=
    apply_afterEvent (by decide +kernel)
  exact (no_silent_partition (run_accepted _) hstep).1 1 1 rfl (by decide)

end ResetObligations
