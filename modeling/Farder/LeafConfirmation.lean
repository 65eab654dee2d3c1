import Farder.GroupStep
import Farder.SampleLog

/-! # Confirmations and the tree they quote

A joiner confirms its leaf by quoting the tree of a recorded commit. The fold looks the cited
epoch up among all commits of the generation and does not remember which commit added the
leaf; and a leaf that the reset staged may quote the reset's tree even after it was taken out
and added again. A confirmation is bound to a tree that contains its leaf exactly when it
cites an epoch of the group from the adding commit on. -/
namespace LeafConfirmation

open EventLog EventLog.LogState

variable {K : Crypto} {g₀ : Genesis} {s t : LogState} {e : Event} {c : ℕ} {l : Leaf}
  {g g' : MlsGroupRecord} {tr a : List (Transition LogState Event)}
  {x : Transition LogState Event} {p : MlsLeafConfirmed}

theorem lawfulBEq_leaf : LawfulBEq Leaf := inferInstance

attribute [local instance] lawfulBEq_leaf

/-- The transition makes the leaf pending: an applied commit adds it, or a reset stages it. -/
def putsPending (c : ℕ) (l : Leaf) (y : Transition LogState Event) : Bool :=
  (y.pre.appliedCommit c y.event).any (fun q => l ∈ q.adds.map DeclaredAdd.leaf) ||
    (y.event.resetOf c).any fun q => l ∈ y.pre.stagedBy q

/-- The last transition of a run that makes the leaf pending. -/
def lastPut (c : ℕ) (l : Leaf) (tr : List (Transition LogState Event)) :
    Option (Transition LogState Event) :=
  tr.reverse.find? (putsPending c l)

/-- The tree hash is that of the commit recorded under the epoch. -/
def Quotes (s : LogState) (c epoch : ℕ) (treeHash : Digest) : Prop :=
  ∃ g, s.mlsGroups.lookup c = some g ∧
    ∃ r, g.commitsByEpoch.lookup epoch = some r ∧ r.postTreeHash = treeHash

/-- After the run `tr`, the confirmation `p` of the leaf quotes a tree that contains it: the
tree of a commit no older than the one that added the leaf, or of the reset that staged it. -/
def BoundToTree (tr : List (Transition LogState Event)) (s : LogState) (l : Leaf)
    (p : MlsLeafConfirmed) : Prop :=
  ∃ y, lastPut p.channelId l tr = some y ∧
    (y.post.keyGroup p.channelId).generation = p.generation ∧
    (∀ q, y.pre.appliedCommit p.channelId y.event = some q →
      q.epoch + 1 ≤ p.epoch ∧ Quotes s p.channelId p.epoch p.treeHash) ∧
    (∀ q, y.event.resetOf p.channelId = some q →
      p.treeHash = q.postTreeHash ∨ ∃ epoch, Quotes s p.channelId epoch p.treeHash)

/-- If a commit added the leaf, the confirmation cites an epoch from the one that it created
to the group's current one. -/
def CitesSinceAdd (tr : List (Transition LogState Event)) (s : LogState) (l : Leaf)
    (p : MlsLeafConfirmed) : Prop :=
  ∀ y ∈ lastPut p.channelId l tr, ∀ q ∈ y.pre.appliedCommit p.channelId y.event,
    q.epoch + 1 ≤ p.epoch ∧ p.epoch ≤ (s.keyGroup p.channelId).epoch

instance (tr : List (Transition LogState Event)) (s : LogState) (l : Leaf)
    (p : MlsLeafConfirmed) : Decidable (CitesSinceAdd tr s l p) :=
  inferInstanceAs (Decidable (∀ y ∈ _, ∀ q ∈ _, _ ∧ _))

/-! ## The record of a generation's commits -/

structure EpochsRecorded (g : MlsGroupRecord) : Prop where
  first : KeyGroup.firstEpoch g.generation ≤ g.epoch
  recorded : ∀ k, (g.commitsByEpoch.lookup k).isSome ↔
    KeyGroup.firstEpoch g.generation < k ∧ k ≤ g.epoch

theorem epochsRecorded_step (h : GroupEffect K s e c g g') (hg : EpochsRecorded g) :
    EpochsRecorded g' := by
  obtain ⟨hfirst, hrec⟩ := hg
  cases h with
  | commit q hq hcommit =>
    have hepoch : q.epoch = g.epoch := hcommit.epoch
    constructor
    · show KeyGroup.firstEpoch g.generation ≤ q.epoch + 1
      omega
    · intro k
      show ((g.commitsByEpoch.insert (q.epoch + 1) _).lookup k).isSome ↔
        KeyGroup.firstEpoch g.generation < k ∧ k ≤ q.epoch + 1
      rw [FiniteMap.lookup_insert_eq]
      split_ifs with hk
      · simp only [Option.isSome_some, true_iff]
        omega
      · rw [hrec]
        omega
  | reset q hq hreset =>
    have hgen : q.newGeneration = g.generation + 1 := hreset.generation
    constructor
    · show KeyGroup.firstEpoch q.newGeneration ≤ 1
      simp [KeyGroup.firstEpoch, hgen]
    · intro k
      show ((∅ : FiniteMap ℕ CommitRecord).lookup k).isSome ↔
        KeyGroup.firstEpoch q.newGeneration < k ∧ k ≤ 1
      have hone : KeyGroup.firstEpoch q.newGeneration = 1 := by
        simp [KeyGroup.firstEpoch, hgen]
      simp only [Finmap.lookup_empty, Option.isSome_none, Bool.false_eq_true, hone, false_iff]
      omega
  | _ => exact ⟨hfirst, hrec⟩

theorem epochsRecorded (hs : Reachable K g₀ s) (hg : s.mlsGroups.lookup c = some g) :
    EpochsRecorded g := by
  refine group_invariant (P := EpochsRecorded) hs ?_ ?_ c g hg
  · constructor
    · simp [MlsGroupRecord.new, KeyGroup.firstEpoch]
    · intro k
      simp only [MlsGroupRecord.new, KeyGroup.firstEpoch, Finmap.lookup_empty, Option.isSome_none,
        Bool.false_eq_true, if_true, false_iff]
      omega
  · intro s e c g g' _ _ h hrec
    exact epochsRecorded_step h hrec

/-! ## Where a pending leaf comes from -/

theorem lastPut_snoc : lastPut c l (tr ++ [x]) =
    if putsPending c l x then some x else lastPut c l tr := by
  simp only [lastPut, List.reverse_append, List.reverse_singleton, List.singleton_append,
    List.find?_cons]
  split <;> simp_all

/-- One event makes a leaf pending in a way that the history shows, or it was pending before
and the generation goes on. -/
theorem pending_step (hg : s.mlsGroups.lookup c = some g) (h : GroupEffect K s e c g g')
    (hl : l ∈ g'.leavesPending) :
    (putsPending c l ⟨s, e, t⟩ = true ∧
      (∀ q, s.appliedCommit c e = some q → q.epoch = g.epoch ∧ g'.generation = g.generation) ∧
      ∀ q, e.resetOf c = some q → g'.resetExpectedTreeHash = some q.postTreeHash) ∨
    (putsPending c l ⟨s, e, t⟩ = false ∧ l ∈ g.leavesPending ∧ g'.generation = g.generation ∧
      g'.resetExpectedTreeHash = g.resetExpectedTreeHash) := by
  cases h with
  | other hcommit hreset => exact .inr ⟨by simp [putsPending, hcommit, hreset], hl, rfl, rfl⟩
  | commit p hp hcommit =>
    obtain ⟨hpay, -⟩ := appliedCommit_eq_some.mp hp
    have hnone : e.resetOf c = none := by simp [Event.resetOf, hpay]
    by_cases hadd : l ∈ p.adds.map DeclaredAdd.leaf
    · refine .inl ⟨by simp [putsPending, hp, List.mem_map.mp hadd], ?_, by simp [hnone]⟩
      intro q hq
      obtain rfl := Option.some.inj (hp.symm.trans hq)
      exact ⟨hcommit.epoch, rfl⟩
    · have hold : l ∈ g.leavesPending := by
        simp only [MlsGroupRecord.applyCommit] at hl
        split_ifs at hl <;>
          simp only [Finset.mem_erase, Finset.mem_foldl_erase, Finset.mem_foldl_insert] at hl <;>
          tauto
      refine .inr ⟨?_, hold, rfl, rfl⟩
      simp only [putsPending, hp, hnone, Option.any_some, Option.any_none, Bool.or_false, hadd,
        decide_false]
  | welcome p hp =>
    exact .inr ⟨by simp [putsPending, appliedCommit, Event.resetOf, hp], hl, rfl, rfl⟩
  | confirm p hp =>
    exact .inr ⟨by simp [putsPending, appliedCommit, Event.resetOf, hp],
      Finset.mem_of_mem_erase hl, rfl, rfl⟩
  | reset p hp =>
    obtain ⟨hpay, rfl⟩ := resetOf_eq_some.mp hp
    have hnone : s.appliedCommit p.channelId e = none := by simp [appliedCommit, hpay]
    have hstaged : l ∈ s.stagedBy p := by
      rw [stagedBy_of_lookup hg]
      exact hl
    refine .inl ⟨by simp [putsPending, hp, hstaged], by simp [hnone], ?_⟩
    intro q hq
    obtain rfl := Option.some.inj (hp.symm.trans hq)
    rfl
  | tombstone p hp =>
    exact .inr ⟨by simp [putsPending, appliedCommit, Event.resetOf, hp], hl, rfl, rfl⟩
  | sealed n k hsealed =>
    refine .inr ⟨?_, hl, rfl, rfl⟩
    cases hp : e.core.payload <;>
      simp_all [Event.sealedAs, putsPending, appliedCommit, Event.resetOf]

/-- A pending leaf was put there in the group's current generation: by a commit of one of its
epochs, or by the reset whose tree the group expects. -/
theorem pending_put (h : Run K g₀ tr t) (hg : t.mlsGroups.lookup c = some g)
    (hl : l ∈ g.leavesPending) :
    ∃ y, lastPut c l tr = some y ∧ (y.post.keyGroup c).generation = g.generation ∧
      (∀ q, y.pre.appliedCommit c y.event = some q → KeyGroup.firstEpoch g.generation ≤ q.epoch) ∧
      ∀ q, y.event.resetOf c = some q → g.resetExpectedTreeHash = some q.postTreeHash := by
  generalize hs : fromGenesis K g₀ = s at h
  induction h generalizing g with
  | nil =>
    subst hs
    simp [fromGenesis] at hg
  | @snoc t u e tr htr hstep ih =>
    subst hs
    have hreach : Reachable K g₀ t := ⟨tr, htr⟩
    have hinv := reachable_invariant hreach
    cases hg₁ : t.mlsGroups.lookup c with
    | none =>
      obtain ⟨key, m, -, heff, rfl⟩ := apply_cases hstep
      rw [heff.group_new hg hg₁] at hl
      exact absurd hl (Finset.notMem_empty _)
    | some g₁ =>
      obtain ⟨g', hg', heff⟩ := group_step hinv hstep hg₁
      obtain rfl := Option.some.inj (hg'.symm.trans hg)
      rw [lastPut_snoc]
      rcases pending_step (t := u) hg₁ heff hl with
        ⟨hput, hcommit, hreset⟩ | ⟨hput, hold, hgen, htree⟩
      · rw [if_pos hput]
        refine ⟨_, rfl, by rw [keyGroup_of_lookup hg']; rfl, fun q hq => ?_, hreset⟩
        obtain ⟨hepoch, hgen⟩ := hcommit q hq
        rw [hepoch, hgen]
        exact (epochsRecorded hreach hg₁).first
      · rw [if_neg (by simp [hput]), hgen, htree]
        exact ih hg₁ hold

theorem confirmAuthorized_of_accepted (h : s.apply K e = .ok t)
    (hp : e.core.payload = .mlsLeafConfirmed p) :
    ∃ g, s.mlsGroups.lookup p.channelId = some g ∧ ConfirmAuthorized s e p g := by
  obtain ⟨v, hv⟩ := verdict_of_apply h
  simp only [checkPayloadAuthz, hp] at hv
  exact (checkMlsLeafConfirmed_eq_ok.mp hv).2

theorem quoted_tree (hg : s.mlsGroups.lookup p.channelId = some g)
    (h : checkConfirmedTree l g p = .ok ()) :
    Quotes s p.channelId p.epoch p.treeHash ∨
      g.commitsByEpoch.lookup p.epoch = none ∧ g.resetExpectedTreeHash = some p.treeHash := by
  unfold checkConfirmedTree at h
  split at h
  · rename_i r hr
    exact .inl ⟨g, hg, r, hr, Guarded.ensure_eq_ok.mp h⟩
  · rename_i hnone
    split at h
    · rename_i expected _ hexp
      exact .inr ⟨hnone, by rw [hexp, Guarded.ensure_eq_ok.mp h]⟩
    · cases h

/-- In every run, an accepted confirmation is bound to a tree that contains its leaf exactly
when it cites an epoch of the group since the leaf was added. -/
theorem confirmation_bound_iff (h : Run K g₀ (a ++ [x]) t)
    (hp : x.event.core.payload = .mlsLeafConfirmed p) :
    BoundToTree a x.pre x.event.leaf p ↔ CitesSinceAdd a x.pre x.event.leaf p := by
  obtain ⟨hrun, hstep, -⟩ := h.of_snoc
  obtain ⟨g, hg, hconfirm⟩ := confirmAuthorized_of_accepted hstep hp
  have hrec := epochsRecorded ⟨a, hrun⟩ hg
  obtain ⟨y, hy, hgen, hcommit, hreset⟩ := pending_put hrun hg hconfirm.pending
  have hkey := keyGroup_of_lookup hg
  constructor
  · rintro ⟨y', hy', -, hadded, -⟩ z hz q hq
    obtain rfl := Option.some.inj (hy'.symm.trans hz)
    obtain ⟨hle, g', hg', r, hr, -⟩ := hadded q hq
    obtain rfl := Option.some.inj (hg.symm.trans hg')
    refine ⟨hle, ?_⟩
    rw [hkey]
    exact ((hrec.recorded p.epoch).mp (by simp [hr])).2
  · intro hcites
    refine ⟨y, hy, hgen.trans hconfirm.generation.symm, fun q hq => ?_, fun q hq => ?_⟩
    · obtain ⟨hle, hcur⟩ := hcites y hy q hq
      rw [hkey] at hcur
      have hfirst := hcommit q hq
      -- The cited epoch is one that the generation has created, so it is recorded.
      have hsome := (hrec.recorded p.epoch).mpr ⟨by omega, hcur⟩
      refine ⟨hle, (quoted_tree hg hconfirm.tree).resolve_right ?_⟩
      rintro ⟨hnone, -⟩
      simp [hnone] at hsome
    · rcases quoted_tree hg hconfirm.tree with hquote | ⟨-, hexp⟩
      · exact .inr ⟨p.epoch, hquote⟩
      · exact .inl (Option.some.inj (hexp.symm.trans (hreset q hq)))

open SampleLog

/-- Alice commits the empty group's first epoch, and adds Bob with the second. -/
def addedSecond : List Entry :=
  twoMembers.take 6 ++
    [⟨alice, a0, 2, .mlsCommit ⟨7, 0, 0, [], [], [], 0, 1, 10, "", 0⟩⟩,
     ⟨alice, a0, 2, .mlsCommit ⟨7, 0, 1, [], [⟨key bob, device b0, ref bob b0 2⟩], [], 1, 2, 11,
       "", 0⟩⟩]

def bobConfirms (epoch : ℕ) (treeHash : Digest) : Transition LogState Event :=
  let e := nextEvent (signed addedSecond)
    ⟨bob, b0, 2, .mlsLeafConfirmed ⟨7, 0, epoch, treeHash, 0⟩⟩
  ⟨stateOf addedSecond, e, (stateOf addedSecond).afterEvent crypto e⟩

theorem confirmation_bound_addedSecond :
    BoundToTree (accepted crypto genesis (signed addedSecond)) (stateOf addedSecond)
      (key bob, device b0) ⟨7, 0, 2, 11, 0⟩ := by
  have hrun : Run crypto genesis (accepted crypto genesis (signed addedSecond) ++
      [bobConfirms 2 11]) (bobConfirms 2 11).post :=
    (run_accepted _).snoc (apply_afterEvent (by decide +kernel))
  exact (confirmation_bound_iff hrun rfl).mpr (by decide +kernel)

/-- Bob's confirmation with the first epoch's tree, in which he has no leaf, is accepted. -/
theorem confirmation_unbound_addedSecond :
    Run crypto genesis (accepted crypto genesis (signed addedSecond) ++ [bobConfirms 1 10])
        (bobConfirms 1 10).post ∧
      (bobConfirms 1 10).event.core.payload = .mlsLeafConfirmed ⟨7, 0, 1, 10, 0⟩ ∧
      ¬BoundToTree (accepted crypto genesis (signed addedSecond)) (stateOf addedSecond)
        (key bob, device b0) ⟨7, 0, 1, 10, 0⟩ := by
  refine ⟨(run_accepted _).snoc (apply_afterEvent (by decide +kernel)), rfl, ?_⟩
  rintro ⟨y, hy, -, hcommit, -⟩
  have hadd : (lastPut 7 (key bob, device b0) (accepted crypto genesis (signed addedSecond))).bind
      (fun y => (y.pre.appliedCommit 7 y.event).map MlsCommit.epoch) = some 1 := by
    decide +kernel
  rw [show lastPut 7 (key bob, device b0) _ = some y from hy, Option.bind_some,
    Option.map_eq_some_iff] at hadd
  obtain ⟨q, hq, hepoch⟩ := hadd
  have hle := (hcommit q hq).1
  simp only at hle
  omega

end LeafConfirmation
