import Farder.EpochChain
import Farder.EventChains
import Farder.KeyPackageUse
import Farder.LeafConfirmation

/-! # The record of a group

What holds of every group's record in every state that the log reaches: the fields that commits,
confirmations and resets rewrite together fit together, and no device has more live KeyPackages
than it may, nor one that a commit has consumed. -/
namespace GroupRecords

open EventLog EventLog.LogState KeyPackageUse

variable {K : Crypto} {g₀ : Genesis} {s t : LogState} {e : Event} {c : ℕ} {leaf leaf' : Leaf}
  {r : EventRef} {exp exp' : ℕ} {g g' : MlsGroupRecord} {store : KeyPackageStore}
  {tr : List (Transition LogState Event)} {x : Transition LogState Event}

/-- The epoch comes from a commit of the generation, applied on its author's behalf. -/
def CommittedAt (tr : List (Transition LogState Event)) (c generation : ℕ) (pk : PublicKey)
    (epoch : ℕ) : Prop :=
  ∃ x ∈ tr, ∃ p, x.pre.appliedCommit c x.event = some p ∧ p.generation = generation ∧
    p.epoch = epoch ∧ x.event.core.author = pk

/-- The fields of a record that commits and resets rewrite together, apart from the epochs of
recorded commits. -/
structure Coherent (g : MlsGroupRecord) : Prop where
  disjoint : Disjoint g.leavesConfirmed g.leavesPending
  authenticator : g.epochAuthenticator = none ↔ g.commitsByEpoch = ∅
  head : g.commitHead = none ↔ g.commitsByEpoch = ∅
  tree : g.treeHash = none ↔ g.commitsByEpoch = ∅
  current : g.commitsByEpoch ≠ ∅ → ∃ record, g.commitsByEpoch.lookup g.epoch = some record ∧
    g.commitHead = some record.eventHash ∧ g.treeHash = some record.postTreeHash
  welcomes : ∀ r w, g.welcomes.lookup r = some w →
    w.generation = g.generation ∨ w.generation = g.generation + 1

/-- The whole invariant of the record of channel `c` in the state after the log `tr`. -/
structure RecordKept (tr : List (Transition LogState Event)) (s : LogState) (c : ℕ)
    (g : MlsGroupRecord) : Prop extends Coherent g where
  listed : ∀ leaf, leaf ∈ g.leavesConfirmed ∨ leaf ∈ g.leavesPending → leaf.2 ∈ s.devicesOf leaf.1
  epochs : g.commitsByEpoch ≠ ∅ → ∀ k, k ∈ g.commitsByEpoch ↔
    1 + EpochChain.firstEpoch g.generation ≤ k ∧ k ≤ g.epoch
  last : ∀ pk epoch, g.lastCommitEpochByAuthor.lookup pk = some epoch →
    CommittedAt tr c g.generation pk epoch ∧ epoch < g.epoch

/-! ## Commits, confirmations and resets -/

theorem insert_ne_empty {k v : Type} [DecidableEq k] {m : FiniteMap k v} {i : k} {a : v} :
    m.insert i a ≠ ∅ := by
  intro h
  have hsome := Finmap.lookup_insert (a := i) (b := a) m
  rw [h, Finmap.lookup_empty] at hsome
  cases hsome

theorem disjoint_applyCommit {p : MlsCommit} {void : Finset Leaf} {eventHash : EventHash}
    (h : Disjoint g.leavesConfirmed g.leavesPending) (hcommit : CommitAuthorized s e p g) :
    Disjoint (g.applyCommit leaf eventHash p void).leavesConfirmed
      (g.applyCommit leaf eventHash p void).leavesPending := by
  have habsent (l : Leaf) (hl : l ∈ p.adds.map DeclaredAdd.leaf) : l ∉ g.leavesConfirmed := by
    obtain ⟨add, hadd, rfl⟩ := List.mem_map.mp hl
    exact (hcommit.adds add hadd).absent.1
  rw [Finset.disjoint_left] at h ⊢
  intro l hconfirmed hpending
  simp only [MlsGroupRecord.applyCommit] at hconfirmed hpending
  split_ifs at hconfirmed hpending with hboot
  · obtain ⟨hne, hpending⟩ := Finset.mem_erase.mp hpending
    have hconfirmed := (Finset.mem_insert.mp hconfirmed).resolve_left hne
    simp only [Finset.mem_foldl_erase, Finset.mem_foldl_insert] at hconfirmed hpending
    exact hpending.1.elim (h hconfirmed.1) fun hadd => habsent l hadd hconfirmed.1
  · simp only [Finset.mem_foldl_erase, Finset.mem_foldl_insert] at hconfirmed hpending
    exact hpending.1.elim (h hconfirmed.1) fun hadd => habsent l hadd hconfirmed.1

theorem disjoint_confirmLeaf (h : Disjoint g.leavesConfirmed g.leavesPending) :
    Disjoint (g.confirmLeaf leaf).leavesConfirmed (g.confirmLeaf leaf).leavesPending := by
  rw [Finset.disjoint_left] at h ⊢
  intro l hconfirmed hpending
  obtain ⟨hne, hpending⟩ := Finset.mem_erase.mp hpending
  exact h ((Finset.mem_insert.mp hconfirmed).resolve_left hne) hpending

theorem disjoint_applyReset {p : MlsGroupReset} (hreset : ResetAuthorized s e p g) :
    Disjoint (g.applyReset e.leaf p).leavesConfirmed (g.applyReset e.leaf p).leavesPending := by
  refine Finset.disjoint_singleton_left.mpr ?_
  show e.leaf ∉ g.stagedLeaves p.welcomes
  rw [hreset.cover]
  exact Finset.notMem_erase _ _

theorem coherent_new : Coherent .new := by
  constructor <;> simp [MlsGroupRecord.new]

theorem coherent_effect (heff : GroupEffect K s e c g g') (h : Coherent g) : Coherent g' := by
  cases heff with
  | commit p hp hcommit =>
    refine ⟨disjoint_applyCommit h.disjoint hcommit, ?_, ?_, ?_, fun _ => ?_, h.welcomes⟩
    · exact iff_of_false nofun insert_ne_empty
    · exact iff_of_false nofun insert_ne_empty
    · exact iff_of_false nofun insert_ne_empty
    · exact ⟨_, Finmap.lookup_insert _, rfl, rfl⟩
  | welcome p hp hc hwelcome =>
    refine ⟨h.disjoint, h.authenticator, h.head, h.tree, h.current, ?_⟩
    exact FiniteMap.forall_lookup_insert h.welcomes
      (hwelcome.scope.imp (fun hcurrent => hcurrent.1) fun hnext => hnext.1)
  | confirm p hp hc hconfirm =>
    exact ⟨disjoint_confirmLeaf h.disjoint, h.authenticator, h.head, h.tree, h.current,
      h.welcomes⟩
  | reset p hp hreset =>
    refine ⟨disjoint_applyReset hreset, iff_of_true rfl rfl, iff_of_true rfl rfl,
      iff_of_true rfl rfl, fun hne => absurd rfl hne, fun r w hw => .inl ?_⟩
    obtain ⟨hold, hkept⟩ := (FiniteMap.lookup_retain_eq_some _ _ _ _).mp hw
    have hnext := hreset.generation
    have hbefore := h.welcomes r w hold
    show w.generation = p.newGeneration
    omega
  | other => exact h
  | tombstone => exact ⟨h.disjoint, h.authenticator, h.head, h.tree, h.current, h.welcomes⟩
  | sealed n k => exact ⟨h.disjoint, h.authenticator, h.head, h.tree, h.current, h.welcomes⟩

theorem coherent (hs : Reachable K g₀ s) (hg : s.mlsGroups.lookup c = some g) : Coherent g :=
  group_invariant (P := Coherent) hs coherent_new
    (fun _ _ _ _ _ _ _ heff h => coherent_effect heff h) c g hg

/-! ## The last commits of the authors -/

/-- Every author's last epoch is that of a commit of the generation, and it has passed. -/
def LastCommitted (tr : List (Transition LogState Event)) (c : ℕ) (g : MlsGroupRecord) : Prop :=
  ∀ pk epoch, g.lastCommitEpochByAuthor.lookup pk = some epoch →
    CommittedAt tr c g.generation pk epoch ∧ epoch < g.epoch

theorem CommittedAt.snoc {n k : ℕ} {pk : PublicKey} (h : CommittedAt tr c n pk k) :
    CommittedAt (tr ++ [x]) c n pk k := by
  obtain ⟨y, hy, hcommit⟩ := h
  exact ⟨y, List.mem_append_left _ hy, hcommit⟩

theorem lastCommitted_step (heff : GroupEffect K s e c g g') (h : LastCommitted tr c g) :
    LastCommitted (tr ++ [⟨s, e, t⟩]) c g' := by
  have hkept : LastCommitted (tr ++ [⟨s, e, t⟩]) c g :=
    fun pk epoch hlast => (h pk epoch hlast).imp_left .snoc
  cases heff with
  | commit p hp hcommit =>
    intro pk epoch hlast
    change (g.lastCommitEpochByAuthor.insert e.core.author p.epoch).lookup pk = some epoch at hlast
    show CommittedAt _ c g.generation pk epoch ∧ epoch < p.epoch + 1
    rw [FiniteMap.lookup_insert_eq] at hlast
    split_ifs at hlast with hauthor
    · obtain rfl := Option.some.inj hlast
      exact ⟨⟨_, List.mem_append_right _ (List.mem_singleton_self _), p, hp,
        hcommit.generation, rfl, hauthor.symm⟩, Nat.lt_succ_self _⟩
    · obtain ⟨hcommitted, hlt⟩ := hkept pk epoch hlast
      exact ⟨hcommitted, hlt.trans (hcommit.epoch ▸ Nat.lt_succ_self _)⟩
  | reset p hp hreset =>
    intro pk epoch hlast
    exact absurd hlast (by simp [MlsGroupRecord.applyReset])
  | _ => exact hkept

theorem lastCommitted_run (h : Run K g₀ tr s) :
    ∀ c g, s.mlsGroups.lookup c = some g → LastCommitted tr c g := by
  induction h with
  | nil => simp [fromGenesis]
  | @snoc s t e tr htr hstep ih =>
    intro c g' hg'
    cases hg : s.mlsGroups.lookup c with
    | none =>
      obtain ⟨key, m, -, heff, rfl⟩ := apply_cases hstep
      obtain rfl := heff.group_new hg' hg
      intro pk epoch hlast
      exact absurd hlast (by simp [MlsGroupRecord.new])
    | some g =>
      obtain ⟨g'', hg'', heff⟩ := group_step (reachable_invariant ⟨tr, htr⟩) hstep hg
      obtain rfl := Option.some.inj (hg''.symm.trans hg')
      exact lastCommitted_step heff (ih c g hg)

def storeOf (s : LogState) : KeyPackageStore := ⟨s.keyPackages, s.consumedKeyPackages⟩

/-- No device has more live KeyPackages than it may publish. -/
def FewLive (live : FiniteMap Leaf (FiniteMap EventRef ℕ)) : Prop :=
  ∀ leaf m, live.lookup leaf = some m → m.keys.card ≤ maxLiveKeyPackagesPerDevice

theorem card_keys_insert_le {m : FiniteMap EventRef ℕ} :
    (m.insert r exp).keys.card ≤ m.keys.card + 1 := by
  have hsubset : (m.insert r exp).keys ⊆ insert r m.keys := by
    intro i hi
    rw [Finmap.mem_keys, Finmap.mem_insert] at hi
    exact Finset.mem_insert.mpr (hi.imp_right Finmap.mem_keys.mpr)
  exact (Finset.card_le_card hsubset).trans (Finset.card_insert_le _ _)

/-- What publishing leaves of a device's KeyPackages is what the check has counted. -/
theorem card_retain_le : (((s.keyPackages.lookup leaf).getD ∅).retain
    fun _ exp => exp > s.logPos).keys.card ≤ s.liveKeyPackages leaf := by
  unfold liveKeyPackages
  cases hm : s.keyPackages.lookup leaf with
  | none =>
    refine Finset.card_eq_zero.mpr (Finset.eq_empty_of_forall_notMem fun i hi => ?_) |>.le
    obtain ⟨v, hv⟩ := Finmap.mem_iff.mp (Finmap.mem_keys.mp hi)
    have hempty := ((FiniteMap.lookup_retain_eq_some _ _ _ _).mp hv).1
    cases hempty
  | some m =>
    simp only [Option.getD_some, Option.map_some, FiniteMap.card_filter_values]
    refine Finset.card_le_card fun i hi => ?_
    obtain ⟨v, hv⟩ := Finmap.mem_iff.mp (Finmap.mem_keys.mp hi)
    obtain ⟨hold, hlive⟩ := (FiniteMap.lookup_retain_eq_some _ _ _ _).mp hv
    exact Finset.mem_filter.mpr ⟨Finmap.mem_keys.mpr (Finmap.mem_iff.mpr ⟨v, hold⟩), v, hold, hlive⟩

theorem fewLive_consume {add : DeclaredAdd} (h : FewLive store.live) :
    FewLive (store.consume add).live := by
  unfold KeyPackageStore.consume
  split
  · exact h
  · next m hm =>
    split
    · exact h
    · refine FiniteMap.forall_lookup_insert h ?_
      rw [Finmap.keys_erase]
      exact (Finset.card_erase_le).trans (h _ m hm)

theorem fewLive_step (hstep : Step K s e t) (h : FewLive s.keyPackages) :
    FewLive t.keyPackages := by
  obtain ⟨key, m, -, heff, rfl⟩ := apply_cases hstep
  cases heff with
  | mlsKeyPackagePublished p hp hmember hpin hexp hlive =>
    exact FiniteMap.forall_lookup_insert h
      (card_keys_insert_le.trans ((Nat.succ_le_succ card_retain_le).trans hlive))
  | mlsCommit p group =>
    have hfold : FewLive (p.adds.foldl KeyPackageStore.consume (storeOf s)).live :=
      Guarded.foldl_invariant (P := fun store : KeyPackageStore => FewLive store.live) h
        fun store hstore add _ => fewLive_consume hstore
    exact hfold
  | _ => exact h

theorem fewLive_run (h : Run K g₀ tr s) : FewLive s.keyPackages :=
  h.invariant (I := fun s => FewLive s.keyPackages) (by simp [FewLive, fromGenesis])
    fun _ _ _ hs hstep => fewLive_step hstep hs

/-- No live reference has been consumed. -/
def Unused (store : KeyPackageStore) : Prop :=
  ∀ leaf r exp, Live store.live leaf r exp → r ∉ store.consumed

/-- One device at most has a reference among its live ones. -/
def OneHolder (store : KeyPackageStore) : Prop :=
  ∀ r leaf leaf' exp exp', Live store.live leaf r exp → Live store.live leaf' r exp' → leaf = leaf'

theorem consumed_of_consume {add : DeclaredAdd} (h : r ∈ (store.consume add).consumed) :
    r ∈ store.consumed ∨ r = add.keyPackage ∧ (∃ exp, Live store.live add.leaf r exp) ∧
      ∀ exp, ¬Live (store.consume add).live add.leaf r exp := by
  unfold KeyPackageStore.consume at h ⊢
  split at h
  · exact .inl h
  · next m hm =>
    split at h
    · exact .inl h
    · next exp hexp =>
      rcases Finmap.mem_insert.mp h with rfl | h
      · refine .inr ⟨rfl, ⟨exp, m, hm, hexp⟩, ?_⟩
        rintro exp' ⟨m', hm', hr⟩
        simp only [Finmap.lookup_insert, Option.some.injEq] at hm'
        subst hm'
        simp at hr
      · exact .inl h

theorem consume_kept {add : DeclaredAdd} (h : Unused store ∧ OneHolder store) :
    Unused (store.consume add) ∧ OneHolder (store.consume add) := by
  obtain ⟨hunused, hholder⟩ := h
  refine ⟨fun leaf r exp hlive hconsumed => ?_, fun r leaf leaf' exp exp' hlive hlive' =>
    hholder r leaf leaf' exp exp' (live_of_consume hlive) (live_of_consume hlive')⟩
  rcases consumed_of_consume hconsumed with hold | ⟨-, ⟨exp', hlive'⟩, hgone⟩
  · exact hunused leaf r exp (live_of_consume hlive) hold
  · obtain rfl := hholder r leaf add.leaf exp exp' (live_of_consume hlive) hlive'
    exact hgone exp hlive

theorem consumed_of_foldl {adds : List DeclaredAdd}
    (h : r ∈ (adds.foldl KeyPackageStore.consume store).consumed) :
    r ∈ store.consumed ∨ ∃ leaf exp, Live store.live leaf r exp := by
  induction adds generalizing store with
  | nil => exact .inl h
  | cons add adds ih =>
    rcases ih h with hr | ⟨leaf, exp, hlive⟩
    · exact (consumed_of_consume hr).imp_right fun ⟨_, ⟨exp, hlive⟩, _⟩ => ⟨add.leaf, exp, hlive⟩
    · exact .inr ⟨leaf, exp, live_of_consume hlive⟩

theorem consumed_published (h : Run K g₀ tr s) :
    ∀ r ∈ s.consumedKeyPackages, ∃ y ∈ tr, y.event.hash K = r := by
  induction h with
  | nil => simp [fromGenesis, Finmap.notMem_empty]
  | @snoc s t e tr htr hstep ih =>
    intro r hr
    have hbefore : r ∈ s.consumedKeyPackages ∨ ∃ leaf exp, Live s.keyPackages leaf r exp := by
      obtain ⟨key, m, -, heff, rfl⟩ := apply_cases hstep
      cases heff with
      | mlsCommit p group => exact consumed_of_foldl hr
      | _ => exact .inl hr
    rcases hbefore with hold | ⟨leaf, exp, hlive⟩
    · obtain ⟨y, hy, hhash⟩ := ih r hold
      exact ⟨y, List.mem_append_left _ hy, hhash⟩
    · obtain ⟨y, hy, p, -, -, hhash, -⟩ := live_published htr hlive
      exact ⟨y, List.mem_append_left _ hy, hhash⟩

theorem oneHolder_run (h : Run K g₀ tr s) (hK : CollisionFree K tr) : OneHolder (storeOf s) := by
  intro r leaf leaf' exp exp' hlive hlive'
  obtain ⟨y, hy, p, -, hleaf, hhash, -⟩ := live_published h hlive
  obtain ⟨y', hy', p', -, hleaf', hhash', -⟩ := live_published h hlive'
  rw [← hleaf, ← hleaf', hK y hy y' hy' (hhash.trans hhash'.symm)]

theorem unused_run (h : Run K g₀ tr s) (hK : CollisionFree K tr) : Unused (storeOf s) := by
  induction h with
  | nil => simp [Unused, storeOf, Live, fromGenesis]
  | @snoc s t e tr htr hstep ih =>
    have hKtr : CollisionFree K tr := fun x hx y hy =>
      hK x (List.mem_append_left _ hx) y (List.mem_append_left _ hy)
    have hs := ih hKtr
    have hrun := htr.snoc hstep
    intro leaf r exp hlive hconsumed
    have hstep' := hstep
    obtain ⟨key, m, -, heff, rfl⟩ := apply_cases hstep'
    cases heff with
    | mlsKeyPackagePublished p hp =>
      rcases live_step hstep hlive with hold | ⟨q, -, -, hhash, -⟩
      · exact hs leaf r exp hold hconsumed
      · -- The new reference is that of an event that the log does not hold yet.
        obtain ⟨y, hy, hyhash⟩ := consumed_published htr r hconsumed
        refine EventChains.event_fresh hrun hy (hK y (List.mem_append_left _ hy) _
          (List.mem_append_right _ (List.mem_singleton_self _)) ?_)
        exact hyhash.trans hhash.symm
    | mlsCommit p group =>
      have hfold : Unused (p.adds.foldl KeyPackageStore.consume (storeOf s)) ∧
          OneHolder (p.adds.foldl KeyPackageStore.consume (storeOf s)) :=
        Guarded.foldl_invariant (P := fun store => Unused store ∧ OneHolder store)
          ⟨hs, oneHolder_run htr hKtr⟩ fun store hstore add _ => consume_kept hstore
      exact hfold.1 leaf r exp hlive hconsumed
    | _ => exact hs leaf r exp hlive hconsumed

/-- The invariant of group records, in every state that a run of the log reaches: confirmed and
pending leaves are disjoint, and of devices authorized for their identity; authenticator, head and
tree are unset exactly while no commit is recorded, and otherwise the recorded epochs are exactly
those of the generation up to the current one, whose entry has that head and tree; an author's
last epoch is that of an applied commit of the generation and has passed; a recorded Welcome is of
the generation or the next one. And a device has no more live KeyPackages than it may publish;
unless two events of the log have one hash, none of them has been consumed. -/
theorem records_kept (h : Run K g₀ tr s) :
    (∀ c g, s.mlsGroups.lookup c = some g → RecordKept tr s c g) ∧
      ∀ leaf m, s.keyPackages.lookup leaf = some m →
        m.keys.card ≤ maxLiveKeyPackagesPerDevice ∧
          (CollisionFree K tr → ∀ r ∈ m, r ∉ s.consumedKeyPackages) := by
  have hs : Reachable K g₀ s := ⟨tr, h⟩
  refine ⟨fun c g hg => ?_, fun leaf m hm => ⟨fewLive_run h leaf m hm, fun hK r hr => ?_⟩⟩
  · refine ⟨coherent hs hg, fun leaf hleaf => ?_, fun _ k => ?_, lastCommitted_run h c g hg⟩
    · exact (reachable_invariant hs).leaves c g hg leaf (MlsGroupRecord.mem_leaves.mpr hleaf)
    · rw [← Finmap.lookup_isSome, (LeafConfirmation.epochsRecorded hs hg).recorded k,
        Nat.add_comm, Nat.succ_le_iff]
      rfl
  · obtain ⟨exp, hexp⟩ := Finmap.mem_iff.mp hr
    exact unused_run h hK leaf r exp ⟨m, hm, hexp⟩

open SampleLog

theorem records_kept_twoMembers :
    (∃ g, (stateOf twoMembers).mlsGroups.lookup 7 = some g ∧
      RecordKept (accepted crypto genesis (signed twoMembers)) (stateOf twoMembers) 7 g) ∧
      ∃ m, (stateOf twoMembers).keyPackages.lookup (key bob, device b0) = some m ∧
        m.keys.card ≤ 10 ∧ ∀ r ∈ m, r ∉ (stateOf twoMembers).consumedKeyPackages := by
  obtain ⟨hgroups, hpackages⟩ := records_kept (run_accepted (signed twoMembers))
  have hgroup : ((stateOf twoMembers).mlsGroups.lookup 7).isSome := by decide +kernel
  have hdevice : ((stateOf twoMembers).keyPackages.lookup (key bob, device b0)).isSome := by
    decide +kernel
  obtain ⟨g, hg⟩ := Option.isSome_iff_exists.mp hgroup
  obtain ⟨m, hm⟩ := Option.isSome_iff_exists.mp hdevice
  obtain ⟨hfew, hunused⟩ := hpackages _ m hm
  exact ⟨⟨g, hg, hgroups 7 g hg⟩, m, hm, hfew, hunused (by decide +kernel)⟩

end GroupRecords
