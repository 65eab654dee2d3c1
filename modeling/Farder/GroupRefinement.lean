import Farder.LogInvariant
import Farder.Support.KeyGroup

/-! # The fold refines the key group

Each channel of the log is a key group: `keyGroup` forgets what only the bookkeeping of a
record needs, `groupAction` says what an event does to it, and every accepted event is a
step of the abstract group. Results about runs of key groups thereby hold of the log. -/
namespace EventLog

/-- The generation and epoch that a message or an edit sealed in the channel cites. -/
def Event.sealedAs (e : Event) (c : ℕ) : Option (ℕ × ℕ) :=
  match e.core.payload with
  | .messagePostedE2ee p => if p.channelId = c then some (p.generation, p.epoch) else none
  | .messageEditedE2ee p => if p.channelId = c then some (p.generation, p.epoch) else none
  | _ => none

def Event.SealedIn (e : Event) (c : ℕ) : Prop := (e.sealedAs c).isSome

instance (e : Event) (c : ℕ) : Decidable (e.SealedIn c) :=
  inferInstanceAs (Decidable ((e.sealedAs c).isSome = true))

def Event.resetOf (e : Event) (c : ℕ) : Option MlsGroupReset :=
  match e.core.payload with
  | .mlsGroupReset p => if p.channelId = c then some p else none
  | _ => none

def MlsGroupRecord.toKeyGroup (g : MlsGroupRecord) : KeyGroup.State Leaf Digest :=
  ⟨g.generation, g.epoch, g.epochAuthenticator, g.leavesConfirmed, g.leavesPending,
    g.resetWelcomed, g.eventsSinceLastCommit⟩

section

variable (g : MlsGroupRecord)

@[simp] theorem toKeyGroup_generation : g.toKeyGroup.generation = g.generation := rfl
@[simp] theorem toKeyGroup_epoch : g.toKeyGroup.epoch = g.epoch := rfl
@[simp] theorem toKeyGroup_authenticator :
    g.toKeyGroup.authenticator = g.epochAuthenticator := rfl
@[simp] theorem toKeyGroup_confirmed : g.toKeyGroup.confirmed = g.leavesConfirmed := rfl
@[simp] theorem toKeyGroup_pending : g.toKeyGroup.pending = g.leavesPending := rfl
@[simp] theorem toKeyGroup_owed : g.toKeyGroup.owed = g.resetWelcomed := rfl
@[simp] theorem toKeyGroup_spent : g.toKeyGroup.spent = g.eventsSinceLastCommit := rfl
@[simp] theorem toKeyGroup_leaves : g.toKeyGroup.leaves = g.leaves := rfl
@[simp] theorem toKeyGroup_bootstraps : g.toKeyGroup.Bootstraps ↔ g.Bootstraps := Iff.rfl

@[simp] theorem toKeyGroup_complete : g.toKeyGroup.Complete ↔ ¬g.ResetIncomplete := by
  simp [KeyGroup.State.Complete, MlsGroupRecord.ResetIncomplete, Finset.subset_iff]

end

namespace LogState

variable (s : LogState)

/-- The commit of the channel that an event makes take effect; a stale one does not. -/
def appliedCommit (c : ℕ) (e : Event) : Option MlsCommit :=
  match e.core.payload with
  | .mlsCommit p =>
    if p.channelId = c ∧ s.checkPayloadAuthz e = .ok .apply then some p else none
  | _ => none

/-- The group of a channel; one without a record is in the initial state. -/
def keyGroup (c : ℕ) : KeyGroup.State Leaf Digest :=
  ((s.mlsGroups.lookup c).map MlsGroupRecord.toKeyGroup).getD KeyGroup.initial

def stagedBy (p : MlsGroupReset) : Finset Leaf :=
  ((s.mlsGroups.lookup p.channelId).map fun g => g.stagedLeaves p.welcomes).getD ∅

/-- Leaves of the group, held or owed, whose holders are judged out of good standing. -/
def excused (c atTs : ℕ) : Finset Leaf :=
  ((s.keyGroup c).leaves ∪ (s.keyGroup c).owed).filter fun l =>
    ¬s.LeafHolderInGoodStanding l.1 l.2 atTs

def groupCommit (e : Event) (p : MlsCommit) : KeyGroup.Commit Leaf Digest where
  generation := p.generation
  epoch := p.epoch
  author := e.leaf
  adds := (p.adds.map DeclaredAdd.leaf).toFinset
  removes := (p.removes.map DeclaredRemove.leaf).toFinset
  excused := s.excused p.channelId e.core.timestamp
  prev := p.prevEpochAuthenticator
  post := p.postEpochAuthenticator

def groupAction (c : ℕ) (e : Event) : KeyGroup.Action Leaf Digest :=
  match e.core.payload with
  | .mlsCommit p =>
    if p.channelId = c ∧ s.checkPayloadAuthz e = .ok .apply then .commit (s.groupCommit e p)
    else .idle
  | .mlsLeafConfirmed p => if p.channelId = c then .confirm e.leaf else .idle
  | .mlsGroupReset p => if p.channelId = c then .reset e.leaf (s.stagedBy p) else .idle
  | .messagePostedE2ee p =>
    if p.channelId = c then .send e.leaf (s.memberLeafSet e.core.timestamp) else .idle
  | .messageEditedE2ee p =>
    if p.channelId = c then .send e.leaf (s.memberLeafSet e.core.timestamp) else .idle
  | _ => .idle

variable {K : Crypto} {s} {s' m : LogState} {e : Event} {key : PublicKey} {c : ℕ}

theorem appliedCommit_eq_some {p : MlsCommit} : s.appliedCommit c e = some p ↔
    e.core.payload = .mlsCommit p ∧ p.channelId = c ∧ s.checkPayloadAuthz e = .ok .apply := by
  cases hp : e.core.payload <;> simp [appliedCommit, hp]
  grind

theorem resetOf_eq_some {p : MlsGroupReset} : e.resetOf c = some p ↔
    e.core.payload = .mlsGroupReset p ∧ p.channelId = c := by
  cases hp : e.core.payload <;> simp [Event.resetOf, hp]
  grind

theorem groupAction_eq_commit {cm : KeyGroup.Commit Leaf Digest} :
    s.groupAction c e = .commit cm ↔
      ∃ p, s.appliedCommit c e = some p ∧ cm = s.groupCommit e p := by
  cases hp : e.core.payload <;> simp [groupAction, appliedCommit, hp] <;> grind

theorem groupAction_eq_reset {author : Leaf} {staged : Finset Leaf} :
    s.groupAction c e = .reset author staged ↔
      ∃ p, e.resetOf c = some p ∧ author = e.leaf ∧ staged = s.stagedBy p := by
  cases hp : e.core.payload <;> simp [groupAction, Event.resetOf, hp] <;> grind

theorem groupAction_ne_commit (h : s.appliedCommit c e = none)
    (cm : KeyGroup.Commit Leaf Digest) : s.groupAction c e ≠ .commit cm := by
  intro ha
  obtain ⟨p, hp, -⟩ := groupAction_eq_commit.mp ha
  cases h.symm.trans hp

theorem groupAction_ne_reset (h : e.resetOf c = none) (author : Leaf) (staged : Finset Leaf) :
    s.groupAction c e ≠ .reset author staged := by
  intro ha
  obtain ⟨p, hp, -⟩ := groupAction_eq_reset.mp ha
  cases h.symm.trans hp

theorem groupAction_eq_confirm {leaf : Leaf} : s.groupAction c e = .confirm leaf ↔
    ∃ p, e.core.payload = .mlsLeafConfirmed p ∧ p.channelId = c ∧ leaf = e.leaf := by
  cases hp : e.core.payload <;> simp [groupAction, hp] <;> grind

theorem isSend_groupAction : KeyGroup.isSend (s.groupAction c e) = true ↔ e.SealedIn c := by
  cases hp : e.core.payload <;>
    simp [groupAction, Event.SealedIn, Event.sealedAs, hp, KeyGroup.isSend] <;> grind

theorem sendAuthorized_of_apply {n k : ℕ} (h : s.apply K e = .ok s')
    (hsealed : e.sealedAs c = some (n, k)) :
    ∃ g, s.mlsGroups.lookup c = some g ∧ SendAuthorized s e c n k g := by
  obtain ⟨key, m, -, heff, rfl⟩ := apply_cases h
  cases heff with
  | messagePostedE2ee p g hp hg hsend =>
    obtain ⟨rfl, rfl, rfl⟩ : p.channelId = c ∧ p.generation = n ∧ p.epoch = k := by
      simpa [Event.sealedAs, hp] using hsealed
    exact ⟨g, hg, hsend⟩
  | messageEditedE2ee p g hp hg hsend =>
    obtain ⟨rfl, rfl, rfl⟩ : p.channelId = c ∧ p.generation = n ∧ p.epoch = k := by
      simpa [Event.sealedAs, hp] using hsealed
    exact ⟨g, hg, hsend⟩
  | _ => simp_all [Event.sealedAs]

theorem keyGroup_of_lookup {g : MlsGroupRecord} (hg : s.mlsGroups.lookup c = some g) :
    s.keyGroup c = g.toKeyGroup := by
  simp [keyGroup, hg]

theorem keyGroup_confirmed : (s.keyGroup c).confirmed = s.leavesConfirmed c := by
  cases hg : s.mlsGroups.lookup c <;> simp [keyGroup, leavesConfirmed, hg, KeyGroup.initial]

theorem keyGroup_pending : (s.keyGroup c).pending = s.pendingConfirmations c := by
  cases hg : s.mlsGroups.lookup c <;> simp [keyGroup, pendingConfirmations, hg, KeyGroup.initial]

theorem keyGroup_congr (h : m.mlsGroups.lookup c = s.mlsGroups.lookup c) :
    m.keyGroup c = s.keyGroup c := by
  simp [keyGroup, h]

theorem keyGroup_insert_self {g' : MlsGroupRecord} (h : m.mlsGroups = s.mlsGroups.insert c g') :
    m.keyGroup c = g'.toKeyGroup :=
  keyGroup_of_lookup (by simp [h])

theorem keyGroup_insert_of_ne {c' : ℕ} {g' : MlsGroupRecord} (hc : c' ≠ c)
    (h : m.mlsGroups = s.mlsGroups.insert c' g') : m.keyGroup c = s.keyGroup c :=
  keyGroup_congr (by simp [h, hc.symm])

theorem keyGroup_bumpGroup {f : MlsGroupRecord → MlsGroupRecord} {c' : ℕ}
    (hf : ∀ g, (f g).toKeyGroup = g.toKeyGroup) : (s.bumpGroup c' f).keyGroup c = s.keyGroup c := by
  simp only [keyGroup, bumpGroup, FiniteMap.lookup_adjust]
  split_ifs with hc
  · subst hc
    cases s.mlsGroups.lookup c <;> simp [hf]
  · rfl

theorem keyGroup_bumpGroup_self {f : MlsGroupRecord → MlsGroupRecord} {g : MlsGroupRecord}
    (hg : s.mlsGroups.lookup c = some g) : (s.bumpGroup c f).keyGroup c = (f g).toKeyGroup :=
  keyGroup_of_lookup (by simp [bumpGroup, hg])

theorem keyGroup_bumpGroup_of_ne {f : MlsGroupRecord → MlsGroupRecord} {c' : ℕ} (hc : c' ≠ c) :
    (s.bumpGroup c' f).keyGroup c = s.keyGroup c :=
  keyGroup_congr (by simp [bumpGroup, hc.symm])

abbrev GroupStep : KeyGroup.State Leaf Digest → KeyGroup.Action Leaf Digest →
    KeyGroup.State Leaf Digest → Prop :=
  KeyGroup.Step Prod.fst freshnessCeilingEvents

theorem groupStep_idle (ha : s.groupAction c e = .idle) (hk : m.keyGroup c = s.keyGroup c) :
    GroupStep (s.keyGroup c) (s.groupAction c e) (m.keyGroup c) := by
  rw [ha]
  exact ⟨trivial, hk⟩

theorem mem_excused {l : Leaf} {ts : ℕ} (hl : l ∈ (s.keyGroup c).leaves ∨ l ∈ (s.keyGroup c).owed) :
    l ∈ s.excused c ts ↔ ¬s.LeafHolderInGoodStanding l.1 l.2 ts := by
  simp only [excused, Finset.mem_filter, Finset.mem_union, hl, true_and]

theorem mem_voidObligations {g : MlsGroupRecord} {l : Leaf} {ts : ℕ}
    (hg : s.mlsGroups.lookup c = some g) : l ∈ s.voidObligations c ts ↔
      l ∈ g.resetWelcomed ∧ ¬s.LeafHolderInGoodStanding l.1 l.2 ts := by
  simp [voidObligations, hg]

theorem toKeyGroup_applyCommit {g : MlsGroupRecord} {h : EventHash} {p : MlsCommit}
    (hg : s.mlsGroups.lookup p.channelId = some g) :
    (g.applyCommit e.leaf h p (s.voidObligations p.channelId e.core.timestamp)).toKeyGroup =
      KeyGroup.next g.toKeyGroup (.commit (s.groupCommit e p)) := by
  have hfound (l : Leaf) : l ∈ KeyGroup.founders g.toKeyGroup (s.groupCommit e p) ↔
      g.Bootstraps ∧ l = e.leaf := KeyGroup.mem_founders
  -- One goal for each field; only the three sets of leaves need an argument.
  ext l
  · rfl
  · rfl
  · simp [MlsGroupRecord.applyCommit, KeyGroup.next, groupCommit]
  · simp only [toKeyGroup_confirmed, MlsGroupRecord.applyCommit, KeyGroup.next,
      Finset.mem_union, Finset.mem_sdiff, hfound]
    split_ifs with hb
    · simp [groupCommit, hb]
      tauto
    · simp [groupCommit, hb]
  · simp only [toKeyGroup_pending, MlsGroupRecord.applyCommit, KeyGroup.next,
      Finset.mem_union, Finset.mem_sdiff, hfound]
    split_ifs with hb
    · simp [groupCommit, hb]
      tauto
    · simp [groupCommit, hb]
  · simp only [toKeyGroup_owed, MlsGroupRecord.applyCommit, KeyGroup.next, Finset.mem_filter,
      Finset.mem_sdiff, mem_voidObligations hg]
    refine and_congr_right fun hl => ?_
    have hexc : l ∈ (s.groupCommit e p).excused ↔
        ¬s.LeafHolderInGoodStanding l.1 l.2 e.core.timestamp :=
      mem_excused (.inr (by simpa [keyGroup_of_lookup hg] using hl))
    rw [hexc]
    tauto
  · rfl

theorem stagedBy_of_lookup {g : MlsGroupRecord} {p : MlsGroupReset}
    (hg : s.mlsGroups.lookup p.channelId = some g) : s.stagedBy p = g.stagedLeaves p.welcomes := by
  simp [stagedBy, hg]

theorem commitEnabled {g : MlsGroupRecord} {p : MlsCommit}
    (hg : s.mlsGroups.lookup p.channelId = some g) (h : CommitAuthorized s e p g) :
    KeyGroup.CommitEnabled Prod.fst g.toKeyGroup (s.groupCommit e p) where
  generation := h.generation
  epoch := h.epoch
  author hne := h.confirmed hne.ne_empty
  chain := h.chain
  adds l hl := by
    obtain ⟨add, hadd, rfl⟩ := List.mem_map.mp (List.mem_toFinset.mp hl)
    exact (h.adds add hadd).absent
  removes l hl hconf := by
    obtain ⟨rem, hrem, rfl⟩ := List.mem_map.mp (List.mem_toFinset.mp hl)
    refine ((h.removes rem hrem).bridge hconf).imp_left fun hbad => ?_
    refine (mem_excused (.inl ?_)).mpr hbad
    rw [keyGroup_of_lookup hg]
    exact Finset.mem_union_left _ hconf

/-- Sealed content spends one unit of the budget: the saturating counter does not saturate
below the ceiling. -/
theorem toKeyGroup_bumpChannelCounters {g : MlsGroupRecord} {author : Leaf} {roster : Finset Leaf}
    (h : g.eventsSinceLastCommit < freshnessCeilingEvents) :
    g.bumpChannelCounters.toKeyGroup = KeyGroup.next g.toKeyGroup (.send author roster) := by
  have hsat : saturatingAdd g.eventsSinceLastCommit 1 = g.eventsSinceLastCommit + 1 := by
    simp only [saturatingAdd, freshnessCeilingEvents] at h ⊢
    omega
  simp [MlsGroupRecord.toKeyGroup, MlsGroupRecord.bumpChannelCounters,
    MlsGroupRecord.bumpResetCounter, KeyGroup.next, hsat]

theorem SendAuthorized.enabled {g : MlsGroupRecord} {generation epoch : ℕ}
    (hg : s.mlsGroups.lookup c = some g) (h : SendAuthorized s e c generation epoch g) :
    KeyGroup.Enabled Prod.fst freshnessCeilingEvents g.toKeyGroup
      (.send e.leaf (s.memberLeafSet e.core.timestamp)) := by
  refine ⟨h.confirmed, fun l hl => ?_, h.fresh, fun l hl => ?_⟩
  · have hnone := h.no_removals
    simp only [pendingRemovals, hg, Finset.filter_eq_empty_iff, not_not] at hnone
    exact hnone hl
  · by_contra hnot
    exact h.complete ⟨l, hl, hnot⟩

theorem Effect.groupStep (h : Effect K s e key m) (hs : ChannelsKept s) (c : ℕ) :
    GroupStep (s.keyGroup c) (s.groupAction c e) (m.keyGroup c) := by
  cases h with
  | channelCreated p hp howner hnew =>
    refine groupStep_idle (by simp [groupAction, hp]) ?_
    have hnone : s.mlsGroups.lookup p.channelId = none := by
      rw [← Option.not_isSome_iff_eq_none, hs.group_iff, channelClass,
        Finmap.lookup_eq_none.mpr hnew]
      simp
    by_cases hc : c = p.channelId
    · subst hc
      simp only [keyGroup, createChannel, hnone]
      split_ifs
      · simp [MlsGroupRecord.toKeyGroup, MlsGroupRecord.new, KeyGroup.initial]
      · simp [hnone]
    · refine keyGroup_congr ?_
      simp only [createChannel]
      split_ifs <;> simp [hc]
  | messageDeleted p hp =>
    exact groupStep_idle (by simp [groupAction, hp]) (keyGroup_bumpGroup fun _ => rfl)
  | mlsCommit p g hp hg hcommit =>
    have hv : s.checkPayloadAuthz e = .ok .apply := by
      simpa only [checkPayloadAuthz, hp] using
        checkMlsCommit_eq_ok.mpr ⟨g, hg, .inl ⟨rfl, hcommit⟩⟩
    by_cases hc : p.channelId = c
    · subst hc
      have ha : s.groupAction p.channelId e = .commit (s.groupCommit e p) := by
        simp [groupAction, hp, hv]
      rw [ha, keyGroup_of_lookup hg, keyGroup_insert_self rfl]
      exact ⟨commitEnabled hg hcommit, toKeyGroup_applyCommit hg⟩
    · exact groupStep_idle (by simp [groupAction, hp, hc]) (keyGroup_insert_of_ne hc rfl)
  | staleCommit p g hp hg hgen hepoch =>
    have hv : s.checkPayloadAuthz e = .ok .staleCommitNoOp := by
      simpa only [checkPayloadAuthz, hp] using
        checkMlsCommit_eq_ok.mpr ⟨g, hg, .inr ⟨rfl, hgen, hepoch⟩⟩
    exact groupStep_idle (by simp [groupAction, hp, hv]) rfl
  | mlsWelcome p g hp hg =>
    refine groupStep_idle (by simp [groupAction, hp]) ?_
    by_cases hc : p.channelId = c
    · subst hc
      rw [keyGroup_of_lookup hg, keyGroup_insert_self rfl]
      rfl
    · exact keyGroup_insert_of_ne hc rfl
  | mlsLeafConfirmed p g hp hg hconfirm =>
    by_cases hc : p.channelId = c
    · subst hc
      have ha : s.groupAction p.channelId e = .confirm e.leaf := by simp [groupAction, hp]
      rw [ha, keyGroup_of_lookup hg, keyGroup_insert_self rfl]
      exact ⟨hconfirm.pending, rfl⟩
    · exact groupStep_idle (by simp [groupAction, hp, hc]) (keyGroup_insert_of_ne hc rfl)
  | messagePostedE2ee p g hp hg hsend =>
    by_cases hc : p.channelId = c
    · subst hc
      have ha : s.groupAction p.channelId e = .send e.leaf (s.memberLeafSet e.core.timestamp) := by
        simp [groupAction, hp]
      rw [ha, keyGroup_of_lookup hg,
        keyGroup_bumpGroup_self (s := s.recordUploaders p.attachments) hg]
      exact ⟨hsend.enabled hg, toKeyGroup_bumpChannelCounters hsend.fresh⟩
    · exact groupStep_idle (by simp [groupAction, hp, hc]) (keyGroup_bumpGroup_of_ne hc)
  | messageEditedE2ee p g hp hg hsend =>
    by_cases hc : p.channelId = c
    · subst hc
      have ha : s.groupAction p.channelId e = .send e.leaf (s.memberLeafSet e.core.timestamp) := by
        simp [groupAction, hp]
      rw [ha, keyGroup_of_lookup hg, keyGroup_bumpGroup_self hg]
      exact ⟨hsend.enabled hg, toKeyGroup_bumpChannelCounters hsend.fresh⟩
    · exact groupStep_idle (by simp [groupAction, hp, hc]) (keyGroup_bumpGroup_of_ne hc)
  | mlsGroupReset p g hp hg hreset =>
    by_cases hc : p.channelId = c
    · subst hc
      have ha : s.groupAction p.channelId e = .reset e.leaf (s.stagedBy p) := by
        simp [groupAction, hp]
      rw [ha, keyGroup_of_lookup hg, keyGroup_insert_self rfl, stagedBy_of_lookup hg]
      refine ⟨?_, ?_⟩
      · show e.leaf ∉ g.stagedLeaves p.welcomes
        rw [hreset.cover]
        exact Finset.notMem_erase _ _
      · simp [MlsGroupRecord.toKeyGroup, MlsGroupRecord.applyReset, KeyGroup.next,
          hreset.generation]
    · exact groupStep_idle (by simp [groupAction, hp, hc]) (keyGroup_insert_of_ne hc rfl)
  | _ => exact groupStep_idle (by simp [groupAction, *]) rfl

theorem step_groupStep {owner : PublicKey} (hs : Invariant owner s) (h : Step K s e s') (c : ℕ) :
    GroupStep (s.keyGroup c) (s.groupAction c e) (s'.keyGroup c) := by
  obtain ⟨key, m, -, heff, rfl⟩ := apply_cases h
  exact heff.groupStep hs.channels c

def groupTransition (c : ℕ) (x : Transition LogState Event) :
    Transition (KeyGroup.State Leaf Digest) (KeyGroup.Action Leaf Digest) :=
  ⟨x.pre.keyGroup c, x.pre.groupAction c x.event, x.post.keyGroup c⟩

theorem commitIn_groupTransition {n : ℕ} (x : Transition LogState Event) :
    KeyGroup.commitIn n (groupTransition c x) =
      ((x.pre.appliedCommit c x.event).filter fun p => p.generation = n).map
        (x.pre.groupCommit x.event) := by
  cases h : x.pre.appliedCommit c x.event with
  | some p =>
    have ha : x.pre.groupAction c x.event = .commit (x.pre.groupCommit x.event p) :=
      groupAction_eq_commit.mpr ⟨p, h, rfl⟩
    by_cases hn : p.generation = n <;>
      simp [KeyGroup.commitIn, groupTransition, ha, groupCommit, hn, Option.filter]
  | none =>
    cases ha : x.pre.groupAction c x.event with
    | commit cm =>
      obtain ⟨p, hp, -⟩ := groupAction_eq_commit.mp ha
      cases h.symm.trans hp
    | _ => simp [KeyGroup.commitIn, groupTransition, ha]

/-- The fold refines the key group: an execution of the log is one of each channel's group. -/
theorem execution_groupStep {owner : PublicKey} {t : LogState}
    {tr : List (Transition LogState Event)} (hs : Invariant owner s)
    (h : Execution (Step K) s tr t) (c : ℕ) :
    Execution GroupStep (s.keyGroup c) (tr.map (groupTransition c)) (t.keyGroup c) :=
  h.map (fun s => s.keyGroup c) (fun s e => s.groupAction c e) hs
    (fun _ _ _ => step_preserves_invariant) fun _ _ _ hs h => step_groupStep hs h c

theorem keyGroup_genesis (g : Genesis) : (fromGenesis K g).keyGroup c = KeyGroup.initial := by
  simp [keyGroup, fromGenesis]

end LogState
end EventLog
