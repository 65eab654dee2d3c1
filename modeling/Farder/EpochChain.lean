import Farder.GroupRefinement
import Farder.SampleLog

/-! # One winner per epoch

The applied commits of a generation number its epochs without gap or repetition, each chained
to the one before it. A commit for any other epoch of the current generation is accepted
without effect, so that of two racing commits the first one wins in either order. -/
namespace EpochChain

open EventLog EventLog.LogState

variable {K : Crypto} {g : Genesis} {s s₁ s₂ : LogState} {e e₁ e₂ : Event} {c n : ℕ}
  {tr : List (Transition LogState Event)}

def appliedCommits (c n : ℕ) (tr : List (Transition LogState Event)) : List MlsCommit :=
  tr.filterMap fun x => (x.pre.appliedCommit c x.event).filter fun p => p.generation = n

/-- The first epoch that a commit of the generation can have: a reset accounts for epoch 0. -/
def firstEpoch (n : ℕ) : ℕ := if n = 0 then 0 else 1

def link (p : MlsCommit) : ℕ × Digest × Digest :=
  (p.epoch, p.prevEpochAuthenticator, p.postEpochAuthenticator)

def groupLink (cm : KeyGroup.Commit Leaf Digest) : ℕ × Digest × Digest :=
  (cm.epoch, cm.prev, cm.post)

theorem map_groupLink_commitsOf (tr : List (Transition LogState Event)) :
    (KeyGroup.commitsOf n (tr.map (groupTransition c))).map groupLink =
      (appliedCommits c n tr).map link := by
  simp only [KeyGroup.commitsOf, appliedCommits, List.filterMap_map, List.map_filterMap]
  congr 1
  funext x
  rw [Function.comp_apply, commitIn_groupTransition, Option.map_map]
  rfl

theorem chained (h : Run K g tr s) (c n : ℕ) :
    (appliedCommits c n tr).map MlsCommit.epoch =
        List.range' (firstEpoch n) (appliedCommits c n tr).length ∧
      (appliedCommits c n tr).IsChain fun p q =>
        q.prevEpochAuthenticator = p.postEpochAuthenticator := by
  have hgroup := execution_groupStep (invariant_genesis g) h c
  rw [keyGroup_genesis] at hgroup
  obtain ⟨hepochs, hlinks⟩ := (KeyGroup.chainInvariant hgroup).chained n
  have hmap := map_groupLink_commitsOf (c := c) (n := n) tr
  have hlength := congrArg List.length hmap
  rw [List.length_map, List.length_map] at hlength
  constructor
  · have hfst := congrArg (List.map Prod.fst) hmap
    rw [List.map_map, List.map_map] at hfst
    rw [← hlength]
    exact hfst.symm.trans hepochs
  · have hchain : ((appliedCommits c n tr).map link).IsChain fun a b => b.2.1 = a.2.2 := by
      rw [← hmap, List.isChain_map]
      exact hlinks
    exact (List.isChain_map _).mp hchain

/-- Nothing has changed but the author's chain head, the log position, the author's clock
and the corroborated clock. -/
structure OnlyRecorded (s : LogState) (e : Event) (s' : LogState) : Prop where
  frame : s' = { s with
    chains := s'.chains
    logPos := s'.logPos
    identityClock := s'.identityClock
    corroboratedClock := s'.corroboratedClock }
  chains : ∀ leaf ≠ e.leaf, s'.chains.lookup leaf = s.chains.lookup leaf
  clocks : ∀ pk ≠ e.core.author, s'.identityClock.lookup pk = s.identityClock.lookup pk

theorem onlyRecorded_recordAccepted : OnlyRecorded s e (s.recordAccepted K e) where
  frame := rfl
  chains leaf hleaf := by simp [recordAccepted, advanceChain, hleaf]
  clocks pk hpk := by simp [recordAccepted, advanceChain, hpk]

theorem envelope_after_commit {key : PublicKey} {p : MlsCommit} (h : Envelope K s e₂ key)
    (hstep : s.apply K e₁ = .ok s₁) (hp : e₁.core.payload = .mlsCommit p)
    (hne : e₂.core.author ≠ e₁.core.author) : Envelope K s₁ e₂ key := by
  obtain ⟨key₁, m, -, heff, rfl⟩ := apply_cases hstep
  obtain ⟨hserver, hdevices, hrevoked, hbanned, hchains, hclock⟩ := heff.commit_frame hp
  have hleaf : e₂.leaf ≠ e₁.leaf := fun hl => hne (congrArg Prod.fst hl)
  refine h.congr hserver hdevices hrevoked hbanned ?_ ?_
  · simp [recordAccepted, advanceChain, hclock, hne]
  · simp [recordAccepted, advanceChain, hchains, hleaf]

/-- After a commit of an epoch, applied or stale, the group is in the same generation and in
another epoch. -/
theorem group_after_commit {p : MlsCommit} (hstep : s.apply K e = .ok s₁)
    (hp : e.core.payload = .mlsCommit p) : ∃ group, s₁.mlsGroups.lookup p.channelId = some group ∧
      p.generation = group.generation ∧ p.epoch ≠ group.epoch := by
  obtain ⟨key, m, -, heff, rfl⟩ := apply_cases hstep
  cases heff with
  | mlsCommit q group hq hg hcommit =>
    obtain rfl : q = p := EventPayload.mlsCommit.inj (hq.symm.trans hp)
    exact ⟨_, Finmap.lookup_insert _, hcommit.generation, Nat.ne_of_lt (Nat.lt_succ_self _)⟩
  | staleCommit q group hq hg hgen hepoch =>
    obtain rfl : q = p := EventPayload.mlsCommit.inj (hq.symm.trans hp)
    exact ⟨group, hg, hgen, hepoch⟩
  | _ => simp_all

theorem generation_of_commit {p : MlsCommit} (h : s.apply K e = .ok s₁)
    (hp : e.core.payload = .mlsCommit p) : ∃ group, s.mlsGroups.lookup p.channelId = some group ∧
      p.generation = group.generation := by
  obtain ⟨v, hv⟩ := verdict_of_apply h
  simp only [checkPayloadAuthz, hp] at hv
  obtain ⟨group, hg, ⟨-, hcommit⟩ | ⟨-, hgen, -⟩⟩ := checkMlsCommit_eq_ok.mp hv
  exacts [⟨group, hg, hcommit.generation⟩, ⟨group, hg, hgen⟩]

theorem stale_onlyRecorded {key : PublicKey} {p : MlsCommit} {group : MlsGroupRecord}
    (henv : Envelope K s e key) (hp : e.core.payload = .mlsCommit p)
    (hg : s.mlsGroups.lookup p.channelId = some group) (hgen : p.generation = group.generation)
    (hepoch : p.epoch ≠ group.epoch) : ∃ s', s.apply K e = .ok s' ∧ OnlyRecorded s e s' :=
  ⟨_, apply_staleCommit henv hp hg hgen hepoch, onlyRecorded_recordAccepted⟩

theorem second_onlyRecorded {p₁ p₂ : MlsCommit} (h₁ : s.apply K e₁ = .ok s₁)
    (h₂ : s.apply K e₂ = .ok s₂) (hp₁ : e₁.core.payload = .mlsCommit p₁)
    (hp₂ : e₂.core.payload = .mlsCommit p₂) (hc : p₁.channelId = p₂.channelId)
    (hepoch : p₁.epoch = p₂.epoch) (hne : e₁.core.author ≠ e₂.core.author) :
    ∃ s', s₁.apply K e₂ = .ok s' ∧ OnlyRecorded s₁ e₂ s' := by
  obtain ⟨key, -, henv, -, -⟩ := apply_cases h₂
  obtain ⟨group, hg, hgen, hother⟩ := group_after_commit h₁ hp₁
  have hgen₂ : p₂.generation = p₁.generation := by
    obtain ⟨before₁, hb₁, hgen₁⟩ := generation_of_commit h₁ hp₁
    obtain ⟨before₂, hb₂, hgen₂⟩ := generation_of_commit h₂ hp₂
    rw [← hc, hb₁] at hb₂
    rw [hgen₁, hgen₂, Option.some.inj hb₂]
  exact stale_onlyRecorded (envelope_after_commit henv h₁ hp₁ hne.symm) hp₂ (hc ▸ hg)
    (hgen₂.trans hgen) (hepoch ▸ hother)

/-- One winner per epoch: over every run the applied commits of a channel and generation have
consecutive epochs and chained authenticators; in every state reached, a commit for another
epoch of the current generation needs its envelope only and is recorded without effect; and
of two acceptable commits for one epoch, by different identities, the second is recorded
without effect whichever comes first. -/
theorem one_winner_per_epoch (h : Run K g tr s) (c n : ℕ) :
    ((appliedCommits c n tr).map MlsCommit.epoch =
        List.range' (firstEpoch n) (appliedCommits c n tr).length ∧
      (appliedCommits c n tr).IsChain fun p q =>
        q.prevEpochAuthenticator = p.postEpochAuthenticator) ∧
    (∀ e key p group, s.checkEnvelope K e = .ok key → e.core.payload = .mlsCommit p →
      s.mlsGroups.lookup p.channelId = some group → p.generation = group.generation →
      p.epoch ≠ group.epoch → ∃ s', s.apply K e = .ok s' ∧ OnlyRecorded s e s') ∧
    (∀ e₁ e₂ p₁ p₂ s₁ s₂, s.apply K e₁ = .ok s₁ → s.apply K e₂ = .ok s₂ →
      e₁.core.payload = .mlsCommit p₁ → e₂.core.payload = .mlsCommit p₂ →
      p₁.channelId = p₂.channelId → p₁.epoch = p₂.epoch → e₁.core.author ≠ e₂.core.author →
      (∃ s', s₁.apply K e₂ = .ok s' ∧ OnlyRecorded s₁ e₂ s') ∧
        ∃ s', s₂.apply K e₁ = .ok s' ∧ OnlyRecorded s₂ e₁ s') := by
  refine ⟨chained h c n, fun e key p group henv hp hg hgen hepoch => ?_, ?_⟩
  · exact stale_onlyRecorded (checkEnvelope_eq_ok.mp henv) hp hg hgen hepoch
  · intro e₁ e₂ p₁ p₂ s₁ s₂ h₁ h₂ hp₁ hp₂ hc hepoch hne
    exact ⟨second_onlyRecorded h₁ h₂ hp₁ hp₂ hc hepoch hne,
      second_onlyRecorded h₂ h₁ hp₂ hp₁ hc.symm hepoch.symm hne.symm⟩

open SampleLog

/-- Alice has a second device to add; she and Bob race for epoch 1. -/
def beforeRace : List Entry :=
  twoMembers ++ [⟨alice, a1, 2, cert alice a1 none⟩,
    ⟨alice, a1, 2, .mlsKeyPackagePublished ⟨[], 0, 100⟩⟩]

def aliceRace : Event :=
  nextEvent (signed beforeRace)
    ⟨alice, a0, 3, commit 0 1 [⟨key alice, device a1, ref alice a1 1⟩] []⟩

def bobRace : Event := nextEvent (signed beforeRace) ⟨bob, b0, 3, commit 0 1 [] []⟩

/-- Both commits would be applied in the same state; in either order the second is recorded
without effect. -/
theorem one_winner_of_race :
    (stateOf beforeRace).checkPayloadAuthz aliceRace = .ok .apply ∧
      (stateOf beforeRace).checkPayloadAuthz bobRace = .ok .apply ∧
      (∃ s', ((stateOf beforeRace).afterEvent crypto aliceRace).apply crypto bobRace = .ok s' ∧
        OnlyRecorded ((stateOf beforeRace).afterEvent crypto aliceRace) bobRace s') ∧
      ∃ s', ((stateOf beforeRace).afterEvent crypto bobRace).apply crypto aliceRace = .ok s' ∧
        OnlyRecorded ((stateOf beforeRace).afterEvent crypto bobRace) aliceRace s' := by
  refine ⟨by decide +kernel, by decide +kernel, ?_⟩
  exact (one_winner_per_epoch (run_accepted (signed beforeRace)) 7 0).2.2 _ _ _ _ _ _
    (apply_afterEvent (by decide +kernel)) (apply_afterEvent (by decide +kernel)) rfl rfl rfl rfl
    (by decide +kernel)

end EpochChain
