import Farder.GroupRefinement

/-! # What one event does to a group record

`GroupEffect` lists the updates that an accepted event can make to the record of a channel's
group. Groups are created empty and are never dropped, so a property of records is an
invariant of the log as soon as these updates keep it. -/
namespace EventLog

namespace LogState

variable {K : Crypto} {s s' t m : LogState} {e : Event} {key : PublicKey} {c : ℕ}
  {g g' : MlsGroupRecord}

/-- `GroupEffect K s e c g g'`: in `s` the event `e` takes the record of channel `c` from `g`
to `g'`. -/
inductive GroupEffect (K : Crypto) (s : LogState) (e : Event) (c : ℕ) (g : MlsGroupRecord) :
    MlsGroupRecord → Prop
  | other (hcommit : s.appliedCommit c e = none) (hreset : e.resetOf c = none) :
      GroupEffect K s e c g g
  | commit (p : MlsCommit) (hp : s.appliedCommit c e = some p)
      (hcommit : CommitAuthorized s e p g) :
      GroupEffect K s e c g
        (g.applyCommit e.leaf (e.hash K) p (s.voidObligations c e.core.timestamp))
  | welcome (p : MlsWelcome) (hp : e.core.payload = .mlsWelcome p) (hc : p.channelId = c)
      (hwelcome : WelcomeAuthorized s e p g) :
      GroupEffect K s e c g (g.recordWelcome (e.hash K) p)
  | confirm (p : MlsLeafConfirmed) (hp : e.core.payload = .mlsLeafConfirmed p)
      (hc : p.channelId = c) (hconfirm : ConfirmAuthorized s e p g) :
      GroupEffect K s e c g (g.confirmLeaf e.leaf)
  | reset (p : MlsGroupReset) (hp : e.resetOf c = some p) (hreset : ResetAuthorized s e p g) :
      GroupEffect K s e c g (g.applyReset e.leaf p)
  | tombstone (p : MessageDeleted) (hp : e.core.payload = .messageDeleted p)
      (hc : p.channelId = c) : GroupEffect K s e c g g.bumpResetCounter
  | sealed (n k : ℕ) (hsealed : e.sealedAs c = some (n, k)) (hsend : SendAuthorized s e c n k g) :
      GroupEffect K s e c g g.bumpChannelCounters

theorem lookup_bumpGroup {c' : ℕ} {f : MlsGroupRecord → MlsGroupRecord}
    (hg : s.mlsGroups.lookup c = some g) :
    (s.bumpGroup c' f).mlsGroups.lookup c = some (if c = c' then f g else g) := by
  simp only [bumpGroup, FiniteMap.lookup_adjust]
  split_ifs with h
  · subst h
    rw [hg]
    rfl
  · exact hg

theorem lookup_groups_insert {c' : ℕ} {g₀ : MlsGroupRecord} (hg : s.mlsGroups.lookup c = some g)
    (hg₀ : s.mlsGroups.lookup c' = some g₀) :
    (c = c' ∧ g = g₀) ∨ (c ≠ c' ∧ ∀ g₁, (s.mlsGroups.insert c' g₁).lookup c = some g) := by
  by_cases h : c = c'
  · subst h
    exact .inl ⟨rfl, Option.some.inj (hg.symm.trans hg₀)⟩
  · exact .inr ⟨h, fun g₁ => by simp [h, hg]⟩

theorem Effect.groupEffect (h : Effect K s e key m) (hs : ChannelsKept s)
    (hg : s.mlsGroups.lookup c = some g) :
    ∃ g', m.mlsGroups.lookup c = some g' ∧ GroupEffect K s e c g g' := by
  cases h with
  | channelCreated p hp howner hnew =>
    have hne : c ≠ p.channelId := by
      rintro rfl
      have hclass := (hs.group_iff p.channelId).mp (by simp [hg])
      simp [channelClass, Finmap.lookup_eq_none.mpr hnew] at hclass
    refine ⟨g, ?_, .other (by simp [appliedCommit, hp]) (by simp [Event.resetOf, hp])⟩
    simp only [createChannel]
    split_ifs
    · simp [hne, hg]
    · exact hg
  | messageDeleted p hp =>
    refine ⟨_, lookup_bumpGroup hg, ?_⟩
    split_ifs with hc
    · exact .tombstone p hp hc.symm
    · exact .other (by simp [appliedCommit, hp]) (by simp [Event.resetOf, hp])
  | mlsCommit p g₀ hp hg₀ hcommit =>
    have hv : s.checkPayloadAuthz e = .ok .apply := by
      simpa only [checkPayloadAuthz, hp] using
        checkMlsCommit_eq_ok.mpr ⟨g₀, hg₀, .inl ⟨rfl, hcommit⟩⟩
    rcases lookup_groups_insert hg hg₀ with ⟨rfl, rfl⟩ | ⟨hne, hother⟩
    · exact ⟨_, Finmap.lookup_insert _, .commit p (appliedCommit_eq_some.mpr ⟨hp, rfl, hv⟩) hcommit⟩
    · exact ⟨g, hother _, .other (by simp [appliedCommit, hp, hne.symm])
        (by simp [Event.resetOf, hp])⟩
  | staleCommit p g₀ hp hg₀ hgen hepoch =>
    have hv : s.checkPayloadAuthz e = .ok .staleCommitNoOp := by
      simpa only [checkPayloadAuthz, hp] using
        checkMlsCommit_eq_ok.mpr ⟨g₀, hg₀, .inr ⟨rfl, hgen, hepoch⟩⟩
    exact ⟨g, hg, .other (by simp [appliedCommit, hp, hv]) (by simp [Event.resetOf, hp])⟩
  | mlsWelcome p g₀ hp hg₀ hwelcome =>
    rcases lookup_groups_insert hg hg₀ with ⟨rfl, rfl⟩ | ⟨-, hother⟩
    · exact ⟨_, Finmap.lookup_insert _, .welcome p hp rfl hwelcome⟩
    · exact ⟨g, hother _, .other (by simp [appliedCommit, hp]) (by simp [Event.resetOf, hp])⟩
  | mlsLeafConfirmed p g₀ hp hg₀ hconfirm =>
    rcases lookup_groups_insert hg hg₀ with ⟨rfl, rfl⟩ | ⟨-, hother⟩
    · exact ⟨_, Finmap.lookup_insert _, .confirm p hp rfl hconfirm⟩
    · exact ⟨g, hother _, .other (by simp [appliedCommit, hp]) (by simp [Event.resetOf, hp])⟩
  | messagePostedE2ee p g₀ hp hg₀ hsend =>
    refine ⟨_, lookup_bumpGroup (s := s.recordUploaders p.attachments) hg, ?_⟩
    split_ifs with hc
    · subst hc
      obtain rfl : g = g₀ := Option.some.inj (hg.symm.trans hg₀)
      exact .sealed p.generation p.epoch (by simp [Event.sealedAs, hp]) hsend
    · exact .other (by simp [appliedCommit, hp]) (by simp [Event.resetOf, hp])
  | messageEditedE2ee p g₀ hp hg₀ hsend =>
    refine ⟨_, lookup_bumpGroup hg, ?_⟩
    split_ifs with hc
    · subst hc
      obtain rfl : g = g₀ := Option.some.inj (hg.symm.trans hg₀)
      exact .sealed p.generation p.epoch (by simp [Event.sealedAs, hp]) hsend
    · exact .other (by simp [appliedCommit, hp]) (by simp [Event.resetOf, hp])
  | mlsGroupReset p g₀ hp hg₀ hreset =>
    rcases lookup_groups_insert hg hg₀ with ⟨rfl, rfl⟩ | ⟨hne, hother⟩
    · exact ⟨_, Finmap.lookup_insert _, .reset p (resetOf_eq_some.mpr ⟨hp, rfl⟩) hreset⟩
    · exact ⟨g, hother _, .other (by simp [appliedCommit, hp])
        (by simp [Event.resetOf, hp, hne.symm])⟩
  | _ => exact ⟨g, hg, .other (by simp [appliedCommit, *]) (by simp [Event.resetOf, *])⟩

theorem Effect.group_new (h : Effect K s e key m) (hg' : m.mlsGroups.lookup c = some g')
    (hnone : s.mlsGroups.lookup c = none) : g' = MlsGroupRecord.new := by
  have hinsert {c₀ : ℕ} {g₀ g₁ : MlsGroupRecord} (hg₀ : s.mlsGroups.lookup c₀ = some g₀) :
      (s.mlsGroups.insert c₀ g₁).lookup c ≠ some g' := by
    have hne : c ≠ c₀ := by
      rintro rfl
      cases hnone.symm.trans hg₀
    simp [hne, hnone]
  have hbump {c₀ : ℕ} {f : MlsGroupRecord → MlsGroupRecord} :
      (s.bumpGroup c₀ f).mlsGroups.lookup c = none := by
    simp only [bumpGroup, FiniteMap.lookup_adjust]
    split_ifs with h
    · subst h
      rw [hnone]
      rfl
    · exact hnone
  cases h with
  | channelCreated p =>
    simp only [createChannel] at hg'
    split_ifs at hg'
    · rw [FiniteMap.lookup_insert_eq] at hg'
      split_ifs at hg'
      · exact (Option.some.inj hg').symm
      · cases hnone.symm.trans hg'
    · cases hnone.symm.trans hg'
  | mlsCommit p g₀ hp hg₀ => exact absurd hg' (hinsert hg₀)
  | mlsWelcome p g₀ hp hg₀ => exact absurd hg' (hinsert hg₀)
  | mlsLeafConfirmed p g₀ hp hg₀ => exact absurd hg' (hinsert hg₀)
  | mlsGroupReset p g₀ hp hg₀ => exact absurd hg' (hinsert hg₀)
  | messageDeleted p => cases hbump.symm.trans hg'
  | messagePostedE2ee p => cases hbump.symm.trans hg'
  | messageEditedE2ee p => cases hbump.symm.trans hg'
  | _ => cases hnone.symm.trans hg'

theorem group_step {owner : PublicKey} (hs : Invariant owner s) (h : Step K s e t)
    (hg : s.mlsGroups.lookup c = some g) :
    ∃ g', t.mlsGroups.lookup c = some g' ∧ GroupEffect K s e c g g' := by
  obtain ⟨key, m, -, heff, rfl⟩ := apply_cases h
  exact heff.groupEffect hs.channels hg

theorem group_invariant {P : MlsGroupRecord → Prop} {g₀ : Genesis} (hs : Reachable K g₀ t)
    (hnew : P .new) (hstep : ∀ s e c g g', Invariant g₀.owner s → s.mlsGroups.lookup c = some g →
      GroupEffect K s e c g g' → P g → P g') :
    ∀ c g, t.mlsGroups.lookup c = some g → P g := by
  obtain ⟨tr, h⟩ := hs
  have hrun := h.invariant (I := fun s => Invariant g₀.owner s ∧
    ∀ c g, s.mlsGroups.lookup c = some g → P g) ⟨invariant_genesis g₀, by simp [fromGenesis]⟩ ?_
  · exact hrun.2
  · rintro s e t ⟨hinv, hall⟩ hst
    refine ⟨step_preserves_invariant hinv hst, fun c g' hg' => ?_⟩
    cases hg : s.mlsGroups.lookup c with
    | none =>
      obtain ⟨key, m, -, heff, rfl⟩ := apply_cases hst
      rw [heff.group_new hg' hg]
      exact hnew
    | some g =>
      obtain ⟨g'', hg'', heff⟩ := group_step hinv hst hg
      obtain rfl := Option.some.inj (hg''.symm.trans hg')
      exact hstep s e c g g'' hinv hg heff (hall c g hg)

end LogState
end EventLog
