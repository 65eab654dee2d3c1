import Farder.DeviceCap
import Farder.EventChains
import Farder.GroupStep
import Mathlib.Data.Multiset.MapFold

/-! # Recorded facts

What the log has recorded is never taken back: deletions, redactions and revocations are
final, a channel, an upload, a pin and a used KeyPackage keep their first record, the clocks
and every group's generation and epoch only advance. The guards that read these facts
therefore hold for the rest of every run. -/
namespace RecordedFacts

open EventLog EventLog.LogState DeviceBinding DeviceCap EventChains

variable {K : Crypto} {g₀ : Genesis} {s t m : LogState} {e : Event}
  {tr a b : List (Transition LogState Event)} {x y : Transition LogState Event}
  {d : DeviceId} {r : EventRef}

/-- Two groups of one channel, in the order of generations and, within one, of epochs. -/
def Advances (g g' : MlsGroupRecord) : Prop :=
  g.generation < g'.generation ∨ g.generation = g'.generation ∧ g.epoch ≤ g'.epoch

def KeepsEntries {k v : Type} [DecidableEq k] (m m' : FiniteMap k v) : Prop :=
  ∀ i a, m.lookup i = some a → m'.lookup i = some a

structure FactsKept (s t : LogState) : Prop where
  tombstones : s.tombstones ⊆ t.tombstones
  redacted : s.redactedAttachments ⊆ t.redactedAttachments
  revoked : s.revokedDevices ⊆ t.revokedDevices
  history : s.plaintextHistoryChannels ⊆ t.plaintextHistoryChannels
  channels : KeepsEntries s.channels t.channels
  uploaders : KeepsEntries s.attachmentUploaders t.attachmentUploaders
  instances : KeepsEntries s.deviceStoreInstance t.deviceStoreInstance
  consumed : KeepsEntries s.consumedKeyPackages t.consumedKeyPackages
  log_pos : t.logPos = s.logPos + 1
  identity_clock : ∀ pk v, s.identityClock.lookup pk = some v →
    ∃ v', t.identityClock.lookup pk = some v' ∧ v ≤ v'
  corroborated_clock : s.corroboratedClock ≤ t.corroboratedClock
  groups : ∀ c g, s.mlsGroups.lookup c = some g →
    ∃ g', t.mlsGroups.lookup c = some g' ∧ Advances g g'

/-! ## The corroborated clock -/

theorem le_foldl_topTwoStep (v : ℕ) (M : Multiset ℕ) (p q : ℕ) (hqp : q ≤ p) :
    (v ≤ (M.foldl topTwoStep (p, q)).1 ↔ v ≤ p ∨ 1 ≤ (M.filter (v ≤ ·)).card) ∧
      (v ≤ (M.foldl topTwoStep (p, q)).2 ↔
        v ≤ q ∨ (v ≤ p ∧ 1 ≤ (M.filter (v ≤ ·)).card) ∨ 2 ≤ (M.filter (v ≤ ·)).card) := by
  induction M using Multiset.induction generalizing p q with
  | empty => simp
  | cons a M ih =>
    rw [Multiset.foldl_cons]
    have hstep : topTwoStep (p, q) a = (max p a, max q (min p a)) := by
      simp only [topTwoStep]
      split_ifs <;> ext <;> simp <;> omega
    rw [hstep]
    obtain ⟨h₁, h₂⟩ := ih (max p a) (max q (min p a)) (by omega)
    rw [h₁, h₂, le_max_iff, le_max_iff, le_min_iff]
    clear h₁ h₂ ih
    by_cases ha : v ≤ a
    · rw [Multiset.filter_cons_of_pos M ha, Multiset.card_cons]
      generalize (M.filter (v ≤ ·)).card = n
      omega
    · rw [Multiset.filter_cons_of_neg M ha]
      generalize (M.filter (v ≤ ·)).card = n
      omega

/-- The corroborated clock has reached a time exactly when two identities have claimed it. -/
theorem le_recomputeCorroboratedClock {clock : FiniteMap PublicKey ℕ} {v : ℕ} :
    v ≤ recomputeCorroboratedClock clock ↔
      v = 0 ∨ 2 ≤ (clock.keys.filter fun pk => ∃ w ∈ clock.lookup pk, v ≤ w).card := by
  rw [recomputeCorroboratedClock, (le_foldl_topTwoStep v clock.values 0 0 le_rfl).2,
    FiniteMap.card_filter_values, Nat.le_zero]
  generalize (clock.keys.filter fun pk => ∃ w ∈ clock.lookup pk, v ≤ w).card = n
  omega

theorem recomputeCorroboratedClock_mono {clock clock' : FiniteMap PublicKey ℕ}
    (h : ∀ pk v, clock.lookup pk = some v → ∃ v', clock'.lookup pk = some v' ∧ v ≤ v') :
    recomputeCorroboratedClock clock ≤ recomputeCorroboratedClock clock' := by
  rw [le_recomputeCorroboratedClock]
  rcases le_recomputeCorroboratedClock.mp (le_refl (recomputeCorroboratedClock clock)) with
    hzero | htwo
  · exact .inl hzero
  · refine .inr (htwo.trans (Finset.card_le_card ?_))
    intro pk hpk
    obtain ⟨-, w, hw, hle⟩ := Finset.mem_filter.mp hpk
    obtain ⟨w', hw', hgrow⟩ := h pk w hw
    refine Finset.mem_filter.mpr ⟨?_, w', hw', hle.trans hgrow⟩
    rw [Finmap.mem_keys]
    exact Finmap.mem_iff.mpr ⟨w', hw'⟩

/-! ## What one effect keeps -/

theorem KeepsEntries.rfl {k v : Type} [DecidableEq k] {m : FiniteMap k v} : KeepsEntries m m :=
  fun _ _ h => h

theorem keepsEntries_insert {k v : Type} [DecidableEq k] {m : FiniteMap k v} {i : k} {a : v}
    (h : m.lookup i = none) : KeepsEntries m (m.insert i a) := by
  intro j b hj
  have hne : j ≠ i := by
    rintro rfl
    cases h.symm.trans hj
  simp [hne, hj]

theorem keepsEntries_pinInstance {hash : Digest} :
    KeepsEntries s.deviceStoreInstance (s.pinInstance d hash).deviceStoreInstance := by
  intro i a hi
  rw [pinInstance, FiniteMap.lookup_orInsert]
  split_ifs with h
  · subst h
    simp [hi]
  · exact hi

theorem keepsEntries_recordUploaders {caps : List AttachmentCap} :
    KeepsEntries s.attachmentUploaders (s.recordUploaders caps).attachmentUploaders :=
  fun _ _ hi => FiniteMap.lookup_foldl_orInsert _ _ caps hi

theorem lookup_consume {store : KeyPackageStore} {add : DeclaredAdd} {exp : ℕ}
    (hr : store.consumed.lookup r = some exp) (hne : add.keyPackage ≠ r) :
    (store.consume add).consumed.lookup r = some exp := by
  unfold KeyPackageStore.consume
  split
  · exact hr
  · split
    · exact hr
    · simp [hne.symm, hr]

theorem lookup_foldl_consume {store : KeyPackageStore} {adds : List DeclaredAdd} {exp : ℕ}
    (hr : store.consumed.lookup r = some exp) (hne : ∀ add ∈ adds, add.keyPackage ≠ r) :
    (adds.foldl KeyPackageStore.consume store).consumed.lookup r = some exp := by
  induction adds generalizing store with
  | nil => exact hr
  | cons add adds ih =>
    exact ih (lookup_consume hr (hne add (by simp))) fun add' h => hne add' (by simp [h])

/-- The facts that an effect itself may add to; the clocks and the groups come apart. -/
structure EffectKept (s m : LogState) : Prop where
  tombstones : s.tombstones ⊆ m.tombstones
  redacted : s.redactedAttachments ⊆ m.redactedAttachments
  revoked : s.revokedDevices ⊆ m.revokedDevices
  history : s.plaintextHistoryChannels ⊆ m.plaintextHistoryChannels
  channels : KeepsEntries s.channels m.channels
  uploaders : KeepsEntries s.attachmentUploaders m.attachmentUploaders
  instances : KeepsEntries s.deviceStoreInstance m.deviceStoreInstance
  consumed : KeepsEntries s.consumedKeyPackages m.consumedKeyPackages

theorem EffectKept.refl : EffectKept s s :=
  ⟨subset_rfl, subset_rfl, subset_rfl, subset_rfl, .rfl, .rfl, .rfl, .rfl⟩

theorem effect_kept {key : PublicKey} (h : Effect K s e key m) : EffectKept s m := by
  cases h with
  | messagePosted p =>
    refine { EffectKept.refl with history := ?_, uploaders := keepsEntries_recordUploaders }
    intro c hc
    show c ∈ if p.channelId ∉ s.channels then insert p.channelId s.plaintextHistoryChannels
      else s.plaintextHistoryChannels
    split_ifs
    exacts [hc, Finset.mem_insert_of_mem hc]
  | attachmentRedacted contentHash =>
    exact { EffectKept.refl with redacted := Finset.subset_insert _ _ }
  | channelCreated p hp howner hnew =>
    have hnone : s.channels.lookup p.channelId = none := Finmap.lookup_eq_none.mpr hnew
    exact { EffectKept.refl with channels := keepsEntries_insert hnone }
  | messageDeleted p =>
    exact { EffectKept.refl with tombstones := Finset.subset_insert _ _ }
  | deviceRevoked device =>
    exact { EffectKept.refl with revoked := Finset.subset_insert _ _ }
  | mlsKeyPackagePublished p =>
    exact { EffectKept.refl with instances := keepsEntries_pinInstance }
  | mlsCommit p g hp hg hcommit =>
    refine { EffectKept.refl with instances := keepsEntries_pinInstance, consumed := ?_ }
    intro r exp hr
    refine lookup_foldl_consume hr fun add hadd heq => ?_
    exact (hcommit.adds add hadd).not_consumed (heq ▸ Finmap.mem_iff.mpr ⟨exp, hr⟩)
  | mlsLeafConfirmed p =>
    exact { EffectKept.refl with instances := keepsEntries_pinInstance }
  | messagePostedE2ee p =>
    exact { EffectKept.refl with uploaders := keepsEntries_recordUploaders }
  | _ => exact { EffectKept.refl with }

theorem GroupEffect.advances {c : ℕ} {g g' : MlsGroupRecord} (h : GroupEffect K s e c g g') :
    Advances g g' := by
  cases h with
  | commit p hp hcommit =>
    refine .inr ⟨rfl, ?_⟩
    show g.epoch ≤ p.epoch + 1
    have := hcommit.epoch
    omega
  | reset p hp hreset =>
    refine .inl ?_
    show g.generation < p.newGeneration
    have := hreset.generation
    omega
  | _ => exact .inr ⟨rfl, le_rfl⟩

theorem identityClock_grows {pk : PublicKey} {v : ℕ} (hv : m.identityClock.lookup pk = some v) :
    ∃ v', (m.recordAccepted K e).identityClock.lookup pk = some v' ∧ v ≤ v' := by
  simp only [recordAccepted, advanceChain, FiniteMap.lookup_insert_eq]
  by_cases hpk : pk = e.core.author
  · subst hpk
    rw [if_pos rfl]
    exact ⟨_, rfl, by simp [identityFloor, hv]⟩
  · rw [if_neg hpk]
    exact ⟨v, hv, le_rfl⟩

theorem corroboratedClock_eq (h : Reachable K g₀ s) :
    s.corroboratedClock = recomputeCorroboratedClock s.identityClock := by
  obtain ⟨tr, htr⟩ := h
  refine htr.invariant (I := fun s => s.corroboratedClock =
    recomputeCorroboratedClock s.identityClock) rfl ?_
  intro s e t _ hstep
  obtain ⟨key, m, -, -, rfl⟩ := apply_cases hstep
  rfl

theorem facts_kept (hs : Reachable K g₀ s) (h : Step K s e t) : FactsKept s t := by
  have hgroups : ∀ c g, s.mlsGroups.lookup c = some g →
      ∃ g', t.mlsGroups.lookup c = some g' ∧ Advances g g' := by
    intro c g hg
    obtain ⟨g', hg', heff⟩ := group_step (reachable_invariant hs) h hg
    exact ⟨g', hg', GroupEffect.advances heff⟩
  have hcorr := corroboratedClock_eq hs
  obtain ⟨key, m, -, heff, rfl⟩ := apply_cases h
  obtain ⟨htomb, hred, hrev, hhist, hchan, hup, hinst, hcons⟩ := effect_kept heff
  obtain ⟨-, hpos, hclock, -⟩ := heff.bookkeeping
  have hgrow : ∀ pk v, s.identityClock.lookup pk = some v →
      ∃ v', (m.recordAccepted K e).identityClock.lookup pk = some v' ∧ v ≤ v' := by
    intro pk v hv
    exact identityClock_grows (hclock ▸ hv)
  refine ⟨htomb, hred, hrev, hhist, hchan, hup, hinst, hcons, congrArg (· + 1) hpos, hgrow, ?_,
    hgroups⟩
  rw [hcorr]
  exact recomputeCorroboratedClock_mono hgrow

/-- The store instance that an applied publish, commit or confirmation carries. -/
def pinnedBy (x : Transition LogState Event) : Option Digest :=
  match x.event.core.payload with
  | .mlsKeyPackagePublished p => some p.storeInstanceHash
  | .mlsCommit p =>
    if x.pre.checkPayloadAuthz x.event = .ok .apply then some p.storeInstanceHash else none
  | .mlsLeafConfirmed p => some p.storeInstanceHash
  | _ => none

structure RunKept (K : Crypto) (tr : List (Transition LogState Event)) : Prop where
  revoked : ∀ a x b d, tr = a ++ x :: b → x.event.core.payload = .deviceRevoked d →
    (∀ y ∈ b, y.event.core.device ≠ d) ∧ ∀ y ∈ x :: b, ∀ pk ts, d ∉ y.post.liveDevices pk ts
  tombstoned : ∀ a x b p, tr = a ++ x :: b → x.event.core.payload = .messageDeleted p →
    ∀ y ∈ b, ∀ q, y.event.core.payload = .messageEditedE2ee q → q.target ≠ p.target
  pinned : ∀ x ∈ tr, ∀ y ∈ tr, x.event.core.device = y.event.core.device →
    ∀ h ∈ pinnedBy x, ∀ h' ∈ pinnedBy y, h = h'
  once : (tr.map Transition.event).Nodup
  chains : ∀ leaf, Linked K (chainOf leaf tr)

theorem tombstones_step (h : Step K s e t) : s.tombstones ⊆ t.tombstones := by
  obtain ⟨key, m, -, heff, rfl⟩ := apply_cases h
  exact (effect_kept heff).tombstones

theorem device_not_revoked (h : Step K s e t) : e.core.device ∉ s.revokedDevices := by
  obtain ⟨key, m, henv, -, rfl⟩ := apply_cases h
  exact henv.not_revoked

theorem revoked_mem (h : Step K s e t) (hp : e.core.payload = .deviceRevoked d) :
    d ∈ t.revokedDevices := by
  obtain ⟨key, m, -, heff, rfl⟩ := apply_cases h
  cases heff with
  | deviceRevoked device record hq =>
    obtain rfl : device = d := EventPayload.deviceRevoked.inj (hq.symm.trans hp)
    exact Finset.mem_insert_self _ _
  | _ => simp_all

theorem tombstone_mem {p : MessageDeleted} (h : Step K s e t)
    (hp : e.core.payload = .messageDeleted p) : p.target ∈ t.tombstones := by
  obtain ⟨key, m, -, heff, rfl⟩ := apply_cases h
  cases heff with
  | messageDeleted q hq =>
    obtain rfl : q = p := EventPayload.messageDeleted.inj (hq.symm.trans hp)
    exact Finset.mem_insert_self _ _
  | _ => simp_all

theorem edit_not_tombstoned {q : MessageEditedE2ee} (h : Step K s e t)
    (hq : e.core.payload = .messageEditedE2ee q) : q.target ∉ s.tombstones := by
  obtain ⟨key, m, -, heff, -⟩ := apply_cases h
  cases heff with
  | messageEditedE2ee p g hp hg hsend htarget =>
    obtain rfl : p = q := EventPayload.messageEditedE2ee.inj (hp.symm.trans hq)
    exact htarget
  | _ => simp_all

theorem lookup_pinInstance {hash : Digest}
    (h : ∀ pinned ∈ s.deviceStoreInstance.lookup d, pinned = hash) :
    (s.pinInstance d hash).deviceStoreInstance.lookup d = some hash := by
  rw [pinInstance, FiniteMap.lookup_orInsert, if_pos rfl]
  cases hd : s.deviceStoreInstance.lookup d with
  | none => rfl
  | some pinned => exact congrArg some (h pinned hd)

/-- After an event that carries a store instance, its device is pinned to it. -/
theorem pinned_after {hash : Digest} (h : Step K s e t) (hp : pinnedBy ⟨s, e, t⟩ = some hash) :
    t.deviceStoreInstance.lookup e.core.device = some hash := by
  obtain ⟨key, m, -, heff, rfl⟩ := apply_cases h
  cases heff with
  | mlsKeyPackagePublished p hq _ hpin =>
    obtain rfl : p.storeInstanceHash = hash := by simpa [pinnedBy, hq] using hp
    exact lookup_pinInstance (Guarded.ensureIfSome_eq_ok.mp hpin)
  | mlsCommit p g hq hg hcommit =>
    have hhash : p.storeInstanceHash = hash := by
      simp only [pinnedBy, hq] at hp
      split_ifs at hp
      exact Option.some.inj hp
    subst hhash
    exact lookup_pinInstance hcommit.pin
  | mlsLeafConfirmed p g hq hg hconfirm =>
    obtain rfl : p.storeInstanceHash = hash := by simpa [pinnedBy, hq] using hp
    exact lookup_pinInstance hconfirm.pin
  | staleCommit p g hq hg hgen hepoch =>
    have hv : s.checkPayloadAuthz e = .ok .staleCommitNoOp := by
      simpa only [checkPayloadAuthz, hq] using
        checkMlsCommit_eq_ok.mpr ⟨g, hg, .inr ⟨rfl, hgen, hepoch⟩⟩
    simp [pinnedBy, hq, hv] at hp
  | _ => simp [pinnedBy, *] at hp

theorem pinned_of_run {hash : Digest} (h : Execution (Step K) s tr t) (hx : x ∈ tr)
    (hp : pinnedBy x = some hash) :
    t.deviceStoreInstance.lookup x.event.core.device = some hash := by
  obtain ⟨a, b, rfl⟩ := List.append_of_mem hx
  obtain ⟨-, hstep, hrest⟩ := h.split_at
  refine hrest.invariant (I := fun u => u.deviceStoreInstance.lookup x.event.core.device =
    some hash) (pinned_after hstep hp) fun s e t hs hst => ?_
  obtain ⟨key, m, -, heff, rfl⟩ := apply_cases hst
  exact (effect_kept heff).instances _ _ hs

/-- In every run each event keeps the recorded facts; a revoked device signs nothing more and
is live for nobody, a deleted target is not edited, a device names one store instance, and
the chains of the log are numbered, linked and free of repetition. -/
theorem recorded_facts_kept (h : Run K g₀ tr t) :
    (∀ x ∈ tr, FactsKept x.pre x.post) ∧ RunKept K tr := by
  constructor
  · intro x hx
    obtain ⟨a, b, rfl⟩ := List.append_of_mem hx
    obtain ⟨hpre, hstep, -⟩ := h.split_at
    exact facts_kept ⟨a, hpre⟩ hstep
  · constructor
    · rintro a x b d rfl hp
      obtain ⟨-, hstep, hrest⟩ := h.split_at
      have hrevoked := revoked_mem hstep hp
      have hafter {y : Transition LogState Event} (hy : y ∈ b) :=
        hrest.invariant_of_mem (I := fun u => d ∈ u.revokedDevices) hrevoked
          (fun _ _ _ hs hst => revokedDevices_step hst hs) hy
      constructor
      · rintro y hy rfl
        exact device_not_revoked (hrest.step_of_mem hy) (hafter hy).1
      · intro y hy pk ts hlive
        refine (mem_liveDevices.mp hlive).2.1 ?_
        rcases List.mem_cons.mp hy with rfl | hy
        exacts [hrevoked, (hafter hy).2]
    · rintro a x b p rfl hp y hy q hq heq
      obtain ⟨-, hstep, hrest⟩ := h.split_at
      have hpre := (hrest.invariant_of_mem (I := fun u => p.target ∈ u.tombstones)
        (tombstone_mem hstep hp) (fun _ _ _ hs hst => tombstones_step hst hs) hy).1
      exact edit_not_tombstoned (hrest.step_of_mem hy) hq (heq ▸ hpre)
    · intro x hx y hy hdev hash hxp hash' hyp
      have hx := pinned_of_run h hx hxp
      rw [hdev] at hx
      exact Option.some.inj (hx.symm.trans (pinned_of_run h hy hyp))
    · exact events_nodup h
    · intro leaf
      exact (chains_linked h leaf).1

open SampleLog in
theorem recorded_facts_kept_twoMembers :
    RunKept crypto (accepted crypto genesis (signed twoMembers)) :=
  (recorded_facts_kept (run_accepted _)).2

end RecordedFacts
