import Farder.LogApply

/-! # What an accepted event has passed

One lemma for each check: acceptance is equivalent to a structure whose fields are the
conditions of the source, in its order. Later modules read the fields and do not unfold
the checks again. -/
namespace EventLog

open Guarded

namespace LogState

variable {K : Crypto} {s : LogState} {e : Event}

/-- An event that has passed the payload-independent checks, signed under `key`. -/
structure Envelope (K : Crypto) (s : LogState) (e : Event) (key : PublicKey) : Prop where
  server : e.core.serverId = s.serverId
  device : s.resolveDevicePubkey K e = .ok key
  signature : K.verify key (K.coreBytes e.core) e.signature = true
  not_revoked : e.core.device ∉ s.revokedDevices
  unexpired : ∀ t ∈ s.certExpiry e, s.selfLivenessTs e.core.author e.core.timestamp ≤ t
  not_banned : e.core.author ∉ s.banned
  chain : s.checkChain e = .ok ()

theorem checkEnvelope_eq_ok {key : PublicKey} :
    s.checkEnvelope K e = .ok key ↔ Envelope K s e key := by
  simp only [checkEnvelope, bind_eq_ok, ensure_eq_ok, ensureIfSome_eq_ok, withContext_eq_ok,
    verify_event_eq_ok, pure_eq_ok, exists_const]
  constructor
  · rintro ⟨hs, k, hd, hsig, hr, hx, hb, ⟨⟩, hc, rfl⟩
    exact ⟨hs, hd, hsig, hr, hx, hb, hc⟩
  · rintro ⟨hs, hd, hsig, hr, hx, hb, hc⟩
    exact ⟨hs, key, hd, hsig, hr, hx, hb, (), hc, rfl⟩

/-- A certificate in the payload speaks for itself; any other event needs a device that is
recorded for its author. -/
theorem resolveDevicePubkey_eq_ok {key : PublicKey} :
    s.resolveDevicePubkey K e = .ok key ↔
      match e.core.payload with
      | .deviceAuthorized cert => cert.verify K = .ok () ∧ cert.core.identity = e.core.author ∧
          cert.core.deviceId = e.core.device ∧ cert.core.devicePubkey = key
      | _ => ∃ r, s.devices.lookup e.core.device = some r ∧ r.identity = e.core.author ∧
          r.devicePubkey = key := by
  cases hp : e.core.payload <;> simp [resolveDevicePubkey, hp]

structure AddAuthorized (s : LogState) (e : Event) (g : MlsGroupRecord) (add : DeclaredAdd) :
    Prop where
  full_member : s.IsFullMember add.identity
  not_banned : add.identity ∉ s.banned
  live : add.device ∈ s.judgedLiveDevices add.identity e.core.timestamp
  not_consumed : add.keyPackage ∉ s.consumedKeyPackages
  key_package : ∃ m, s.keyPackages.lookup add.leaf = some m ∧
    ∃ exp, m.lookup add.keyPackage = some exp ∧ exp > s.logPos
  absent : add.leaf ∉ g.leavesConfirmed ∧ add.leaf ∉ g.leavesPending
  self_add : (∃ leaf ∈ g.leavesConfirmed, leaf.1 = add.identity) → e.core.author = add.identity

theorem checkDeclaredAdd_eq_ok {g : MlsGroupRecord} {add : DeclaredAdd} {u : Unit} :
    s.checkDeclaredAdd e g add = .ok u ↔ AddAuthorized s e g add := by
  simp only [checkDeclaredAdd, bind_eq_ok, ensure_eq_ok, exists_const,
    Option.mem_def, Option.bind_eq_some_iff]
  constructor
  · rintro ⟨hm, hb, hl, hc, ⟨exp, ⟨m, hmap, hexp⟩, hlive⟩, ha, hself⟩
    exact ⟨hm, hb, hl, hc, ⟨m, hmap, exp, hexp, hlive⟩, ha, hself⟩
  · rintro ⟨hm, hb, hl, hc, ⟨m, hmap, exp, hexp, hlive⟩, ha, hself⟩
    exact ⟨hm, hb, hl, hc, ⟨exp, ⟨m, hmap, hexp⟩, hlive⟩, ha, hself⟩

structure RemoveAuthorized (s : LogState) (e : Event) (g : MlsGroupRecord)
    (rem : DeclaredRemove) : Prop where
  present : rem.leaf ∈ g.leaves
  bridge : rem.leaf ∈ g.leavesConfirmed →
    ¬s.LeafHolderInGoodStanding rem.identity rem.device e.core.timestamp ∨
      e.core.author = rem.identity

theorem checkDeclaredRemove_eq_ok {g : MlsGroupRecord} {rem : DeclaredRemove} {u : Unit} :
    s.checkDeclaredRemove e g rem = .ok u ↔ RemoveAuthorized s e g rem := by
  simp only [checkDeclaredRemove, bind_eq_ok, ensure_eq_ok, exists_const]
  constructor
  · rintro ⟨hp, hb⟩
    exact ⟨by simpa [MlsGroupRecord.leaves] using hp, hb⟩
  · rintro ⟨hp, hb⟩
    exact ⟨by simpa [MlsGroupRecord.leaves] using hp, hb⟩

/-- A commit for the group's current epoch that takes effect. -/
structure CommitAuthorized (s : LogState) (e : Event) (p : MlsCommit) (g : MlsGroupRecord) :
    Prop where
  generation : p.generation = g.generation
  epoch : p.epoch = g.epoch
  pin : ∀ pinned ∈ s.deviceStoreInstance.lookup e.core.device, pinned = p.storeInstanceHash
  full_member : s.IsFullMember e.core.author
  creator : g.leavesConfirmed = ∅ →
    (s.channels.lookup p.channelId).map ChannelRecord.creator = some e.core.author
  confirmed : g.leavesConfirmed ≠ ∅ → e.leaf ∈ g.leavesConfirmed
  chain : ∀ expected ∈ g.epochAuthenticator, p.prevEpochAuthenticator = expected
  adds : ∀ add ∈ p.adds, AddAuthorized s e g add
  removes : ∀ rem ∈ p.removes, RemoveAuthorized s e g rem
  rate : s.CommitDischargesDrift e ∨ g.CeilingDemandsRekey ∨
    ∀ last ∈ g.lastCommitEpochByAuthor.lookup e.core.author, last + g.commitRateGap ≤ p.epoch

theorem checkCommitAuthor_eq_ok {p : MlsCommit} {g : MlsGroupRecord} {u : Unit} :
    s.checkCommitAuthor e p g = .ok u ↔
      (g.leavesConfirmed = ∅ →
        (s.channels.lookup p.channelId).map ChannelRecord.creator = some e.core.author) ∧
      (g.leavesConfirmed ≠ ∅ → e.leaf ∈ g.leavesConfirmed) := by
  unfold checkCommitAuthor
  split_ifs with h <;> simp [h]

theorem checkCurrentCommit_eq_ok {p : MlsCommit} {g : MlsGroupRecord} {v : Authorized}
    (hg : p.generation = g.generation) (he : p.epoch = g.epoch) :
    s.checkCurrentCommit e p g = .ok v ↔ v = .apply ∧ CommitAuthorized s e p g := by
  simp only [checkCurrentCommit, checkInstancePin, bind_eq_ok, ensure_eq_ok,
    ensureIfSome_eq_ok, forAll_eq_ok, checkDeclaredAdd_eq_ok, checkDeclaredRemove_eq_ok,
    checkCommitAuthor_eq_ok, pure_eq_ok, exists_const]
  constructor
  · rintro ⟨hp, hm, ⟨hcr, hl⟩, hc, ha, hr, hrate, rfl⟩
    exact ⟨rfl, hg, he, hp, hm, hcr, hl, hc, ha, hr, hrate⟩
  · rintro ⟨rfl, h⟩
    exact ⟨h.pin, h.full_member, ⟨h.creator, h.confirmed⟩, h.chain, h.adds, h.removes,
      h.rate, rfl⟩

/-- The verdict on a commit is decided by its epoch; a stale one passes no further check. -/
theorem checkMlsCommit_eq_ok {p : MlsCommit} {v : Authorized} :
    s.checkMlsCommit e p = .ok v ↔ ∃ g, s.mlsGroups.lookup p.channelId = some g ∧
      ((v = .apply ∧ CommitAuthorized s e p g) ∨
        (v = .staleCommitNoOp ∧ p.generation = g.generation ∧ p.epoch ≠ g.epoch)) := by
  simp only [checkMlsCommit, bind_eq_ok, context_eq_ok, ensure_eq_ok, exists_const]
  refine exists_congr fun g => and_congr_right fun _ => ?_
  constructor
  · rintro ⟨hg, hv⟩
    split_ifs at hv with he
    · exact .inl ((checkCurrentCommit_eq_ok hg he).mp hv)
    · exact .inr ⟨(pure_eq_ok.mp hv).symm, hg, he⟩
  · rintro (⟨hv, h⟩ | ⟨rfl, hg, he⟩)
    · rw [if_pos h.epoch]
      exact ⟨h.generation, (checkCurrentCommit_eq_ok h.generation h.epoch).mpr ⟨hv, h⟩⟩
    · simp [hg, he]

structure ConfirmAuthorized (s : LogState) (e : Event) (p : MlsLeafConfirmed)
    (g : MlsGroupRecord) : Prop where
  full_member : s.IsFullMember e.core.author
  generation : p.generation = g.generation
  pending : e.leaf ∈ g.leavesPending
  pin : ∀ pinned ∈ s.deviceStoreInstance.lookup e.core.device, pinned = p.storeInstanceHash
  tree : checkConfirmedTree e.leaf g p = .ok ()

theorem checkMlsLeafConfirmed_eq_ok {p : MlsLeafConfirmed} {v : Authorized} :
    s.checkMlsLeafConfirmed e p = .ok v ↔ v = .apply ∧
      ∃ g, s.mlsGroups.lookup p.channelId = some g ∧ ConfirmAuthorized s e p g := by
  simp only [checkMlsLeafConfirmed, checkInstancePin, bind_eq_ok, context_eq_ok, ensure_eq_ok,
    ensureIfSome_eq_ok, pure_eq_ok, exists_const]
  constructor
  · rintro ⟨g, hg, hm, hgen, hp, hpin, ⟨⟩, ht, rfl⟩
    exact ⟨rfl, g, hg, hm, hgen, hp, hpin, ht⟩
  · rintro ⟨rfl, g, hg, h⟩
    exact ⟨g, hg, h.full_member, h.generation, h.pending, h.pin, (), h.tree, rfl⟩

structure SendAuthorized (s : LogState) (e : Event) (channelId generation epoch : ℕ)
    (g : MlsGroupRecord) : Prop where
  e2ee : s.channelClass channelId = some .e2ee
  full_member : s.IsFullMember e.core.author
  confirmed : e.leaf ∈ g.leavesConfirmed
  generation : generation = g.generation
  epoch : epoch = g.epoch
  no_removals : s.pendingRemovals channelId e.core.timestamp = ∅
  fresh : g.eventsSinceLastCommit < freshnessCeilingEvents
  complete : ¬g.ResetIncomplete

theorem checkSealedSend_eq_ok {channelId generation epoch : ℕ} {u : Unit} :
    s.checkSealedSend e channelId generation epoch = .ok u ↔
      ∃ g, s.mlsGroups.lookup channelId = some g ∧
        SendAuthorized s e channelId generation epoch g := by
  simp only [checkSealedSend, bind_eq_ok, context_eq_ok, expect_eq_ok, ensure_eq_ok,
    exists_const]
  constructor
  · rintro ⟨_, hc, rfl, g, hg, hm, hl, hgen, he, hr, hf, hi⟩
    exact ⟨g, hg, hc, hm, hl, hgen, he, hr, hf, hi⟩
  · rintro ⟨g, hg, h⟩
    exact ⟨_, h.e2ee, rfl, g, hg, h.full_member, h.confirmed, h.generation, h.epoch,
      h.no_removals, h.fresh, h.complete⟩

/-- The fold over the cited Welcomes succeeds exactly when every reference is new and
recorded for the new generation, and then it has collected their leaves. -/
theorem foldlM_stageWelcome_eq_ok {g : MlsGroupRecord} {n : ℕ} {refs : List EventRef}
    {acc out : Finset Leaf × Finset EventRef} :
    refs.foldlM (stageWelcome g n) acc = .ok out ↔
      refs.Nodup ∧ (∀ r ∈ refs, r ∉ acc.2) ∧
        (∀ r ∈ refs, ∃ w, g.welcomes.lookup r = some w ∧ w.generation = n) ∧
        out = (acc.1 ∪ g.stagedLeaves refs, acc.2 ∪ refs.toFinset) := by
  induction refs generalizing acc with
  | nil => simp [MlsGroupRecord.stagedLeaves, @eq_comm _ acc]
  | cons r refs ih =>
    simp only [List.foldlM_cons, bind_eq_ok, stageWelcome, ensure_eq_ok, context_eq_ok,
      pure_eq_ok, exists_const]
    constructor
    · rintro ⟨_, ⟨hseen, w, hw, hgen, rfl⟩, hrest⟩
      obtain ⟨hnd, hnew, hrec, rfl⟩ := ih.mp hrest
      refine ⟨List.nodup_cons.mpr ⟨fun hr => by simpa using hnew r hr, hnd⟩, ?_, ?_, ?_⟩
      · rintro x (_ | ⟨_, hx⟩)
        exacts [hseen, fun h => hnew x hx (by simp [h])]
      · rintro x (_ | ⟨_, hx⟩)
        exacts [⟨w, hw, hgen⟩, hrec x hx]
      · simp [MlsGroupRecord.stagedLeaves, hw]
    · rintro ⟨hnd, hnew, hrec, rfl⟩
      obtain ⟨w, hw, hgen⟩ := hrec r (by simp)
      obtain ⟨hr, hnd⟩ := List.nodup_cons.mp hnd
      refine ⟨_, ⟨hnew r (by simp), w, hw, hgen, rfl⟩, ih.mpr ⟨hnd, ?_, ?_, ?_⟩⟩
      · intro x hx
        have hne : x ≠ r := fun h => hr (h ▸ hx)
        simpa [hne] using hnew x (by simp [hx])
      · exact fun x hx => hrec x (by simp [hx])
      · simp [MlsGroupRecord.stagedLeaves, hw]

structure ResetAuthorized (s : LogState) (e : Event) (p : MlsGroupReset) (g : MlsGroupRecord) :
    Prop where
  owner : e.core.author = s.owner
  generation : p.newGeneration = g.generation + 1
  rate : g.generation = 0 ∨ g.ResetIncomplete ∨
    resetMinChannelEvents ≤ g.channelEventsSinceReset
  distinct : p.welcomes.Nodup
  recorded : ∀ r ∈ p.welcomes, ∃ w, g.welcomes.lookup r = some w ∧
    w.generation = p.newGeneration
  cover : g.stagedLeaves p.welcomes = (s.memberLeafSet e.core.timestamp).erase e.leaf

theorem checkMlsGroupReset_eq_ok {p : MlsGroupReset} {v : Authorized} :
    s.checkMlsGroupReset e p = .ok v ↔ v = .apply ∧
      ∃ g, s.mlsGroups.lookup p.channelId = some g ∧ ResetAuthorized s e p g := by
  simp only [checkMlsGroupReset, bind_eq_ok, context_eq_ok, ensure_eq_ok, pure_eq_ok,
    exists_const, foldlM_stageWelcome_eq_ok]
  constructor
  · rintro ⟨ho, g, hg, hgen, hrate, _, ⟨hnd, -, hrec, rfl⟩, hcover, rfl⟩
    exact ⟨rfl, g, hg, ho, hgen, hrate, hnd, hrec, by simpa using hcover⟩
  · rintro ⟨rfl, g, hg, h⟩
    exact ⟨h.owner, g, hg, h.generation, h.rate, _,
      ⟨h.distinct, by simp, h.recorded, rfl⟩, by simpa using h.cover, rfl⟩

structure WelcomeAuthorized (s : LogState) (e : Event) (p : MlsWelcome) (g : MlsGroupRecord) :
    Prop where
  full_member : s.IsFullMember e.core.author
  scope : (p.generation = g.generation ∧ e.leaf ∈ g.leavesConfirmed ∧
      (p.forMember, p.forDevice) ∈ g.leavesPending ∧
      ∃ c ∈ g.commitsByEpoch.values, c.eventHash = p.commit) ∨
    (p.generation = g.generation + 1 ∧ e.core.author = s.owner)

theorem checkMlsWelcome_eq_ok {p : MlsWelcome} {v : Authorized} :
    s.checkMlsWelcome e p = .ok v ↔ v = .apply ∧
      ∃ g, s.mlsGroups.lookup p.channelId = some g ∧ WelcomeAuthorized s e p g := by
  have hscope (g : MlsGroupRecord) (u : Unit) : s.checkWelcomeScope e p g = .ok u ↔
      (p.generation = g.generation ∧ e.leaf ∈ g.leavesConfirmed ∧
        (p.forMember, p.forDevice) ∈ g.leavesPending ∧
        ∃ c ∈ g.commitsByEpoch.values, c.eventHash = p.commit) ∨
      (p.generation = g.generation + 1 ∧ e.core.author = s.owner) := by
    unfold checkWelcomeScope
    split_ifs with h h'
    · simp [h]
    · simp [h']
    · simp [h, h']
  simp only [checkMlsWelcome, bind_eq_ok, context_eq_ok, ensure_eq_ok, pure_eq_ok, hscope,
    exists_const]
  constructor
  · rintro ⟨g, hg, hm, hs, rfl⟩
    exact ⟨rfl, g, hg, hm, hs⟩
  · rintro ⟨rfl, g, hg, h⟩
    exact ⟨g, hg, h.full_member, h.scope, rfl⟩

end LogState
end EventLog
