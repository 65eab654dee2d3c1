import Farder.DriftDischarge
import Farder.ResetObligations

/-! # Void obligations of a reset

When every leaf that a reset still owes has lost its holder, the next commit clears the
obligations and the channel opens. That commit discharges no drift, so it is held to the pace
of commits; and the freshness ceiling, which lifts the pace, is not reached in a sealed
channel. A present member can clear the obligations exactly when it may commit at all. -/
namespace VoidObligations

open EventLog EventLog.LogState DeviceBinding DriftDischarge GroupReset ResetObligations

variable {K : Crypto} {g : Genesis} {s s' : LogState} {e : Event} {p : MlsCommit} {c : ℕ}
  {m : PublicKey} {d : DeviceId} {ts : ℕ} {group : MlsGroupRecord}

/-- Every staged leaf that is still unconfirmed has a holder out of good standing. -/
def OnlyVoid (s : LogState) (c ts : ℕ) : Prop :=
  ∀ l ∈ resetWelcomed s c, l ∉ s.leavesConfirmed c → ¬s.LeafHolderInGoodStanding l.1 l.2 ts

instance (s : LogState) (c ts : ℕ) : Decidable (OnlyVoid s c ts) :=
  inferInstanceAs (Decidable (∀ l ∈ _, _))

/-- The leaf has published a KeyPackage that is neither expired nor consumed. -/
def HasKeyPackage (s : LogState) (l : Leaf) : Prop :=
  ∃ m, s.keyPackages.lookup l = some m ∧
    ∃ r exp, m.lookup r = some exp ∧ exp > s.logPos ∧ r ∉ s.consumedKeyPackages

/-- The channel's group lets `m` commit at `ts`: the ceiling is near, or the pace allows it,
or there is a leaf to take out, or a missing leaf that `m` may add. -/
def MayCommit (s : LogState) (c : ℕ) (m : PublicKey) (ts : ℕ) : Prop :=
  ∃ group, s.mlsGroups.lookup c = some group ∧
    (group.CeilingDemandsRekey ∨
      (∀ last ∈ group.lastCommitEpochByAuthor.lookup m,
        last + group.commitRateGap ≤ group.epoch) ∨
      (s.pendingRemovals c ts).Nonempty ∨
      ∃ l ∈ s.pendingAdds c ts, HasKeyPackage s l ∧
        ((∃ l' ∈ group.leavesConfirmed, l'.1 = l.1) → m = l.1))

theorem mem_confirmed_applyCommit {leaf l : Leaf} {h : EventHash} {void : Finset Leaf} :
    l ∈ (group.applyCommit leaf h p void).leavesConfirmed ↔
      (l ∈ group.leavesConfirmed ∧ l ∉ p.removes.map DeclaredRemove.leaf) ∨
        group.Bootstraps ∧ l = leaf := by
  simp only [MlsGroupRecord.applyCommit]
  split_ifs with hboot <;>
    simp only [Finset.mem_insert, Finset.mem_foldl_erase, hboot] <;> tauto

/-! ## What an accepted commit shows -/

theorem commitAuthorized_of_accepted (he : CurrentCommit K s c e p) (h : s.apply K e = .ok s') :
    ∃ key group, Envelope K s e key ∧ s.mlsGroups.lookup c = some group ∧
      CommitAuthorized s e p group ∧ s'.mlsGroups.lookup c = some (group.applyCommit e.leaf
        (e.hash K) p (s.voidObligations c e.core.timestamp)) := by
  obtain ⟨key, n, henv, heff, rfl⟩ := apply_cases h
  obtain ⟨hp, rfl⟩ : e.core.payload = .mlsCommit p ∧ p.channelId = c := ⟨he.payload, he.channel⟩
  cases heff with
  | mlsCommit q group hq hg hcommit =>
    obtain rfl : q = p := EventPayload.mlsCommit.inj (hq.symm.trans hp)
    exact ⟨key, group, henv, hg, hcommit, Finmap.lookup_insert _⟩
  | staleCommit q group hq hg hgen hepoch =>
    obtain rfl : q = p := EventPayload.mlsCommit.inj (hq.symm.trans hp)
    exact absurd (he.epoch group hg) hepoch
  | _ => simp_all

theorem present_of_envelope {key : PublicKey} (henv : Envelope K s e key)
    (hp : e.core.payload = .mlsCommit p) (hfull : s.IsFullMember e.core.author)
    (hl : e.leaf ∈ s.leavesConfirmed c) :
    Present s c e.core.author e.core.device e.core.timestamp := by
  have hdevice := resolveDevicePubkey_eq_ok.mp henv.device
  rw [hp] at hdevice
  obtain ⟨r, hr, hid, -⟩ := hdevice
  have hexpiry : s.certExpiry e = s.expiryOf e.core.device := by
    simp [certExpiry, hp]
  refine ⟨hfull, hl, ?_, henv.not_revoked, hexpiry ▸ henv.unexpired⟩
  rw [boundTo, hr]
  exact congrArg some hid

theorem mayCommit_of_authorized (hg : s.mlsGroups.lookup c = some group)
    (he : CurrentCommit K s c e p) (hcommit : CommitAuthorized s e p group) :
    MayCommit s c e.core.author e.core.timestamp := by
  obtain rfl := he.channel
  refine ⟨group, hg, ?_⟩
  rcases hcommit.rate with hdrift | hceiling | hpace
  · simp only [CommitDischargesDrift, he.payload] at hdrift
    rcases hdrift with ⟨add, hadd, hmissing⟩ | ⟨rem, -, hextra⟩
    · have hauth := hcommit.adds add hadd
      obtain ⟨refs, hrefs, exp, hexp, hlive⟩ := hauth.key_package
      exact .inr (.inr (.inr ⟨add.leaf, hmissing,
        ⟨refs, hrefs, add.keyPackage, exp, hexp, hlive, hauth.not_consumed⟩, hauth.self_add⟩))
    · exact .inr (.inr (.inl ⟨rem.leaf, hextra⟩))
  · exact .inl hceiling
  · rw [he.epoch group hg] at hpace
    exact .inr (.inl hpace)

theorem onlyVoid_of_cleared (hl : e.leaf ∈ s.leavesConfirmed c)
    (hg : s.mlsGroups.lookup c = some group)
    (hg' : s'.mlsGroups.lookup c = some (group.applyCommit e.leaf (e.hash K) p
      (s.voidObligations c ts))) (hdone : ¬ResetIncomplete s' c) : OnlyVoid s c ts := by
  intro l howed hmissing hgood
  simp only [resetWelcomed, leavesConfirmed, hg, Option.map_some, Option.getD_some]
    at howed hmissing hl
  refine hdone ⟨_, hg', l, ?_, ?_⟩
  · refine Finset.mem_filter.mpr ⟨howed, fun hvoid => ?_⟩
    exact ((mem_voidObligations hg).mp hvoid).2 hgood
  · rw [mem_confirmed_applyCommit]
    rintro (⟨hconf, -⟩ | ⟨-, rfl⟩)
    exacts [hmissing hconf, hmissing hl]

/-! ## A commit that clears the obligations -/

theorem cleared_of_onlyVoid (hs : Membership s) (hg : s.mlsGroups.lookup c = some group)
    (hg' : s'.mlsGroups.lookup c = some (group.applyCommit e.leaf (e.hash K) p
      (s.voidObligations c ts))) (hvoid : OnlyVoid s c ts)
    (hremoves : ∀ rem ∈ p.removes, rem.leaf ∈ s.pendingRemovals c ts) :
    ¬ResetIncomplete s' c := by
  rintro ⟨_, hlookup, l, howed, hmissing⟩
  obtain rfl := Option.some.inj (hg'.symm.trans hlookup)
  obtain ⟨howed, hkept⟩ := Finset.mem_filter.mp howed
  have hgood : s.LeafHolderInGoodStanding l.1 l.2 ts := by
    by_contra hbad
    exact hkept ((mem_voidObligations hg).mpr ⟨howed, hbad⟩)
  have hconf : l ∈ group.leavesConfirmed := by
    by_contra hnot
    refine hvoid l ?_ ?_ hgood
    · simpa [resetWelcomed, hg] using howed
    · simpa [leavesConfirmed, hg] using hnot
  rw [mem_confirmed_applyCommit, not_or] at hmissing
  refine hmissing.1 ⟨hconf, fun hrem => ?_⟩
  obtain ⟨rem, hmem, rfl⟩ := List.mem_map.mp hrem
  exact ((mem_pendingRemovals hg).mp (hremoves rem hmem)).2 ((goodStanding_iff hs).mp hgood)

/-- The commit that the holder of `k` signs at the end of its chain. -/
def signedCommit (K : Crypto) (s : LogState) (m : PublicKey) (d : DeviceId) (ts : ℕ) (k : Keypair)
    (p : MlsCommit) : Event :=
  Event.sign K
    { serverId := s.serverId
      author := m
      device := d
      seq := ((s.chains.lookup (m, d)).map fun head => head.seq + 1).getD 0
      prev := (s.chains.lookup (m, d)).map ChainHead.hash
      lamport := 0
      timestamp := ts
      payload := .mlsCommit p } k

/-- What the group and the device's pin ask of a commit, with the given adds and removes. -/
def commitFor (s : LogState) (group : MlsGroupRecord) (c : ℕ) (d : DeviceId)
    (adds : List DeclaredAdd) (removes : List DeclaredRemove) : MlsCommit where
  channelId := c
  generation := group.generation
  epoch := group.epoch
  mlsMessage := []
  adds := adds
  removes := removes
  prevEpochAuthenticator := group.epochAuthenticator.getD 0
  postEpochAuthenticator := 0
  postTreeHash := 0
  authzHead := ""
  storeInstanceHash := (s.deviceStoreInstance.lookup d).getD 0

section

variable {k : Keypair} {adds : List DeclaredAdd} {removes : List DeclaredRemove}

theorem currentCommit_commitFor (hg : s.mlsGroups.lookup c = some group)
    (hsign : ∀ message, K.verify (K.publicKey k) message (K.sign k message) = true)
    (hkey : ∀ r ∈ s.devices.lookup d, r.devicePubkey = K.publicKey k) :
    CurrentCommit K s c (signedCommit K s m d ts k (commitFor s group c d adds removes))
      (commitFor s group c d adds removes) := by
  have hgroup (group' : MlsGroupRecord) (hg' : group' ∈ s.mlsGroups.lookup c) : group = group' :=
    Option.some.inj (hg.symm.trans hg')
  constructor
  · rfl
  · have hleaf : (signedCommit K s m d ts k (commitFor s group c d adds removes)).leaf =
        (m, d) := rfl
    unfold checkChain
    rw [hleaf]
    cases hhead : s.chains.lookup (m, d) <;> simp [signedCommit, Event.sign, hhead]
  · intro r hr
    rw [hkey r hr]
    exact hsign _
  · rfl
  · rfl
  · intro group' hg'
    exact congrArg MlsGroupRecord.generation (hgroup group' hg')
  · intro group' hg'
    exact congrArg MlsGroupRecord.epoch (hgroup group' hg')
  · intro group' hg' a ha
    obtain rfl := hgroup group' hg'
    simp [commitFor, Option.mem_def.mp ha]
  · intro pinned hp
    have hp : s.deviceStoreInstance.lookup d = some pinned := hp
    simp [commitFor, hp]

end

theorem addAuthorized_of_missing (hs : Membership s) (hg : s.mlsGroups.lookup c = some group)
    {add : DeclaredAdd} (hmissing : add.leaf ∈ s.pendingAdds c e.core.timestamp)
    (hpackage : ∃ refs, s.keyPackages.lookup add.leaf = some refs ∧
      ∃ exp, refs.lookup add.keyPackage = some exp ∧ exp > s.logPos)
    (hnew : add.keyPackage ∉ s.consumedKeyPackages)
    (hself : (∃ l ∈ group.leavesConfirmed, l.1 = add.leaf.1) → e.core.author = add.leaf.1) :
    AddAuthorized s e group add := by
  obtain ⟨hmember, habsent⟩ := (mem_pendingAdds hg).mp hmissing
  obtain ⟨hmember, hlive⟩ := mem_memberLeafSet.mp hmember
  exact ⟨⟨hmember, hs.member_not_pending _ hmember⟩, hs.member_not_banned _ hmember, hlive, hnew,
    hpackage, habsent, hself⟩

/-- A present member that may commit has a commit that is applied and removes nothing but
drift. -/
theorem commit_of_mayCommit (hs : Membership s) (h : Present s c m d ts)
    (hg : s.mlsGroups.lookup c = some group)
    (hsign : ∀ k message, K.verify (K.publicKey k) message (K.sign k message) = true)
    (hkeys : ∀ d r, s.devices.lookup d = some r → r.identity = m →
      ∃ k, r.devicePubkey = K.publicKey k) (hmay : MayCommit s c m ts) :
    ∃ e p s', e.core.author = m ∧ CurrentCommit K s c e p ∧ s.apply K e = .ok s' ∧
      s'.mlsGroups.lookup c = some (group.applyCommit e.leaf (e.hash K) p
        (s.voidObligations c ts)) ∧ ∀ rem ∈ p.removes, rem.leaf ∈ s.pendingRemovals c ts := by
  obtain ⟨r, hr, hid⟩ := Option.map_eq_some_iff.mp h.bound
  obtain ⟨k, hk⟩ := hkeys d r hr hid
  have hkey : ∀ r' ∈ s.devices.lookup d, r'.devicePubkey = K.publicKey k := by
    intro r' hr'
    rw [← Option.some.inj (hr.symm.trans hr')]
    exact hk
  -- Whatever lifts the pace of commits, the adds and removes are the ones it speaks of.
  obtain ⟨adds, removes, hadds, hremoves, hrate⟩ : ∃ adds removes,
      let e := signedCommit K s m d ts k (commitFor s group c d adds removes)
      (∀ add ∈ adds, AddAuthorized s e group add) ∧
      (∀ rem ∈ removes, rem.leaf ∈ s.pendingRemovals c ts) ∧
      (s.CommitDischargesDrift e ∨ group.CeilingDemandsRekey ∨
        ∀ last ∈ group.lastCommitEpochByAuthor.lookup m,
          last + group.commitRateGap ≤ group.epoch) := by
    obtain ⟨group', hg', hmay⟩ := hmay
    obtain rfl := Option.some.inj (hg.symm.trans hg')
    rcases hmay with hceiling | hpace | ⟨l, hextra⟩ | ⟨l, hmissing, hpackage, hself⟩
    · exact ⟨[], [], by simp, by simp, .inr (.inl hceiling)⟩
    · exact ⟨[], [], by simp, by simp, .inr (.inr hpace)⟩
    · refine ⟨[], [⟨l.1, l.2⟩], by simp, ?_, .inl (.inr ⟨⟨l.1, l.2⟩, by simp [commitFor], hextra⟩)⟩
      intro rem hrem
      obtain rfl := List.mem_singleton.mp hrem
      exact hextra
    · obtain ⟨refs, hrefs, ref, exp, hexp, hlive, hnew⟩ := hpackage
      refine ⟨[⟨l.1, l.2, ref⟩], [], ?_, by simp,
        .inl (.inl ⟨⟨l.1, l.2, ref⟩, by simp [commitFor], hmissing⟩)⟩
      intro add hadd
      obtain rfl := List.mem_singleton.mp hadd
      exact addAuthorized_of_missing hs hg hmissing ⟨refs, hrefs, exp, hexp, hlive⟩ hnew hself
  have he : CurrentCommit K s c (signedCommit K s m d ts k (commitFor s group c d adds removes))
      (commitFor s group c d adds removes) := currentCommit_commitFor hg (hsign k) hkey
  obtain ⟨s', hs', hg'⟩ := commit_accepted hs h he hg hadds hremoves hrate
  exact ⟨_, _, s', rfl, he, hs', hg', hremoves⟩

/-- In every reachable state, a present member whose devices sign can author a commit that is
applied and leaves the reset complete, exactly when at some time it may commit while all
obligations that are left are void. -/
theorem void_reset_cleared_iff (hs : Reachable K g s) (h : Present s c m d ts)
    (hsign : ∀ k message, K.verify (K.publicKey k) message (K.sign k message) = true)
    (hkeys : ∀ d r, s.devices.lookup d = some r → r.identity = m →
      ∃ k, r.devicePubkey = K.publicKey k) :
    (∃ e p s', e.core.author = m ∧ CurrentCommit K s c e p ∧ s.apply K e = .ok s' ∧
        ¬ResetIncomplete s' c) ↔
      ∃ d ts, Present s c m d ts ∧ OnlyVoid s c ts ∧ MayCommit s c m ts := by
  have hinv := reachable_invariant hs
  constructor
  · rintro ⟨e, p, s', rfl, he, hs', hdone⟩
    obtain ⟨key, group, henv, hg, hcommit, hg'⟩ := commitAuthorized_of_accepted he hs'
    have hl : e.leaf ∈ s.leavesConfirmed c := by
      obtain ⟨group', hg', hl⟩ := h.lookup
      obtain rfl : group = group' := Option.some.inj (hg.symm.trans hg')
      simpa [leavesConfirmed, hg] using hcommit.confirmed (Finset.ne_empty_of_mem hl)
    exact ⟨e.core.device, e.core.timestamp, present_of_envelope henv he.payload
      hcommit.full_member hl, onlyVoid_of_cleared hl hg hg' hdone,
      mayCommit_of_authorized hg he hcommit⟩
  · rintro ⟨d', ts', h', hvoid, hmay⟩
    obtain ⟨group, hg, -⟩ := h'.lookup
    obtain ⟨e, p, s', hauthor, he, hs', hg', hremoves⟩ :=
      commit_of_mayCommit hinv.membership h' hg hsign hkeys hmay
    exact ⟨e, p, s', hauthor, he, hs', cleared_of_onlyVoid hinv.membership hg hg' hvoid hremoves⟩

open SampleLog

/-- Alice resets the group, and bans Bob before he confirms. -/
def bannedBeforeConfirming : List Entry :=
  twoMembers ++
    [⟨alice, a0, 3, .mlsWelcome ⟨7, 1, "", key bob, device b0, []⟩⟩,
     ⟨alice, a0, 3, .mlsGroupReset ⟨7, 1, [ref alice a0 4], 0⟩⟩,
     ⟨alice, a0, 3, .memberBanned (key bob)⟩]

theorem void_reset_cleared_bannedBeforeConfirming :
    ResetIncomplete (stateOf bannedBeforeConfirming) 7 ∧
      ∃ e p s', e.core.author = key alice ∧
        CurrentCommit crypto (stateOf bannedBeforeConfirming) 7 e p ∧
        (stateOf bannedBeforeConfirming).apply crypto e = .ok s' ∧ ¬ResetIncomplete s' 7 := by
  have hpresent : Present (stateOf bannedBeforeConfirming) 7 (key alice) (device a0) 4 := by
    decide +kernel
  have hextra : ((stateOf bannedBeforeConfirming).pendingRemovals 7 4).Nonempty := by
    decide +kernel
  obtain ⟨group, hg, -⟩ := hpresent.lookup
  refine ⟨by decide +kernel, (void_reset_cleared_iff (reachable_stateAfter _) hpresent
    (by simp [crypto]) (fun d r _ _ => ⟨⟨r.devicePubkey.bytes⟩, rfl⟩)).mpr ?_⟩
  exact ⟨device a0, 4, hpresent, by decide +kernel, group, hg, .inr (.inr (.inl hextra))⟩

/-! ## A member that cannot clear them -/

theorem memberLeafSet_of_unexpiring
    (h : ∀ pk ∈ s.members, ∀ d ∈ s.devicesOf pk, s.expiryOf d = none) (ts : ℕ) :
    s.memberLeafSet ts = s.memberLeafSet 0 := by
  ext l
  simp only [mem_memberLeafSet, mem_judgedLiveDevices]
  refine and_congr_right fun hl => and_congr_right fun hd => ?_
  simp [h l.1 hl l.2 hd]

def carol : Keypair := ⟨6⟩
def c0 : Keypair := ⟨7⟩

/-- Alice resets a group of three. Bob confirms; Alice takes out Carol's pending leaf, and
bans her. -/
def outpaced : List Entry :=
  [⟨alice, a0, 1, cert alice a0 none⟩,
   ⟨alice, a0, 1, .channelCreated ⟨7, "sealed", "text", .e2ee, none⟩⟩,
   ⟨alice, a0, 1, .inviteCreated ⟨"", 5, 100, false⟩⟩,
   ⟨bob, b0, 1, cert bob b0 none⟩,
   ⟨bob, b0, 1, .memberJoined (key bob) (ref alice a0 2)⟩,
   ⟨carol, c0, 1, cert carol c0 none⟩,
   ⟨carol, c0, 1, .memberJoined (key carol) (ref alice a0 2)⟩,
   ⟨alice, a0, 2, .mlsWelcome ⟨7, 1, "", key bob, device b0, []⟩⟩,
   ⟨alice, a0, 2, .mlsWelcome ⟨7, 1, "", key carol, device c0, []⟩⟩,
   ⟨alice, a0, 2, .mlsGroupReset ⟨7, 1, [ref alice a0 3, ref alice a0 4], 0⟩⟩,
   ⟨bob, b0, 2, .mlsLeafConfirmed ⟨7, 1, 1, 0, 0⟩⟩,
   ⟨alice, a0, 3, commit 1 1 [] [⟨key carol, device c0⟩]⟩,
   ⟨alice, a0, 4, .memberBanned (key carol)⟩]

theorem not_mayCommit_outpaced (ts : ℕ) : ¬MayCommit (stateOf outpaced) 7 (key alice) ts := by
  have hfix := memberLeafSet_of_unexpiring (s := stateOf outpaced) (by decide +kernel) ts
  have hremovals : (stateOf outpaced).pendingRemovals 7 0 = ∅ := by decide +kernel
  have hadds : (stateOf outpaced).pendingAdds 7 0 = ∅ := by decide +kernel
  have hpace : ∀ group ∈ (stateOf outpaced).mlsGroups.lookup 7, ¬group.CeilingDemandsRekey ∧
      ¬∀ last ∈ group.lastCommitEpochByAuthor.lookup (key alice),
        last + group.commitRateGap ≤ group.epoch := by decide +kernel
  rintro ⟨group, hg, hceiling | hlast | hextra | ⟨l, hmissing, -⟩⟩
  · exact (hpace group hg).1 hceiling
  · exact (hpace group hg).2 hlast
  · have hsame : (stateOf outpaced).pendingRemovals 7 ts =
        (stateOf outpaced).pendingRemovals 7 0 := by simp only [pendingRemovals, hfix]
    rw [hsame, hremovals] at hextra
    exact Finset.not_nonempty_empty hextra
  · have hsame : (stateOf outpaced).pendingAdds 7 ts = (stateOf outpaced).pendingAdds 7 0 := by
      simp only [pendingAdds, hfix]
    rw [hsame, hadds] at hmissing
    exact Finset.notMem_empty _ hmissing

/-- Carol's obligation is void whatever the time, and Alice is present; but no commit of
Alice's is accepted. -/
theorem void_reset_wedges_outpaced :
    Reachable crypto genesis (stateOf outpaced) ∧
      ((stateOf outpaced).mlsGroups.lookup 7).map MlsGroupRecord.generation = some 1 ∧
      ResetIncomplete (stateOf outpaced) 7 ∧ (∀ ts, OnlyVoid (stateOf outpaced) 7 ts) ∧
      Present (stateOf outpaced) 7 (key alice) (device a0) 5 ∧
      ¬∃ e p s', e.core.author = key alice ∧ CurrentCommit crypto (stateOf outpaced) 7 e p ∧
        (stateOf outpaced).apply crypto e = .ok s' ∧ ¬ResetIncomplete s' 7 := by
  have hdeparted : ∀ l ∈ resetWelcomed (stateOf outpaced) 7,
      l ∉ (stateOf outpaced).leavesConfirmed 7 → l.1 ∉ (stateOf outpaced).members := by
    decide +kernel
  have hpresent : Present (stateOf outpaced) 7 (key alice) (device a0) 5 := by
    decide +kernel
  refine ⟨reachable_stateAfter _, by decide +kernel, by decide +kernel, ?_, hpresent, ?_⟩
  · intro ts l howed hmissing hgood
    exact hdeparted l howed hmissing hgood.1
  · rintro ⟨e, p, s', hauthor, he, hs', -⟩
    obtain ⟨key, group, -, hg, hcommit, -⟩ := commitAuthorized_of_accepted he hs'
    have hmay := mayCommit_of_authorized hg he hcommit
    rw [hauthor] at hmay
    exact not_mayCommit_outpaced _ hmay

end VoidObligations
