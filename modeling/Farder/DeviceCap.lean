import Farder.DeviceBinding

/-! # The cap on live devices

Authorizing a device is refused to an identity that has the maximum of live ones already,
judged at the later of the claimed time and the identity's clock. Time only expires devices
and revocations are final, so the count is highest at the clock itself. But a device listed
under two identities has one record: who authorizes it again rewrites its expiry for both,
and only the author's own count is checked. -/
namespace DeviceCap

open EventLog EventLog.LogState DeviceBinding

variable {K : Crypto} {g : Genesis} {s t : LogState} {e : Event}
  {tr : List (Transition LogState Event)} {pk : PublicKey} {d : DeviceId} {ts : ℕ}

/-- No identity has more than the maximum of live devices, whenever it is judged. -/
def Capped (s : LogState) : Prop :=
  ∀ pk ts, (s.liveDevices pk ts).card ≤ maxLiveDevicesPerIdentity

/-- The transition does not bring a device back to life for another identity that lists it and
has the maximum of live devices without it. -/
def RevivesNoneAtCap (x : Transition LogState Event) : Prop :=
  ∀ pk ∈ x.pre.devicesByIdentity.keys, binds x.event → pk ≠ x.event.core.author →
    x.event.core.device ∈ x.pre.devicesOf pk →
    (∀ t ∈ x.pre.certExpiry x.event, x.pre.identityFloor pk ≤ t) →
    ((x.pre.liveDevices pk 0).erase x.event.core.device).card < maxLiveDevicesPerIdentity

instance (x : Transition LogState Event) : Decidable (RevivesNoneAtCap x) :=
  inferInstanceAs (Decidable (∀ pk ∈ _, _ → _ → _ → _ → _))

theorem mem_liveDevices : d ∈ s.liveDevices pk ts ↔ d ∈ s.devicesOf pk ∧ d ∉ s.revokedDevices ∧
    ∀ t ∈ s.expiryOf d, max ts (s.identityFloor pk) ≤ t := by
  simp [liveDevices, liveDevicesAt, selfLivenessTs]

/-- The identity's own clock is the time at which it has the most live devices. -/
theorem liveDevices_subset_zero : s.liveDevices pk ts ⊆ s.liveDevices pk 0 := by
  intro d hd
  obtain ⟨hlisted, hrevoked, hexp⟩ := mem_liveDevices.mp hd
  refine mem_liveDevices.mpr ⟨hlisted, hrevoked, fun t ht => ?_⟩
  have := hexp t ht
  omega

theorem capped_iff :
    Capped s ↔ ∀ pk, (s.liveDevices pk 0).card ≤ maxLiveDevicesPerIdentity := by
  constructor
  · intro h pk
    exact h pk 0
  · intro h pk ts
    exact (Finset.card_le_card liveDevices_subset_zero).trans (h pk)

/-! ## What one event does to live devices -/

theorem identityFloor_step (h : Step K s e t) : t.identityFloor pk =
    if pk = e.core.author then max (s.identityFloor pk) e.core.timestamp
    else s.identityFloor pk := by
  obtain ⟨key, m, -, heff, rfl⟩ := apply_cases h
  obtain ⟨-, -, hclock, -⟩ := heff.bookkeeping
  simp only [recordAccepted, identityFloor, advanceChain, hclock, FiniteMap.lookup_insert_eq]
  by_cases hpk : pk = e.core.author
  · subst hpk
    simp
  · simp [hpk]

theorem revokedDevices_of_binds (h : Step K s e t) (hb : binds e) :
    t.revokedDevices = s.revokedDevices := by
  obtain ⟨key, m, -, heff, rfl⟩ := apply_cases h
  rcases indices_cases heff with ⟨cert, -, rfl, -⟩ | ⟨hnot, -⟩
  · rfl
  · exact absurd hb hnot

theorem expiryOf_step (h : Step K s e t) (d : DeviceId) :
    t.expiryOf d = if binds e ∧ d = e.core.device then s.certExpiry e else s.expiryOf d := by
  obtain ⟨key, m, -, heff, rfl⟩ := apply_cases h
  rcases indices_cases heff with ⟨cert, hp, rfl, -⟩ | ⟨hb, hdevices, -⟩
  · have hb : binds e := by simp [binds, hp]
    show ((s.devices.insert e.core.device _).lookup d).bind DeviceRecord.expiresAt = _
    by_cases hd : d = e.core.device
    · simp [hb, hd, certExpiry, hp]
    · simp [hd, expiryOf]
  · have hkept : (m.recordAccepted K e).expiryOf d = s.expiryOf d :=
      congrArg (fun devices => (devices.lookup d).bind DeviceRecord.expiresAt) hdevices
    simp [hb, hkept]

/-- A device other than the one that the event authorizes does not come to life. -/
theorem live_of_live_after (h : Step K s e t) (hd : d ∈ t.liveDevices pk 0)
    (hne : ¬(binds e ∧ d = e.core.device)) :
    d ∈ s.liveDevices pk (if pk = e.core.author then e.core.timestamp else 0) := by
  obtain ⟨hlisted, hrevoked, hexp⟩ := mem_liveDevices.mp hd
  rw [expiryOf_step h, if_neg hne, identityFloor_step h] at hexp
  refine mem_liveDevices.mpr ⟨?_, fun hr => hrevoked (revokedDevices_step h hr), ?_⟩
  · refine ((mem_devicesOf_step h).mp hlisted).resolve_right ?_
    rintro ⟨hb, hdev, -⟩
    exact hne ⟨hb, hdev⟩
  · intro t ht
    have := hexp t ht
    split_ifs at this ⊢ <;> omega

/-- The author's own count stays below the maximum plus the device that it authorizes. -/
theorem author_capped (h : Step K s e t) (hs : Capped s) :
    (t.liveDevices e.core.author 0).card ≤ maxLiveDevicesPerIdentity := by
  have hsub : t.liveDevices e.core.author 0 ⊆
      if binds e then insert e.core.device (s.liveDevices e.core.author e.core.timestamp)
      else s.liveDevices e.core.author e.core.timestamp := by
    intro d hd
    by_cases hnew : binds e ∧ d = e.core.device
    · rw [if_pos hnew.1, hnew.2]
      exact Finset.mem_insert_self _ _
    · have hold := live_of_live_after h hd hnew
      rw [if_pos rfl] at hold
      split_ifs
      exacts [Finset.mem_insert_of_mem hold, hold]
  refine (Finset.card_le_card hsub).trans ?_
  split_ifs with hb
  · obtain ⟨key, m, -, heff, -⟩ := apply_cases h
    rcases indices_cases heff with ⟨cert, -, -, hlive⟩ | ⟨hnot, -⟩
    · exact (Finset.card_insert_le _ _).trans hlive
    · exact absurd hb hnot
  · exact hs _ _

/-- The count of anybody else changes only by the device that the event authorizes. -/
theorem other_liveDevices (h : Step K s e t) (hpk : pk ≠ e.core.author) :
    t.liveDevices pk 0 ⊆ insert e.core.device ((s.liveDevices pk 0).erase e.core.device) ∧
      (¬binds e → t.liveDevices pk 0 ⊆ s.liveDevices pk 0) := by
  have hold {d : DeviceId} (hd : d ∈ t.liveDevices pk 0) (hne : ¬(binds e ∧ d = e.core.device)) :
      d ∈ s.liveDevices pk 0 := by
    have hlive := live_of_live_after h hd hne
    rwa [if_neg hpk] at hlive
  constructor
  · intro d hd
    by_cases hdev : d = e.core.device
    · rw [hdev]
      exact Finset.mem_insert_self _ _
    · exact Finset.mem_insert_of_mem
        (Finset.mem_erase.mpr ⟨hdev, hold hd fun hboth => hdev hboth.2⟩)
  · intro hb d hd
    exact hold hd fun hboth => hb hboth.1

theorem revived_mem (h : Step K s e t) (hb : binds e) (hpk : pk ≠ e.core.author) :
    e.core.device ∈ t.liveDevices pk 0 ↔ e.core.device ∈ s.devicesOf pk ∧
      ∀ t ∈ s.certExpiry e, s.identityFloor pk ≤ t := by
  have hrevoked : e.core.device ∉ t.revokedDevices := by
    obtain ⟨key, m, henv, -⟩ := apply_cases h
    rw [revokedDevices_of_binds h hb]
    exact henv.not_revoked
  rw [mem_liveDevices, mem_devicesOf_step h, expiryOf_step h, if_pos ⟨hb, rfl⟩,
    identityFloor_step h, if_neg hpk]
  simp only [hpk, and_false, or_false, true_and, hrevoked, not_false_eq_true, Nat.zero_max]

theorem capped_step_iff (hs : Capped s) (h : Step K s e t) :
    Capped t ↔ RevivesNoneAtCap ⟨s, e, t⟩ := by
  rw [capped_iff]
  constructor
  · intro ht pk hkey hb hpk hlisted hexp
    have hrevived := (revived_mem h hb hpk).mpr ⟨hlisted, hexp⟩
    -- The other live devices stay, and the revived one joins them.
    have hsub : insert e.core.device ((s.liveDevices pk 0).erase e.core.device) ⊆
        t.liveDevices pk 0 := by
      intro d hd
      rcases Finset.mem_insert.mp hd with rfl | hd
      · exact hrevived
      · obtain ⟨hne, hlive⟩ := Finset.mem_erase.mp hd
        obtain ⟨hold, hrev, hexp⟩ := mem_liveDevices.mp hlive
        refine mem_liveDevices.mpr ⟨(mem_devicesOf_step h).mpr (.inl hold),
          revokedDevices_of_binds h hb ▸ hrev, ?_⟩
        rw [expiryOf_step h, if_neg (fun hboth => hne hboth.2), identityFloor_step h, if_neg hpk]
        exact hexp
    have hcard := (Finset.card_le_card hsub).trans (ht pk)
    rw [Finset.card_insert_of_notMem (Finset.notMem_erase _ _)] at hcard
    exact hcard
  · intro hcond pk
    by_cases hpk : pk = e.core.author
    · rw [hpk]
      exact author_capped h hs
    · obtain ⟨hsub, hsame⟩ := other_liveDevices h hpk
      by_cases hb : binds e
      · by_cases hrevived : e.core.device ∈ t.liveDevices pk 0
        · obtain ⟨hlisted, hexp⟩ := (revived_mem h hb hpk).mp hrevived
          have hkey : pk ∈ s.devicesByIdentity.keys := by
            by_contra hnot
            rw [Finmap.mem_keys] at hnot
            simp [devicesOf, Finmap.lookup_eq_none.mpr hnot] at hlisted
          have hlt := hcond pk hkey hb hpk hlisted hexp
          exact (Finset.card_le_card hsub).trans ((Finset.card_insert_le _ _).trans hlt)
        · have herase := (Finset.subset_insert_iff_of_notMem hrevived).mp hsub
          exact (Finset.card_le_card (herase.trans (Finset.erase_subset _ _))).trans (hs pk 0)
      · exact (Finset.card_le_card (hsame hb)).trans (hs pk 0)

/-- In every run, all identities keep to the maximum of live devices in all states, exactly when
no authorization revives a device for another identity that is at the maximum. -/
theorem live_devices_capped_iff (h : Run K g tr t) :
    (∀ x ∈ tr, Capped x.post) ↔ ∀ x ∈ tr, RevivesNoneAtCap x := by
  refine h.forall_post_iff Capped RevivesNoneAtCap (I := fun _ => True) trivial ?_
    (fun _ _ _ _ _ => trivial) fun x _ _ hs hstep => capped_step_iff hs hstep
  simp [Capped, liveDevices, liveDevicesAt, devicesOf, fromGenesis]

open SampleLog

theorem live_devices_capped_twoMembers :
    (∀ x ∈ accepted crypto genesis (signed twoMembers), RevivesNoneAtCap x) ∧
      ∀ x ∈ accepted crypto genesis (signed twoMembers), Capped x.post := by
  have hnone : ∀ x ∈ accepted crypto genesis (signed twoMembers), RevivesNoneAtCap x := by
    decide +kernel
  exact ⟨hnone, (live_devices_capped_iff (run_accepted _)).mpr hnone⟩

/-- Alice has a device that has expired, and eight others. Bob certifies the expired one. -/
def revived : List Entry :=
  [⟨alice, a0, 1, cert alice a0 none⟩, ⟨alice, a1, 1, cert alice a1 (some 5)⟩] ++
    (List.range 7).map (fun i => ⟨alice, ⟨BitVec.ofNat 256 (i + 10)⟩, 9,
      cert alice ⟨BitVec.ofNat 256 (i + 10)⟩ none⟩) ++
    [⟨bob, a1, 9, cert bob a1 none⟩]

theorem live_devices_over_cap_revived :
    Reachable crypto genesis (stateOf revived) ∧
      ((stateOf revived).liveDevices (key alice) 0).card = 9 ∧ ¬Capped (stateOf revived) := by
  have hnine : ((stateOf revived).liveDevices (key alice) 0).card = 9 := by decide +kernel
  refine ⟨reachable_stateAfter _, hnine, fun h => ?_⟩
  have hle := h (key alice) 0
  rw [hnine] at hle
  exact absurd hle (by decide)

end DeviceCap
