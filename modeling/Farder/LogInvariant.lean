import Farder.LogStep

/-! # Invariants of the log state

Who belongs to the server, which devices are bound, which channels have a group, and what
a group may hold. Each is kept by every effect, and so holds in every reachable state. -/
namespace EventLog

namespace MlsGroupRecord

variable {g : MlsGroupRecord} {leaf l : Leaf}

theorem mem_leaves : l ∈ g.leaves ↔ l ∈ g.leavesConfirmed ∨ l ∈ g.leavesPending := by
  simp [leaves]

theorem mem_leaves_applyCommit {h : EventHash} {p : MlsCommit} {void : Finset Leaf} :
    l ∈ (g.applyCommit leaf h p void).leaves ↔
      ((l ∈ g.leaves ∨ l ∈ p.adds.map DeclaredAdd.leaf) ∧
        l ∉ p.removes.map DeclaredRemove.leaf) ∨ g.Bootstraps ∧ l = leaf := by
  simp only [mem_leaves, applyCommit]
  split_ifs with hboot <;>
    simp only [Finset.mem_insert, Finset.mem_erase, Finset.mem_foldl_erase,
      Finset.mem_foldl_insert, hboot] <;> tauto

theorem leaves_confirmLeaf (hleaf : leaf ∈ g.leavesPending)
    (hl : l ∈ (g.confirmLeaf leaf).leaves) : l ∈ g.leaves := by
  simp only [mem_leaves, confirmLeaf, Finset.mem_insert, Finset.mem_erase] at hl ⊢
  rcases hl with (rfl | hl) | hl
  exacts [.inr hleaf, .inl hl, .inr hl.2]

end MlsGroupRecord

namespace LogState

variable {K : Crypto} {s s' m : LogState} {e : Event} {key : PublicKey}

/-- Members, pending applicants and banned identities are three disjoint sets, and the
owner is not banned. -/
structure Membership (s : LogState) : Prop where
  owner_not_banned : s.owner ∉ s.banned
  member_not_banned : ∀ pk ∈ s.members, pk ∉ s.banned
  pending_not_banned : ∀ pk ∈ s.pending, pk ∉ s.banned
  member_not_pending : ∀ pk ∈ s.members, pk ∉ s.pending

def DevicesListed (s : LogState) : Prop :=
  ∀ d r, s.devices.lookup d = some r → d ∈ s.devicesOf r.identity

/-- A channel has a group exactly when it is recorded as encrypted, and one with plaintext
history is not recorded. -/
structure ChannelsKept (s : LogState) : Prop where
  group_iff : ∀ c, (s.mlsGroups.lookup c).isSome ↔ s.channelClass c = some .e2ee
  history : ∀ c ∈ s.plaintextHistoryChannels, s.channels.lookup c = none

/-- A leaf's device is one that its identity has authorized. -/
def LeavesListed (s : LogState) : Prop :=
  ∀ c g, s.mlsGroups.lookup c = some g → ∀ leaf ∈ g.leaves, leaf.2 ∈ s.devicesOf leaf.1

structure Invariant (owner : PublicKey) (s : LogState) : Prop where
  owner : s.owner = owner
  membership : Membership s
  devices : DevicesListed s
  channels : ChannelsKept s
  leaves : LeavesListed s

theorem invariant_genesis (g : Genesis) : Invariant g.owner (fromGenesis K g) where
  owner := rfl
  membership := by constructor <;> simp [fromGenesis]
  devices := by simp [DevicesListed, fromGenesis]
  channels := by constructor <;> simp [fromGenesis, channelClass]
  leaves := by simp [LeavesListed, fromGenesis]

theorem Effect.owner_eq (h : Effect K s e key m) : m.owner = s.owner := by
  cases h <;> rfl

theorem Effect.membership (h : Effect K s e key m) (hs : Membership s)
    (hauthor : e.core.author ∉ s.banned) : Membership m := by
  obtain ⟨howner, hmember, hpending, hboth⟩ := hs
  cases h with
  | memberJoined member invite inv hp hself hnew hnotpending =>
    subst hself
    cases happ : s.requiresApproval invite <;>
      constructor <;> simp [joinMember, happ, howner] <;> grind
  | memberApproved member hp hcap hwaiting =>
    constructor <;> simp [howner] <;> grind
  | memberRemoved member =>
    constructor <;> simp [removeMember, howner] <;> grind
  | memberBanned member hp hcap hne =>
    constructor <;> simp [removeMember, howner, hne.symm] <;> grind
  | memberUnbanned member =>
    constructor <;> simp [howner] <;> grind
  | _ => exact ⟨howner, hmember, hpending, hboth⟩

theorem devicesOf_authorizeDevice {cert : DeviceCert} {pk : PublicKey} :
    (s.authorizeDevice e cert key).devicesOf pk =
      if pk = e.core.author then insert e.core.device (s.devicesOf pk) else s.devicesOf pk := by
  simp only [devicesOf, authorizeDevice, FiniteMap.lookup_insert_eq]
  split_ifs with h
  · rw [h]; rfl
  · rfl

theorem Effect.devicesOf_subset (h : Effect K s e key m) (pk : PublicKey) :
    s.devicesOf pk ⊆ m.devicesOf pk := by
  cases h with
  | deviceAuthorized cert =>
    rw [devicesOf_authorizeDevice]
    split_ifs
    exacts [Finset.subset_insert _ _, Finset.Subset.refl _]
  | _ => exact Finset.Subset.refl _

theorem Effect.revoked_subset (h : Effect K s e key m) :
    s.revokedDevices ⊆ m.revokedDevices := by
  cases h with
  | deviceRevoked device => exact Finset.subset_insert _ _
  | _ => exact Finset.Subset.refl _

theorem revokedDevices_step (h : Step K s e s') : s.revokedDevices ⊆ s'.revokedDevices := by
  obtain ⟨key, m, -, heff, rfl⟩ := apply_cases h
  exact heff.revoked_subset

theorem Effect.devicesListed (h : Effect K s e key m) (hs : DevicesListed s) :
    DevicesListed m := by
  cases h with
  | deviceAuthorized cert =>
    refine FiniteMap.forall_lookup_insert (fun d r hr => ?_) ?_
    · rw [devicesOf_authorizeDevice]
      split_ifs
      exacts [Finset.mem_insert_of_mem (hs d r hr), hs d r hr]
    · simp [devicesOf_authorizeDevice]
  | _ => exact hs

theorem Envelope.device_listed (h : Envelope K s e key) (hs : DevicesListed s)
    (hp : ∀ cert, e.core.payload ≠ .deviceAuthorized cert) :
    e.core.device ∈ s.devicesOf e.core.author := by
  have hdevice := resolveDevicePubkey_eq_ok.mp h.device
  split at hdevice
  · exact absurd ‹_› (hp _)
  · obtain ⟨r, hr, hid, -⟩ := hdevice
    exact hid ▸ hs _ _ hr

theorem channelClass_createChannel {author : PublicKey} {p : ChannelCreated} (c : ℕ) :
    (s.createChannel author p).channelClass c =
      if c = p.channelId then some p.cls else s.channelClass c := by
  simp only [channelClass, createChannel, FiniteMap.lookup_insert_eq]
  split_ifs <;> rfl

theorem isSome_lookup_insert {c c' : ℕ} {g g' : MlsGroupRecord}
    (hg : s.mlsGroups.lookup c = some g) :
    ((s.mlsGroups.insert c g').lookup c').isSome = (s.mlsGroups.lookup c').isSome := by
  rw [FiniteMap.lookup_insert_eq]
  split_ifs with h
  · subst h
    rw [hg, Option.isSome_some, Option.isSome_some]
  · rfl

theorem isSome_lookup_bumpGroup {c c' : ℕ} {f : MlsGroupRecord → MlsGroupRecord} :
    ((s.bumpGroup c f).mlsGroups.lookup c').isSome = (s.mlsGroups.lookup c').isSome := by
  simp only [bumpGroup, FiniteMap.lookup_adjust]
  split_ifs with h
  · subst h
    rw [Option.isSome_map]
  · rfl

theorem Effect.channelsKept (h : Effect K s e key m) (hs : ChannelsKept s) : ChannelsKept m := by
  obtain ⟨hgroup, hhist⟩ := hs
  have hinsert {c₀ : ℕ} {g g' : MlsGroupRecord} (hg : s.mlsGroups.lookup c₀ = some g) (c : ℕ) :
      ((s.mlsGroups.insert c₀ g').lookup c).isSome ↔ s.channelClass c = some .e2ee := by
    rw [isSome_lookup_insert hg]
    exact hgroup c
  have hbump {c₀ : ℕ} {f : MlsGroupRecord → MlsGroupRecord} (c : ℕ) :
      ((s.bumpGroup c₀ f).mlsGroups.lookup c).isSome ↔ s.channelClass c = some .e2ee := by
    rw [isSome_lookup_bumpGroup]
    exact hgroup c
  cases h with
  | messagePosted p =>
    refine ⟨hgroup, fun c hc => ?_⟩
    change c ∈ ite _ _ _ at hc
    split_ifs at hc with hknown
    · exact hhist c hc
    · rcases Finset.mem_insert.mp hc with rfl | hc
      exacts [Finmap.lookup_eq_none.mpr hknown, hhist c hc]
  | channelCreated p hp howner hnew hhistory =>
    have hnone : s.channelClass p.channelId = none := by
      simp [channelClass, Finmap.lookup_eq_none.mpr hnew]
    refine ⟨fun c => ?_, fun c hc => ?_⟩
    · have hc := hgroup c
      rw [channelClass_createChannel]
      by_cases hcls : p.cls = .e2ee
      · simp only [createChannel, hcls, if_true, FiniteMap.lookup_insert_eq]
        split_ifs
        exacts [by simp, hc]
      · simp only [createChannel, hcls, if_false]
        split_ifs with heq
        · subst heq
          simpa [hnone, hcls] using hc
        · exact hc
    · have hne : c ≠ p.channelId := fun h => hhistory (h ▸ hc)
      simpa [createChannel, hne] using hhist c hc
  | mlsCommit p g hp hg => exact ⟨hinsert hg, hhist⟩
  | mlsWelcome p g hp hg => exact ⟨hinsert hg, hhist⟩
  | mlsLeafConfirmed p g hp hg => exact ⟨hinsert hg, hhist⟩
  | mlsGroupReset p g hp hg => exact ⟨hinsert hg, hhist⟩
  | messageDeleted p => exact ⟨hbump, hhist⟩
  | messagePostedE2ee p => exact ⟨hbump, hhist⟩
  | messageEditedE2ee p => exact ⟨hbump, hhist⟩
  | _ => exact ⟨hgroup, hhist⟩

theorem mem_judgedLiveDevices {pk : PublicKey} {d : DeviceId} {ts : ℕ} :
    d ∈ s.judgedLiveDevices pk ts ↔ d ∈ s.devicesOf pk ∧ d ∉ s.revokedDevices ∧
      ∀ t ∈ s.expiryOf d, s.judgedLivenessTs pk ts ≤ t := by
  simp [judgedLiveDevices, liveDevicesAt]

theorem mem_memberLeafSet {l : Leaf} {ts : ℕ} :
    l ∈ s.memberLeafSet ts ↔ l.1 ∈ s.members ∧ l.2 ∈ s.judgedLiveDevices l.1 ts := by
  simp only [memberLeafSet, Finset.mem_biUnion, Finset.mem_image]
  constructor
  · rintro ⟨pk, hpk, d, hd, rfl⟩
    exact ⟨hpk, hd⟩
  · rintro ⟨hpk, hd⟩
    exact ⟨l.1, hpk, l.2, hd, rfl⟩

theorem mem_pendingRemovals {c ts : ℕ} {g : MlsGroupRecord} {l : Leaf}
    (hg : s.mlsGroups.lookup c = some g) :
    l ∈ s.pendingRemovals c ts ↔ l ∈ g.leaves ∧ l ∉ s.memberLeafSet ts := by
  simp [pendingRemovals, hg]

theorem mem_pendingAdds {c ts : ℕ} {g : MlsGroupRecord} {l : Leaf}
    (hg : s.mlsGroups.lookup c = some g) : l ∈ s.pendingAdds c ts ↔
      l ∈ s.memberLeafSet ts ∧ l ∉ g.leavesConfirmed ∧ l ∉ g.leavesPending := by
  simp [pendingAdds, hg]

/-- Members are not banned, so a leaf is in good standing exactly if it should be held. -/
theorem goodStanding_iff (hs : Membership s) {l : Leaf} {ts : ℕ} :
    s.LeafHolderInGoodStanding l.1 l.2 ts ↔ l ∈ s.memberLeafSet ts := by
  rw [mem_memberLeafSet]
  constructor
  · rintro ⟨hmember, -, hlive⟩
    exact ⟨hmember, hlive⟩
  · rintro ⟨hmember, hlive⟩
    exact ⟨hmember, hs.member_not_banned _ hmember, hlive⟩

theorem Envelope.device_live (h : Envelope K s e key) (hs : DevicesListed s)
    (hp : ∀ cert, e.core.payload ≠ .deviceAuthorized cert) :
    e.core.device ∈ s.judgedLiveDevices e.core.author e.core.timestamp := by
  have hexp : s.certExpiry e = s.expiryOf e.core.device := by
    unfold certExpiry
    split
    · exact absurd ‹_› (hp _)
    · rfl
  refine mem_judgedLiveDevices.mpr ⟨h.device_listed hs hp, h.not_revoked, fun t ht => ?_⟩
  have hself := h.unexpired t (hexp ▸ ht)
  simp only [selfLivenessTs, judgedLivenessTs] at hself ⊢
  omega

theorem Effect.leavesListed (h : Effect K s e key m) (henv : Envelope K s e key)
    (hdev : DevicesListed s) (hs : LeavesListed s) : LeavesListed m := by
  have hmono : ∀ c g, s.mlsGroups.lookup c = some g →
      ∀ leaf ∈ g.leaves, leaf.2 ∈ m.devicesOf leaf.1 :=
    fun c g hg l hl => h.devicesOf_subset _ (hs c g hg l hl)
  cases h with
  | channelCreated p =>
    simp only [LeavesListed, createChannel]
    split_ifs
    · have hnew : ∀ leaf ∈ MlsGroupRecord.new.leaves, leaf.2 ∈ s.devicesOf leaf.1 := by
        simp [MlsGroupRecord.new, MlsGroupRecord.leaves]
      exact FiniteMap.forall_lookup_insert hmono hnew
    · exact hmono
  | mlsCommit p g hp hg hcommit =>
    refine FiniteMap.forall_lookup_insert hmono fun l hl => ?_
    rcases MlsGroupRecord.mem_leaves_applyCommit.mp hl with ⟨hl | hl, -⟩ | ⟨-, rfl⟩
    · exact hs _ g hg l hl
    · obtain ⟨add, hadd, rfl⟩ := List.mem_map.mp hl
      exact (mem_judgedLiveDevices.mp (hcommit.adds add hadd).live).1
    · exact henv.device_listed hdev (by simp [hp])
  | mlsWelcome p g hp hg => exact FiniteMap.forall_lookup_insert hmono (hs _ g hg)
  | mlsLeafConfirmed p g hp hg hconfirm =>
    exact FiniteMap.forall_lookup_insert hmono fun l hl =>
      hs _ g hg l (MlsGroupRecord.leaves_confirmLeaf hconfirm.pending hl)
  | mlsGroupReset p g hp hg hreset =>
    refine FiniteMap.forall_lookup_insert hmono fun l hl => ?_
    rcases MlsGroupRecord.mem_leaves.mp hl with hl | hl
    · obtain rfl : l = e.leaf := Finset.mem_singleton.mp hl
      exact henv.device_listed hdev (by simp [hp])
    · have hl : l ∈ g.stagedLeaves p.welcomes := hl
      rw [hreset.cover] at hl
      exact (mem_judgedLiveDevices.mp (mem_memberLeafSet.mp (Finset.mem_of_mem_erase hl)).2).1
  | messageDeleted p => exact FiniteMap.forall_lookup_adjust hmono fun g hg => hs _ g hg
  | messagePostedE2ee p => exact FiniteMap.forall_lookup_adjust hmono fun g hg => hs _ g hg
  | messageEditedE2ee p => exact FiniteMap.forall_lookup_adjust hmono fun g hg => hs _ g hg
  | _ => exact hmono

theorem step_preserves_invariant {owner : PublicKey} (hs : Invariant owner s)
    (h : Step K s e s') : Invariant owner s' := by
  obtain ⟨key, m, henv, heff, rfl⟩ := apply_cases h
  have hm : Invariant owner m :=
    ⟨heff.owner_eq.trans hs.owner, heff.membership hs.membership henv.not_banned,
      heff.devicesListed hs.devices, heff.channelsKept hs.channels,
      heff.leavesListed henv hs.devices hs.leaves⟩
  obtain ⟨howner, ⟨h₁, h₂, h₃, h₄⟩, hdevices, ⟨h₅, h₆⟩, hleaves⟩ := hm
  exact ⟨howner, ⟨h₁, h₂, h₃, h₄⟩, hdevices, ⟨h₅, h₆⟩, hleaves⟩

theorem reachable_invariant {g : Genesis} (h : Reachable K g s) : Invariant g.owner s := by
  obtain ⟨tr, htr⟩ := h
  exact htr.invariant (invariant_genesis g) fun _ _ _ => step_preserves_invariant

def CapabilitiesHeld (s : LogState) : Prop :=
  ∀ pk caps, s.capabilities.lookup pk = some caps → pk ∈ s.members

theorem Effect.capabilitiesHeld (h : Effect K s e key m) (hs : CapabilitiesHeld s) :
    CapabilitiesHeld m := by
  have herase (member : PublicKey) : ∀ pk caps,
      (s.capabilities.erase member).lookup pk = some caps → pk ∈ s.members.erase member := by
    intro pk caps hpk
    rw [FiniteMap.lookup_erase_eq] at hpk
    split_ifs at hpk with hne
    exact Finset.mem_erase.mpr ⟨hne, hs pk caps hpk⟩
  cases h with
  | memberJoined member invite =>
    intro pk caps hpk
    have hold := hs pk caps hpk
    simp only [joinMember]
    split_ifs
    exacts [hold, Finset.mem_insert_of_mem hold]
  | memberApproved member => exact fun pk caps hpk => Finset.mem_insert_of_mem (hs pk caps hpk)
  | memberRemoved member => exact herase member
  | memberBanned member => exact herase member
  | permissionGranted member capability hp hmember =>
    exact FiniteMap.forall_lookup_insert hs hmember
  | _ => exact hs

theorem reachable_capabilitiesHeld {g : Genesis} (h : Reachable K g s) : CapabilitiesHeld s := by
  obtain ⟨tr, htr⟩ := h
  refine htr.invariant (by simp [CapabilitiesHeld, fromGenesis]) ?_
  intro s e t hs hstep
  obtain ⟨key, m, -, heff, rfl⟩ := apply_cases hstep
  exact heff.capabilitiesHeld hs

theorem HasCapability.owner_or_member {pk : PublicKey} {capability : String}
    (h : s.HasCapability pk capability) (hs : CapabilitiesHeld s) :
    pk = s.owner ∨ pk ∈ s.members := by
  rcases h with howner | ⟨caps, hcaps, -⟩
  exacts [.inl howner, .inr (hs pk caps hcaps)]

end LogState
end EventLog
