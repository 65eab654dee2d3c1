import Farder.LogSpec
import Farder.Support.Execution

/-! # The effects of one accepted event

`Effect` lists what one event can do, guards included, and `apply_cases` derives it from
the fold. Each frame lemma below reads one field of the state off this list. -/
namespace EventLog

open Guarded

namespace LogState

variable {K : Crypto} {s s' m : LogState} {e : Event} {key : PublicKey}

/-- `Effect K s e key m`: in `s` the payload of `e`, signed under `key`, is authorized, and
its effect leads to `m`, before the bookkeeping of accepted events. -/
inductive Effect (K : Crypto) (s : LogState) (e : Event) (key : PublicKey) : LogState → Prop
  | deviceAuthorized (cert : DeviceCert) (hp : e.core.payload = .deviceAuthorized cert)
      (hlive : (s.liveDevices e.core.author e.core.timestamp).card < maxLiveDevicesPerIdentity) :
      Effect K s e key (s.authorizeDevice e cert key)
  | inviteCreated (p : InviteCreated) (hp : e.core.payload = .inviteCreated p)
      (hcap : s.HasCapability e.core.author "invite") :
      Effect K s e key { s with
        invites := s.invites.insert (e.hash K) ⟨p.maxUses, p.expiresAt, 0, p.requiresApproval⟩ }
  | memberJoined (member : PublicKey) (invite : EventRef) (inv : InviteRecord)
      (hp : e.core.payload = .memberJoined member invite) (hself : member = e.core.author)
      (hmember : e.core.author ∉ s.members) (hpending : e.core.author ∉ s.pending)
      (hinv : s.invites.lookup invite = some inv) (huses : inv.useCount < inv.maxUses)
      (hexp : e.core.timestamp ≤ inv.expiresAt) :
      Effect K s e key (s.joinMember member invite)
  | memberApproved (member : PublicKey) (hp : e.core.payload = .memberApproved member)
      (hcap : s.HasCapability e.core.author "kick") (hpending : member ∈ s.pending) :
      Effect K s e key
        { s with pending := s.pending.erase member, members := insert member s.members }
  | messagePosted (p : MessagePosted) (hp : e.core.payload = .messagePosted p)
      (hmember : e.core.author ∈ s.members)
      (hclass : ∀ ch ∈ s.channels.lookup p.channelId, ch.cls = .plaintext) :
      Effect K s e key { s.recordUploaders p.attachments with
        plaintextHistoryChannels :=
          if p.channelId ∉ s.channels then insert p.channelId s.plaintextHistoryChannels
          else s.plaintextHistoryChannels }
  | memberRemoved (member : PublicKey) (hp : e.core.payload = .memberRemoved member)
      (htarget : member ∈ s.members ∨ member ∈ s.pending)
      (hcap : member = e.core.author ∨ s.HasCapability e.core.author "kick") :
      Effect K s e key (s.removeMember member)
  | memberBanned (member : PublicKey) (hp : e.core.payload = .memberBanned member)
      (hcap : s.HasCapability e.core.author "ban") (howner : member ≠ s.owner) :
      Effect K s e key ({ s with banned := insert member s.banned }.removeMember member)
  | memberUnbanned (member : PublicKey) (hp : e.core.payload = .memberUnbanned member)
      (hcap : s.HasCapability e.core.author "ban") :
      Effect K s e key { s with banned := s.banned.erase member }
  | permissionGranted (member : PublicKey) (capability : String)
      (hp : e.core.payload = .permissionGranted member capability) (hmember : member ∈ s.members)
      (hcap : s.IsOwner e.core.author ∨ s.HasCapability e.core.author capability) :
      Effect K s e key { s with
        capabilities := s.capabilities.insert member
          (insert capability ((s.capabilities.lookup member).getD ∅)) }
  | attachmentRedacted (contentHash : String) (uploader : PublicKey)
      (hp : e.core.payload = .attachmentRedacted contentHash)
      (huploader : s.attachmentUploaders.lookup contentHash = some uploader)
      (hcap : e.core.author = uploader ∨ s.HasCapability e.core.author "kick")
      (hnew : contentHash ∉ s.redactedAttachments) :
      Effect K s e key { s with redactedAttachments := insert contentHash s.redactedAttachments }
  | channelCreated (p : ChannelCreated) (hp : e.core.payload = .channelCreated p)
      (howner : s.IsOwner e.core.author) (hnew : p.channelId ∉ s.channels)
      (hhistory : p.channelId ∉ s.plaintextHistoryChannels)
      (hparent : ∀ parent ∈ p.parent, ∃ ch, s.channels.lookup parent = some ch ∧ ch.cls = p.cls) :
      Effect K s e key (s.createChannel e.core.author p)
  | messageDeleted (p : MessageDeleted) (hp : e.core.payload = .messageDeleted p)
      (hchannel : p.channelId ∈ s.channels) (hnew : p.target ∉ s.tombstones)
      (hreason : s.checkDeleteReason e.core.author p.reason = .ok ()) :
      Effect K s e key ({ s with tombstones := insert p.target s.tombstones }.bumpGroup p.channelId
        MlsGroupRecord.bumpResetCounter)
  | deviceRevoked (device : DeviceId) (record : DeviceRecord)
      (hp : e.core.payload = .deviceRevoked device)
      (hrecord : s.devices.lookup device = some record) (hnew : device ∉ s.revokedDevices)
      (hcap : e.core.author = record.identity ∨ s.IsOwner e.core.author) :
      Effect K s e key { s with revokedDevices := insert device s.revokedDevices }
  | mlsKeyPackagePublished (p : MlsKeyPackagePublished)
      (hp : e.core.payload = .mlsKeyPackagePublished p) (hmember : s.IsFullMember e.core.author)
      (hpin : s.checkInstancePin e.core.device p.storeInstanceHash = .ok ())
      (hexp : p.expiresAtLogPos > s.logPos)
      (hlive : s.liveKeyPackages e.leaf < maxLiveKeyPackagesPerDevice) :
      Effect K s e key (s.publishKeyPackage K e p)
  | mlsCommit (p : MlsCommit) (g : MlsGroupRecord) (hp : e.core.payload = .mlsCommit p)
      (hg : s.mlsGroups.lookup p.channelId = some g) (hcommit : CommitAuthorized s e p g) :
      Effect K s e key {
        (s.pinInstance e.core.device p.storeInstanceHash).consumeKeyPackages p.adds with
        mlsGroups := s.mlsGroups.insert p.channelId (g.applyCommit e.leaf (e.hash K) p
          (s.voidObligations p.channelId e.core.timestamp)) }
  | staleCommit (p : MlsCommit) (g : MlsGroupRecord) (hp : e.core.payload = .mlsCommit p)
      (hg : s.mlsGroups.lookup p.channelId = some g) (hgen : p.generation = g.generation)
      (hepoch : p.epoch ≠ g.epoch) :
      Effect K s e key s
  | mlsWelcome (p : MlsWelcome) (g : MlsGroupRecord) (hp : e.core.payload = .mlsWelcome p)
      (hg : s.mlsGroups.lookup p.channelId = some g) (hwelcome : WelcomeAuthorized s e p g) :
      Effect K s e key { s with
        mlsGroups := s.mlsGroups.insert p.channelId (g.recordWelcome (e.hash K) p) }
  | mlsLeafConfirmed (p : MlsLeafConfirmed) (g : MlsGroupRecord)
      (hp : e.core.payload = .mlsLeafConfirmed p)
      (hg : s.mlsGroups.lookup p.channelId = some g) (hconfirm : ConfirmAuthorized s e p g) :
      Effect K s e key { s.pinInstance e.core.device p.storeInstanceHash with
        mlsGroups := s.mlsGroups.insert p.channelId (g.confirmLeaf e.leaf) }
  | messagePostedE2ee (p : MessagePostedE2ee) (g : MlsGroupRecord)
      (hp : e.core.payload = .messagePostedE2ee p)
      (hg : s.mlsGroups.lookup p.channelId = some g)
      (hsend : SendAuthorized s e p.channelId p.generation p.epoch g) :
      Effect K s e key ((s.recordUploaders p.attachments).bumpGroup p.channelId
        MlsGroupRecord.bumpChannelCounters)
  | messageEditedE2ee (p : MessageEditedE2ee) (g : MlsGroupRecord)
      (hp : e.core.payload = .messageEditedE2ee p)
      (hg : s.mlsGroups.lookup p.channelId = some g)
      (hsend : SendAuthorized s e p.channelId p.generation p.epoch g)
      (htarget : p.target ∉ s.tombstones) :
      Effect K s e key (s.bumpGroup p.channelId MlsGroupRecord.bumpChannelCounters)
  | mlsGroupReset (p : MlsGroupReset) (g : MlsGroupRecord)
      (hp : e.core.payload = .mlsGroupReset p)
      (hg : s.mlsGroups.lookup p.channelId = some g) (hreset : ResetAuthorized s e p g) :
      Effect K s e key { s with
        mlsGroups := s.mlsGroups.insert p.channelId (g.applyReset e.leaf p) }

theorem checkParent_eq_ok {p : ChannelCreated} : s.checkParent p = .ok () ↔
    ∀ parent ∈ p.parent, ∃ ch, s.channels.lookup parent = some ch ∧ ch.cls = p.cls := by
  cases hp : p.parent <;> simp [checkParent, hp]

theorem updateGroup_eq_ok {channelId : ℕ} {f : MlsGroupRecord → MlsGroupRecord} :
    s.updateGroup channelId f = .ok m ↔ ∃ g, s.mlsGroups.lookup channelId = some g ∧
      { s with mlsGroups := s.mlsGroups.insert channelId (f g) } = m := by
  simp only [updateGroup, bind_eq_ok, expect_eq_ok, pure_eq_ok]

theorem effect_of_verdict {v : Authorized} (hv : s.checkPayloadAuthz e = .ok v)
    (hm : (if v = .apply then s.applyPayloadEffect K e key else pure s) = .ok m) :
    Effect K s e key m := by
  cases hp : e.core.payload <;>
    simp only [checkPayloadAuthz, hp, bind_eq_ok, ensure_eq_ok, ensureIfSome_eq_ok,
      context_eq_ok, pure_eq_ok, exists_const] at hv
  case deviceAuthorized cert =>
    obtain ⟨hlive, rfl⟩ := hv
    simp only [applyPayloadEffect, hp, if_true, pure_eq_ok] at hm
    exact hm ▸ .deviceAuthorized cert hp hlive
  case inviteCreated p =>
    obtain ⟨hcap, rfl⟩ := hv
    simp only [applyPayloadEffect, hp, if_true, pure_eq_ok] at hm
    exact hm ▸ .inviteCreated p hp hcap
  case memberJoined member invite =>
    obtain ⟨hself, hmember, hpending, inv, hinv, huses, hexp, rfl⟩ := hv
    simp only [applyPayloadEffect, hp, if_true, pure_eq_ok] at hm
    exact hm ▸ .memberJoined member invite inv hp hself hmember hpending hinv huses hexp
  case memberApproved member =>
    obtain ⟨hcap, hpending, rfl⟩ := hv
    simp only [applyPayloadEffect, hp, if_true, pure_eq_ok] at hm
    exact hm ▸ .memberApproved member hp hcap hpending
  case messagePosted p =>
    obtain ⟨hmember, hclass, rfl⟩ := hv
    simp only [applyPayloadEffect, hp, if_true, pure_eq_ok] at hm
    exact hm ▸ .messagePosted p hp hmember hclass
  case memberRemoved member =>
    obtain ⟨htarget, hcap, rfl⟩ := hv
    simp only [applyPayloadEffect, hp, if_true, pure_eq_ok] at hm
    exact hm ▸ .memberRemoved member hp htarget hcap
  case memberBanned member =>
    obtain ⟨hcap, howner, rfl⟩ := hv
    simp only [applyPayloadEffect, hp, if_true, pure_eq_ok] at hm
    exact hm ▸ .memberBanned member hp hcap howner
  case memberUnbanned member =>
    obtain ⟨hcap, rfl⟩ := hv
    simp only [applyPayloadEffect, hp, if_true, pure_eq_ok] at hm
    exact hm ▸ .memberUnbanned member hp hcap
  case permissionGranted member capability =>
    obtain ⟨hmember, hcap, rfl⟩ := hv
    simp only [applyPayloadEffect, hp, if_true, pure_eq_ok] at hm
    exact hm ▸ .permissionGranted member capability hp hmember hcap
  case attachmentRedacted contentHash =>
    obtain ⟨uploader, huploader, hcap, hnew, rfl⟩ := hv
    simp only [applyPayloadEffect, hp, if_true, pure_eq_ok] at hm
    exact hm ▸ .attachmentRedacted contentHash uploader hp huploader hcap hnew
  case channelCreated p =>
    simp only [checkChannelCreated, bind_eq_ok, ensure_eq_ok, pure_eq_ok, exists_const] at hv
    obtain ⟨howner, hnew, hhistory, ⟨⟩, hparent, rfl⟩ := hv
    simp only [applyPayloadEffect, hp, if_true, pure_eq_ok] at hm
    exact hm ▸ .channelCreated p hp howner hnew hhistory (checkParent_eq_ok.mp hparent)
  case messageDeleted p =>
    simp only [checkMessageDeleted, bind_eq_ok, ensure_eq_ok, pure_eq_ok, exists_const] at hv
    obtain ⟨hchannel, hnew, ⟨⟩, hreason, rfl⟩ := hv
    simp only [applyPayloadEffect, hp, if_true, pure_eq_ok] at hm
    exact hm ▸ .messageDeleted p hp hchannel hnew hreason
  case deviceRevoked device =>
    obtain ⟨record, hrecord, hnew, hcap, rfl⟩ := hv
    simp only [applyPayloadEffect, hp, if_true, pure_eq_ok] at hm
    exact hm ▸ .deviceRevoked device record hp hrecord hnew hcap
  case mlsKeyPackagePublished p =>
    simp only [checkKeyPackagePublished, bind_eq_ok, ensure_eq_ok, pure_eq_ok, exists_const] at hv
    obtain ⟨hmember, ⟨⟩, hpin, hexp, hlive, rfl⟩ := hv
    simp only [applyPayloadEffect, hp, if_true, pure_eq_ok] at hm
    exact hm ▸ .mlsKeyPackagePublished p hp hmember hpin hexp hlive
  case mlsCommit p =>
    obtain ⟨g, hg, ⟨rfl, hcommit⟩ | ⟨rfl, hgen, hepoch⟩⟩ := checkMlsCommit_eq_ok.mp hv
    · simp only [applyPayloadEffect, hp, if_true, updateGroup_eq_ok] at hm
      obtain ⟨g', hg', rfl⟩ := hm
      obtain rfl : g = g' := Option.some.inj (hg.symm.trans hg')
      exact .mlsCommit p g hp hg hcommit
    · obtain rfl : s = m := by simpa using hm
      exact .staleCommit p g hp hg hgen hepoch
  case mlsWelcome p =>
    obtain ⟨rfl, g, hg, hwelcome⟩ := checkMlsWelcome_eq_ok.mp hv
    simp only [applyPayloadEffect, hp, if_true, updateGroup_eq_ok] at hm
    obtain ⟨g', hg', rfl⟩ := hm
    obtain rfl : g = g' := Option.some.inj (hg.symm.trans hg')
    exact .mlsWelcome p g hp hg hwelcome
  case mlsLeafConfirmed p =>
    obtain ⟨rfl, g, hg, hconfirm⟩ := checkMlsLeafConfirmed_eq_ok.mp hv
    simp only [applyPayloadEffect, hp, if_true, updateGroup_eq_ok] at hm
    obtain ⟨g', hg', rfl⟩ := hm
    obtain rfl : g = g' := Option.some.inj (hg.symm.trans hg')
    exact .mlsLeafConfirmed p g hp hg hconfirm
  case messagePostedE2ee p =>
    obtain ⟨⟨⟩, hsend, rfl⟩ := hv
    obtain ⟨g, hg, hsend⟩ := checkSealedSend_eq_ok.mp hsend
    simp only [applyPayloadEffect, hp, if_true, pure_eq_ok] at hm
    exact hm ▸ .messagePostedE2ee p g hp hg hsend
  case messageEditedE2ee p =>
    obtain ⟨⟨⟩, hsend, htarget, rfl⟩ := hv
    obtain ⟨g, hg, hsend⟩ := checkSealedSend_eq_ok.mp hsend
    simp only [applyPayloadEffect, hp, if_true, pure_eq_ok] at hm
    exact hm ▸ .messageEditedE2ee p g hp hg hsend htarget
  case mlsGroupReset p =>
    obtain ⟨rfl, g, hg, hreset⟩ := checkMlsGroupReset_eq_ok.mp hv
    simp only [applyPayloadEffect, hp, if_true, updateGroup_eq_ok] at hm
    obtain ⟨g', hg', rfl⟩ := hm
    obtain rfl : g = g' := Option.some.inj (hg.symm.trans hg')
    exact .mlsGroupReset p g hp hg hreset

/-- An accepted event passed its envelope and took one effect, and was then recorded. -/
theorem apply_cases (h : s.apply K e = .ok s') :
    ∃ key m, Envelope K s e key ∧ Effect K s e key m ∧ s' = m.recordAccepted K e := by
  simp only [apply, bind_eq_ok] at h
  obtain ⟨key, henv, v, hv, h⟩ := h
  have hm : ∃ m, (if v = .apply then s.applyPayloadEffect K e key else pure s) = .ok m ∧
      m.recordAccepted K e = s' := by
    split_ifs at h ⊢ with happly <;> simpa only [bind_eq_ok, pure_eq_ok] using h
  obtain ⟨m, hm, rfl⟩ := hm
  exact ⟨key, m, checkEnvelope_eq_ok.mp henv, effect_of_verdict hv hm, rfl⟩

theorem verdict_of_apply (h : s.apply K e = .ok s') : ∃ v, s.checkPayloadAuthz e = .ok v := by
  simp only [apply, bind_eq_ok] at h
  obtain ⟨-, -, v, hv, -⟩ := h
  exact ⟨v, hv⟩

theorem reset_of_apply {p : MlsGroupReset} (h : s.apply K e = .ok s')
    (hp : e.core.payload = .mlsGroupReset p) :
    ∃ g, s.mlsGroups.lookup p.channelId = some g ∧ ResetAuthorized s e p g ∧
      s'.mlsGroups.lookup p.channelId = some (g.applyReset e.leaf p) := by
  obtain ⟨key, m, -, heff, rfl⟩ := apply_cases h
  cases heff with
  | mlsGroupReset q g hq hg hreset =>
    obtain rfl : q = p := EventPayload.mlsGroupReset.inj (hq.symm.trans hp)
    exact ⟨g, hg, hreset, Finmap.lookup_insert _⟩
  | _ => simp_all

/-- A commit for another epoch of the current generation needs the envelope only, and
leaves nothing behind but the bookkeeping. -/
theorem apply_staleCommit {p : MlsCommit} {g : MlsGroupRecord} (henv : Envelope K s e key)
    (hp : e.core.payload = .mlsCommit p) (hg : s.mlsGroups.lookup p.channelId = some g)
    (hgen : p.generation = g.generation) (hepoch : p.epoch ≠ g.epoch) :
    s.apply K e = .ok (s.recordAccepted K e) := by
  have hv : s.checkPayloadAuthz e = .ok .staleCommitNoOp := by
    simpa only [checkPayloadAuthz, hp] using
      checkMlsCommit_eq_ok.mpr ⟨g, hg, .inr ⟨rfl, hgen, hepoch⟩⟩
  simp only [apply, bind_eq_ok]
  exact ⟨key, checkEnvelope_eq_ok.mpr henv, _, hv, by simp⟩

theorem apply_commit {p : MlsCommit} {g : MlsGroupRecord} (henv : Envelope K s e key)
    (hp : e.core.payload = .mlsCommit p) (hg : s.mlsGroups.lookup p.channelId = some g)
    (hcommit : CommitAuthorized s e p g) : ∃ s', s.apply K e = .ok s' ∧
      s'.mlsGroups.lookup p.channelId = some (g.applyCommit e.leaf (e.hash K) p
        (s.voidObligations p.channelId e.core.timestamp)) := by
  have hv : s.checkPayloadAuthz e = .ok .apply := by
    simpa only [checkPayloadAuthz, hp] using
      checkMlsCommit_eq_ok.mpr ⟨g, hg, .inl ⟨rfl, hcommit⟩⟩
  let m : LogState := (s.pinInstance e.core.device p.storeInstanceHash).consumeKeyPackages p.adds
  let m' : LogState := { m with
    mlsGroups := m.mlsGroups.insert p.channelId (g.applyCommit e.leaf (e.hash K) p
      (s.voidObligations p.channelId e.core.timestamp)) }
  refine ⟨m'.recordAccepted K e, ?_, Finmap.lookup_insert _⟩
  simp only [apply, bind_eq_ok]
  refine ⟨key, checkEnvelope_eq_ok.mpr henv, _, hv, ?_⟩
  simp only [if_true, applyPayloadEffect, hp, bind_eq_ok]
  exact ⟨m', updateGroup_eq_ok.mpr ⟨g, hg, rfl⟩, rfl⟩

/-- The envelope reads a few fields only, and of the maps only the author's entries. -/
theorem Envelope.congr (h : Envelope K s e key) (hserver : m.serverId = s.serverId)
    (hdevices : m.devices = s.devices) (hrevoked : m.revokedDevices = s.revokedDevices)
    (hbanned : m.banned = s.banned)
    (hclock : m.identityClock.lookup e.core.author = s.identityClock.lookup e.core.author)
    (hchain : m.chains.lookup e.leaf = s.chains.lookup e.leaf) : Envelope K m e key where
  server := h.server.trans hserver.symm
  device := by simpa only [resolveDevicePubkey, hdevices] using h.device
  signature := h.signature
  not_revoked := hrevoked ▸ h.not_revoked
  unexpired := by
    simpa only [certExpiry, expiryOf, selfLivenessTs, identityFloor, hdevices, hclock] using
      h.unexpired
  not_banned := hbanned ▸ h.not_banned
  chain := by simpa only [checkChain, hchain] using h.chain

theorem Effect.bookkeeping (h : Effect K s e key m) : m.chains = s.chains ∧ m.logPos = s.logPos ∧
    m.identityClock = s.identityClock ∧ m.corroboratedClock = s.corroboratedClock := by
  cases h <;> exact ⟨rfl, rfl, rfl, rfl⟩

theorem Effect.commit_frame {p : MlsCommit} (h : Effect K s e key m)
    (hp : e.core.payload = .mlsCommit p) :
    m.serverId = s.serverId ∧ m.devices = s.devices ∧ m.revokedDevices = s.revokedDevices ∧
      m.banned = s.banned ∧ m.chains = s.chains ∧ m.identityClock = s.identityClock := by
  cases h with
  | mlsCommit => exact ⟨rfl, rfl, rfl, rfl, rfl, rfl⟩
  | staleCommit => exact ⟨rfl, rfl, rfl, rfl, rfl, rfl⟩
  | _ => simp_all

end LogState
end EventLog

/-! ## Runs of the log

A run is an execution of accepted events from genesis; its transitions are the accepted
log together with the states around each event. -/
namespace EventLog

open Guarded

namespace LogState

variable (K : Crypto)

def Step (s : LogState) (e : Event) (s' : LogState) : Prop := s.apply K e = .ok s'

/-- The accepted log `tr` leads from genesis to `s`. -/
abbrev Run (g : Genesis) (tr : List (Transition LogState Event)) (s : LogState) : Prop :=
  Execution (Step K) (fromGenesis K g) tr s

def Reachable (g : Genesis) (s : LogState) : Prop := ∃ tr, Run K g tr s

def afterEvent (s : LogState) (e : Event) : LogState :=
  match s.apply K e with
  | .ok s' => s'
  | .error _ => s

/-- The accepted part of a log, with the states around each event. -/
def accepted (g : Genesis) (events : List Event) : List (Transition LogState Event) :=
  Execution.transitions (fun s e => s.apply K e) (fromGenesis K g) events

def stateAfter (g : Genesis) (events : List Event) : LogState :=
  Execution.stateAfter (fun s e => s.apply K e) (fromGenesis K g) events

variable {K} {s t : LogState} {g : Genesis} {tr : List (Transition LogState Event)}

theorem apply_afterEvent {e : Event} (h : (s.apply K e).isOk) :
    s.apply K e = .ok (s.afterEvent K e) := by
  unfold afterEvent
  cases hs : s.apply K e with
  | ok s' => rfl
  | error _ => simp [hs, Except.isOk, Except.toBool] at h

theorem run_accepted (events : List Event) :
    Run K g (accepted K g events) (stateAfter K g events) :=
  Execution.of_transitions events

theorem reachable_stateAfter (events : List Event) : Reachable K g (stateAfter K g events) :=
  ⟨_, run_accepted events⟩

theorem replay_eq_ok {events : List Event} :
    replay K g events = .ok t ↔ ∃ tr, Run K g tr t ∧ tr.map Transition.event = events :=
  Execution.foldlM_eq_ok

end LogState
end EventLog
