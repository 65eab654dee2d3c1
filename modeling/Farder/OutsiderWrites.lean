import Farder.LogInvariant
import Farder.SampleLog

/-! # What outsiders can write

An identity that is neither the owner nor a full member has a handful of payloads of its own:
it binds devices, joins, withdraws a pending join, revokes its devices and redacts its
uploads. All else needs membership or a capability, which only members hold; but a commit for
another epoch than the current one is recorded, without effect, before its author is looked at. -/
namespace OutsiderWrites

open EventLog EventLog.LogState

variable {K : Crypto} {g : Genesis} {s s' : LogState} {e : Event}

def OutsiderPayload (s : LogState) (e : Event) : Prop :=
  match e.core.payload with
  | .deviceAuthorized _ => True
  | .memberJoined member _ => member = e.core.author
  | .memberRemoved member => member = e.core.author ∧ e.core.author ∈ s.pending
  | .deviceRevoked device =>
    (s.devices.lookup device).map DeviceRecord.identity = some e.core.author
  | .attachmentRedacted contentHash =>
    s.attachmentUploaders.lookup contentHash = some e.core.author
  | _ => False

def MissedEpoch (s : LogState) (e : Event) : Prop :=
  ∃ p, e.core.payload = .mlsCommit p ∧ ∃ group, s.mlsGroups.lookup p.channelId = some group ∧
    p.generation = group.generation ∧ p.epoch ≠ group.epoch

/-- In every reachable state, what is accepted from an identity that is neither the owner nor a
full member is one of the payloads of outsiders, or a commit that has missed the current
epoch and is recorded without effect. -/
theorem outsider_payload (hs : Reachable K g s) (h : s.apply K e = .ok s')
    (howner : e.core.author ≠ g.owner) (hout : ¬s.IsFullMember e.core.author) :
    OutsiderPayload s e ∨ MissedEpoch s e ∧ s' = s.recordAccepted K e := by
  have hinv := reachable_invariant hs
  have hheld := reachable_capabilitiesHeld hs
  have hnotowner : e.core.author ≠ s.owner := hinv.owner ▸ howner
  have hnotmember : e.core.author ∉ s.members := by
    intro hmember
    exact hout ⟨hmember, hinv.membership.member_not_pending _ hmember⟩
  have hnone (capability : String) : ¬s.HasCapability e.core.author capability := by
    intro hcap
    rcases HasCapability.owner_or_member hcap hheld with hown | hmember
    exacts [hnotowner hown, hnotmember hmember]
  obtain ⟨key, m, -, heff, rfl⟩ := apply_cases h
  cases heff with
  | deviceAuthorized cert hp => exact .inl (by simp [OutsiderPayload, hp])
  | memberJoined member invite inv hp hself => exact .inl (by simp [OutsiderPayload, hp, hself])
  | memberRemoved member hp htarget hcap =>
    have hself := hcap.resolve_right (hnone _)
    have hpending : e.core.author ∈ s.pending := (hself ▸ htarget).resolve_left hnotmember
    exact .inl (by simp [OutsiderPayload, hp, hself, hpending])
  | deviceRevoked device record hp hrecord hnew hcap =>
    have hown := hcap.resolve_right hnotowner
    exact .inl (by simp [OutsiderPayload, hp, hrecord, hown])
  | attachmentRedacted contentHash uploader hp huploader hcap =>
    have hown := hcap.resolve_right (hnone _)
    exact .inl (by simp [OutsiderPayload, hp, huploader, hown])
  | staleCommit p group hp hg hgen hepoch =>
    exact .inr ⟨⟨p, hp, group, hg, hgen, hepoch⟩, rfl⟩
  | inviteCreated p hp hcap => exact absurd hcap (hnone _)
  | memberApproved member hp hcap => exact absurd hcap (hnone _)
  | messagePosted p hp hmember => exact absurd hmember hnotmember
  | memberBanned member hp hcap => exact absurd hcap (hnone _)
  | memberUnbanned member hp hcap => exact absurd hcap (hnone _)
  | permissionGranted member capability hp hmember hcap =>
    exact absurd (hcap.resolve_left hnotowner) (hnone _)
  | channelCreated p hp hown => exact absurd hown hnotowner
  | messageDeleted p hp hchannel hnew hreason =>
    cases hr : p.reason with
    | moderation =>
      simp only [checkDeleteReason, hr, Guarded.ensure_eq_ok] at hreason
      exact absurd hreason (hnone _)
    | author =>
      simp only [checkDeleteReason, hr, Guarded.ensure_eq_ok] at hreason
      exact absurd hreason hnotmember
  | mlsKeyPackagePublished p hp hmember => exact absurd hmember hout
  | mlsCommit p group hp hg hcommit => exact absurd hcommit.full_member hout
  | mlsWelcome p group hp hg hwelcome => exact absurd hwelcome.full_member hout
  | mlsLeafConfirmed p group hp hg hconfirm => exact absurd hconfirm.full_member hout
  | messagePostedE2ee p group hp hg hsend => exact absurd hsend.full_member hout
  | messageEditedE2ee p group hp hg hsend => exact absurd hsend.full_member hout
  | mlsGroupReset p group hp hg hreset => exact absurd hreset.owner hnotowner

open SampleLog

/-- Bob binds a device before he joins, and later leaves Alice's server. -/
def bobLeft : List Entry := twoMembers ++ [⟨bob, b0, 3, .memberRemoved (key bob)⟩]

theorem outsider_payload_bobLeft :
    let e := nextEvent (signed bobLeft) ⟨bob, b0, 4, .deviceRevoked (device b0)⟩
    OutsiderPayload (stateOf bobLeft) e ∨ MissedEpoch (stateOf bobLeft) e ∧
      (stateOf bobLeft).afterEvent crypto e = (stateOf bobLeft).recordAccepted crypto e :=
  outsider_payload (reachable_stateAfter _) (apply_afterEvent (by decide +kernel))
    (by decide +kernel) (by decide +kernel)

/-- Bob, who has left, commits for an epoch that is over: the commit is accepted. -/
theorem outsider_commit_recorded :
    let e := nextEvent (signed bobLeft) ⟨bob, b0, 4, commit 0 0 [] []⟩
    Reachable crypto genesis (stateOf bobLeft) ∧ ((stateOf bobLeft).apply crypto e).isOk ∧
      e.core.author ≠ genesis.owner ∧ ¬(stateOf bobLeft).IsFullMember e.core.author ∧
      ¬OutsiderPayload (stateOf bobLeft) e :=
  ⟨reachable_stateAfter _, by decide +kernel, by decide +kernel, by decide +kernel, fun h => h⟩

end OutsiderWrites
