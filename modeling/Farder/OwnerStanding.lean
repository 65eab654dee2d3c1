import Farder.LogInvariant
import Farder.SampleLog

/-! # The owner's standing

The owner holds every capability by being the owner, and cannot be banned. A removal, though,
asks of its author only the capability to kick, and not that the target is somebody else than
the owner: the owner keeps its membership exactly in the runs where nobody else removes it. -/
namespace OwnerStanding

open EventLog EventLog.LogState

variable {K : Crypto} {g : Genesis} {s t : LogState} {e : Event}
  {tr : List (Transition LogState Event)} {x : Transition LogState Event}

/-- After the transition the owner is the owner and not banned, and if it has lost its
membership, it has left by its own event. -/
structure OwnerKept (owner : PublicKey) (x : Transition LogState Event) : Prop where
  in_office : x.post.owner = owner
  not_banned : owner ∉ x.post.banned
  leaves : owner ∈ x.pre.members → owner ∉ x.post.members →
    x.event.core.payload = .memberRemoved owner ∧ x.event.core.author = owner

/-- Nobody else's event removes the owner from the members. -/
def NotRemovedByOthers (owner : PublicKey) (x : Transition LogState Event) : Prop :=
  owner ∈ x.pre.members → x.event.core.payload = .memberRemoved owner →
    x.event.core.author = owner

instance (owner : PublicKey) (x : Transition LogState Event) :
    Decidable (NotRemovedByOthers owner x) :=
  inferInstanceAs (Decidable (_ → _ → _))

theorem owner_removed (hs : Invariant g.owner s) (h : s.apply K e = .ok t)
    (hmember : g.owner ∈ s.members) :
    g.owner ∉ t.members ↔ e.core.payload = .memberRemoved g.owner := by
  obtain ⟨key, m, -, heff, rfl⟩ := apply_cases h
  have howner := hs.owner
  show g.owner ∉ m.members ↔ _
  cases heff with
  | memberJoined member invite inv hp =>
    simp only [joinMember, hp]
    split_ifs <;> simp [hmember]
  | memberApproved member hp => simp [hp, hmember]
  | memberRemoved member hp => simp [removeMember, hp, hmember, eq_comm]
  | memberBanned member hp hcap hne =>
    rw [howner] at hne
    simp [removeMember, hp, hmember, hne.symm]
  | _ => simp_all [authorizeDevice, recordUploaders, createChannel, bumpGroup, publishKeyPackage,
      pinInstance, consumeKeyPackages]

theorem ownerKept_iff (hs : Invariant g.owner s) (h : s.apply K e = .ok t) :
    OwnerKept g.owner ⟨s, e, t⟩ ↔ NotRemovedByOthers g.owner ⟨s, e, t⟩ := by
  have ht := step_preserves_invariant hs h
  constructor
  · intro hkept hmember hp
    exact (hkept.leaves hmember ((owner_removed hs h hmember).mpr hp)).2
  · intro hcond
    refine ⟨ht.owner, ?_, fun hmember hnot => ?_⟩
    · have hbanned := ht.membership.owner_not_banned
      rwa [ht.owner] at hbanned
    · have hp := (owner_removed hs h hmember).mp hnot
      exact ⟨hp, hcond hmember hp⟩

/-- In every run, the owner keeps its standing until it leaves exactly when nobody else removes
it. -/
theorem owner_not_ousted_iff (h : Run K g tr t) :
    (∀ x ∈ tr, OwnerKept g.owner x) ↔ ∀ x ∈ tr, NotRemovedByOthers g.owner x := by
  refine forall₂_congr fun x hx => ?_
  obtain ⟨hpre, -⟩ := h.invariant_of_mem (invariant_genesis g)
    (fun _ _ _ => step_preserves_invariant) hx
  exact ownerKept_iff hpre (h.step_of_mem hx)

open SampleLog

theorem owner_not_ousted_twoMembers :
    (∀ x ∈ accepted crypto genesis (signed twoMembers), NotRemovedByOthers genesis.owner x) ∧
      ∀ x ∈ accepted crypto genesis (signed twoMembers), OwnerKept genesis.owner x := by
  have hnone : ∀ x ∈ accepted crypto genesis (signed twoMembers),
      NotRemovedByOthers genesis.owner x := by
    decide +kernel
  exact ⟨hnone, (owner_not_ousted_iff (run_accepted _)).mpr hnone⟩

def bobKicks : List Entry :=
  twoMembers ++ [⟨alice, a0, 3, .permissionGranted (key bob) "kick"⟩,
    ⟨bob, b0, 3, .memberRemoved (key alice)⟩]

theorem owner_ousted_bobKicks :
    Run crypto genesis (accepted crypto genesis (signed bobKicks)) (stateOf bobKicks) ∧
      (accepted crypto genesis (signed bobKicks)).length = 10 ∧
      genesis.owner ∉ (stateOf bobKicks).members ∧
      ¬∀ x ∈ accepted crypto genesis (signed bobKicks), OwnerKept genesis.owner x := by
  refine ⟨run_accepted _, by decide +kernel, by decide +kernel, fun h => ?_⟩
  have hlast : ∃ x ∈ accepted crypto genesis (signed bobKicks), genesis.owner ∈ x.pre.members ∧
      genesis.owner ∉ x.post.members ∧ x.event.core.author ≠ genesis.owner := by
    decide +kernel
  obtain ⟨x, hx, hpre, hpost, hauthor⟩ := hlast
  exact hauthor ((h x hx).leaves hpre hpost).2

end OwnerStanding
