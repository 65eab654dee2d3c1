import Farder.EventChains
import Farder.KeyPackageUse

/-! # Where membership and capabilities come from

The state says who belongs to the server and who may do what; the log says why. Every member
but the owner has joined on an invite since it was last expelled, and was approved where the
invite asks for it; invites count their uses; and every capability goes back, grant by grant,
to the owner. -/
namespace Provenance

open EventLog EventLog.LogState KeyPackageUse EventChains

variable {K : Crypto} {g : Genesis} {s t : LogState} {e : Event} {m : PublicKey} {cap : String}
  {tr a b : List (Transition LogState Event)} {x : Transition LogState Event}

/-- The event removes or bans the identity. -/
def Expels (m : PublicKey) (x : Transition LogState Event) : Prop :=
  x.event.core.payload = .memberRemoved m ∨ x.event.core.payload = .memberBanned m

/-- The identity's own join, on a recorded invite that has not expired at the claimed time. -/
def JoinsOn (m : PublicKey) (inv : InviteRecord) (x : Transition LogState Event) : Prop :=
  x.event.core.author = m ∧ ∃ invite, x.event.core.payload = .memberJoined m invite ∧
    x.pre.invites.lookup invite = some inv ∧ x.event.core.timestamp ≤ inv.expiresAt

def Approves (m : PublicKey) (x : Transition LogState Event) : Prop :=
  x.event.core.payload = .memberApproved m ∧ x.pre.HasCapability x.event.core.author "kick"

def Grants (m : PublicKey) (cap : String) (x : Transition LogState Event) : Prop :=
  x.event.core.payload = .permissionGranted m cap ∧ x.pre.HasCapability x.event.core.author cap

def citesInvite (invite : EventRef) (x : Transition LogState Event) : Bool :=
  match x.event.core.payload with
  | .memberJoined _ i => i = invite
  | _ => false

/-- Since it was last expelled the identity has joined, and was approved if its invite asks. -/
def JoinedSince (m : PublicKey) (tr : List (Transition LogState Event)) : Prop :=
  ∃ a x b inv, tr = a ++ x :: b ∧ JoinsOn m inv x ∧ (∀ y ∈ b, ¬Expels m y) ∧
    (inv.requiresApproval = true → ∃ y ∈ b, Approves m y)

structure Accounted (g : Genesis) (tr : List (Transition LogState Event)) (t : LogState) :
    Prop where
  members_pending : Disjoint t.members t.pending
  members_banned : Disjoint t.members t.banned
  pending_banned : Disjoint t.pending t.banned
  holders : ∀ pk ∈ t.capabilities, pk ∈ t.members
  joined : ∀ m, t.IsFullMember m → m ≠ g.owner → JoinedSince m tr
  invites : ∀ i inv, t.invites.lookup i = some inv →
    inv.useCount = tr.countP (citesInvite i) ∧ inv.useCount ≤ inv.maxUses
  granted : ∀ m cap, m ≠ g.owner → t.HasCapability m cap →
    ∃ a x b, tr = a ++ x :: b ∧ Grants m cap x ∧ ∀ y ∈ b, ¬Expels m y
  first_grant : ∀ a x b m cap, tr = a ++ x :: b → Grants m cap x →
    (∀ y ∈ a, ∀ m', ¬Grants m' cap y) → x.event.core.author = g.owner

theorem pending_step (h : Step K s e t) (hm : m ∈ t.pending) :
    (∃ inv, JoinsOn m inv ⟨s, e, t⟩ ∧ inv.requiresApproval = true) ∨
      m ∈ s.pending ∧ ¬Expels m ⟨s, e, t⟩ := by
  obtain ⟨key, n, -, heff, rfl⟩ := apply_cases h
  replace hm : m ∈ n.pending := hm
  cases heff with
  | memberJoined member invite inv hp hself _ _ hinv _ hexp =>
    have happ : s.requiresApproval invite = inv.requiresApproval := by
      simp [requiresApproval, hinv]
    simp only [joinMember, happ] at hm
    split_ifs at hm with hreq
    · rcases Finset.mem_insert.mp hm with rfl | hm
      · exact .inl ⟨inv, ⟨hself.symm, invite, hp, hinv, hexp⟩, hreq⟩
      · exact .inr ⟨hm, by simp [Expels, hp]⟩
    · exact .inr ⟨hm, by simp [Expels, hp]⟩
  | memberApproved member hp =>
    exact .inr ⟨Finset.mem_of_mem_erase hm, by simp [Expels, hp]⟩
  | memberRemoved member hp =>
    obtain ⟨hne, hm⟩ := Finset.mem_erase.mp hm
    exact .inr ⟨hm, by simp [Expels, hp, hne.symm]⟩
  | memberBanned member hp =>
    obtain ⟨hne, hm⟩ := Finset.mem_erase.mp hm
    exact .inr ⟨hm, by simp [Expels, hp, hne.symm]⟩
  | _ => exact .inr ⟨hm, by simp [Expels, *]⟩

theorem members_step (h : Step K s e t) (hm : m ∈ t.members) :
    ((∃ inv, JoinsOn m inv ⟨s, e, t⟩ ∧ inv.requiresApproval = false) ∨
        m ∈ s.pending ∧ Approves m ⟨s, e, t⟩) ∨
      m ∈ s.members ∧ ¬Expels m ⟨s, e, t⟩ := by
  obtain ⟨key, n, -, heff, rfl⟩ := apply_cases h
  replace hm : m ∈ n.members := hm
  cases heff with
  | memberJoined member invite inv hp hself _ _ hinv _ hexp =>
    have happ : s.requiresApproval invite = inv.requiresApproval := by
      simp [requiresApproval, hinv]
    simp only [joinMember, happ] at hm
    split_ifs at hm with hreq
    · exact .inr ⟨hm, by simp [Expels, hp]⟩
    · rcases Finset.mem_insert.mp hm with rfl | hm
      · exact .inl (.inl ⟨inv, ⟨hself.symm, invite, hp, hinv, hexp⟩, by simpa using hreq⟩)
      · exact .inr ⟨hm, by simp [Expels, hp]⟩
  | memberApproved member hp hcap hwaiting =>
    rcases Finset.mem_insert.mp hm with rfl | hm
    · exact .inl (.inr ⟨hwaiting, hp, hcap⟩)
    · exact .inr ⟨hm, by simp [Expels, hp]⟩
  | memberRemoved member hp =>
    obtain ⟨hne, hm⟩ := Finset.mem_erase.mp hm
    exact .inr ⟨hm, by simp [Expels, hp, hne.symm]⟩
  | memberBanned member hp =>
    obtain ⟨hne, hm⟩ := Finset.mem_erase.mp hm
    exact .inr ⟨hm, by simp [Expels, hp, hne.symm]⟩
  | _ => exact .inr ⟨hm, by simp [Expels, *]⟩

theorem joinedSince (h : Run K g tr t) (hm : m ∈ t.members) (hne : m ≠ g.owner) :
    JoinedSince m tr := by
  have hstart : m ∉ (fromGenesis K g).members := by simp [fromGenesis, hne]
  obtain ⟨a, x, b, rfl, hx, hb⟩ := h.since (fun s => m ∈ s.members) hstart
    (fun y hy => members_step (h.step_of_mem hy)) hm
  rcases hx with ⟨inv, hjoin, hreq⟩ | ⟨hpending, happ⟩
  · exact ⟨a, x, b, inv, rfl, hjoin, hb, by simp [hreq]⟩
  · -- The approval ends a wait that a join of its own has begun.
    have hrun := h.split_at.1
    obtain ⟨a₁, y, b₁, rfl, ⟨inv, hjoin, -⟩, hb₁⟩ := hrun.since (fun s => m ∈ s.pending)
      (by simp [fromGenesis]) (fun y hy => pending_step (hrun.step_of_mem hy)) hpending
    have hp : x.event.core.payload = .memberApproved m := happ.1
    refine ⟨a₁, y, b₁ ++ x :: b, inv, by simp, hjoin, ?_, fun _ => ⟨x, by simp, happ⟩⟩
    simp only [List.forall_mem_append, List.forall_mem_cons]
    exact ⟨hb₁, by simp [Expels, hp], hb⟩

structure InvitesCounted (K : Crypto) (tr : List (Transition LogState Event)) (t : LogState) :
    Prop where
  created : ∀ i inv, t.invites.lookup i = some inv → ∃ x ∈ tr, x.event.hash K = i
  unknown : ∀ i, t.invites.lookup i = none → tr.countP (citesInvite i) = 0
  known : ∀ i inv, t.invites.lookup i = some inv →
    inv.useCount = tr.countP (citesInvite i) ∧ inv.useCount ≤ inv.maxUses

theorem InvitesCounted.other (h : InvitesCounted K tr x.pre)
    (hinv : x.post.invites = x.pre.invites) (hcite : ∀ i, citesInvite i x = false) :
    InvitesCounted K (tr ++ [x]) x.post := by
  have hcount (i : EventRef) : (tr ++ [x]).countP (citesInvite i) = tr.countP (citesInvite i) := by
    simp [hcite]
  constructor <;> simp only [hinv, hcount]
  · intro i inv hi
    obtain ⟨y, hy, hhash⟩ := h.created i inv hi
    exact ⟨y, List.mem_append_left _ hy, hhash⟩
  · exact h.unknown
  · exact h.known

theorem InvitesCounted.create (h : InvitesCounted K tr x.pre) {inv : InviteRecord}
    (hnew : ∀ y ∈ tr, y.event.hash K ≠ x.event.hash K) (hzero : inv.useCount = 0)
    (hinv : x.post.invites = x.pre.invites.insert (x.event.hash K) inv)
    (hcite : ∀ i, citesInvite i x = false) : InvitesCounted K (tr ++ [x]) x.post := by
  have hcount (i : EventRef) : (tr ++ [x]).countP (citesInvite i) = tr.countP (citesInvite i) := by
    simp [hcite]
  have hfresh : x.pre.invites.lookup (x.event.hash K) = none := by
    by_contra hsome
    obtain ⟨old, hold⟩ := Option.ne_none_iff_exists'.mp hsome
    obtain ⟨y, hy, hhash⟩ := h.created _ old hold
    exact hnew y hy hhash
  constructor <;> simp only [hinv, hcount, FiniteMap.lookup_insert_eq] <;> intro i
  · intro inv' hi
    split_ifs at hi with heq
    · exact ⟨x, List.mem_append_right _ (List.mem_singleton_self _), heq.symm⟩
    · obtain ⟨y, hy, hhash⟩ := h.created i inv' hi
      exact ⟨y, List.mem_append_left _ hy, hhash⟩
  · split_ifs with heq
    · simp
    · exact h.unknown i
  · intro inv' hi
    split_ifs at hi with heq
    · obtain rfl := Option.some.inj hi
      rw [heq, h.unknown _ hfresh]
      exact ⟨hzero, by omega⟩
    · exact h.known i inv' hi

theorem InvitesCounted.use (h : InvitesCounted K tr x.pre) {i₀ : EventRef} {inv : InviteRecord}
    (hlookup : x.pre.invites.lookup i₀ = some inv) (huses : inv.useCount < inv.maxUses)
    (hinv : x.post.invites =
      x.pre.invites.adjust i₀ fun inv => { inv with useCount := inv.useCount + 1 })
    (hcite : ∀ i, citesInvite i x = decide (i₀ = i)) :
    InvitesCounted K (tr ++ [x]) x.post := by
  have hcount (i : EventRef) : (tr ++ [x]).countP (citesInvite i) =
      tr.countP (citesInvite i) + if i₀ = i then 1 else 0 := by
    simp [hcite]
  constructor <;> simp only [hinv, hcount, FiniteMap.lookup_adjust] <;> intro i
  · intro inv' hi
    have hsome : ∃ old, x.pre.invites.lookup i = some old := by
      split_ifs at hi with heq
      exacts [⟨inv, heq ▸ hlookup⟩, ⟨inv', hi⟩]
    obtain ⟨old, hold⟩ := hsome
    obtain ⟨y, hy, hhash⟩ := h.created i old hold
    exact ⟨y, List.mem_append_left _ hy, hhash⟩
  · by_cases heq : i = i₀
    · simp [heq, hlookup]
    · have hne : i₀ ≠ i := fun h => heq h.symm
      simpa [heq, hne] using h.unknown i
  · intro inv' hi
    by_cases heq : i = i₀
    · subst heq
      obtain ⟨hcnt, -⟩ := h.known i inv hlookup
      simp only [if_true, hlookup, Option.map_some, Option.some.injEq] at hi ⊢
      subst hi
      simp only
      omega
    · have hne : i₀ ≠ i := fun h => heq h.symm
      simp only [heq, hne, if_false] at hi ⊢
      exact h.known i inv' hi

theorem invitesCounted (h : Run K g tr t) (hK : CollisionFree K tr) : InvitesCounted K tr t := by
  generalize hs : fromGenesis K g = s at h
  induction h with
  | nil =>
    subst hs
    constructor <;> simp [fromGenesis]
  | @snoc t u e tr htr hstep ih =>
    subst hs
    have ih := ih fun x hx y hy => hK x (by simp [hx]) y (by simp [hy])
    have hnew : ∀ x ∈ tr, x.event.hash K ≠ e.hash K := by
      intro x hx hhash
      exact event_fresh (htr.snoc hstep) hx (hK x (by simp [hx]) ⟨t, e, u⟩ (by simp) hhash)
    obtain ⟨key, n, -, heff, rfl⟩ := apply_cases hstep
    have hinvites : (n.recordAccepted K e).invites = n.invites := rfl
    cases heff with
    | inviteCreated p hp => exact ih.create hnew rfl hinvites (by simp [citesInvite, hp])
    | memberJoined member invite inv hp _ _ _ hinv huses =>
      exact ih.use hinv huses hinvites (by simp [citesInvite, hp])
    | _ => exact ih.other hinvites (by simp [citesInvite, *])

def Holds (s : LogState) (m : PublicKey) (cap : String) : Prop :=
  ∃ caps, s.capabilities.lookup m = some caps ∧ cap ∈ caps

theorem holds_of_erase {caps : Finset String} {member : PublicKey}
    (h : (s.capabilities.erase member).lookup m = some caps) :
    m ≠ member ∧ s.capabilities.lookup m = some caps := by
  rw [FiniteMap.lookup_erase_eq] at h
  split_ifs at h with hne
  exact ⟨hne, h⟩

theorem holds_step (h : Step K s e t) (hm : Holds t m cap) :
    Grants m cap ⟨s, e, t⟩ ∨ Holds s m cap ∧ ¬Expels m ⟨s, e, t⟩ := by
  obtain ⟨key, n, -, heff, rfl⟩ := apply_cases h
  obtain ⟨caps, hcaps, hmem⟩ := hm
  replace hcaps : n.capabilities.lookup m = some caps := hcaps
  cases heff with
  | memberRemoved member hp =>
    obtain ⟨hne, hold⟩ := holds_of_erase hcaps
    exact .inr ⟨⟨caps, hold, hmem⟩, by simp [Expels, hp, hne.symm]⟩
  | memberBanned member hp =>
    obtain ⟨hne, hold⟩ := holds_of_erase hcaps
    exact .inr ⟨⟨caps, hold, hmem⟩, by simp [Expels, hp, hne.symm]⟩
  | permissionGranted member capability hp hmember hcap =>
    rw [FiniteMap.lookup_insert_eq] at hcaps
    split_ifs at hcaps with heq
    · subst heq
      obtain rfl := Option.some.inj hcaps
      rcases Finset.mem_insert.mp hmem with rfl | hold
      · exact .inl ⟨hp, hcap.elim .inl id⟩
      · cases hs : s.capabilities.lookup m with
        | none => simp [hs] at hold
        | some caps' =>
          exact .inr ⟨⟨caps', hs, by simpa [hs] using hold⟩, by simp [Expels, hp]⟩
    · exact .inr ⟨⟨caps, hcaps, hmem⟩, by simp [Expels, hp]⟩
  | _ => exact .inr ⟨⟨caps, hcaps, hmem⟩, by simp [Expels, *]⟩

theorem granted_since (h : Run K g tr t) (hm : Holds t m cap) :
    ∃ a x b, tr = a ++ x :: b ∧ Grants m cap x ∧ ∀ y ∈ b, ¬Expels m y :=
  h.since (fun s => Holds s m cap) (by simp [Holds, fromGenesis])
    (fun y hy => holds_step (h.step_of_mem hy)) hm

theorem first_grant (h : Run K g (a ++ x :: b) t) (hx : Grants m cap x)
    (hfirst : ∀ y ∈ a, ∀ m', ¬Grants m' cap y) : x.event.core.author = g.owner := by
  have hrun := h.split_at.1
  rcases hx.2 with howner | ⟨caps, hcaps, hmem⟩
  · exact howner.trans (reachable_invariant ⟨a, hrun⟩).owner
  · obtain ⟨a₁, y, b₁, rfl, hy, -⟩ := granted_since hrun ⟨caps, hcaps, hmem⟩
    exact absurd hy (hfirst y (by simp) _)

/-- In every run without hash collisions, membership, invites and capabilities are accounted
for by the log. -/
theorem provenance (h : Run K g tr t) (hK : CollisionFree K tr) : Accounted g tr t := by
  have hreach : Reachable K g t := ⟨tr, h⟩
  have hinv := reachable_invariant hreach
  have hmembers := hinv.membership
  constructor
  · exact Finset.disjoint_left.mpr hmembers.member_not_pending
  · exact Finset.disjoint_left.mpr hmembers.member_not_banned
  · exact Finset.disjoint_left.mpr hmembers.pending_not_banned
  · intro pk hpk
    obtain ⟨caps, hcaps⟩ := Finmap.mem_iff.mp hpk
    exact reachable_capabilitiesHeld hreach pk caps hcaps
  · intro m hm hne
    exact joinedSince h hm.1 hne
  · exact (invitesCounted h hK).known
  · intro m cap hne hm
    exact granted_since h (hm.resolve_left fun howner => hne (howner.trans hinv.owner))
  · rintro a x b m cap rfl hx hfirst
    exact first_grant h hx hfirst

open SampleLog

def bobApproved : List Entry :=
  [⟨alice, a0, 1, cert alice a0 none⟩,
   ⟨alice, a0, 1, .inviteCreated ⟨"", 5, 100, true⟩⟩,
   ⟨bob, b0, 1, cert bob b0 none⟩,
   ⟨bob, b0, 1, .memberJoined (key bob) (ref alice a0 1)⟩,
   ⟨alice, a0, 2, .memberApproved (key bob)⟩,
   ⟨alice, a0, 2, .permissionGranted (key bob) "kick"⟩]

theorem provenance_bobApproved :
    (stateOf bobApproved).HasCapability (key bob) "kick" ∧
      Accounted genesis (accepted crypto genesis (signed bobApproved)) (stateOf bobApproved) :=
  ⟨by decide +kernel, provenance (run_accepted _) (by decide +kernel)⟩

end Provenance
