import Farder.ChannelSeparation
import Farder.GroupStep

/-! # The counters of the log

The fold computes with machine words, and the words in an event are its author's choice. Each
counter of the state moves by one with an accepted event, so that the length of the log bounds
them all, and no sum that the fold makes overflows. -/
namespace Counters

open Guarded EventLog EventLog.LogState

/-- Additions of unsigned words. They are exact below the width of the words; beyond it the
build decides between a panic and a wrapped sum. -/
structure Arithmetic where
  u64 : ℕ → ℕ → Checked ℕ
  u32 : ℕ → ℕ → Checked ℕ
  u64_exact {a b : ℕ} (h : a + b < 2 ^ 64) : u64 a b = .ok (a + b)
  u32_exact {a b : ℕ} (h : a + b < 2 ^ 32) : u32 a b = .ok (a + b)

namespace Arithmetic

def checkedAdd (width a b : ℕ) : Checked ℕ :=
  expect (if a + b < 2 ^ width then some (a + b) else none) "attempt to add with overflow"

theorem checkedAdd_exact {width a b : ℕ} (h : a + b < 2 ^ width) :
    checkedAdd width a b = .ok (a + b) := by
  rw [checkedAdd, if_pos h]
  rfl

/-- The build with overflow checks. -/
def panicking : Arithmetic :=
  ⟨checkedAdd 64, checkedAdd 32, checkedAdd_exact, checkedAdd_exact⟩

/-- The build without them. -/
def wrapping : Arithmetic where
  u64 a b := .ok ((a + b) % 2 ^ 64)
  u32 a b := .ok ((a + b) % 2 ^ 32)
  u64_exact h := by rw [Nat.mod_eq_of_lt h]
  u32_exact h := by rw [Nat.mod_eq_of_lt h]

end Arithmetic

/-! ## The fold on machine words

Each definition repeats the one of the same name with the additions made by machine words; the
payloads and checks without an addition are shared. -/

section Machine

variable (A : Arithmetic) (K : Crypto) (s : LogState)

def checkChain (e : Event) : Checked Unit :=
  match s.chains.lookup e.leaf with
  | none => do
    ensure (e.core.seq = 0) "first event of a chain must have seq 0"
    ensure (e.core.prev = none) "first event of a chain must have prev = None"
  | some head => do
    let seq ← A.u64 head.seq 1
    ensure (e.core.seq = seq) "non-contiguous seq (gap or fork)"
    ensure (e.core.prev = some head.hash) "prev does not link to the chain head (fork)"

/-- The sum is made only where neither exception holds. -/
def rateOk (e : Event) (p : MlsCommit) (group : MlsGroupRecord) : Checked Bool :=
  if s.CommitDischargesDrift e ∨ group.CeilingDemandsRekey then return true
  else
    match group.lastCommitEpochByAuthor.lookup e.core.author with
    | none => return true
    | some last => do
      let earliest ← A.u64 last group.commitRateGap
      return decide (earliest ≤ p.epoch)

def checkCurrentCommit (e : Event) (p : MlsCommit) (group : MlsGroupRecord) :
    Checked Authorized := do
  s.checkInstancePin e.core.device p.storeInstanceHash
  ensure (s.IsFullMember e.core.author) "only full members may author MLS commits"
  s.checkCommitAuthor e p group
  ensureIfSome group.epochAuthenticator (fun expected => p.prevEpochAuthenticator = expected)
    "commit does not chain onto the previous commit's declared authenticator"
  forAll p.adds (s.checkDeclaredAdd e group)
  forAll p.removes (s.checkDeclaredRemove e group)
  let ok ← rateOk A s e p group
  ensure (ok = true)
    s!"commit-rate rule: a non-drift-discharging commit must be its author's first or at least {group.commitRateGap} epochs past their previous one"
  return .apply

def checkMlsCommit (e : Event) (p : MlsCommit) : Checked Authorized := do
  let group ← context (s.mlsGroups.lookup p.channelId)
    "MlsCommit cites a channel with no E2ee group"
  ensure (p.generation = group.generation) "commit generation does not match the group"
  if p.epoch = group.epoch then checkCurrentCommit A s e p group else return .staleCommitNoOp

def checkWelcomeScope (e : Event) (p : MlsWelcome) (group : MlsGroupRecord) : Checked Unit :=
  if p.generation = group.generation then do
    ensure (e.leaf ∈ group.leavesConfirmed) "welcome author does not hold a confirmed leaf"
    ensure ((p.forMember, p.forDevice) ∈ group.leavesPending)
      "welcome target leaf is not pending"
    ensure (∃ c ∈ group.commitsByEpoch.values, c.eventHash = p.commit)
      "welcome cites a commit the fold has not recorded"
  else do
    let next ← A.u64 group.generation 1
    if p.generation = next then
      ensure (s.IsOwner e.core.author) "next-generation (reset-staging) welcomes are owner-only"
    else
      .error (.rejected "welcome generation is neither the current one nor current + 1")

def checkMlsWelcome (e : Event) (p : MlsWelcome) : Checked Authorized := do
  let group ← context (s.mlsGroups.lookup p.channelId)
    "MlsWelcome cites a channel with no E2ee group"
  ensure (s.IsFullMember e.core.author) "only full members may author MLS welcomes"
  checkWelcomeScope A s e p group
  return .apply

def checkMlsGroupReset (e : Event) (p : MlsGroupReset) : Checked Authorized := do
  ensure (s.IsOwner e.core.author) "only the owner may reset an MLS group"
  let group ← context (s.mlsGroups.lookup p.channelId)
    "MlsGroupReset cites a channel with no E2ee group"
  let next ← A.u64 group.generation 1
  ensure (p.newGeneration = next) "a reset must advance the generation by exactly one"
  ensure (group.generation = 0 ∨ group.ResetIncomplete ∨
      resetMinChannelEvents ≤ group.channelEventsSinceReset)
    s!"reset rate limit: at most one reset per {resetMinChannelEvents} channel events"
  let staged ← p.welcomes.foldlM (stageWelcome group p.newGeneration) (∅, ∅)
  ensure (staged.1 = (s.memberLeafSet e.core.timestamp).erase e.leaf)
    "non-selective reset: welcomes must cover exactly the fold's members x live devices (minus the resetter's own device)"
  return .apply

def checkPayloadAuthz (e : Event) : Checked Authorized :=
  match e.core.payload with
  | .mlsCommit p => checkMlsCommit A s e p
  | .mlsWelcome p => checkMlsWelcome A s e p
  | .mlsGroupReset p => checkMlsGroupReset A s e p
  | _ => s.checkPayloadAuthz e

def useInvite (invite : EventRef) : Checked (FiniteMap EventHash InviteRecord) :=
  match s.invites.lookup invite with
  | none => return s.invites
  | some inv => do
    let useCount ← A.u32 inv.useCount 1
    return s.invites.insert invite { inv with useCount }

def joinMember (member : PublicKey) (invite : EventRef) : Checked LogState := do
  let invites ← useInvite A s invite
  return { s with
    pending := if s.requiresApproval invite then insert member s.pending else s.pending
    members := if s.requiresApproval invite then s.members else insert member s.members
    invites }

def applyCommit (g : MlsGroupRecord) (leaf : Leaf) (eventHash : EventHash) (p : MlsCommit)
    (voidObligations : Finset Leaf) : Checked MlsGroupRecord := do
  let epoch ← A.u64 p.epoch 1
  let created ← A.u64 p.epoch 1
  return { g.applyCommit leaf eventHash p voidObligations with
    epoch
    commitsByEpoch := g.commitsByEpoch.insert created ⟨eventHash, p.postTreeHash⟩ }

def applyPayloadEffect (e : Event) (devicePubkey : PublicKey) : Checked LogState :=
  match e.core.payload with
  | .memberJoined member invite => joinMember A s member invite
  | .mlsCommit p => do
    let void := s.voidObligations p.channelId e.core.timestamp
    let s := (s.pinInstance e.core.device p.storeInstanceHash).consumeKeyPackages p.adds
    let group ← expect (s.mlsGroups.lookup p.channelId) "authz verified the group exists"
    let group ← applyCommit A group e.leaf (e.hash K) p void
    return { s with mlsGroups := s.mlsGroups.insert p.channelId group }
  | _ => s.applyPayloadEffect K e devicePubkey

def recordAccepted (e : Event) : Checked LogState := do
  let logPos ← A.u64 s.logPos 1
  return { s.recordAccepted K e with logPos }

def checkEnvelope (e : Event) : Checked PublicKey := do
  ensure (e.core.serverId = s.serverId) "event server_id does not match this server"
  let devicePubkey ← s.resolveDevicePubkey K e
  withContext (e.verify K devicePubkey) "event signature is invalid"
  ensure (e.core.device ∉ s.revokedDevices) "device has been revoked"
  ensureIfSome (s.certExpiry e) (fun t => s.selfLivenessTs e.core.author e.core.timestamp ≤ t)
    "device cert has expired"
  ensure (¬s.IsBanned e.core.author) "author is banned"
  checkChain A s e
  return devicePubkey

def apply (e : Event) : Checked LogState := do
  let devicePubkey ← checkEnvelope A K s e
  let authorized ← checkPayloadAuthz A s e
  let s' ← if authorized = .apply then applyPayloadEffect A K s e devicePubkey else pure s
  recordAccepted A K s' e

abbrev MachineRun (g : Genesis) (tr : List (Transition LogState Event)) (s : LogState) : Prop :=
  Execution (fun s e t => apply A K s e = .ok t) (fromGenesis K g) tr s

end Machine

variable {A B : Arithmetic} {K : Crypto} {g₀ : Genesis} {s t m : LogState} {e : Event}
  {key : PublicKey} {c n : ℕ} {g g' : MlsGroupRecord} {tr : List (Transition LogState Event)}

structure GroupCounted (n : ℕ) (g : MlsGroupRecord) : Prop where
  generation : g.generation ≤ n
  epoch : g.epoch ≤ n
  recorded : ∀ k record, g.commitsByEpoch.lookup k = some record → k ≤ n
  last : ∀ pk k, g.lastCommitEpochByAuthor.lookup pk = some k → k ≤ n

/-- The log position bounds the chains and the groups, and every invite its own uses. -/
structure Counted (s : LogState) : Prop where
  chains : ∀ leaf head, s.chains.lookup leaf = some head → head.seq ≤ s.logPos + 1
  groups : ∀ c g, s.mlsGroups.lookup c = some g → GroupCounted (s.logPos + 1) g
  invites : ∀ r inv, s.invites.lookup r = some inv → inv.useCount ≤ inv.maxUses

/-- The number of uses that an event grants to an invite is a word of 32 bits. -/
def Fits (e : Event) : Prop :=
  match e.core.payload with
  | .inviteCreated p => p.maxUses < 2 ^ 32
  | _ => True

instance (e : Event) : Decidable (Fits e) :=
  decidable_of_iff ((match e.core.payload with
    | .inviteCreated p => decide (p.maxUses < 2 ^ 32)
    | _ => true) = true) (by
      unfold Fits
      split
      · exact decide_eq_true_iff
      · exact iff_of_true rfl trivial)

def InvitesFit (s : LogState) : Prop :=
  ∀ r inv, s.invites.lookup r = some inv → inv.maxUses < 2 ^ 32

theorem GroupCounted.succ (h : GroupCounted n g) : GroupCounted (n + 1) g where
  generation := h.generation.trans n.le_succ
  epoch := h.epoch.trans n.le_succ
  recorded k record hk := (h.recorded k record hk).trans n.le_succ
  last pk k hk := (h.last pk k hk).trans n.le_succ

theorem groupCounted_new : GroupCounted (n + 1) .new := by
  constructor <;> simp [MlsGroupRecord.new]

theorem groupCounted_effect (heff : GroupEffect K s e c g g') (h : GroupCounted n g)
    (hn : 0 < n) : GroupCounted (n + 1) g' := by
  obtain ⟨hgeneration, hepoch, hrecorded, hlast⟩ := h
  cases heff with
  | commit p hp hcommit =>
    have hle : p.epoch ≤ n := hcommit.epoch ▸ hepoch
    refine ⟨hgeneration.trans n.le_succ, Nat.succ_le_succ hle, ?_, ?_⟩
    · exact FiniteMap.forall_lookup_insert (P := fun k _ => k ≤ n + 1)
        (fun k record hk => (hrecorded k record hk).trans n.le_succ) (Nat.succ_le_succ hle)
    · exact FiniteMap.forall_lookup_insert (P := fun _ k => k ≤ n + 1)
        (fun pk k hk => (hlast pk k hk).trans n.le_succ) (hle.trans n.le_succ)
  | reset p hp hreset =>
    have hnext : p.newGeneration ≤ n + 1 := hreset.generation ▸ Nat.succ_le_succ hgeneration
    refine ⟨hnext, Nat.succ_le_succ hn.le, ?_, ?_⟩ <;> simp [MlsGroupRecord.applyReset]
  | _ => exact GroupCounted.succ ⟨hgeneration, hepoch, hrecorded, hlast⟩

theorem invites_effect (heff : Effect K s e key m)
    (h : ∀ r inv, s.invites.lookup r = some inv → inv.useCount ≤ inv.maxUses) :
    ∀ r inv, m.invites.lookup r = some inv → inv.useCount ≤ inv.maxUses := by
  cases heff with
  | inviteCreated p => exact FiniteMap.forall_lookup_insert h (Nat.zero_le _)
  | memberJoined member invite inv hp hself hmember hpending hinv huses =>
    refine FiniteMap.forall_lookup_adjust h fun inv' hinv' => ?_
    obtain rfl := Option.some.inj (hinv.symm.trans hinv')
    exact huses
  | _ => exact h

theorem invitesFit_effect (heff : Effect K s e key m) (he : Fits e) (h : InvitesFit s) :
    InvitesFit m := by
  cases heff with
  | inviteCreated p hp => exact FiniteMap.forall_lookup_insert h (by simpa only [Fits, hp] using he)
  | memberJoined member invite => exact FiniteMap.forall_lookup_adjust h fun inv => h _ inv
  | _ => exact h

theorem checkChain_seq {head : ChainHead} (h : s.checkChain e = .ok ())
    (hhead : s.chains.lookup e.leaf = some head) : e.core.seq = head.seq + 1 := by
  simp only [LogState.checkChain, hhead, bind_eq_ok, ensure_eq_ok, exists_const] at h
  exact h.1

theorem logPos_step (h : Step K s e t) : t.logPos = s.logPos + 1 := by
  obtain ⟨key, m, -, heff, rfl⟩ := apply_cases h
  obtain ⟨-, hpos, -, -⟩ := heff.bookkeeping
  exact congrArg (· + 1) hpos

theorem counted_step {owner : PublicKey} (hinv : Invariant owner s) (h : Step K s e t)
    (hs : Counted s) : Counted t := by
  have hnext := logPos_step h
  obtain ⟨key, m, henv, heff, rfl⟩ := apply_cases h
  obtain ⟨hchains, -⟩ := heff.bookkeeping
  constructor
  · rw [hnext]
    have hold (leaf : Leaf) (head : ChainHead) (hhead : m.chains.lookup leaf = some head) :
        head.seq ≤ s.logPos + 1 + 1 :=
      (hs.chains leaf head (hchains ▸ hhead)).trans (Nat.le_succ _)
    refine FiniteMap.forall_lookup_insert hold ?_
    cases hhead : s.chains.lookup e.leaf with
    | none =>
      have hseq := henv.chain
      simp only [LogState.checkChain, hhead, bind_eq_ok, ensure_eq_ok, exists_const] at hseq
      exact hseq.1 ▸ Nat.zero_le _
    | some head =>
      rw [checkChain_seq henv.chain hhead]
      exact Nat.succ_le_succ (hs.chains e.leaf head hhead)
  · rw [hnext]
    intro c g' hg'
    cases hg : s.mlsGroups.lookup c with
    | none =>
      rw [heff.group_new hg' hg]
      exact groupCounted_new
    | some g =>
      obtain ⟨g'', hg'', hgroup⟩ := group_step hinv h hg
      obtain rfl := Option.some.inj (hg''.symm.trans hg')
      exact groupCounted_effect hgroup (hs.groups c g hg) (Nat.succ_pos _)
  · have hinvites := invites_effect heff hs.invites
    exact hinvites

theorem logPos_run (h : Run K g₀ tr s) : s.logPos = tr.length := by
  induction h with
  | nil => rfl
  | snoc _ hstep ih =>
    rw [logPos_step hstep, ih, List.length_append, List.length_singleton]

theorem counted_run (h : Run K g₀ tr s) : Counted s := by
  have hrun := h.invariant (I := fun s => Invariant g₀.owner s ∧ Counted s)
    ⟨invariant_genesis g₀, by constructor <;> simp [fromGenesis]⟩
    fun s e t hs hstep => ⟨step_preserves_invariant hs.1 hstep, counted_step hs.1 hstep hs.2⟩
  exact hrun.2

theorem invitesFit_run (h : Run K g₀ tr s) (hfits : ∀ x ∈ tr, Fits x.event) : InvitesFit s := by
  have hstart : InvitesFit (fromGenesis K g₀) := by simp [InvitesFit, fromGenesis]
  refine h.good_end hstart fun x hx => (h.kept hstart (fun x hx hstep hpre => ?_) x hx).2
  obtain ⟨key, m, -, heff, heq⟩ := apply_cases hstep
  have hfit := invitesFit_effect heff (hfits x hx) hpre
  rw [heq]
  exact hfit

/-! ## No sum overflows -/

theorem u64_bind {α : Type} {a b : ℕ} {f : ℕ → Checked α} (h : a + b < 2 ^ 64) :
    (A.u64 a b >>= f) = f (a + b) := by
  rw [A.u64_exact h]
  rfl

theorem checkChain_eq (hs : Counted s) (hpos : s.logPos < 2 ^ 64 - 8) :
    checkChain A s e = s.checkChain e := by
  unfold checkChain LogState.checkChain
  cases hhead : s.chains.lookup e.leaf with
  | none => rfl
  | some head =>
    have hseq := hs.chains e.leaf head hhead
    exact u64_bind (by omega)

theorem rateOk_spec {p : MlsCommit} (hg : GroupCounted (s.logPos + 1) g)
    (hpos : s.logPos < 2 ^ 64 - 8) : ∃ ok, rateOk A s e p g = .ok ok ∧
      (ok = true ↔ s.CommitDischargesDrift e ∨ g.CeilingDemandsRekey ∨
        ∀ last ∈ g.lastCommitEpochByAuthor.lookup e.core.author,
          last + g.commitRateGap ≤ p.epoch) := by
  have hgap : g.commitRateGap ≤ 4 := min_le_left _ _
  unfold rateOk
  split_ifs with hexempt
  · exact ⟨true, rfl, by simp [← or_assoc, hexempt]⟩
  · rw [not_or] at hexempt
    cases hlast : g.lastCommitEpochByAuthor.lookup e.core.author with
    | none => exact ⟨true, rfl, by simp⟩
    | some last =>
      have hle := hg.last e.core.author last hlast
      dsimp only
      rw [u64_bind (by omega)]
      exact ⟨_, rfl, by simp [hexempt]⟩

theorem ensure_congr {p q : Prop} [Decidable p] [Decidable q] (h : p ↔ q) (message : String) :
    ensure p message = ensure q message := by
  unfold ensure
  by_cases hp : p
  · rw [if_pos hp, if_pos (h.mp hp)]
  · rw [if_neg hp, if_neg fun hq => hp (h.mpr hq)]

theorem checkMlsCommit_eq {p : MlsCommit} (hs : Counted s) (hpos : s.logPos < 2 ^ 64 - 8) :
    checkMlsCommit A s e p = s.checkMlsCommit e p := by
  refine bind_eq_bind_iff.mpr fun group hgroup => bind_eq_bind_iff.mpr fun _ _ => ?_
  split_ifs
  · have hcounted := hs.groups _ _ (context_eq_ok.mp hgroup)
    obtain ⟨ok, hok, hiff⟩ := rateOk_spec (A := A) (e := e) (p := p) hcounted hpos
    simp only [checkCurrentCommit, LogState.checkCurrentCommit, hok, ← ensure_congr hiff]
    rfl
  · rfl

theorem checkMlsWelcome_eq {p : MlsWelcome} (hs : Counted s) (hpos : s.logPos < 2 ^ 64 - 8) :
    checkMlsWelcome A s e p = s.checkMlsWelcome e p := by
  refine bind_eq_bind_iff.mpr fun group hgroup => bind_eq_bind_iff.mpr fun _ _ => ?_
  have hgen := (hs.groups _ _ (context_eq_ok.mp hgroup)).generation
  have hscope : checkWelcomeScope A s e p group = s.checkWelcomeScope e p group := by
    unfold checkWelcomeScope LogState.checkWelcomeScope
    rw [u64_bind (by omega)]
  rw [hscope]

theorem checkMlsGroupReset_eq {p : MlsGroupReset} (hs : Counted s)
    (hpos : s.logPos < 2 ^ 64 - 8) :
    checkMlsGroupReset A s e p = s.checkMlsGroupReset e p := by
  refine bind_eq_bind_iff.mpr fun _ _ => bind_eq_bind_iff.mpr fun group hgroup => ?_
  have hgen := (hs.groups _ _ (context_eq_ok.mp hgroup)).generation
  exact u64_bind (by omega)

theorem checkPayloadAuthz_eq (hs : Counted s) (hpos : s.logPos < 2 ^ 64 - 8) :
    checkPayloadAuthz A s e = s.checkPayloadAuthz e := by
  unfold checkPayloadAuthz
  split
  · next p hp =>
    rw [checkMlsCommit_eq hs hpos, LogState.checkPayloadAuthz, hp]
  · next p hp =>
    rw [checkMlsWelcome_eq hs hpos, LogState.checkPayloadAuthz, hp]
  · next p hp =>
    rw [checkMlsGroupReset_eq hs hpos, LogState.checkPayloadAuthz, hp]
  · rfl

theorem joinMember_eq {member : PublicKey} {invite : EventRef} (hfit : InvitesFit s)
    (huses : ∀ inv, s.invites.lookup invite = some inv → inv.useCount < inv.maxUses) :
    joinMember A s member invite = .ok (s.joinMember member invite) := by
  have hinvites : useInvite A s invite = .ok (s.invites.adjust invite fun inv =>
      { inv with useCount := inv.useCount + 1 }) := by
    unfold useInvite FiniteMap.adjust
    cases hinv : s.invites.lookup invite with
    | none => rfl
    | some inv =>
      have hlt := huses inv hinv
      have hmax := hfit invite inv hinv
      dsimp only
      rw [A.u32_exact (by omega)]
      rfl
  unfold joinMember
  rw [hinvites]
  rfl

theorem applyCommit_eq {leaf : Leaf} {eventHash : EventHash} {p : MlsCommit}
    {void : Finset Leaf} (h : p.epoch + 1 < 2 ^ 64) :
    applyCommit A g leaf eventHash p void = .ok (g.applyCommit leaf eventHash p void) := by
  unfold applyCommit
  rw [u64_bind h, u64_bind h]
  rfl

theorem applyPayloadEffect_eq (hs : Counted s) (hfit : InvitesFit s)
    (hpos : s.logPos < 2 ^ 64 - 8) (hv : s.checkPayloadAuthz e = .ok .apply) :
    applyPayloadEffect A K s e key = s.applyPayloadEffect K e key := by
  unfold applyPayloadEffect
  split
  · next member invite hp =>
    simp only [LogState.checkPayloadAuthz, hp, bind_eq_ok, ensure_eq_ok, context_eq_ok,
      exists_const] at hv
    obtain ⟨-, -, -, inv, hinv, huses, -⟩ := hv
    rw [joinMember_eq hfit fun inv' hinv' => Option.some.inj (hinv.symm.trans hinv') ▸ huses,
      LogState.applyPayloadEffect, hp]
    rfl
  · next p hp =>
    simp only [LogState.checkPayloadAuthz, hp] at hv
    obtain ⟨group, hgroup, ⟨-, hcommit⟩ | ⟨hstale, -⟩⟩ := checkMlsCommit_eq_ok.mp hv
    · have hepoch := (hs.groups _ _ hgroup).epoch
      rw [← hcommit.epoch] at hepoch
      simp only [LogState.applyPayloadEffect, hp, updateGroup, applyCommit_eq (A := A)
        (p := p) (show p.epoch + 1 < 2 ^ 64 by omega)]
      rfl
    · cases hstale
  · rfl

theorem recordAccepted_eq (hpos : s.logPos < 2 ^ 64 - 8) :
    recordAccepted A K s e = .ok (s.recordAccepted K e) := by
  unfold recordAccepted
  rw [u64_bind (by omega)]
  rfl

theorem apply_eq (hs : Counted s) (hfit : InvitesFit s) (hpos : s.logPos < 2 ^ 64 - 8) :
    apply A K s e = s.apply K e := by
  have henvelope : checkEnvelope A K s e = s.checkEnvelope K e := by
    unfold checkEnvelope LogState.checkEnvelope
    rw [checkChain_eq hs hpos]
  unfold apply LogState.apply
  rw [henvelope, checkPayloadAuthz_eq hs hpos]
  refine bind_eq_bind_iff.mpr fun key _ => bind_eq_bind_iff.mpr fun v hv => ?_
  have hrecord (m : LogState) (hm : Effect K s e key m) :
      recordAccepted A K m e = .ok (m.recordAccepted K e) :=
    recordAccepted_eq (hm.bookkeeping.2.1.symm ▸ hpos)
  by_cases happly : v = .apply
  · simp only [happly, if_true]
    rw [applyPayloadEffect_eq hs hfit hpos (happly ▸ hv)]
    exact bind_eq_bind_iff.mpr fun m hm => hrecord m (effect_of_verdict hv (by rwa [if_pos happly]))
  · simp only [happly, if_false]
    exact hrecord s (effect_of_verdict hv (by rw [if_neg happly]; rfl))

theorem run_of_machineRun (h : MachineRun A K g₀ tr s) (hlength : tr.length < 2 ^ 64 - 8)
    (hfits : ∀ x ∈ tr, Fits x.event) : Run K g₀ tr s := by
  induction h with
  | nil => exact .nil _
  | @snoc t u e tr _ hstep ih =>
    rw [List.length_append, List.length_singleton] at hlength
    have hrun := ih (by omega) fun x hx => hfits x (List.mem_append_left _ hx)
    have hfit := invitesFit_run hrun fun x hx => hfits x (List.mem_append_left _ hx)
    have hpos := logPos_run hrun
    exact hrun.snoc ((apply_eq (counted_run hrun) hfit (by omega)).symm.trans hstep)

/-- No arithmetic in the fold wraps. In every run on machine words with fewer than 2^64 - 8
accepted events, whatever event is offered next, the fold gives what it gives on natural numbers:
so for every build, also for the one in which an overflow panics; for the log position bounds
every chain's number and every group's generation, epoch and recorded epochs, and an invite's
uses are bounded by the invite. -/
theorem no_overflow (h : MachineRun A K g₀ tr s) (hlength : tr.length < 2 ^ 64 - 8)
    (hfits : ∀ x ∈ tr, Fits x.event) :
    Run K g₀ tr s ∧ Counted s ∧ s.logPos = tr.length ∧
      ∀ B e, apply B K s e = s.apply K e ∧ ¬Panics (apply B K s e) := by
  have hrun := run_of_machineRun h hlength hfits
  have hpos := logPos_run hrun
  refine ⟨hrun, counted_run hrun, hpos, fun B e => ?_⟩
  have heq : apply B K s e = s.apply K e :=
    apply_eq (counted_run hrun) (invitesFit_run hrun hfits) (by omega)
  rw [heq]
  exact ⟨rfl, ChannelSeparation.not_panics_apply (reachable_invariant ⟨tr, hrun⟩).channels⟩

open SampleLog

def machineState (entries : List Entry) : LogState :=
  Execution.stateAfter (fun s e => apply .panicking crypto s e) (fromGenesis crypto genesis)
    (signed entries)

theorem no_overflow_twoMembers :
    Counted (machineState twoMembers) ∧ (machineState twoMembers).logPos = 8 ∧
      ∀ B e, apply B crypto (machineState twoMembers) e = (machineState twoMembers).apply crypto e ∧
        ¬Panics (apply B crypto (machineState twoMembers) e) := by
  have hfits : ∀ e ∈ signed twoMembers, Fits e := by decide +kernel
  have hrun : MachineRun .panicking crypto genesis _ (machineState twoMembers) :=
    Execution.of_transitions (signed twoMembers)
  obtain ⟨-, hcounted, hpos, happly⟩ := no_overflow hrun (by decide +kernel)
    fun x hx => hfits x.event (Execution.event_mem_of_transitions hx)
  exact ⟨hcounted, hpos.trans (by decide +kernel), happly⟩

end Counters
