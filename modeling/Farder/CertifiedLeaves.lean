import Farder.Client.Commits
import Farder.Client.SampleMls
import Farder.Support.Execution

/-! # Certified leaves

Commits of others are processed one after the other, each with certificates of its own. A commit
is merged before the leaves that it adds are looked at, so a leaf without a certificate is in the
group when it is found. The leaves that a commit replaces are not looked at. -/
namespace CertifiedLeaves

open EventLog Client

variable {M : OpenMls} {K : Crypto}

variable (K) in
/-- There is a certificate for just the member that the leaf claims to be, and it binds the leaf. -/
def bound (certs : CertResolver) (node : LeafNode) : Bool :=
  match node.credential with
  | none => false
  | some member =>
    match certs member.1 member.2 with
    | none => false
    | some cert => (verifyLeafBinding K node cert).isOk

/-- A group, with the resolvers that have been given so far. -/
structure Watch (M : OpenMls) where
  group : MlsChannelGroup M
  served : List CertResolver

structure Call where
  commitBytes : List UInt8
  declared : DeclaredCommit
  certs : CertResolver

variable (K) in
def result (w : Watch M) (c : Call) : Except E2eeError IncomingCommitOutcome :=
  (processIncomingCommit K w.group c.commitBytes c.declared c.certs).1

variable (K) in
def process (w : Watch M) (c : Call) : Watch M :=
  ⟨(processIncomingCommit K w.group c.commitBytes c.declared c.certs).2, c.certs :: w.served⟩

variable (K) in
def CertifiedBy (served : List CertResolver) (node : LeafNode) : Prop :=
  ∃ certs ∈ served, bound K certs node = true

variable (K) in
def Certified (w : Watch M) : Prop :=
  ∀ x ∈ M.members w.group.inner, CertifiedBy K w.served x.2

def Unchanged (g g' : MlsChannelGroup M) : Prop :=
  g'.epoch = g.epoch ∧ g'.treeHash = g.treeHash ∧ M.members g'.inner = M.members g.inner

abbrev Processed (M : OpenMls) := Transition (Watch M) Call

def isApplied : Except E2eeError IncomingCommitOutcome → Bool
  | .ok (.applied _ _) => true
  | _ => false

variable (K) in
/-- All leaves are certified, and nothing has changed but by a commit that is applied. -/
def Upholds (x : Processed M) : Prop :=
  Certified K x.post ∧
    (isApplied (result K x.pre x.event) = false → Unchanged x.pre.group x.post.group)

variable (K) in
def Poisoned (x : Processed M) : Prop :=
  ∃ member reason, result K x.pre x.event = .ok (.leafBindingFailure member reason)

variable (K) in
/-- A commit with a leaf that is not certified is merged, and the leaf is named. -/
def Sound (x : Processed M) : Prop :=
  match result K x.pre x.event with
  | .ok (.leafBindingFailure member _) => x.post.group.epoch = x.pre.group.epoch + 1 ∧
      ∃ leaf ∈ M.members x.post.group.inner, leaf.2.credential = some member ∧
        bound K x.event.certs leaf.2 = false
  | .ok (.applied _ _) => Certified K x.post
  | _ => Certified K x.post ∧ Unchanged x.pre.group x.post.group

/-- What OpenMLS does with the commits of others. `replaced` are the leaves that the Update
proposals and the path of a commit bring. -/
structure CommitLaws (M : OpenMls) (replaced : M.Staged → List LeafNode) : Prop where
  epoch_processMessage : ∀ g bytes, M.epoch (M.processMessage g bytes).2 = M.epoch g
  members_processMessage : ∀ g bytes, M.members (M.processMessage g bytes).2 = M.members g
  stagedEpoch : ∀ g bytes staged, (M.processMessage g bytes).1 = some (.commit staged) →
    M.stagedEpoch staged = M.epoch g + 1
  epoch_merge : ∀ g staged g', M.merge g staged = some g' → M.epoch g' = M.stagedEpoch staged
  members_merge : ∀ g bytes staged g', (M.processMessage g bytes).1 = some (.commit staged) →
    M.merge (M.processMessage g bytes).2 staged = some g' → ∀ x ∈ M.members g',
      x ∈ M.members g ∨ x.2 ∈ M.stagedAdds staged ∨ x.2 ∈ replaced staged
  adds_merge : ∀ g bytes staged g', (M.processMessage g bytes).1 = some (.commit staged) →
    M.merge (M.processMessage g bytes).2 staged = some g' → ∀ node ∈ M.stagedAdds staged,
      ∃ x ∈ M.members g', x.2 = node

/-- The leaves that a commit brings in the place of others. -/
def broughtIn (replaced : M.Staged → List LeafNode) (g : MlsChannelGroup M)
    (commitBytes : List UInt8) : List LeafNode :=
  match (M.processMessage g.inner commitBytes).1 with
  | some (.commit staged) => replaced staged
  | _ => []

variable (K) in
/-- An applied commit replaces leaves only by certified ones. -/
def Honest (replaced : M.Staged → List LeafNode) (x : Processed M) : Prop :=
  isApplied (result K x.pre x.event) = true →
    ∀ node ∈ broughtIn replaced x.pre.group x.event.commitBytes, CertifiedBy K x.post.served node

theorem CertifiedBy.cons {served : List CertResolver} {certs : CertResolver} {node : LeafNode}
    (h : CertifiedBy K served node) : CertifiedBy K (certs :: served) node := by
  obtain ⟨certs', hmem, hbound⟩ := h
  exact ⟨certs', List.mem_cons_of_mem _ hmem, hbound⟩

theorem actualLeaf_ok {node : LeafNode} {leaf : ActualLeaf} (h : actualLeaf node = .ok leaf) :
    leaf.node = node ∧ node.credential = some leaf.member := by
  unfold actualLeaf at h
  split at h
  · next member hmember =>
    obtain rfl := Except.ok.inj h
    exact ⟨rfl, hmember⟩
  · simp at h

theorem mapM_actualLeaf {nodes : List LeafNode} {leaves : List ActualLeaf}
    (h : nodes.mapM actualLeaf = .ok leaves) :
    leaves.map ActualLeaf.node = nodes ∧
      ∀ leaf ∈ leaves, leaf.node.credential = some leaf.member := by
  induction nodes generalizing leaves with
  | nil =>
    obtain rfl : [] = leaves := by simpa [pure, Except.pure] using h
    simp
  | cons node nodes ih =>
    rw [List.mapM_cons] at h
    cases hleaf : actualLeaf node with
    | error e => simp [hleaf, bind, Except.bind] at h
    | ok leaf =>
      cases hrest : nodes.mapM actualLeaf with
      | error e => simp [hleaf, hrest, bind, Except.bind] at h
      | ok rest =>
        obtain rfl : leaf :: rest = leaves := by
          simpa [hleaf, hrest, bind, Except.bind, pure, Except.pure] using h
        obtain ⟨rfl, hcredential⟩ := actualLeaf_ok hleaf
        obtain ⟨rfl, hall⟩ := ih hrest
        exact ⟨rfl, List.forall_mem_cons.mpr ⟨hcredential, hall⟩⟩

theorem bound_iff {certs : CertResolver} {leaf : ActualLeaf}
    (h : leaf.node.credential = some leaf.member) :
    bound K certs leaf.node = true ↔ ∃ cert, certs leaf.member.1 leaf.member.2 = some cert ∧
      verifyLeafBinding K leaf.node cert = .ok () := by
  unfold bound
  rw [h]
  rcases hcert : certs leaf.member.1 leaf.member.2 with _ | cert
  · simp [hcert]
  · rcases hbinding : verifyLeafBinding K leaf.node cert with e | _
    · simp [hcert, hbinding, Except.isOk, Except.toBool]
    · simp [hcert, hbinding, Except.isOk, Except.toBool]

theorem unboundLeaf_none {certs : CertResolver} {leaves : List ActualLeaf}
    (hleaves : ∀ leaf ∈ leaves, leaf.node.credential = some leaf.member)
    (h : unboundLeaf K certs leaves = none) :
    ∀ leaf ∈ leaves, bound K certs leaf.node = true := by
  induction leaves with
  | nil => simp
  | cons leaf leaves ih =>
    rw [List.forall_mem_cons] at hleaves ⊢
    unfold unboundLeaf at h
    split at h
    · simp at h
    · next cert hcert =>
      split at h
      · simp at h
      · next hbinding =>
        exact ⟨(bound_iff hleaves.1).mpr ⟨cert, hcert, hbinding⟩, ih hleaves.2 h⟩

theorem unboundLeaf_some {certs : CertResolver} {leaves : List ActualLeaf} {member : Leaf}
    {reason : String} (hleaves : ∀ leaf ∈ leaves, leaf.node.credential = some leaf.member)
    (h : unboundLeaf K certs leaves = some (member, reason)) :
    ∃ leaf ∈ leaves, leaf.member = member ∧ bound K certs leaf.node = false := by
  induction leaves with
  | nil => simp [unboundLeaf] at h
  | cons leaf leaves ih =>
    rw [List.forall_mem_cons] at hleaves
    have hunbound (hnot : ¬∃ cert, certs leaf.member.1 leaf.member.2 = some cert ∧
        verifyLeafBinding K leaf.node cert = .ok ()) : bound K certs leaf.node = false := by
      rw [← Bool.not_eq_true, bound_iff hleaves.1]
      exact hnot
    unfold unboundLeaf at h
    split at h
    · next hcert =>
      obtain ⟨rfl, -⟩ := Prod.mk.inj (Option.some.inj h)
      exact ⟨leaf, List.mem_cons_self, rfl, hunbound (by simp [hcert])⟩
    · next cert hcert =>
      split at h
      · next e hbinding =>
        obtain ⟨rfl, -⟩ := Prod.mk.inj (Option.some.inj h)
        exact ⟨leaf, List.mem_cons_self, rfl, hunbound (by simp [hcert, hbinding])⟩
      · obtain ⟨leaf', hmem, hfound⟩ := ih hleaves.2 h
        exact ⟨leaf', List.mem_cons_of_mem _ hmem, hfound⟩

theorem stagedCommitSummary_adds {g : MlsChannelGroup M} {staged : M.Staged}
    {summary : ProcessedCommit} (h : g.stagedCommitSummary staged = .ok summary) :
    (M.stagedAdds staged).mapM actualLeaf = .ok summary.actualAdds := by
  unfold MlsChannelGroup.stagedCommitSummary at h
  cases hadds : (M.stagedAdds staged).mapM actualLeaf with
  | error e => simp [hadds, bind, Except.bind] at h
  | ok adds =>
    cases hremoves : (M.stagedRemoves staged).mapM g.removedMember with
    | error e => simp [hadds, hremoves, bind, Except.bind] at h
    | ok removes =>
      simp only [hadds, hremoves, bind, Except.bind] at h
      split_ifs at h
      obtain rfl := Except.ok.inj h
      rfl

/-- A commit that is processed has been merged; otherwise only the state of the decryption may have
changed. -/
theorem processCommitChecked_cases (g : MlsChannelGroup M) (commitBytes : List UInt8)
    (adds removes : List Leaf) (hash : Digest) :
    let processed := g.processCommitChecked commitBytes adds removes hash
    (∃ e, processed = (.error e,
      { g with inner := (M.processMessage g.inner commitBytes).2 })) ∨
    ∃ staged summary inner,
      (M.processMessage g.inner commitBytes).1 = some (.commit staged) ∧
      (M.stagedAdds staged).mapM actualLeaf = .ok summary.actualAdds ∧
      M.merge (M.processMessage g.inner commitBytes).2 staged = some inner ∧
      processed = (.ok summary, ⟨inner, summary.postTreeHash⟩) := by
  simp only [MlsChannelGroup.processCommitChecked, MlsChannelGroup.stageCommit]
  rcases hmessage : (M.processMessage g.inner commitBytes).1 with _ | staged | bytes | _
  · exact .inl ⟨_, rfl⟩
  · simp only
    rcases hsummary : MlsChannelGroup.stagedCommitSummary
      { g with inner := (M.processMessage g.inner commitBytes).2 } staged with e | summary
    · exact .inl ⟨_, rfl⟩
    simp only [Except.map]
    rcases verifyDeclaredMatchesActual summary adds removes hash with e | _
    · exact .inl ⟨_, rfl⟩
    simp only [MlsChannelGroup.mergeStaged]
    rcases hmerge : M.merge (M.processMessage g.inner commitBytes).2 staged with _ | inner
    · exact .inl ⟨_, rfl⟩
    · exact .inr ⟨staged, summary, inner, rfl, stagedCommitSummary_adds hsummary, hmerge, rfl⟩
  · exact .inl ⟨_, rfl⟩
  · exact .inl ⟨_, rfl⟩

variable {replaced : M.Staged → List LeafNode} {w : Watch M} {c : Call}

/-- Processing stops before the merge, or merges and then looks at the added leaves. -/
theorem process_cases (hM : CommitLaws M replaced) :
    ((isApplied (result K w c) = false ∧
        ∀ member reason, result K w c ≠ .ok (.leafBindingFailure member reason)) ∧
      Unchanged w.group (process K w c).group) ∨
    ∃ staged adds inner,
      (M.processMessage w.group.inner c.commitBytes).1 = some (.commit staged) ∧
      (M.stagedAdds staged).mapM actualLeaf = .ok adds ∧
      M.merge (M.processMessage w.group.inner c.commitBytes).2 staged = some inner ∧
      (process K w c).group.inner = inner ∧
      match unboundLeaf K c.certs adds with
      | some (member, reason) => result K w c = .ok (.leafBindingFailure member reason)
      | none => isApplied (result K w c) = true := by
  by_cases hepoch : c.declared.epoch = w.group.epoch
  · rcases processCommitChecked_cases w.group c.commitBytes
      (c.declared.adds.map DeclaredAdd.leaf) (c.declared.removes.map DeclaredRemove.leaf)
      c.declared.postTreeHash with
      ⟨e, hprocessed⟩ | ⟨staged, summary, inner, hmessage, hadds, hmerge, hprocessed⟩
    · left
      simp only [result, process, processIncomingCommit, hepoch, ne_eq, not_true_eq_false,
        ↓reduceIte, hprocessed]
      refine ⟨⟨rfl, fun _ _ h => by cases h⟩, hM.epoch_processMessage _ _, rfl, hM.members_processMessage _ _⟩
    · right
      refine ⟨staged, summary.actualAdds, inner, hmessage, hadds, hmerge, ?_, ?_⟩
      · simp only [process, processIncomingCommit, hepoch, ne_eq, not_true_eq_false, ↓reduceIte,
          hprocessed]
        split <;> rfl
      · simp only [result, processIncomingCommit, hepoch, ne_eq, not_true_eq_false, ↓reduceIte,
          hprocessed]
        rcases unboundLeaf K c.certs summary.actualAdds with _ | ⟨member, reason⟩ <;> rfl
  · left
    simp only [result, process, processIncomingCommit, ne_eq, hepoch, not_false_eq_true, ↓reduceIte]
    exact ⟨⟨rfl, fun _ _ h => by cases h⟩, rfl, rfl, rfl⟩

theorem isApplied_iff {r : Except E2eeError IncomingCommitOutcome} :
    isApplied r = true ↔ ∃ epoch hash, r = .ok (.applied epoch hash) := by
  unfold isApplied
  split <;> simp_all

theorem process_sound (hM : CommitLaws M replaced) (hw : Certified K w)
    (hhonest : Honest K replaced ⟨w, c, process K w c⟩) : Sound K ⟨w, c, process K w c⟩ := by
  rcases process_cases (K := K) (w := w) (c := c) hM with
    ⟨⟨hnot, hclean⟩, hunchanged⟩ | ⟨staged, adds, inner, hmessage, hadds, hmerge, hinner, hgate⟩
  · have hcertified : Certified K (process K w c) := by
      intro x hx
      rw [hunchanged.2.2] at hx
      exact (hw x hx).cons
    unfold Sound
    split
    · next member reason hresult => exact absurd hresult (hclean member reason)
    · next hresult => simp [hresult, isApplied] at hnot
    · exact ⟨hcertified, hunchanged⟩
  · obtain ⟨hnodes, hcredentials⟩ := mapM_actualLeaf hadds
    rcases hunbound : unboundLeaf K c.certs adds with _ | ⟨member, reason⟩
    · simp only [hunbound] at hgate
      have hbound := unboundLeaf_none hcredentials hunbound
      have hbrought := hhonest hgate
      simp only [broughtIn, hmessage] at hbrought
      have hcertified : Certified K (process K w c) := by
        intro x hx
        rw [hinner] at hx
        rcases hM.members_merge _ _ _ _ hmessage hmerge x hx with hold | hadded | hreplaced
        · exact (hw x hold).cons
        · rw [← hnodes] at hadded
          obtain ⟨leaf, hleaf, hnode⟩ := List.mem_map.mp hadded
          exact ⟨c.certs, List.mem_cons_self, hnode ▸ hbound leaf hleaf⟩
        · exact hbrought x.2 hreplaced
      obtain ⟨epoch, hash, happlied⟩ := isApplied_iff.mp hgate
      simpa [Sound, happlied] using hcertified
    · simp only [hunbound] at hgate
      obtain ⟨leaf, hleaf, rfl, hnot⟩ := unboundLeaf_some hcredentials hunbound
      obtain ⟨x, hx, hnode⟩ := hM.adds_merge _ _ _ _ hmessage hmerge leaf.node
        (hnodes ▸ List.mem_map_of_mem hleaf)
      simp only [Sound, hgate]
      refine ⟨?_, x, by rw [hinner]; exact hx, ?_, hnode ▸ hnot⟩
      · show M.epoch (process K w c).group.inner = _
        rw [hinner, hM.epoch_merge _ _ _ hmerge, hM.stagedEpoch _ _ _ hmessage]
        rfl
      · rw [hnode]
        exact hcredentials leaf hleaf

theorem Sound.certified {x : Processed M} (h : Sound K x) (hclean : ¬Poisoned K x) :
    Certified K x.post := by
  unfold Sound at h
  split at h
  · next member reason hresult => exact absurd ⟨member, reason, hresult⟩ hclean
  · exact h
  · exact h.1

/-! ## Calls that have found nothing unbound -/

/-- As long as no call has found an unbound leaf, and no applied commit has replaced a leaf by one
that is not certified, all leaves are certified and only applied commits change the group. A call
that finds an unbound leaf has merged it. -/
theorem certified_until_poisoned (hM : CommitLaws M replaced) {start : Watch M} {calls : List Call}
    (hstart : Certified K start) {before after : List (Processed M)} {x : Processed M}
    (hpath : Execution.path (process K) start calls = before ++ x :: after)
    (hclean : ∀ y ∈ before, ¬Poisoned K y) (hhonest : ∀ y ∈ before ++ [x], Honest K replaced y) :
    Sound K x := by
  have hrun := Execution.of_path (process K) (s := start) calls
  rw [hpath] at hrun
  obtain ⟨hbefore, hstep, -⟩ := hrun.split_at
  have hpre : Certified K x.pre := by
    have hkept := hbefore.kept hstart fun y hy hpost hcertified => by
      obtain ⟨pre, c, post⟩ := y
      obtain rfl : process K pre c = post := hpost
      have hsound := process_sound hM hcertified (hhonest _ (List.mem_append_left _ hy))
      exact hsound.certified (hclean _ hy)
    exact hbefore.good_end hstart fun y hy => (hkept y hy).2
  obtain ⟨pre, c, post⟩ := x
  obtain rfl : process K pre c = post := hstep
  exact process_sound hM hpre (hhonest _ (List.mem_append_right _ (List.mem_singleton_self _)))

section Sample

open SampleLog SampleMls

theorem read_commit {g : Group} {bytes : List UInt8} {staged : SampleMls.Staged}
    (h : g.read bytes = some (.commit staged)) :
    (∃ adds, staged = g.withAdds adds) ∨ (∃ removes, staged = g.without removes) ∨
      ∃ index node, staged = g.withLeaf index node := by
  unfold Group.read at h
  split at h
  · split_ifs at h
    · unfold Group.openSealed at h
      split at h
      · split_ifs at h
        simp at h
      · simp at h
    · exact .inl ⟨_, (Content.commit.inj (Option.some.inj h)).symm⟩
    · exact .inr (.inl ⟨_, (Content.commit.inj (Option.some.inj h)).symm⟩)
    · split at h
      · obtain ⟨node, -, hnode⟩ := Option.map_eq_some_iff.mp h
        exact .inr (.inr ⟨_, node, (Content.commit.inj hnode).symm⟩)
      · simp at h
  · simp at h

theorem commitLaws_mls : CommitLaws mls SampleMls.Staged.replaced where
  epoch_processMessage _ _ := rfl
  members_processMessage _ _ := rfl
  stagedEpoch g bytes staged h := by
    rcases read_commit h with ⟨adds, rfl⟩ | ⟨removes, rfl⟩ | ⟨index, node, rfl⟩ <;> rfl
  epoch_merge := by
    rintro g staged _ ⟨⟩
    rfl
  members_merge := by
    rintro g bytes staged _ h ⟨⟩ x hx
    rcases read_commit h with ⟨adds, rfl⟩ | ⟨removes, rfl⟩ | ⟨index, node, rfl⟩
    · rcases List.mem_append.mp hx with hold | hnew
      · exact .inl hold
      · obtain ⟨i, hi, rfl⟩ := List.mem_mapIdx.mp hnew
        exact .inr (.inl (List.getElem_mem hi))
    · exact .inl (List.mem_filter.mp hx).1
    · obtain ⟨y, hy, rfl⟩ := List.mem_map.mp hx
      split_ifs
      · exact .inr (.inr (List.mem_singleton_self node))
      · exact .inl hy
  adds_merge := by
    rintro g bytes staged _ h ⟨⟩ node hnode
    rcases read_commit h with ⟨adds, rfl⟩ | ⟨removes, rfl⟩ | ⟨index, node', rfl⟩
    · obtain ⟨i, hi, rfl⟩ := List.getElem_of_mem hnode
      exact ⟨(g.members.length + i, adds[i]),
        List.mem_append_right _ (List.mem_mapIdx.mpr ⟨i, hi, rfl⟩), rfl⟩
    · simp [mls, Group.without, Group.stage] at hnode
    · simp [mls, Group.withLeaf, Group.stage] at hnode

/-- The certificates of the sample's devices, but for Alice's second one. -/
def certs : CertResolver := fun identity dev =>
  if identity = key alice ∧ dev = device a0 then
    some (DeviceCert.createInner crypto alice (key a0) 0 none)
  else if identity = key bob ∧ dev = device b0 then
    some (DeviceCert.createInner crypto bob (key b0) 0 none)
  else none

def alone : Watch mls := ⟨⟨⟨"", 0, 0, [(0, leafOf alice a0)]⟩, digest 0⟩, [certs]⟩

def addBob : Call := ⟨[0, 0, 1], ⟨0, [⟨key bob, device b0, ""⟩], [], digest 1⟩, certs⟩
def bobRenews : Call := ⟨[1, 1, 1, 1], ⟨1, [], [], digest 2⟩, certs⟩

/-- Bob's commit brings a leaf with another key in the place of his own. -/
def bobTurns : Call := ⟨[1, 1, 1, 2], ⟨1, [], [], digest 2⟩, certs⟩

def addUnknown : Call := ⟨[0, 0, 2], ⟨0, [⟨key alice, device a1, ""⟩], [], digest 1⟩, certs⟩

def certifiedNode (served : List CertResolver) (node : LeafNode) : Bool :=
  served.any fun certs => bound crypto certs node

theorem certifiedBy_iff {served : List CertResolver} {node : LeafNode} :
    CertifiedBy crypto served node ↔ certifiedNode served node = true := by
  simp [CertifiedBy, certifiedNode]

def certifiedWatch (w : Watch mls) : Bool :=
  (mls.members w.group.inner).all fun x => certifiedNode w.served x.2

theorem certified_iff {w : Watch mls} : Certified crypto w ↔ certifiedWatch w = true := by
  simp only [Certified, certifiedBy_iff, certifiedWatch, List.all_eq_true]

theorem certified_alone : Certified crypto alone := certified_iff.mpr (by decide +kernel)

def honestCall (w : Watch mls) (c : Call) : Bool :=
  (broughtIn SampleMls.Staged.replaced w.group c.commitBytes).all
    (certifiedNode (process crypto w c).served)

theorem honest_of_call {w : Watch mls} {c : Call} (h : honestCall w c = true) :
    Honest crypto SampleMls.Staged.replaced ⟨w, c, process crypto w c⟩ := fun _ node hnode =>
  certifiedBy_iff.mpr (List.all_eq_true.mp h node hnode)

theorem not_poisoned {x : Processed mls} (h : isApplied (result crypto x.pre x.event) = true) :
    ¬Poisoned crypto x := by
  rintro ⟨member, reason, hresult⟩
  simp [hresult, isApplied] at h

theorem certified_until_poisoned_sample :
    Sound crypto ⟨process crypto alone addBob, bobRenews,
      process crypto (process crypto alone addBob) bobRenews⟩ :=
  certified_until_poisoned commitLaws_mls certified_alone
    (show Execution.path (process crypto) alone [addBob, bobRenews] =
      [⟨alone, addBob, process crypto alone addBob⟩] ++ ⟨process crypto alone addBob, bobRenews,
        process crypto (process crypto alone addBob) bobRenews⟩ :: [] from rfl)
    (List.forall_mem_singleton.mpr (not_poisoned (by decide +kernel)))
    (List.forall_mem_cons.mpr ⟨honest_of_call (by decide +kernel),
      List.forall_mem_singleton.mpr (honest_of_call (by decide +kernel))⟩)

/-- A leaf without a certificate is merged, and the group is in the next epoch; and a member's own
commit puts a leaf without a certificate in the place of a certified one. -/
theorem certified_not_upheld :
    Certified crypto alone ∧
      (∃ x ∈ Execution.path (process crypto) alone [addUnknown], ¬Upholds crypto x) ∧
      ∃ x ∈ Execution.path (process crypto) alone [addBob, bobTurns], ¬Upholds crypto x := by
  refine ⟨certified_alone, ⟨_, List.mem_cons_self, ?_⟩,
    ⟨_, List.mem_cons_of_mem _ List.mem_cons_self, ?_⟩⟩
  · intro h
    have hunchanged := h.2 (by decide +kernel)
    exact absurd hunchanged.1 (by decide +kernel)
  · intro h
    have hcertified := certified_iff.mp h.1
    exact absurd hcertified (by decide +kernel)

end Sample
end CertifiedLeaves
