import Farder.Client.SampleMls
import Farder.Client.Sealed
import Farder.Client.Transcript
import Farder.SealedContent

/-! # Sealed authorship

Sealed words come with an author, a generation and an epoch, which the log has checked. Whoever
opens them does not compare these with the leaf that made the ciphertext. A member can therefore
submit the ciphertext of another one under its own name. -/
namespace SealedAuthorship

open EventLog EventLog.LogState Effects Client

variable {M : OpenMls} {K : Crypto} {C : EnvelopeCodec} {actor : Actor}

/-- Where a ciphertext comes from. -/
structure Origin where
  groupId : String
  epoch : ℕ
  member : Leaf
  deriving DecidableEq, Repr

structure Sealing where
  origin : Origin
  padded : List UInt8
  deriving DecidableEq, Repr

/-- What OpenMLS promises of ciphertexts: what opens has been sealed by a leaf as it is read, and
what a leaf seals comes from it, in its group and epoch. -/
structure SealingLaws (M : OpenMls) (madeBy : List UInt8 → Option Sealing)
    (ownLeaf : M.Group → Option LeafNode) : Prop where
  opened : ∀ g bytes padded, (M.processMessage g bytes).1 = some (.application padded) →
    ∃ origin, madeBy bytes = some ⟨origin, padded⟩
  created : ∀ g padded message ciphertext node member,
    (M.createMessage g padded).1 = some message → M.toBytes message = some ciphertext →
    ownLeaf g = some node → node.credential = some member →
    madeBy ciphertext = some ⟨⟨M.groupId g, M.epoch g, member⟩, padded⟩

structure SealedWords where
  channelId : ℕ
  generation : ℕ
  epoch : ℕ
  ciphertext : List UInt8

def sealedWords (e : Event) : Option SealedWords :=
  match e.core.payload with
  | .messagePostedE2ee p => some ⟨p.channelId, p.generation, p.epoch, p.ciphertext⟩
  | .messageEditedE2ee p => some ⟨p.channelId, p.generation, p.epoch, p.ciphertext⟩
  | _ => none

/-- What the event says about the origin of its words. -/
def claimedOrigin (e : Event) (words : SealedWords) : Origin :=
  ⟨channelGroupId e.core.serverId words.channelId words.generation, words.epoch, e.leaf⟩

variable (C) in
/-- Some client, with these files, opens the ciphertext and shows the envelope. -/
def Opens (serverId : ServerId) (words : SealedWords) (files : Files M)
    (envelope : MessageEnvelope) : Prop :=
  ∃ unlocked, (decryptSealedMessage C unlocked serverId words.channelId words.ciphertext files).1 =
    .ok (.decrypted envelope)

variable (C) in
/-- The envelope is what the author's leaf has sealed, in the generation and the epoch that the log
holds for the channel, with the leaf confirmed. -/
def Authored (madeBy : List UInt8 → Option Sealing) (x : Transition LogState Event)
    (words : SealedWords) (envelope : MessageEnvelope) : Prop :=
  (∃ padded, madeBy words.ciphertext = some ⟨claimedOrigin x.event words, padded⟩ ∧
    (unpad padded).toOption.bind C.decode = some envelope) ∧
  x.event.leaf ∈ x.pre.leavesConfirmed words.channelId ∧
    ∃ group, x.pre.mlsGroups.lookup words.channelId = some group ∧
      words.generation = group.generation ∧ words.epoch = group.epoch

/-- The event is built on a device that holds this group: of the channel in the generation that the
event cites, with the author's leaf as its own, and in the epoch that it cites. The device seals
some bytes for the group and puts the ciphertext into the event. -/
structure BuiltOn (ownLeaf : M.Group → Option LeafNode) (e : Event) (words : SealedWords)
    (g : MlsChannelGroup M) : Prop where
  group : M.groupId g.inner = channelGroupId e.core.serverId words.channelId words.generation
  own : ∃ node, ownLeaf g.inner = some node ∧ node.credential = some e.leaf
  epoch : words.epoch = g.epoch
  sealed : ∃ padded message, (M.createMessage g.inner padded).1 = some message ∧
    M.toBytes message = some words.ciphertext

def BuiltByAuthor (ownLeaf : M.Group → Option LeafNode) (e : Event) : Prop :=
  ∀ words, sealedWords e = some words → ∃ g, BuiltOn ownLeaf e words g

variable {madeBy : List UInt8 → Option Sealing} {ownLeaf : M.Group → Option LeafNode}

/-- What is opened was an application message, and it is shown as it was read. -/
theorem openMessage_ok {g : MlsChannelGroup M} {bytes : List UInt8} {envelope : MessageEnvelope}
    (h : (g.openMessage C bytes).1 = .ok envelope) :
    ∃ padded, (M.processMessage g.inner bytes).1 = some (.application padded) ∧
      (unpad padded).toOption.bind C.decode = some envelope := by
  rcases hmessage : (M.processMessage g.inner bytes).1 with _ | staged | padded | _
  · simp [MlsChannelGroup.openMessage, hmessage] at h
  · simp [MlsChannelGroup.openMessage, hmessage] at h
  · refine ⟨padded, rfl, ?_⟩
    simp only [MlsChannelGroup.openMessage, hmessage] at h
    rcases hunpadded : unpad padded with e | encoded
    · simp [hunpadded, Except.bind] at h
    · rcases hdecoded : C.decode encoded with _ | shown
      · simp [hunpadded, Except.bind, hdecoded, contextOf] at h
      · simpa [hunpadded, Except.bind, hdecoded, contextOf, Except.toOption] using h
  · simp [MlsChannelGroup.openMessage, hmessage] at h

theorem receiveSealed_decrypted {g : MlsChannelGroup M} {bytes : List UInt8}
    {envelope : MessageEnvelope} (h : (receiveSealed C g bytes).1 = .decrypted envelope) :
    (g.openMessage C bytes).1 = .ok envelope := by
  rcases hopened : (g.openMessage C bytes).1 with reason | envelope'
  · simp [receiveSealed, hopened] at h
  · simp only [receiveSealed, hopened] at h
    rw [SealedOutcome.decrypted.inj h]

theorem decryptSealedMessage_decrypted {unlocked : Bool} {serverId : ServerId} {channelId : ℕ}
    {ciphertext : List UInt8} {files : Files M} {envelope : MessageEnvelope}
    (h : (decryptSealedMessage C unlocked serverId channelId ciphertext files).1 =
      .ok (.decrypted envelope)) :
    ∃ g : MlsChannelGroup M, (receiveSealed C g ciphertext).1 = .decrypted envelope := by
  unfold decryptSealedMessage at h
  split_ifs at h
  · simp at h
  rcases hstore : files.resumeStore channelId with e | store
  · simp [hstore] at h
  simp only [hstore] at h
  rcases hpoisoned : (files.loadMlsState channelId store.instanceHash).poisoned with _ | reason
  · simp only [hpoisoned] at h
    rcases hgroup : store.loadGroup (channelGroupId serverId channelId
      (files.loadMlsState channelId store.instanceHash).generation) with e | _ | g
    · simp [hgroup] at h
    · simp [hgroup] at h
    · simp only [hgroup] at h
      exact ⟨g, Except.ok.inj h⟩
  · simp [hpoisoned] at h

theorem madeBy_of_opens (hM : SealingLaws M madeBy ownLeaf) {serverId : ServerId}
    {words : SealedWords} {files : Files M} {envelope : MessageEnvelope}
    (h : Opens C serverId words files envelope) :
    ∃ origin padded, madeBy words.ciphertext = some ⟨origin, padded⟩ ∧
      (unpad padded).toOption.bind C.decode = some envelope := by
  obtain ⟨unlocked, hdecrypted⟩ := h
  obtain ⟨g, hreceived⟩ := decryptSealedMessage_decrypted hdecrypted
  obtain ⟨padded, hmessage, hshown⟩ := openMessage_ok (receiveSealed_decrypted hreceived)
  obtain ⟨origin, hmade⟩ := hM.opened _ _ _ hmessage
  exact ⟨origin, padded, hmade, hshown⟩

theorem sealMessage_ok {g g' : MlsChannelGroup M} {envelope : MessageEnvelope}
    {ciphertext : List UInt8} (h : g.sealMessage C envelope = (.ok ciphertext, g')) :
    ∃ padded message, (M.createMessage g.inner padded).1 = some message ∧
      M.toBytes message = some ciphertext := by
  unfold MlsChannelGroup.sealMessage at h
  split at h
  · simp at h
  · next padded hpadded =>
    have hbytes := (Prod.mk.inj h).1
    unfold contextOf at hbytes
    split at hbytes
    · next bytes hsome =>
      obtain rfl := Except.ok.inj hbytes
      obtain ⟨message, hmessage, htoBytes⟩ := Option.bind_eq_some_iff.mp hsome
      exact ⟨padded, message, hmessage, htoBytes⟩
    · simp at hbytes

variable (K) (actor) in
/-- The group is that of the channel in its generation, and the actor's leaf is its own. -/
def Seated (ownLeaf : M.Group → Option LeafNode) (ctx : SealContext) (g : MlsChannelGroup M) :
    Prop :=
  M.groupId g.inner =
      channelGroupId ctx.key.logServerId ctx.key.channelId ctx.generation ∧
    ∃ node, ownLeaf g.inner = some node ∧ node.credential = some (actor.leaf K)

variable {σ : Type} {T : Transport σ} {ctx : SealContext}

def BuiltLog (ownLeaf : M.Group → Option LeafNode) (s : Session M (σ × Log)) : Prop :=
  ∀ x ∈ s.world.2, BuiltByAuthor ownLeaf x.1

theorem submitNext_builtLog {e : Event} (he : BuiltByAuthor ownLeaf e) :
    Triple (fun s : Session M (σ × Log) => s.world.2 = []) (submitNext K T.recording e)
      fun _ => BuiltLog ownLeaf := by
  intro s hs
  have hlog (answer : Answer) : ∀ x ∈ s.world.2 ++ [(e, answer)], BuiltByAuthor ownLeaf x.1 := by
    simpa [hs] using he
  cases hanswer : (T.submitEvent e s.world.1).1 with
  | ok accepted =>
    simp only [submitNext, submit, advance, Transport.recording, Prog.run_bind, hanswer,
      Prog.run_modify, Prog.run_pure]
    exact hlog _
  | error err =>
    simp only [submitNext, submit, Transport.recording, Prog.run_bind, hanswer, Prog.run_fail]
    exact hlog _

theorem submitLast_builtLog {α : Type} {e : Event} {f : EventAccepted → α}
    (he : BuiltByAuthor ownLeaf e) :
    Triple (fun s : Session M (σ × Log) => s.world.2 = [])
      (submitNext K T.recording e >>= fun accepted => pure (f accepted))
      fun _ => BuiltLog ownLeaf :=
  (submitNext_builtLog he).bind (fun _ => Triple.pure fun _ h => h) fun _ _ h => h

theorem builtLog_of_nil {s : Session M (σ × Log)} (h : s.world.2 = []) : BuiltLog ownLeaf s := by
  simp [BuiltLog, h]

theorem onGroup_sealMessage {g : MlsChannelGroup M} :
    Triple (fun s : Session M (σ × Log) => (s.world.2 = [] ∧ Seated K actor ownLeaf ctx s.group) ∧
        s.group = g)
      (onGroup (·.sealMessage C ctx.envelope) "seal message")
      fun r s => (s.world.2 = [] ∧ Seated K actor ownLeaf ctx g) ∧
        ∀ ciphertext, r = .ok ciphertext → ∃ padded message,
          (M.createMessage g.inner padded).1 = some message ∧
            M.toBytes message = some ciphertext := by
  rintro s ⟨⟨hlog, hseated⟩, rfl⟩
  refine ⟨⟨hlog, hseated⟩, fun ciphertext hok => ?_⟩
  rcases hdone : s.group.sealMessage C ctx.envelope with ⟨e | ciphertext', g'⟩
  · simp [onGroup, hdone, Except.mapError] at hok
  · obtain rfl : ciphertext' = ciphertext := by simpa [onGroup, hdone, Except.mapError] using hok
    exact sealMessage_ok hdone

theorem sendSealed_builtLog {confirmed : Bool} :
    Triple (fun s : Session M (σ × Log) => s.world.2 = [] ∧ Seated K actor ownLeaf ctx s.group)
      (sendSealed C K T.recording actor ctx confirmed) fun _ => BuiltLog ownLeaf := by
  have hnil (s : Session M (σ × Log))
      (h : s.world.2 = [] ∧ Seated K actor ownLeaf ctx s.group) : BuiltLog ownLeaf s :=
    builtLog_of_nil h.1
  unfold sendSealed
  split_ifs
  · exact Triple.fail hnil
  have hhead : Keeps (fun s : Session M (σ × Log) => s.world.2 = [] ∧
      Seated K actor ownLeaf ctx s.group)
      (authzHead "sealed send needs a prior event to attest its folded head") :=
    Keeps.get.bind fun _ => Keeps.ofOption _ _
  refine (Triple.of_keeps hhead).bind (fun head => ?_) fun _ => hnil
  refine (Triple.of_keeps (Keeps.ofOption _ _)).bind (fun encoded => ?_) fun _ => hnil
  refine (Triple.of_keeps (Keeps.ofExcept _)).bind (fun _ => ?_) fun _ => hnil
  refine Triple.get_bind fun s => ?_
  refine Triple.bind ((onGroup_sealMessage (g := s.group)).pre
    fun t ht => ⟨ht.1, by rw [ht.2]⟩) (fun ciphertext => ?_) fun _ _ h => builtLog_of_nil h.1.1
  split_ifs
  · exact Triple.fail fun _ h => builtLog_of_nil h.1.1
  refine nextEvent_bind fun t => ?_
  intro u hu
  obtain ⟨hlog, hgroup, hown⟩ := hu.1.1
  refine submitLast_builtLog ?_ u hlog
  intro words hwords
  obtain rfl := Option.some.inj hwords
  exact ⟨s.group, hgroup, hown, rfl, hu.1.2 ciphertext rfl⟩

/-! ## Words and their authors -/

/-- What the author's device has built comes from the author's leaf, at the time that it says. -/
theorem madeBy_of_built (hM : SealingLaws M madeBy ownLeaf) {e : Event} {words : SealedWords}
    (hbuilt : BuiltByAuthor ownLeaf e) (hwords : sealedWords e = some words) :
    (madeBy words.ciphertext).map Sealing.origin = some (claimedOrigin e words) := by
  obtain ⟨g, hgroup, ⟨node, hnode, hmember⟩, hepoch, padded, message, hmessage, hbytes⟩ :=
    hbuilt words hwords
  rw [hM.created _ _ _ _ _ _ hmessage hbytes hnode hmember, hgroup, claimedOrigin, hepoch]
  rfl

/-- The fold's own part: the author's leaf is confirmed, and what the event cites is current. -/
theorem gates_of_words {x : Transition LogState Event} {words : SealedWords}
    (h : x.pre.apply K x.event = .ok x.post) (hwords : sealedWords x.event = some words) :
    x.event.leaf ∈ x.pre.leavesConfirmed words.channelId ∧
      ∃ group, x.pre.mlsGroups.lookup words.channelId = some group ∧
        words.generation = group.generation ∧ words.epoch = group.epoch := by
  have hsealed : x.event.sealedAs words.channelId = some (words.generation, words.epoch) := by
    unfold sealedWords at hwords
    unfold Event.sealedAs
    split at hwords
    · next p hp =>
      obtain rfl := Option.some.inj hwords
      simp [hp]
    · next p hp =>
      obtain rfl := Option.some.inj hwords
      simp [hp]
    · simp at hwords
  exact (SealedContent.gates_of_sealed h hsealed).2

section Sample

open SampleLog SampleMls

def sampleSealing (bytes : List UInt8) : Option Sealing :=
  match bytes with
  | kind :: epoch :: group :: leaf :: padded =>
    if kind = 4 then do
      let groupId ← groupIds[group.toNat]?
      let node ← roster[leaf.toNat]?
      let member ← node.credential
      return ⟨⟨groupId, epoch.toNat, member⟩, padded⟩
    else none
  | _ => none

theorem getElem_idxOf_mod {α : Type} [DecidableEq α] {l : List α} {a : α} (h : a ∈ l)
    (hl : l.length < 256) : l[l.idxOf a % 256]? = some a := by
  have hlt := List.idxOf_lt_length_of_mem h
  rw [Nat.mod_eq_of_lt (by omega)]
  simp [List.getElem?_eq_getElem hlt]

theorem sealingLaws_mls : SealingLaws mls sampleSealing Group.ownLeaf where
  opened := by
    intro g bytes padded h
    have hcredential : ∀ node ∈ roster, node.credential.isSome := by decide
    change g.read bytes = _ at h
    unfold Group.read at h
    split at h
    · next kind epoch rest =>
      split_ifs at h with hkind
      · unfold Group.openSealed at h
        split at h
        · next group leaf plain =>
          split_ifs at h with hopen
          obtain ⟨node, hnode⟩ := Option.isSome_iff_exists.mp hopen.2.1
          obtain ⟨member, hmember⟩ := Option.isSome_iff_exists.mp
            (hcredential node (List.mem_of_getElem? hnode))
          obtain rfl : plain = padded := Content.application.inj (Option.some.inj h)
          simp [sampleSealing, hkind, hopen.1, hnode, hmember]
        · cases h
      · cases h
      · cases h
      · split at h
        · obtain ⟨node, -, hcommit⟩ := Option.map_eq_some_iff.mp h
          cases hcommit
        · cases h
    · cases h
  created := by
    intro g padded message ciphertext node member hmessage hbytes hnode hmember
    obtain rfl : message = ciphertext := Option.some.inj hbytes
    change g.sealedMessage padded = _ at hmessage
    simp only [Group.sealedMessage, hnode] at hmessage
    split_ifs at hmessage with hsealed
    obtain ⟨hid, hroster, hepoch⟩ := hsealed
    obtain rfl := Option.some.inj hmessage
    have hgroup := getElem_idxOf_mod hid (by decide)
    have hleaf := getElem_idxOf_mod hroster (by decide)
    simp [sampleSealing, Group.message, code, hgroup, hleaf, hmember, Nat.mod_eq_of_lt hepoch, mls]

def greeting : MessageEnvelope := ⟨"hi", [], [], []⟩

def codec : EnvelopeCodec where
  encode envelope := if envelope = greeting then some [1] else none
  decode bytes := if bytes = [1] then some greeting else none

/-- The group in epoch 2: Alice's device, Bob's, and Alice's second one. -/
def threeLeaves (own : ℕ) : MlsChannelGroup mls :=
  ⟨⟨"1/7/generation-0", 2, own,
    [(0, leafOf alice a0), (1, leafOf bob b0), (2, leafOf alice a1)]⟩, digest 2⟩

def aliceWords : List UInt8 := ((threeLeaves 0).sealMessage codec greeting).1.toOption.getD []

def posted (author dev : Keypair) : Entry :=
  ⟨author, dev, 4, .messagePostedE2ee ⟨7, 0, 2, aliceWords, none, [], ""⟩⟩

def threeMembers : List Entry :=
  twoMembers ++
  [⟨alice, a1, 3, cert alice a1 none⟩,
   ⟨alice, a1, 3, .mlsKeyPackagePublished ⟨[], 0, 100⟩⟩,
   ⟨alice, a0, 3, commit 0 1 [⟨key alice, device a1, ref alice a1 1⟩] []⟩]

def secondDevice : Files mls :=
  { deviceState := none
    mlsStates := Finmap.singleton 7 (.fresh 0 2 0 true)
    stores := Finmap.singleton 7
      ⟨0, [], Finmap.singleton "1/7/generation-0" (threeLeaves 2).inner⟩
    instanceHashes := Finmap.singleton 7 0 }

def words : SealedWords := ⟨7, 0, 2, aliceWords⟩

/-- A log in which Alice's words are posted by one of the members. -/
def logWith (author dev : Keypair) : List Event := signed (threeMembers ++ [posted author dev])

def postOf (author dev : Keypair) : Event := nextEvent (signed threeMembers) (posted author dev)

theorem opens_words : Opens codec (genesis.serverId crypto) words secondDevice greeting :=
  ⟨true, by decide +kernel⟩

theorem accepted_post (author dev : Keypair)
    (h : (accepted crypto genesis (logWith author dev)).map Transition.event =
      logWith author dev) :
    ∃ x ∈ accepted crypto genesis (logWith author dev), x.event = postOf author dev := by
  have hmem : postOf author dev ∈ logWith author dev := by
    simp [logWith, signed, List.foldl_append, postOf]
  rw [← h] at hmem
  obtain ⟨x, hx, hevent⟩ := List.mem_map.mp hmem
  exact ⟨x, hx, hevent⟩

def acceptAll : Transport Unit where
  now _ := 4
  submitEvent _ w := (.ok ⟨"posted", 4⟩, w)
  fetchMlsControl _ _ w := (.ok ⟨[], 0, false⟩, w)
  fetchKeyPackages _ w := (.ok [], w)
  fetchDeviceCerts _ w := (.ok [], w)

def aliceContext : SealContext := ⟨⟨"1", 7⟩, 0, "hi", none, []⟩

def aliceSession : Session mls (Unit × Log) := ⟨⟨9, some "head", 8⟩, threeLeaves 0, (), []⟩

def aliceSends : Session mls (Unit × Log) :=
  (sendSealed codec crypto acceptAll.recording ⟨a0, alice, "1"⟩ aliceContext true aliceSession).2

theorem built_post : BuiltByAuthor (M := mls) Group.ownLeaf (postOf alice a0) := by
  intro other hother
  obtain rfl : words = other := Option.some.inj hother
  let padded := (MlsChannelGroup.paddedBody codec greeting).toOption.getD []
  have hmessage : Group.sealedMessage (threeLeaves 0).inner padded = some aliceWords := by
    decide +kernel
  exact ⟨threeLeaves 0, by decide +kernel, ⟨leafOf alice a0, by decide +kernel, by decide +kernel⟩,
    by decide +kernel, padded, aliceWords, hmessage, rfl⟩

end Sample
end SealedAuthorship
