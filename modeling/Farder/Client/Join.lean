import Farder.Client.Commits
import Farder.Client.Desk

/-! # A device on its way to a group

Before a device has joined a group it has its chain, its files and the transport. Each command on
sealed channels starts from the file of the chain, and authorizes the device if it has not been. -/
namespace Client

open EventLog Effects

structure Device (M : OpenMls) (σ : Type) where
  chain : ChainState
  ds : DeviceState
  files : Files M
  world : σ

/-- What a device does with no group in hand. -/
abbrev Errand (M : OpenMls) (σ ε α : Type) := Prog (Device M σ) ε α

variable {M : OpenMls} {σ ε α : Type}

/-- The errors of the client as the app tells them. -/
def described (x : Errand M σ E2eeError α) : Errand M σ String α := fun d =>
  let done := x d
  (done.1.mapError E2eeError.describe, done.2)

def fetching (fetch : σ → Except TransportError α × σ) : Errand M σ E2eeError α := fun d =>
  let answer := fetch d.world
  (answer.1.mapError .transport, { d with world := answer.2 })

/-- Run a function of the client that looks at a group. -/
def withGroup (g : MlsChannelGroup M) (x : Action M σ α) : Errand M σ E2eeError α := fun d =>
  let done := x ⟨d.chain, g, d.world⟩
  (done.1, { d with chain := done.2.chain, world := done.2.world })

variable (K : Crypto) (T : Transport σ) (actor : Actor)

/-- The next event of the device's chain. -/
def authored (serverId : ServerId) (payload : EventPayload) : Errand M σ ε Event := fun d =>
  (.ok (buildNextEvent K actor serverId d.chain (T.now d.world) payload), d)

/-- Submit an event, and go on with the chain if it is accepted. -/
def deliver (e : Event) : Errand M σ E2eeError EventAccepted := fun d =>
  let answer := T.submitEvent e d.world
  match answer.1 with
  | .ok accepted =>
    (.ok accepted, { d with chain := ChainState.advance K e, world := answer.2 })
  | .error err => (.error (.transport err), { d with world := answer.2 })

variable (writes : σ → Bool × σ)

/-- Write to the disk, if it can be written. -/
def put (f : Files M → Files M) : Errand M σ String Unit := fun d =>
  let written := writes d.world
  if written.1 then (.ok (), { d with files := f d.files, world := written.2 })
  else (.error "write", { d with world := written.2 })

def putChain (authorized : Bool) : Errand M σ String Unit := do
  let d ← Prog.get
  let ds := { d.ds with
    nextSeq := d.chain.nextSeq
    lastEventHash := d.chain.lastEventHash
    lamport := d.chain.lamport
    authorized }
  Prog.modify fun d => { d with ds }
  put writes fun files => { files with deviceState := some ds }

def putMlsState (channelId : ℕ) (state : MlsChannelState) : Errand M σ String Unit :=
  put writes fun files => { files with mlsStates := files.mlsStates.insert channelId state }

def DeviceState.fresh : DeviceState := ⟨0, none, 0, false, false⟩

def DeviceState.chain (ds : DeviceState) : ChainState := ⟨ds.nextSeq, ds.lastEventHash, ds.lamport⟩

def authorizeDeviceIfNeeded (serverId : ServerId) : Errand M σ String Unit := do
  if (← Prog.get).ds.authorized then return ()
  else
    let now := T.now (← Prog.get).world
    let event ← authored K T actor serverId
      (.deviceAuthorized (DeviceCert.createInner K actor.identity (K.publicKey actor.device) now none))
    let _ ← described (deliver K T event)
    putChain writes true

/-- The files and the transport, between the commands. -/
structure Place (M : OpenMls) (σ : Type) where
  files : Files M
  world : σ

/-- Run the body of a command, on the chain as it is in its file. -/
def runE2ee (serverId : ServerId) (body : Errand M σ String α) (p : Place M σ) :
    Except String α × Place M σ :=
  let ds := p.files.deviceState.getD .fresh
  let done := (authorizeDeviceIfNeeded K T actor writes serverId >>= fun _ => body)
    ⟨ds.chain, ds, p.files, p.world⟩
  (done.1, ⟨done.2.files, done.2.world⟩)

end Client

/-! ## Joining a group

A device publishes a KeyPackage, whose private half stays in the store of the channel. With the
Welcome it joins the group in this store, and then confirms its leaf in the log. -/
namespace Client

open EventLog Effects

variable {M : OpenMls} {σ : Type} (K : Crypto) (T : Transport σ) (writes : σ → Bool × σ)
  (actor : Actor)

def keyPackageLifetimeLogPositions : ℕ := 2 ^ 40

structure KeyPackageOutcome where
  eventHash : EventHash
  keyPackage : List UInt8
  expiresAtLogPos : ℕ
  deriving DecidableEq, Repr

/-- A new KeyPackage of the device; the private half goes to the store. -/
def generateKeyPackage (channelId : ℕ) (store : ChannelStore M) :
    Errand M σ E2eeError (List UInt8) := do
  match M.generateKeyPackage store.keys (credentialWithKey K actor) with
  | none => Prog.fail (.mls "generate key package")
  | some (keyPackage, keys) =>
    Prog.modify fun d => { d with files := d.files.putStore channelId { store with keys } }
    return keyPackage

def publishKeyPackage (key : ChannelKey) (store : ChannelStore M) :
    Errand M σ E2eeError KeyPackageOutcome := do
  let keyPackage ← generateKeyPackage K actor key.channelId store
  let expiresAtLogPos := (← Prog.get).chain.nextSeq + 1 + keyPackageLifetimeLogPositions
  let event ← authored K T actor key.logServerId
    (.mlsKeyPackagePublished ⟨keyPackage, store.instanceHash, expiresAtLogPos⟩)
  let accepted ← deliver K T event
  return ⟨accepted.eventHash, keyPackage, expiresAtLogPos⟩

/-- A new store, with the hash of the id that has been drawn for it; the hash is written beside. -/
def createJoinerStore (channelId : ℕ) (instanceHash : Digest) :
    Errand M σ String (ChannelStore M) := do
  let store : ChannelStore M := ⟨instanceHash, M.noKeys, ∅⟩
  put writes fun files => files.putStore channelId store
  put writes fun files =>
    { files with instanceHashes := files.instanceHashes.insert channelId instanceHash }
  return store

/-- Create the store if there is none, publish a KeyPackage from it, and start the file of the
channel anew. -/
def publishOwnKeyPackage (key : ChannelKey) (instanceHash : Digest) :
    Errand M σ String EventHash := do
  let files := (← Prog.get).files
  let store ← match files.stores.lookup key.channelId with
    | some _ => Prog.ofExcept ((files.resumeStore key.channelId).mapError E2eeError.describe)
    | none => createJoinerStore writes key.channelId instanceHash
  let published ← described (publishKeyPackage K T actor key store)
  putChain writes (← Prog.get).ds.authorized
  putMlsState writes key.channelId (.fresh 0 0 store.instanceHash false)
  return published.eventHash

def ChannelStore.joinFromWelcome (store : ChannelStore M) (welcome : List UInt8) :
    Except String (MlsChannelGroup M × JoinInfo) × ChannelStore M :=
  match M.stageWelcome store.keys welcome with
  | none => (.error "stage welcome", store)
  | some staged =>
    let store := { store with keys := staged.keys }
    match staged.group with
    | none => (.error "welcome into group", store)
    | some inner => (.ok (⟨inner, staged.treeHash⟩, ⟨staged.epoch, staged.treeHash⟩),
        { store with groups := store.groups.insert (M.groupId inner) inner })

def joinChannel (channelId : ℕ) (welcome : List UInt8) :
    Errand M σ E2eeError (MlsChannelGroup M × JoinInfo) := do
  let store ← Prog.ofOption ((← Prog.get).files.stores.lookup channelId) (.mls "join channel")
  let joined := store.joinFromWelcome welcome
  Prog.modify fun d => { d with files := d.files.putStore channelId joined.2 }
  Prog.ofExcept (joined.1.mapError fun _ => .mls "join channel from welcome")

structure LeafConfirmation where
  eventHash : EventHash
  epoch : ℕ
  deriving DecidableEq, Repr

def confirmLeaf (key : ChannelKey) (storeInstanceHash : Digest) (pending : MlsWelcome)
    (info : JoinInfo) : Errand M σ E2eeError LeafConfirmation := do
  if key.channelId ≠ pending.channelId then
    Prog.fail (.chain (s!"confirming channel {key.channelId} but the Welcome is for channel " ++
      s!"{pending.channelId}"))
  else
    let event ← authored K T actor key.logServerId (.mlsLeafConfirmed
      ⟨key.channelId, pending.generation, info.epoch, info.treeHash, storeInstanceHash⟩)
    let accepted ← deliver K T event
    return ⟨accepted.eventHash, info.epoch⟩

/-! ## The control events of a channel -/

def decodeControl (events : List (Option Event)) : Except E2eeError (List Event) :=
  events.mapM fun event =>
    match event with
    | some e => .ok e
    | none => .error (.transport (.transport "decode mls control event"))

theorem mapM_arrived {α : Type} {f : Event → α} {g : Option Event → Except E2eeError α}
    (h : ∀ e, g (some e) = .ok (f e)) (events : List Event) :
    (events.map some).mapM g = .ok (events.map f) := by
  rw [List.mapM_map, show g ∘ some = fun e => .ok (f e) from funext h]
  exact List.mapM_pure

theorem decodeControl_some (events : List Event) : decodeControl (events.map some) = .ok events :=
  (mapM_arrived (f := id) (fun _ => rfl) events).trans (by rw [List.map_id])

/-- All pages from the cursor on, but not more of them than this. -/
def fetchMlsControlExhaustive (channelId : ℕ) :
    (pages cursor : ℕ) → Errand M σ E2eeError (List Event × ℕ)
  | 0, _ => Prog.fail (.transport (.transport "there are more pages"))
  | pages + 1, cursor => do
    let page ← fetching (T.fetchMlsControl channelId cursor)
    let events ← Prog.ofExcept (decodeControl page.events)
    if page.more = false then return (events, page.nextAcceptSeq)
    else if page.nextAcceptSeq ≤ cursor then
      Prog.fail (.transport (.transport
        "fetch_mls_control returned more=true without advancing the cursor"))
    else
      let rest ← fetchMlsControlExhaustive channelId pages page.nextAcceptSeq
      return (events ++ rest.1, rest.2)

section Pages

variable {S α : Type} (fetch : ℕ → Prog S E2eeError MlsControl)
  (decode : List (Option Event) → Except E2eeError (List α)) (stalled : String)

/-- Ask for pages as long as there are more, each from where the last one has ended; what they hold,
and where the last one ends. -/
def followPages : (pages cursor : ℕ) → Prog S E2eeError (List α × ℕ)
  | 0, _ => Prog.fail (.transport (.transport "there are more pages"))
  | pages + 1, cursor => do
    let page ← fetch cursor
    let found ← Prog.ofExcept (decode page.events)
    if page.more = false then return (found, page.nextAcceptSeq)
    else if page.nextAcceptSeq ≤ cursor then Prog.fail (.transport (.transport stalled))
    else
      let rest ← followPages pages page.nextAcceptSeq
      return (found ++ rest.1, rest.2)

end Pages

theorem fetchMlsControlExhaustive_eq (channelId pages cursor : ℕ) :
    (fetchMlsControlExhaustive T channelId pages cursor : Errand M σ E2eeError _) =
      followPages (fun since => fetching (T.fetchMlsControl channelId since)) decodeControl
        "fetch_mls_control returned more=true without advancing the cursor" pages cursor := by
  induction pages generalizing cursor with
  | zero => rfl
  | succ pages ih =>
    rw [fetchMlsControlExhaustive, followPages]
    simp only [ih]

structure PendingWelcome where
  channelId : ℕ
  generation : ℕ
  welcome : List UInt8
  deriving DecidableEq, Repr

def matchPendingWelcome (e : Event) : Option PendingWelcome :=
  match e.core.payload with
  | .mlsWelcome p =>
    if (p.forMember, p.forDevice) ≠ actor.leaf K then none
    else some ⟨p.channelId, p.generation, p.welcome⟩
  | _ => none

def decodeWelcomes (events : List (Option Event)) : Except E2eeError (List PendingWelcome) := do
  let found ← events.mapM fun event =>
    match event with
    | some e => .ok (matchPendingWelcome K actor e)
    | none => .error (.transport (.transport "decode welcome event bytes"))
  return found.filterMap id

theorem decodeWelcomes_some (events : List Event) :
    decodeWelcomes K actor (events.map some) =
      .ok (events.filterMap (matchPendingWelcome K actor)) := by
  rw [decodeWelcomes, mapM_arrived (f := matchPendingWelcome K actor) (fun _ => rfl)]
  simp [bind, Except.bind, pure, Except.pure, List.filterMap_map]

/-- The server narrows the Welcomes to the member, and to a channel if there is one. -/
def fetchPendingWelcomes (fetchWelcomes : Option ℕ → ℕ → σ → Except TransportError MlsControl × σ)
    (channelId : Option ℕ) (pages sinceAcceptSeq : ℕ) :
    Errand M σ E2eeError (List PendingWelcome) := do
  let found ← followPages (fun since => fetching (fetchWelcomes channelId since))
    (decodeWelcomes K actor) "fetch_welcomes returned more=true without advancing the cursor"
    pages sinceAcceptSeq
  return found.1

/-! ## Processing the control events -/

/-- Where the processing of the control events has got to. -/
structure Progress (M : OpenMls) where
  group : Option (MlsChannelGroup M)
  mls : MlsChannelState
  processed : ℕ

structure ProcessResult where
  outcome : String
  reason : Option String
  processed : ℕ
  epoch : ℕ
  generation : ℕ
  confirmed : Bool
  cursor : ℕ
  leavesGained : List Leaf
  leavesLost : List Leaf
  deriving DecidableEq, Repr

/-- After an event: the progress, or the result if that is the end. -/
abbrev Stepped (M : OpenMls) := Progress M ⊕ ProcessResult

/-- A group with a leaf that is not what it claims to be is not used any more. -/
def poison (channelId nextCursor : ℕ) (reason : String) (pr : Progress M) :
    Errand M σ String (Stepped M) := do
  let mls := { pr.mls with poisoned := some reason, cursor := nextCursor }
  putMlsState writes channelId mls
  return .inr ⟨"equivocation", some reason, pr.processed, mls.epoch, mls.generation, mls.confirmed,
    nextCursor, [], []⟩

def takeCommit (channelId nextCursor : ℕ) (p : MlsCommit) (pr : Progress M) :
    Errand M σ String (Stepped M) := do
  match pr.group with
  | none => return .inl pr
  | some g =>
    let certs ← described (withGroup g (buildCertResolver K T (p.adds.map DeclaredAdd.leaf)))
    let processed := processIncomingCommit K g p.mlsMessage
      ⟨p.epoch, p.adds, p.removes, p.postTreeHash⟩ certs
    let group := processed.2
    Prog.modify fun d => { d with
      files := d.files.putGroup channelId (M.groupId group.inner) group.inner }
    match processed.1 with
    | .error e => Prog.fail e.describe
    | .ok (.applied epoch _) =>
      let mls := { pr.mls with epoch }
      putMlsState writes channelId mls
      return .inl ⟨some group, mls, pr.processed + 1⟩
    | .ok (.outOfOrder current received) =>
      if received < current then return .inl { pr with group := some group }
      else Prog.fail (s!"commit at epoch {received} arrived out of order — a gap blocks " ++
        "advancing the group")
    | .ok (.leafBindingFailure member reason) =>
      poison writes channelId nextCursor
        s!"impostor leaf for {member.1.text} / {member.2}: {reason}" pr

def takeWelcome (key : ChannelKey) (storeInstanceHash : Digest) (p : MlsWelcome) (pr : Progress M) :
    Errand M σ String (Stepped M) := do
  if (p.forMember, p.forDevice) ≠ actor.leaf K then return .inl pr
  else match pr.group with
    | some _ => return .inl pr
    | none =>
      let (group, info) ← described (joinChannel key.channelId p.welcome)
      let confirmation ← described (confirmLeaf K T actor key storeInstanceHash p info)
      putChain writes (← Prog.get).ds.authorized
      let mls := { pr.mls with
        epoch := confirmation.epoch, generation := p.generation, confirmed := true }
      putMlsState writes key.channelId mls
      return .inl ⟨some group, mls, pr.processed + 1⟩

def takeControl (key : ChannelKey) (storeInstanceHash : Digest) (nextCursor : ℕ) (e : Event)
    (pr : Progress M) : Errand M σ String (Stepped M) :=
  match e.core.payload with
  | .mlsCommit p => takeCommit K T writes key.channelId nextCursor p pr
  | .mlsWelcome p => takeWelcome K T writes actor key storeInstanceHash p pr
  | _ => return .inl pr

def takeAll (key : ChannelKey) (storeInstanceHash : Digest) (nextCursor : ℕ) :
    List Event → Progress M → Errand M σ String (Stepped M)
  | [], pr => return .inl pr
  | e :: events, pr => do
    match ← takeControl K T writes actor key storeInstanceHash nextCursor e pr with
    | .inl pr => takeAll key storeInstanceHash nextCursor events pr
    | .inr result => return .inr result

/-- The leaves of the tree; none if it cannot be read. -/
def leafSnapshot (group : Option (MlsChannelGroup M)) : List Leaf :=
  ((group.map fun g => g.members.toOption.getD []).getD [])

/-- Save how far the processing has come, and say what it has changed. -/
def finishProcess (channelId nextCursor : ℕ) (before : List Leaf) (pr : Progress M) :
    Errand M σ String ProcessResult := do
  let mls := { pr.mls with cursor := nextCursor }
  putMlsState writes channelId mls
  let after := leafSnapshot pr.group
  return ⟨"advanced", none, pr.processed, mls.epoch, mls.generation, mls.confirmed, nextCursor,
    after.filter (· ∉ before), before.filter (· ∉ after)⟩

/-- Follow the control events of a channel from the cursor in its file. Without a store there is
nothing to do. -/
def processMlsControlEvents (key : ChannelKey) (pages : ℕ) : Errand M σ String ProcessResult := do
  let files := (← Prog.get).files
  match files.stores.lookup key.channelId with
  | none => return ⟨"advanced", none, 0, 0, 0, false, 0, [], []⟩
  | some _ =>
    let store ← Prog.ofExcept ((files.resumeStore key.channelId).mapError E2eeError.describe)
    let mls := files.loadMlsState key.channelId store.instanceHash
    match mls.poisoned with
    | some reason => return ⟨"equivocation", some reason, 0, mls.epoch, mls.generation,
        mls.confirmed, mls.cursor, [], []⟩
    | none =>
      let group ← Prog.ofExcept (store.loadGroup
        (channelGroupId key.logServerId key.channelId mls.generation))
      let (events, nextCursor) ← described
        (fetchMlsControlExhaustive T key.channelId pages mls.cursor)
      match ← takeAll K T writes actor key store.instanceHash nextCursor events ⟨group, mls, 0⟩ with
      | .inl pr => finishProcess writes key.channelId nextCursor (leafSnapshot group) pr
      | .inr result => return result

end Client
