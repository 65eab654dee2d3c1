import Farder.Client.Join
import Farder.Client.SampleMls
import Farder.Client.Wire

/-! # A join and its interruptions

To join is to keep the group, to confirm the leaf in the log and to write two files. A device that
keeps the group and has not confirmed its leaf takes itself for joined. -/
namespace JoinSurvives

open EventLog Effects Client

variable {M : OpenMls} {K : Crypto} {actor : Actor} {key : ChannelKey} {g : Genesis}

/-- What a command is going to meet. -/
structure Tape where
  happenings : List Happening
  reads : List Bool
  writes : List Bool

/-- Nothing fails and nothing else happens. -/
def Tape.calm : Tape := ⟨[], [], []⟩

def Tape.on (tape : Tape) (w : Wire) : Wire :=
  { w with
    submitted := [], happenings := tape.happenings, reads := tape.reads, writes := tape.writes }

/-- What can happen to a device: events of others, or of its own other commands, which keep the file
of the chain; and the two commands, which may be cut off anywhere. -/
inductive Move where
  | others (now : ℕ) (events : List Event) (ds : Option DeviceState)
  | publish (tape : Tape) (instanceHash : Digest)
  | process (tape : Tape) (pages : ℕ)

variable (K) (actor) (key)

def process (tape : Tape) (pages : ℕ) (s : Place M Wire) : Place M Wire :=
  (runE2ee K (wire K) actor Wire.write key.logServerId
    (processMlsControlEvents K (wire K) Wire.write actor key pages)
    { s with world := tape.on s.world }).2

def perform (s : Place M Wire) (move : Move) : Place M Wire :=
  match move with
  | .others now events ds =>
    ⟨{ s.files with deviceState := ds }, events.foldl (Wire.take K) { s.world with now }⟩
  | .publish tape instanceHash =>
    (runE2ee K (wire K) actor Wire.write key.logServerId
      (publishOwnKeyPackage K (wire K) Wire.write actor key instanceHash)
      { s with world := tape.on s.world }).2
  | .process tape pages => process K actor key tape pages s

def after (g : Genesis) (moves : List Move) : Place M Wire :=
  moves.foldl (perform K actor key) ⟨⟨none, ∅, ∅, ∅⟩, Wire.start K g⟩

def ownWelcome (e : Event) : Option MlsWelcome :=
  match e.core.payload with
  | .mlsWelcome p =>
    if p.channelId = key.channelId ∧ (p.forMember, p.forDevice) = actor.leaf K then some p else none
  | _ => none

/-- The fold owes the device a place: its leaf is pending, its Welcome is in the log, and the file of
the chain is up to date. -/
structure Owed (s : Place M Wire) : Prop where
  pending : ∃ group, s.world.log.mlsGroups.lookup key.channelId = some group ∧
    actor.leaf K ∈ group.leavesPending
  welcome : ∃ e ∈ s.world.events, (ownWelcome K actor key e).isSome
  chain : ∃ ds head, s.files.deviceState = some ds ∧ ds.authorized = true ∧
    s.world.log.chains.lookup (actor.leaf K) = some head ∧ ds.nextSeq = head.seq + 1 ∧
    ds.lastEventHash = some head.hash

def Confirmed (s : Place M Wire) : Prop :=
  (∃ group, s.world.log.mlsGroups.lookup key.channelId = some group ∧
    actor.leaf K ∈ group.leavesConfirmed) ∧
  ∃ mls, s.files.mlsStates.lookup key.channelId = some mls ∧ mls.confirmed = true

def firstWelcome (w : Wire) : Option MlsWelcome := w.events.findSome? (ownWelcome K actor key)

def confirmation (ds : DeviceState) (w : Wire) (instanceHash : Digest) (p : MlsWelcome)
    (staged : StagedWelcome M.Group M.Keys) : Event :=
  buildNextEvent K actor key.logServerId ds.chain w.now (.mlsLeafConfirmed
    ⟨key.channelId, p.generation, staged.epoch, staged.treeHash, instanceHash⟩)

/-- The condition: the store of the channel resumes and keeps no group, the Welcome opens with its
keys, and the log takes the confirmation. -/
def Ready (s : Place M Wire) : Prop :=
  ∃ store, s.files.resumeStore key.channelId = .ok store ∧ store.groups = ∅ ∧
    ∃ p, firstWelcome K actor key s.world = some p ∧
    ∃ staged, M.stageWelcome store.keys p.welcome = some staged ∧ staged.group.isSome ∧
    ∀ ds, s.files.deviceState = some ds →
      (judge K s.world.log s.world.now
        (confirmation K actor key ds s.world store.instanceHash p staged)).isOk = true

variable {K} {actor} {key}

/-! ## Fetching the control events -/

/-- The control events of a channel that come after the cursor. -/
def controlAfter (channelId since : ℕ) (events : List Event) : List Event :=
  ((Paging.after isControl since events).filter fun x =>
    Server.controlChannel x.1.core.payload = some channelId).map Prod.fst

theorem controlAfter_of_last {channelId since : ℕ} {events : List Event}
    (hlast : ¬Server.maxFetchEvents < (Paging.after isControl since events).length) :
    (controlPage channelId since events).events = (controlAfter channelId since events).map some := by
  simp only [controlPage, controlAfter, List.map_map]
  rw [List.take_of_length_le (by omega)]
  rfl

theorem controlAfter_append (channelId since : ℕ) (events : List Event) :
    (controlPage channelId since events).events ++
        (controlAfter channelId (controlPage channelId since events).nextAcceptSeq events).map some =
      (controlAfter channelId since events).map some := by
  have happend := Paging.take_append_after isControl since Server.maxFetchEvents events
  conv_rhs => rw [controlAfter, ← happend]
  simp [controlPage, controlAfter, List.filter_append, Function.comp_def]

variable {d d' : Device M Wire}

def Device.withReads (d : Device M Wire) (reads : List Bool) : Device M Wire :=
  { d with world := { d.world with reads } }

theorem fetchPage_run {channelId cursor : ℕ} :
    fetching ((wire K).fetchMlsControl channelId cursor) d =
      (if d.world.reads.headD true then .ok (controlPage channelId cursor d.world.events)
        else .error (.transport (.transport "connection lost")),
      Device.withReads d d.world.reads.tail) := by
  simp only [fetching, wire, Wire.read, Device.withReads]
  split_ifs <;> rfl

theorem decode_page (channelId cursor : ℕ) (events : List Event) : ∃ page,
    (controlPage channelId cursor events).events = page.map some ∧
      decodeControl (controlPage channelId cursor events).events = .ok page := by
  refine ⟨(((Paging.after isControl cursor events).take Server.maxFetchEvents).filter fun x =>
    Server.controlChannel x.1.core.payload = some channelId).map Prod.fst, ?_⟩
  rw [← decodeControl_some]
  simp [controlPage, Function.comp_def]

theorem some_injective : Function.Injective (List.map (some : Event → Option Event)) :=
  List.map_injective_iff.mpr (Option.some_injective _)

/-- All pages together are the control events after the cursor, and nothing else comes of it. -/
theorem fetchAll_run (channelId pages cursor : ℕ) (d : Device M Wire) :
    ∃ reads, match fetchMlsControlExhaustive (wire K) channelId pages cursor d with
      | (.ok (events, next), d') => d' = Device.withReads d reads ∧
          events = controlAfter channelId cursor d.world.events ∧
          next ≤ max cursor d.world.events.length
      | (.error _, d') => d' = Device.withReads d reads ∧
          (d.world.events.length - cursor < pages → d.world.reads ≠ []) := by
  induction pages generalizing cursor d with
  | zero => exact ⟨d.world.reads, rfl, fun h => absurd h (by omega)⟩
  | succ pages ih =>
    rw [fetchMlsControlExhaustive, Prog.run_bind, fetchPage_run]
    by_cases hread : d.world.reads.headD true = true
    swap
    · refine ⟨d.world.reads.tail, ?_⟩
      simp only [hread, Bool.false_eq_true, ↓reduceIte, true_and]
      intro _ hnil
      simp [hnil] at hread
    obtain ⟨page, hpage, hdecode⟩ := decode_page channelId cursor d.world.events
    simp only [hread, ↓reduceIte, Prog.run_bind, hdecode, Prog.run_ofExcept]
    have hbounds := (Paging.nextCursor_bounds isControl cursor Server.maxFetchEvents
      d.world.events).2
    by_cases hmore : Server.maxFetchEvents < (Paging.after isControl cursor d.world.events).length
    · have hlt := Paging.lt_nextCursor hmore (by decide)
      have hrest := controlAfter_append channelId cursor d.world.events
      set next := Paging.nextCursor cursor
        ((Paging.after isControl cursor d.world.events).take Server.maxFetchEvents) with hnext
      have hcursor : (controlPage channelId cursor d.world.events).nextAcceptSeq = next := rfl
      have hmore' : (controlPage channelId cursor d.world.events).more = true := by
        simpa [controlPage] using hmore
      have hlength : (Device.withReads d d.world.reads.tail).world.events.length =
        d.world.events.length := rfl
      obtain ⟨reads, hreads⟩ := ih next (Device.withReads d d.world.reads.tail)
      refine ⟨reads, ?_⟩
      simp only [hmore', hcursor, Bool.true_eq_false, ↓reduceIte, if_neg (Nat.not_le.mpr hlt),
        Prog.run_bind]
      rcases hrun : fetchMlsControlExhaustive (wire K) channelId pages next
        (Device.withReads d d.world.reads.tail) with ⟨err | ⟨events, last⟩, d'⟩
      · rw [hrun] at hreads
        refine ⟨hreads.1, fun hpages hnil => ?_⟩
        refine hreads.2 ?_ (by simp [Device.withReads, hnil])
        rw [hlength]
        omega
      · rw [hrun] at hreads
        obtain ⟨hd, hevents, hlast⟩ := hreads
        refine ⟨hd, ?_, ?_⟩
        · apply some_injective
          rw [List.map_append, ← hpage, hevents, ← hrest]
          rfl
        · rw [hlength] at hlast
          omega
    · have hmore' : (controlPage channelId cursor d.world.events).more = false := by
        simpa [controlPage] using hmore
      refine ⟨d.world.reads.tail, ?_⟩
      simp only [hmore', ↓reduceIte, Prog.run_pure]
      refine ⟨trivial, some_injective ?_, hbounds⟩
      rw [← hpage]
      exact controlAfter_of_last hmore

/-! ## What is still to be read -/

variable (key) in
def NoGroup (files : Files M) : Prop :=
  ∀ store, files.stores.lookup key.channelId = some store → store.groups = ∅

variable (K) (actor) (key) in
/-- As long as the store keeps no group, the group is not given up, and no Welcome for the device has
been passed over. -/
def Unread (files : Files M) (w : Wire) : Prop :=
  NoGroup key files → ∀ mls, files.mlsStates.lookup key.channelId = some mls →
    mls.poisoned = none ∧ mls.cursor ≤ w.events.length ∧
      ∀ x ∈ w.events.zipIdx 1, (ownWelcome K actor key x.1).isSome → mls.cursor < x.2

theorem Unread.grow {files : Files M} {w w' : Wire} (h : Unread K actor key files w)
    (hgrows : w.taken <+: w'.taken) : Unread K actor key files w' := by
  obtain ⟨more, hmore⟩ := hgrows
  have hevents : w'.events = w.events ++ more.map Transition.event := by
    rw [Wire.events, ← hmore, List.map_append, Wire.events]
  intro hnone mls hmls
  obtain ⟨hpoisoned, hcursor, hwelcomes⟩ := h hnone mls hmls
  refine ⟨hpoisoned, by rw [hevents, List.length_append]; omega, fun x hx hown => ?_⟩
  rw [hevents, List.zipIdx_append, List.mem_append] at hx
  rcases hx with hx | hx
  · exact hwelcomes x hx hown
  · have hle := List.le_snd_of_mem_zipIdx hx
    omega

theorem Unread.files {files files' : Files M} {w : Wire} (h : Unread K actor key files w)
    (hstores : NoGroup key files' → NoGroup key files)
    (hstates : files'.mlsStates = files.mlsStates) : Unread K actor key files' w := by
  intro hnone mls hmls
  exact h (hstores hnone) mls (hstates ▸ hmls)

variable (K) (actor) (key) in
abbrev On (d : Device M Wire) : Prop := Unread K actor key d.files d.world

/-- The store of the channel keeps a group. -/
def Joined (key : ChannelKey) (d : Device M Wire) : Prop := ¬NoGroup key d.files

theorem Joined.on (h : Joined key d) : On K actor key d := fun hnone => absurd hnone h

/-- A property of the files, and of the log as it grows. -/
structure Lasting (P : Device M Wire → Prop) : Prop where
  grow : ∀ d d' : Device M Wire, P d → d'.files = d.files → d.world.taken <+: d'.world.taken → P d'

theorem lasting_on : Lasting (M := M) (On K actor key) where
  grow d d' h hfiles hgrows := by
    show Unread K actor key d'.files d'.world
    rw [hfiles]
    exact Unread.grow h hgrows

theorem lasting_joined : Lasting (M := M) (Joined key) where
  grow d d' h hfiles _ := by
    show ¬NoGroup key d'.files
    rw [hfiles]
    exact h

section Lasting

variable {P : Device M Wire → Prop} {α : Type}

theorem described_keeps {x : Errand M Wire E2eeError α} (h : Keeps P x) : Keeps P (described x) := h

theorem described_triple {x : Errand M Wire E2eeError α} {Q : Device M Wire → Prop}
    (h : Triple P x fun _ => Q) : Triple P (described x) fun _ => Q := h

theorem described_ends {x : Errand M Wire E2eeError α} {Q E : Device M Wire → Prop}
    (h : Triple P x (Ends Q E)) : Triple P (described x) (Ends Q E) := by
  intro d hd
  have hend := h d hd
  rcases hrun : x d with ⟨e | a, d'⟩ <;> simpa [described, hrun, Ends, Except.mapError] using hend

theorem authored_keeps {ε : Type} {serverId : ServerId} {payload : EventPayload} :
    Keeps P (authored (M := M) (ε := ε) K (wire K) actor serverId payload) := fun _ h => h

theorem deliver_keeps {e : Event} (hP : Lasting P) : Keeps P (deliver K (wire K) e) := by
  intro d hd
  cases hanswer : (d.world.submit K e).1 with
  | ok accepted =>
    simp only [deliver, wire, hanswer]
    exact hP.grow _ _ hd rfl Wire.submit_grows
  | error err =>
    simp only [deliver, wire, hanswer]
    exact hP.grow _ _ hd rfl Wire.submit_grows

theorem withGroup_keeps {group : MlsChannelGroup M} {x : Action M Wire α}
    (hx : ∀ taken, Keeps (Over (M := M) fun w => taken <+: w.taken) x) (hP : Lasting P) :
    Keeps P (withGroup group x) := by
  intro d hd
  exact hP.grow _ _ hd rfl (hx d.world.taken ⟨d.chain, group, d.world⟩ (List.prefix_refl _))

theorem put_ends {Q E : Device M Wire → Prop} {f : Files M → Files M} (hQ : Lasting Q)
    (hE : Lasting E) (hf : ∀ d, P d → Q { d with files := f d.files }) (herror : ∀ d, P d → E d) :
    Triple P (put Wire.write f) (Ends Q E) := by
  intro d hd
  cases hwritten : d.world.writes.headD true with
  | true =>
    simp only [put, Wire.write, hwritten, ↓reduceIte]
    exact hQ.grow { d with files := f d.files } _ (hf d hd) rfl (List.prefix_refl _)
  | false =>
    simp only [put, Wire.write, hwritten, Bool.false_eq_true, ↓reduceIte]
    exact hE.grow d _ (herror d hd) rfl (List.prefix_refl _)

theorem Keeps.of_ends {x : Errand M Wire String α} (h : Triple P x (Ends P P)) : Keeps P x := by
  intro d hd
  have hend := h d hd
  rcases hrun : x d with ⟨e | a, d'⟩ <;> simpa [hrun, Ends] using hend

/-- A write that `P` does not mind. -/
theorem put_keeps {f : Files M → Files M} (hP : Lasting P)
    (hf : ∀ d, P d → P { d with files := f d.files }) : Keeps P (put Wire.write f) :=
  Keeps.of_ends (put_ends hP hP hf fun _ h => h)

theorem putChain_keeps {authorized : Bool} (hP : Lasting P)
    (hds : ∀ d ds, P d → P { d with files := { d.files with deviceState := ds } }) :
    Keeps P (putChain (M := M) Wire.write authorized) := by
  refine Keeps.get.bind fun d => Keeps.bind (fun d hd => ?_) fun _ => ?_
  · exact hP.grow d _ hd rfl (List.prefix_refl _)
  · exact put_keeps hP fun d hd => hds d _ hd

end Lasting

theorem on_deviceState {d : Device M Wire} {ds : Option DeviceState} (h : On K actor key d) :
    On K actor key { d with files := { d.files with deviceState := ds } } :=
  Unread.files (show Unread K actor key d.files d.world from h) id rfl

theorem joined_deviceState {d : Device M Wire} {ds : Option DeviceState} (h : Joined key d) :
    Joined key { d with files := { d.files with deviceState := ds } } := h

theorem authorizeDeviceIfNeeded_on {serverId : ServerId} :
    Keeps (On (M := M) K actor key)
      (authorizeDeviceIfNeeded K (wire K) actor Wire.write serverId) := by
  refine Keeps.get.bind fun d => ?_
  split_ifs
  · exact Keeps.pure _
  · refine Keeps.get.bind fun d => authored_keeps.bind fun e => ?_
    refine (described_keeps (deliver_keeps lasting_on)).bind fun _ => ?_
    exact putChain_keeps lasting_on fun _ _ h => on_deviceState h

theorem noGroup_putStore {files : Files M} {store : ChannelStore M} :
    NoGroup key (files.putStore key.channelId store) ↔ store.groups = ∅ := by
  simp [NoGroup, Files.putStore]

theorem On.putStore {d : Device M Wire} {store : ChannelStore M} (h : On K actor key d)
    (hstore : store.groups = ∅ → NoGroup key d.files) :
    On K actor key { d with files := d.files.putStore key.channelId store } :=
  Unread.files (show Unread K actor key d.files d.world from h)
    (fun hnone => hstore (noGroup_putStore.mp hnone)) rfl

theorem on_putFresh {d : Device M Wire} {hash : Digest} :
    On K actor key { d with files := { d.files with
      mlsStates := d.files.mlsStates.insert key.channelId (.fresh 0 0 hash false) } } := by
  intro _ mls hmls
  simp only [FiniteMap.lookup_insert_eq, ↓reduceIte, Option.some.injEq] at hmls
  subst hmls
  refine ⟨rfl, Nat.zero_le _, fun x hx _ => ?_⟩
  have hle := List.le_snd_of_mem_zipIdx hx
  show 0 < x.2
  omega

theorem publishKeyPackage_on {store : ChannelStore M} :
    Triple (fun d => On (M := M) K actor key d ∧ (store.groups = ∅ → NoGroup key d.files))
      (publishKeyPackage K (wire K) actor key store) fun _ => On K actor key := by
  have hgenerate : Triple (fun d => On (M := M) K actor key d ∧
      (store.groups = ∅ → NoGroup key d.files))
      (generateKeyPackage K actor key.channelId store) fun _ => On K actor key := by
    rintro d ⟨hon, hstore⟩
    simp only [generateKeyPackage]
    rcases M.generateKeyPackage store.keys (credentialWithKey K actor) with _ | ⟨keyPackage, keys⟩
    · exact hon
    · exact hon.putStore hstore
  refine hgenerate.bind (fun keyPackage => Triple.of_keeps ?_) fun _ _ h => h
  refine Keeps.get.bind fun d => authored_keeps.bind fun e => ?_
  exact (deliver_keeps lasting_on).bind fun _ => Keeps.pure _

variable (K) (actor) (key) in
/-- As `On`, with a store that keeps no group. -/
abbrev Unjoined (d : Device M Wire) : Prop := On K actor key d ∧ NoGroup key d.files

theorem lasting_unjoined : Lasting (M := M) (Unjoined K actor key) where
  grow d d' h hfiles hgrows := ⟨lasting_on.grow d d' h.1 hfiles hgrows, hfiles ▸ h.2⟩

theorem createJoinerStore_on {hash : Digest} :
    Triple (fun d => On (M := M) K actor key d ∧ d.files.stores.lookup key.channelId = none)
      (createJoinerStore Wire.write key.channelId hash)
      (Ends (Unjoined K actor key) (On K actor key)) := by
  refine Triple.bind (R := Ends (Unjoined K actor key) (On K actor key))
    (put_ends lasting_unjoined lasting_on ?_ fun _ h => h.1) (fun _ => ?_) fun _ _ h => h
  · rintro d ⟨hon, hnone⟩
    refine ⟨hon.putStore fun _ store hstore => ?_, noGroup_putStore.mpr rfl⟩
    rw [hnone] at hstore
    cases hstore
  refine Triple.bind (R := Ends (Unjoined K actor key) (On K actor key))
    (put_ends lasting_unjoined lasting_on (fun _ h => h) fun _ h => h.1) (fun _ => ?_)
    fun _ _ h => h
  exact Triple.pure fun _ h => h

theorem resumeStore_ok {files : Files M} {channelId : ℕ} {store : ChannelStore M}
    (h : files.resumeStore channelId = .ok store) : files.stores.lookup channelId = some store := by
  unfold Files.resumeStore at h
  split at h
  · cases h
  · split at h
    · cases h
    · next hstore =>
      split_ifs at h
      rw [hstore, Except.ok.inj h]

theorem publishOwnKeyPackage_on {hash : Digest} :
    Keeps (On (M := M) K actor key)
      (publishOwnKeyPackage K (wire K) Wire.write actor key hash) := by
  have hrest (store : ChannelStore M) :
      Triple (fun d => On (M := M) K actor key d ∧ (store.groups = ∅ → NoGroup key d.files))
        (do
          let published ← described (publishKeyPackage K (wire K) actor key store)
          putChain Wire.write (← Prog.get).ds.authorized
          putMlsState Wire.write key.channelId (.fresh 0 0 store.instanceHash false)
          return published.eventHash : Errand M Wire String EventHash)
        fun _ => On K actor key := by
    refine Triple.bind (described_triple publishKeyPackage_on) (fun published => .of_keeps ?_)
      fun _ _ h => h
    refine Keeps.get.bind fun d => (putChain_keeps lasting_on fun _ _ h => on_deviceState h).bind
      fun _ => ?_
    exact (put_keeps lasting_on fun _ _ => on_putFresh).bind fun _ => Keeps.pure _
  intro d hd
  rw [publishOwnKeyPackage, Prog.run_get_bind]
  rcases hstore : d.files.stores.lookup key.channelId with _ | store
  · refine Triple.bind createJoinerStore_on (fun store => (hrest store).pre ?_) (fun _ _ h => h)
      d ⟨hd, hstore⟩
    exact fun d hd => ⟨hd.1, fun _ => hd.2⟩
  · rcases hresume : d.files.resumeStore key.channelId with e | resumed
    · simpa [Prog.run_bind, hresume, Except.mapError] using hd
    · refine hrest resumed d ⟨hd, fun hnone store' hstore' => ?_⟩
      rw [resumeStore_ok hresume] at hstore'
      obtain rfl := Option.some.inj hstore'
      exact hnone

theorem joined_iff {d : Device M Wire} : Joined key d ↔
    ∃ store, d.files.stores.lookup key.channelId = some store ∧ store.groups ≠ ∅ := by
  simp [Joined, NoGroup]

theorem joined_putStore {d : Device M Wire} {store : ChannelStore M} (h : store.groups ≠ ∅) :
    Joined key { d with files := d.files.putStore key.channelId store } :=
  fun hnone => h (noGroup_putStore.mp hnone)

theorem insert_ne_empty {V : Type} {m : FiniteMap String V} {k : String} {v : V} :
    m.insert k v ≠ ∅ := by
  intro hempty
  have hlookup := congrArg (Finmap.lookup k) hempty
  simp at hlookup

theorem Joined.putGroup {d : Device M Wire} {groupId : String} {group : M.Group}
    (h : Joined key d) :
    Joined key { d with files := d.files.putGroup key.channelId groupId group } := by
  obtain ⟨store, hstore, -⟩ := joined_iff.mp h
  refine joined_iff.mpr ⟨{ store with groups := store.groups.insert groupId group }, ?_,
    insert_ne_empty⟩
  simp [Files.putGroup, hstore]

theorem joinFromWelcome_groups (store : ChannelStore M) (welcome : List UInt8) :
    match (store.joinFromWelcome welcome).1 with
    | .ok _ => (store.joinFromWelcome welcome).2.groups ≠ ∅
    | .error _ => (store.joinFromWelcome welcome).2.groups = store.groups := by
  unfold ChannelStore.joinFromWelcome
  rcases M.stageWelcome store.keys welcome with _ | staged
  · rfl
  · simp only
    rcases staged.group with _ | inner
    · rfl
    · exact insert_ne_empty

section Joined

variable {hash : Digest} {next : ℕ} {e : Event} {pr : Progress M} {p : MlsWelcome} {q : MlsCommit}

theorem putMlsState_joined {state : MlsChannelState} :
    Keeps (Joined (M := M) key) (putMlsState Wire.write key.channelId state) :=
  put_keeps lasting_joined fun _ h => h

theorem takeCommit_joined : Keeps (Joined key)
    (takeCommit K (wire K) Wire.write key.channelId next q pr) := by
  unfold takeCommit
  rcases pr.group with _ | group
  · exact Keeps.pure _
  refine (described_keeps (withGroup_keeps (fun taken =>
    buildCertResolver_over (Wire.keeps_taken _).fetchDeviceCerts _)
    lasting_joined)).bind fun certs => ?_
  refine Keeps.bind (fun d hd => hd.putGroup) fun _ => ?_
  split
  · exact Keeps.fail _
  · exact putMlsState_joined.bind fun _ => Keeps.pure _
  · split_ifs
    · exact Keeps.pure _
    · exact Keeps.fail _
  · exact putMlsState_joined.bind fun _ => Keeps.pure _

theorem joinChannel_joined {welcome : List UInt8} :
    Keeps (Joined (M := M) key) (joinChannel key.channelId welcome) := by
  intro d hd
  obtain ⟨store, hstore, hgroups⟩ := joined_iff.mp hd
  have hjoin := joinFromWelcome_groups store welcome
  simp only [joinChannel, Prog.run_get_bind, hstore, Prog.ofOption, Prog.pure_bind,
    Prog.run_modify_bind, Prog.run_ofExcept]
  refine joined_putStore ?_
  split at hjoin
  · exact hjoin
  · rwa [hjoin]

theorem confirmLeaf_keeps {P : Device M Wire → Prop} {info : JoinInfo} (hP : Lasting P) :
    Keeps P (confirmLeaf K (wire K) actor key hash p info) := by
  unfold confirmLeaf
  split_ifs
  · exact Keeps.fail _
  · exact authored_keeps.bind fun _ => (deliver_keeps hP).bind fun _ => Keeps.pure _

theorem afterJoin_joined {group : MlsChannelGroup M} {info : JoinInfo} :
    Keeps (Joined key) (do
      let confirmation ← described (confirmLeaf K (wire K) actor key hash p info)
      putChain Wire.write (← Prog.get).ds.authorized
      let mls := { pr.mls with
        epoch := confirmation.epoch, generation := p.generation, confirmed := true }
      putMlsState Wire.write key.channelId mls
      return .inl ⟨some group, mls, pr.processed + 1⟩ : Errand M Wire String (Stepped M)) := by
  refine (described_keeps (confirmLeaf_keeps lasting_joined)).bind fun confirmation => ?_
  refine Keeps.get.bind fun d =>
    (putChain_keeps lasting_joined fun _ _ h => joined_deviceState h).bind fun _ => ?_
  exact putMlsState_joined.bind fun _ => Keeps.pure _

theorem takeWelcome_joined : Keeps (Joined key)
    (takeWelcome K (wire K) Wire.write actor key hash p pr) := by
  unfold takeWelcome
  split_ifs
  · exact Keeps.pure _
  · rcases pr.group with _ | group
    · exact (described_keeps joinChannel_joined).bind fun joined => afterJoin_joined
    · exact Keeps.pure _

theorem takeControl_joined : Keeps (Joined key)
    (takeControl K (wire K) Wire.write actor key hash next e pr) := by
  unfold takeControl
  split
  · exact takeCommit_joined
  · exact takeWelcome_joined
  · exact Keeps.pure _

theorem takeAll_joined (events : List Event) (pr : Progress M) : Keeps (Joined key)
    (takeAll K (wire K) Wire.write actor key hash next events pr) := by
  induction events generalizing pr with
  | nil => exact Keeps.pure _
  | cons e events ih =>
    refine takeControl_joined.bind fun stepped => ?_
    rcases stepped with pr' | result
    · exact ih pr'
    · exact Keeps.pure _

theorem finishProcess_joined {before : List Leaf} :
    Keeps (Joined key) (finishProcess Wire.write key.channelId next before pr) :=
  putMlsState_joined.bind fun _ => Keeps.pure _

theorem ownWelcome_eq_some (h : ownWelcome K actor key e = some p) :
    e.core.payload = .mlsWelcome p ∧ (p.forMember, p.forDevice) = actor.leaf K := by
  unfold ownWelcome at h
  split at h
  · next p' hp =>
    split_ifs at h with hown
    obtain rfl := Option.some.inj h
    exact ⟨hp, hown.2⟩
  · cases h

/-- A device without a group takes the first Welcome for it, and passes over everything else. -/
theorem takeControl_skips (hgroup : pr.group = none)
    (hchannel : Server.controlChannel e.core.payload = some key.channelId)
    (hnot : ownWelcome K actor key e = none) :
    takeControl K (wire K) Wire.write actor key hash next e pr = return .inl pr := by
  unfold takeControl
  split
  · simp only [takeCommit, hgroup]
  · next p hp =>
    have hp' : p.channelId = key.channelId := by
      simpa [Server.controlChannel, hp] using hchannel
    have hother : (p.forMember, p.forDevice) ≠ actor.leaf K := by
      intro hleaf
      simp [ownWelcome, hp, hp', hleaf] at hnot
    simp only [takeWelcome, if_pos hother]
  · rfl

theorem takeAll_skips {events rest : List Event} (hgroup : pr.group = none)
    (hchannel : ∀ e ∈ events, Server.controlChannel e.core.payload = some key.channelId)
    (hnot : ∀ e ∈ events, ownWelcome K actor key e = none) :
    takeAll K (wire K) Wire.write actor key hash next (events ++ rest) pr =
      takeAll K (wire K) Wire.write actor key hash next rest pr := by
  induction events with
  | nil => rfl
  | cons e events ih =>
    rw [List.cons_append, takeAll, takeControl_skips hgroup (hchannel e List.mem_cons_self)
      (hnot e List.mem_cons_self)]
    exact ih (fun e he => hchannel e (List.mem_cons_of_mem _ he))
      fun e he => hnot e (List.mem_cons_of_mem _ he)

end Joined

theorem joinChannel_on {welcome : List UInt8} :
    Triple (Unjoined (M := M) K actor key) (joinChannel key.channelId welcome)
      (Ends (Joined key) (On K actor key)) := by
  rintro d ⟨hon, hnone⟩
  rcases hstore : d.files.stores.lookup key.channelId with _ | store
  · simp only [joinChannel, Prog.run_get_bind, hstore, Prog.ofOption, Prog.run_fail_bind]
    exact hon
  have hjoin := joinFromWelcome_groups store welcome
  simp only [joinChannel, Prog.run_get_bind, hstore, Prog.ofOption, Prog.pure_bind,
    Prog.run_modify_bind, Prog.run_ofExcept]
  rcases hjoined : (store.joinFromWelcome welcome).1 with err | joined
  · exact hon.putStore fun _ => hnone
  · rw [hjoined] at hjoin
    exact joined_putStore hjoin

theorem ends_of_joined {α : Type} {x : Errand M Wire String α} (h : Keeps (Joined key) x) :
    Triple (Joined key) x (Ends (Joined key) (On K actor key)) := by
  intro d hd
  have hend := h d hd
  rcases hrun : x d with ⟨e | a, d'⟩
  · rw [hrun] at hend
    exact Joined.on hend
  · rw [hrun] at hend
    exact hend

theorem takeWelcome_ends {hash : Digest} {mls : MlsChannelState} {p : MlsWelcome}
    (hown : (p.forMember, p.forDevice) = actor.leaf K) :
    Triple (Unjoined (M := M) K actor key)
      (takeWelcome K (wire K) Wire.write actor key hash p ⟨none, mls, 0⟩)
      (Ends (Joined key) (On K actor key)) := by
  unfold takeWelcome
  rw [if_neg (not_not.mpr hown)]
  refine Triple.bind (R := Ends (Joined key) (On K actor key)) (described_ends joinChannel_on)
    (fun joined => ?_) fun _ _ h => h
  exact ends_of_joined afterJoin_joined

/-- A device without a group that finds a Welcome for it has a group afterwards, or has failed. -/
theorem takeAll_ends {hash : Digest} {next : ℕ} {events : List Event} {mls : MlsChannelState}
    (hchannel : ∀ e ∈ events, Server.controlChannel e.core.payload = some key.channelId)
    (hwelcome : (events.findSome? (ownWelcome K actor key)).isSome) :
    Triple (Unjoined (M := M) K actor key)
      (takeAll K (wire K) Wire.write actor key hash next events ⟨none, mls, 0⟩)
      (Ends (Joined key) (On K actor key)) := by
  obtain ⟨p, hp⟩ := Option.isSome_iff_exists.mp hwelcome
  obtain ⟨before, e, rest, rfl, he, hbefore⟩ := List.findSome?_eq_some_iff.mp hp
  rw [takeAll_skips rfl (fun e he => hchannel e (List.mem_append_left _ he)) hbefore, takeAll]
  obtain ⟨hpayload, hown⟩ := ownWelcome_eq_some he
  have hcontrol : takeControl K (wire K) Wire.write actor key hash next e
      (⟨none, mls, 0⟩ : Progress M) =
      takeWelcome K (wire K) Wire.write actor key hash p ⟨none, mls, 0⟩ := by
    simp only [takeControl, hpayload]
  rw [hcontrol]
  refine (takeWelcome_ends hown).bind (fun stepped => ?_) fun _ _ h => h
  rcases stepped with pr | result
  · exact ends_of_joined (takeAll_joined rest pr)
  · exact ends_of_joined (Keeps.pure _)

theorem mem_controlAfter {channelId since : ℕ} {events : List Event} {e : Event} :
    e ∈ controlAfter channelId since events ↔
      Server.controlChannel e.core.payload = some channelId ∧
        ∃ n, (e, n) ∈ events.zipIdx 1 ∧ since < n := by
  simp only [controlAfter, List.mem_map, List.mem_filter, Paging.mem_after, isControl,
    decide_eq_true_eq]
  constructor
  · rintro ⟨x, ⟨⟨hmem, -, hlt⟩, hchannel⟩, rfl⟩
    exact ⟨hchannel, x.2, hmem, hlt⟩
  · rintro ⟨hchannel, n, hmem, hlt⟩
    exact ⟨(e, n), ⟨⟨hmem, by simp [hchannel], hlt⟩, hchannel⟩, rfl⟩

theorem channel_of_own {e : Event} (h : (ownWelcome K actor key e).isSome) :
    Server.controlChannel e.core.payload = some key.channelId := by
  unfold ownWelcome at h
  split at h
  · next p hp =>
    split_ifs at h with hown
    · simp [Server.controlChannel, hp, hown.1]
    · cases h
  · cases h

theorem loadMlsState_cursor {d : Device M Wire} (hash : Digest) (h : On K actor key d)
    (hnone : NoGroup key d.files) :
    (d.files.loadMlsState key.channelId hash).poisoned = none ∧
      (d.files.loadMlsState key.channelId hash).cursor ≤ d.world.events.length ∧
      ∀ x ∈ d.world.events.zipIdx 1, (ownWelcome K actor key x.1).isSome →
        (d.files.loadMlsState key.channelId hash).cursor < x.2 := by
  unfold Files.loadMlsState
  rcases hmls : d.files.mlsStates.lookup key.channelId with _ | mls
  · refine ⟨rfl, Nat.zero_le _, fun x hx _ => ?_⟩
    have hle := List.le_snd_of_mem_zipIdx hx
    show 0 < x.2
    omega
  · obtain ⟨hpoisoned, hcursor, hwelcomes⟩ := h hnone mls hmls
    have hhealed : mls.healed = mls := by simp [MlsChannelState.healed, hpoisoned]
    simp only [Option.map_some, Option.getD_some, hhealed]
    exact ⟨hpoisoned, hcursor, hwelcomes⟩

/-- Nothing for the device has come since the cursor: it may go past everything. -/
theorem finishProcess_on {next : ℕ} {before : List Leaf} {pr : Progress M}
    (hpoisoned : pr.mls.poisoned = none) :
    Triple (fun d => On K actor key d ∧ next ≤ d.world.events.length ∧
        ∀ e ∈ d.world.events, ownWelcome K actor key e = none)
      (finishProcess (M := M) Wire.write key.channelId next before pr) fun _ => On K actor key := by
  have hput : Triple (fun d => On (M := M) K actor key d ∧ next ≤ d.world.events.length ∧
      ∀ e ∈ d.world.events, ownWelcome K actor key e = none)
      (putMlsState Wire.write key.channelId { pr.mls with cursor := next })
      (Ends (On K actor key) (On K actor key)) := by
    refine put_ends lasting_on lasting_on (fun d hd _ mls hmls => ?_) fun _ h => h.1
    simp only [FiniteMap.lookup_insert_eq, ↓reduceIte, Option.some.injEq] at hmls
    subst hmls
    refine ⟨hpoisoned, hd.2.1, fun x hx hown => ?_⟩
    rw [hd.2.2 x.1 (List.fst_mem_of_mem_zipIdx hx)] at hown
    cases hown
  exact hput.bind (fun _ => Triple.pure fun _ h => h) fun _ _ h => h

theorem processFetched_on {hash : Digest} {next : ℕ} {events : List Event} {mls : MlsChannelState}
    {d : Device M Wire} (hd : On K actor key d) (hnone : NoGroup key d.files)
    (hpoisoned : mls.poisoned = none) (hnext : next ≤ d.world.events.length)
    (hevents : events = controlAfter key.channelId mls.cursor d.world.events)
    (hwelcomes : ∀ x ∈ d.world.events.zipIdx 1, (ownWelcome K actor key x.1).isSome →
      mls.cursor < x.2) {before : List Leaf} :
    On K actor key ((do
      match ← takeAll K (wire K) Wire.write actor key hash next events ⟨none, mls, 0⟩ with
      | .inl pr => finishProcess Wire.write key.channelId next before pr
      | .inr result => return result : Errand M Wire String ProcessResult) d).2 := by
  have hchannel : ∀ e ∈ events, Server.controlChannel e.core.payload = some key.channelId :=
    fun e he => (mem_controlAfter.mp (hevents ▸ he)).1
  rcases hfirst : events.findSome? (ownWelcome K actor key) with _ | p
  · have hskip := List.findSome?_eq_none_iff.mp hfirst
    have htake : takeAll K (wire K) Wire.write actor key hash next (events ++ [])
        (⟨none, mls, 0⟩ : Progress M) =
        takeAll K (wire K) Wire.write actor key hash next [] ⟨none, mls, 0⟩ :=
      takeAll_skips rfl hchannel hskip
    rw [List.append_nil] at htake
    rw [htake]
    refine finishProcess_on hpoisoned d ⟨hd, hnext, fun e he => ?_⟩
    by_contra hown
    have hsome : (ownWelcome K actor key e).isSome := Option.ne_none_iff_isSome.mp hown
    obtain ⟨n, hn⟩ : ∃ n, (e, n) ∈ d.world.events.zipIdx 1 := by
      obtain ⟨i, hi, rfl⟩ := List.getElem_of_mem he
      exact ⟨1 + i, by simp [List.mk_mem_zipIdx_iff_le_and_getElem?_sub]⟩
    have hmem : e ∈ events := by
      rw [hevents]
      exact mem_controlAfter.mpr ⟨channel_of_own hsome, n, hn, hwelcomes _ hn hsome⟩
    exact hown (hskip e hmem)
  · have hends : Triple (Unjoined (M := M) K actor key)
        (takeAll K (wire K) Wire.write actor key hash next events ⟨none, mls, 0⟩)
        (Ends (Joined key) (On K actor key)) := takeAll_ends hchannel (by rw [hfirst]; rfl)
    have hend := hends d ⟨hd, hnone⟩
    rw [Prog.run_bind]
    rcases hrun : takeAll K (wire K) Wire.write actor key hash next events ⟨none, mls, 0⟩ d with
      ⟨err | pr | result, d'⟩
    · rw [hrun] at hend
      exact hend
    · rw [hrun] at hend
      exact Joined.on (finishProcess_joined d' hend)
    · rw [hrun] at hend
      exact Joined.on hend

theorem described_ok {α : Type} {x : Errand M Wire E2eeError α} {d d' : Device M Wire} {a : α}
    (h : x d = (.ok a, d')) : described x d = (.ok a, d') := by
  simp [described, h, Except.mapError]

theorem described_error {α : Type} {x : Errand M Wire E2eeError α} {d d' : Device M Wire}
    {e : E2eeError} (h : x d = (.error e, d')) : described x d = (.error e.describe, d') := by
  simp [described, h, Except.mapError]

theorem processMlsControlEvents_on {pages : ℕ} :
    Keeps (On (M := M) K actor key)
      (processMlsControlEvents K (wire K) Wire.write actor key pages) := by
  intro d hd
  rw [processMlsControlEvents, Prog.run_get_bind]
  rcases hstore : d.files.stores.lookup key.channelId with _ | store
  · exact hd
  simp only
  rcases hresume : d.files.resumeStore key.channelId with e | resumed
  · simpa [Prog.run_bind, hresume, Except.mapError] using hd
  obtain rfl : resumed = store :=
    Option.some.inj ((resumeStore_ok hresume).symm.trans hstore)
  simp only [Prog.run_bind, Except.mapError, Prog.run_ofExcept]
  set mls := d.files.loadMlsState key.channelId resumed.instanceHash with hmls
  rcases hpoisoned : mls.poisoned with _ | reason
  swap
  · exact hd
  simp only [Prog.run_bind, Prog.run_ofExcept]
  rcases hload : resumed.loadGroup (channelGroupId key.logServerId key.channelId mls.generation)
    with e | group
  · exact hd
  simp only
  obtain ⟨reads, hfetch⟩ := fetchAll_run (K := K) key.channelId pages mls.cursor d
  rcases hrun : fetchMlsControlExhaustive (wire K) key.channelId pages mls.cursor d with
    ⟨e | ⟨events, next⟩, d'⟩
  · rw [hrun] at hfetch
    rw [described_error hrun]
    obtain ⟨rfl, -⟩ := hfetch
    exact hd
  rw [hrun] at hfetch
  rw [described_ok hrun]
  obtain ⟨rfl, hevents, hnext⟩ := hfetch
  by_cases hgroups : resumed.groups = ∅
  · have hnone : NoGroup key d.files := by
      intro store' hstore'
      obtain rfl := Option.some.inj (hstore.symm.trans hstore')
      exact hgroups
    obtain rfl : group = none := by
      simpa [ChannelStore.loadGroup, hgroups, eq_comm] using hload
    obtain ⟨-, hcursor, hwelcomes⟩ :=
      loadMlsState_cursor resumed.instanceHash hd hnone
    exact processFetched_on (d := Device.withReads d reads) hd hnone hpoisoned
      (hnext.trans (max_le hcursor (Nat.le_refl _))) hevents hwelcomes
  · have hjoined : Joined key (Device.withReads d reads) :=
      joined_iff.mpr ⟨resumed, hstore, hgroups⟩
    refine Joined.on ?_
    refine Keeps.bind (x := takeAll K (wire K) Wire.write actor key resumed.instanceHash next events
      ⟨group, mls, 0⟩) (takeAll_joined events _) (fun stepped => ?_) _ hjoined
    rcases stepped with pr | result
    · exact finishProcess_joined
    · exact Keeps.pure _

theorem runE2ee_on {α : Type} {serverId : ServerId} {body : Errand M Wire String α}
    {s : Place M Wire} (hbody : Keeps (On K actor key) body) (hs : Unread K actor key s.files s.world) :
    Unread K actor key (runE2ee K (wire K) actor Wire.write serverId body s).2.files
      (runE2ee K (wire K) actor Wire.write serverId body s).2.world :=
  (authorizeDeviceIfNeeded_on.bind fun _ => hbody)
    ⟨(s.files.deviceState.getD .fresh).chain, s.files.deviceState.getD .fresh, s.files, s.world⟩ hs

theorem perform_unread {s : Place M Wire} {move : Move} (h : Unread K actor key s.files s.world) :
    Unread K actor key (perform K actor key s move).files (perform K actor key s move).world := by
  cases move with
  | others now events ds =>
    have hgrows : s.world.taken <+: (events.foldl (Wire.take K) { s.world with now }).taken :=
      Wire.foldl_take (P := fun w => s.world.taken <+: w.taken)
        (fun _ _ h => h.trans Wire.take_grows) events (List.prefix_refl _)
    exact (h.grow hgrows).files id rfl
  | publish tape instanceHash =>
    have htape : Unread K actor key s.files (tape.on s.world) := h.grow (List.prefix_refl _)
    exact runE2ee_on publishOwnKeyPackage_on htape
  | process tape pages =>
    have htape : Unread K actor key s.files (tape.on s.world) := h.grow (List.prefix_refl _)
    exact runE2ee_on processMlsControlEvents_on htape

theorem unread_after (moves : List Move) : Unread K actor key
    (after (M := M) K actor key g moves).files (after (M := M) K actor key g moves).world := by
  induction moves using List.reverseRecOn with
  | nil => exact fun _ mls hmls => by cases hmls
  | append_singleton moves move ih =>
    rw [after, List.foldl_append]
    exact perform_unread ih

/-! ## Joining without interruption -/

variable (K) (actor) (key) in
/-- The leaf is confirmed, in the log and in the file. -/
abbrev Settled (d : Device M Wire) : Prop := Confirmed K actor key (⟨d.files, d.world⟩ : Place M Wire)

section Settled

variable {hash : Digest} {next : ℕ} {pr : Progress M} {α : Type}

/-- The processing goes on with a group, and knows that the leaf is confirmed. -/
def Sure (pr : Progress M) : Prop := pr.group.isSome ∧ pr.mls.confirmed = true

def SureAfter (r : Except String (Stepped M)) : Prop := ∀ pr, r = .ok (.inl pr) → Sure pr

theorem put_settled {f : Files M → Files M}
    (hf : ∀ d, Settled K actor key d → Settled K actor key { d with files := f d.files }) :
    Keeps (Settled K actor key) (put Wire.write f) := by
  intro d hd
  cases hwritten : d.world.writes.headD true with
  | true =>
    simp only [put, Wire.write, hwritten, ↓reduceIte]
    exact hf d hd
  | false =>
    simp only [put, Wire.write, hwritten, Bool.false_eq_true, ↓reduceIte]
    exact hd

theorem putMlsState_settled (state : MlsChannelState) (h : state.confirmed = true) :
    Keeps (Settled (M := M) K actor key) (putMlsState Wire.write key.channelId state) :=
  put_settled fun d hd => ⟨hd.1, state, by simp, h⟩

theorem certs_settled {group : MlsChannelGroup M} {members : List Leaf} :
    Keeps (Settled K actor key)
      (described (withGroup group (buildCertResolver K (wire K) members))) := by
  intro d hd
  have hlog := buildCertResolver_over (M := M) (K := K) (T := wire K) (P := fun w => w.log = d.world.log)
    (fun _ _ h => h) members ⟨d.chain, group, d.world⟩ rfl
  obtain ⟨⟨record, hrecord, hleaf⟩, hmls⟩ := hd
  exact ⟨⟨record, (congrArg (fun log => log.mlsGroups.lookup key.channelId) hlog).trans hrecord,
    hleaf⟩, hmls⟩

variable (K) (actor) (key) in
/-- What is done after the join, whether it succeeds or fails. -/
abbrev StaysSettled (x : Errand M Wire String (Stepped M)) : Prop :=
  Triple (Settled K actor key) x fun r d => Settled K actor key d ∧ SureAfter r

theorem stays_pure {stepped : Stepped M} (h : ∀ pr, stepped = .inl pr → Sure pr) :
    StaysSettled K actor key (return stepped) :=
  Triple.pure fun _ hd => ⟨hd, fun pr hpr => h pr (Except.ok.inj hpr)⟩

theorem stays_fail {e : String} : StaysSettled (M := M) K actor key
    (Prog.fail e) := Triple.fail fun _ hd => ⟨hd, nofun⟩

theorem stays_bind {x : Errand M Wire String α} {f : α → Errand M Wire String (Stepped M)}
    (hx : Keeps (Settled K actor key) x)
    (hf : ∀ a, StaysSettled K actor key (f a)) :
    StaysSettled K actor key (x >>= f) :=
  (Triple.of_keeps hx).bind hf fun _ _ hd => ⟨hd, nofun⟩

theorem takeCommit_settled {p : MlsCommit} (hsure : Sure pr) :
    StaysSettled K actor key
      (takeCommit K (wire K) Wire.write key.channelId next p pr) := by
  obtain ⟨hgroup, hconfirmed⟩ := hsure
  obtain ⟨group, hgroup⟩ := Option.isSome_iff_exists.mp hgroup
  simp only [takeCommit, hgroup]
  refine stays_bind certs_settled fun certs => stays_bind (fun d hd => hd) fun _ => ?_
  split
  · exact stays_fail
  · refine stays_bind (putMlsState_settled _ hconfirmed) fun _ => stays_pure ?_
    rintro _ ⟨⟩
    exact ⟨rfl, hconfirmed⟩
  · split_ifs
    · refine stays_pure ?_
      rintro _ ⟨⟩
      exact ⟨rfl, hconfirmed⟩
    · exact stays_fail
  · exact stays_bind (putMlsState_settled _ hconfirmed) fun _ => stays_pure nofun

theorem takeWelcome_settled {p : MlsWelcome} (hsure : Sure pr) :
    StaysSettled K actor key
      (takeWelcome K (wire K) Wire.write actor key hash p pr) := by
  obtain ⟨group, hgroup⟩ := Option.isSome_iff_exists.mp hsure.1
  have hpure : StaysSettled K actor key
      (return .inl pr : Errand M Wire String (Stepped M)) := by
    refine stays_pure ?_
    rintro _ ⟨⟩
    exact hsure
  simp only [takeWelcome, hgroup]
  split_ifs
  · exact hpure
  · exact hpure

theorem takeControl_settled {e : Event} (hsure : Sure pr) :
    StaysSettled K actor key
      (takeControl K (wire K) Wire.write actor key hash next e pr) := by
  unfold takeControl
  split
  · exact takeCommit_settled hsure
  · exact takeWelcome_settled hsure
  · refine stays_pure ?_
    rintro _ ⟨⟩
    exact hsure

theorem takeAll_settled (events : List Event) {pr : Progress M} (hsure : Sure pr) :
    StaysSettled K actor key
      (takeAll K (wire K) Wire.write actor key hash next events pr) := by
  induction events generalizing pr with
  | nil =>
    refine stays_pure ?_
    rintro _ ⟨⟩
    exact hsure
  | cons e events ih =>
    intro d hd
    have htake : StaysSettled K actor key
        (takeControl K (wire K) Wire.write actor key hash next e pr) := takeControl_settled hsure
    obtain ⟨hd', hafter⟩ := htake d hd
    rw [takeAll, Prog.run_bind]
    rcases hrun : takeControl K (wire K) Wire.write actor key hash next e pr d with
      ⟨err | pr' | result, d'⟩
    · rw [hrun] at hd'
      exact ⟨hd', nofun⟩
    · rw [hrun] at hd' hafter
      exact ih (hafter pr' rfl) d' hd'
    · rw [hrun] at hd'
      exact ⟨hd', fun _ h => by cases h⟩

theorem finishProcess_settled {before : List Leaf} (h : pr.mls.confirmed = true) :
    Keeps (Settled K actor key) (finishProcess Wire.write key.channelId next before pr) :=
  (putMlsState_settled { pr.mls with cursor := next } h).bind fun _ => Keeps.pure _

/-- Once the leaf is confirmed in the log and in the file, whatever follows leaves it so. -/
theorem rest_settled {events : List Event} {before : List Leaf} (hsure : Sure pr) :
    Keeps (Settled K actor key) (do
      match ← takeAll K (wire K) Wire.write actor key hash next events pr with
      | .inl pr => finishProcess Wire.write key.channelId next before pr
      | .inr result => return result : Errand M Wire String ProcessResult) := by
  intro d hd
  have htake : StaysSettled K actor key
      (takeAll K (wire K) Wire.write actor key hash next events pr) := takeAll_settled events hsure
  obtain ⟨hd', hafter⟩ := htake d hd
  rw [Prog.run_bind]
  rcases hrun : takeAll K (wire K) Wire.write actor key hash next events pr d with
    ⟨err | pr' | result, d'⟩
  · rw [hrun] at hd'
    exact hd'
  · rw [hrun] at hd' hafter
    exact finishProcess_settled (hafter pr' rfl).2 d' hd'
  · rw [hrun] at hd'
    exact hd'

theorem confirmed_of_apply {log log' : LogState} {e : Event} {p : MlsLeafConfirmed}
    (happly : log.apply K e = .ok log') (hp : e.core.payload = .mlsLeafConfirmed p) :
    ∃ group, log'.mlsGroups.lookup p.channelId = some group ∧ e.leaf ∈ group.leavesConfirmed := by
  obtain ⟨signer, m, -, heffect, rfl⟩ := LogState.apply_cases happly
  cases heffect with
  | mlsLeafConfirmed p' group hp' hgroup hconfirm =>
    obtain rfl := EventPayload.mlsLeafConfirmed.inj (hp'.symm.trans hp)
    exact ⟨group.confirmLeaf e.leaf, Finmap.lookup_insert _, Finset.mem_insert_self _ _⟩
  | _ => simp_all

theorem joinChannel_run {welcome : List UInt8} {d : Device M Wire} {store : ChannelStore M}
    {staged : StagedWelcome M.Group M.Keys} {inner : M.Group}
    (hstore : d.files.stores.lookup key.channelId = some store)
    (hstaged : M.stageWelcome store.keys welcome = some staged)
    (hgroup : staged.group = some inner) :
    described (joinChannel key.channelId welcome) d =
      (.ok (⟨inner, staged.treeHash⟩, ⟨staged.epoch, staged.treeHash⟩), { d with
        files := d.files.putStore key.channelId { store with
          keys := staged.keys, groups := store.groups.insert (M.groupId inner) inner } }) := by
  refine described_ok ?_
  simp [joinChannel, hstore, Prog.ofOption, ChannelStore.joinFromWelcome, hstaged, hgroup,
    Except.mapError]

theorem put_run {f : Files M → Files M} {d : Device M Wire} (hwrites : d.world.writes = []) :
    put Wire.write f d =
      (.ok (), { d with files := f d.files, world := { d.world with writes := [] } }) := by
  simp [put, Wire.write, hwrites]

theorem confirmLeaf_run {p : MlsWelcome} {info : JoinInfo} {d : Device M Wire} {log : LogState}
    {e : Event} (hchannel : p.channelId = key.channelId)
    (he : e = buildNextEvent K actor key.logServerId d.chain d.world.now (.mlsLeafConfirmed
      ⟨key.channelId, p.generation, info.epoch, info.treeHash, hash⟩))
    (hcalm : d.world.happenings = []) (hjudged : judge K d.world.log d.world.now e = .ok log) :
    described (confirmLeaf K (wire K) actor key hash p info) d =
      (.ok ⟨e.hash K, info.epoch⟩,
        { d with chain := ChainState.advance K e, world := (d.world.submit K e).2 }) := by
  have hanswer := (Wire.submit_calm hcalm hjudged).1
  refine described_ok ?_
  simp [confirmLeaf, hchannel, Prog.run_bind, authored, deliver, wire, ← he, hanswer]

theorem putChain_run {d : Device M Wire} (authorized : Bool) (hwrites : d.world.writes = []) :
    ∃ d', putChain Wire.write authorized d = (.ok (), d') ∧ d'.world.writes = [] ∧
      d'.world.log = d.world.log := by
  simp only [putChain, Prog.run_get_bind, Prog.run_modify_bind]
  rw [put_run (by exact hwrites)]
  exact ⟨_, rfl, rfl, rfl⟩

/-- With the group in the store, and if nothing fails, the leaf is confirmed. -/
theorem afterJoin_run {p : MlsWelcome} (info : JoinInfo) {mls : MlsChannelState}
    {group : MlsChannelGroup M} {d : Device M Wire} {log : LogState} {e : Event}
    (hchannel : p.channelId = key.channelId)
    (he : e = buildNextEvent K actor key.logServerId d.chain d.world.now (.mlsLeafConfirmed
      ⟨key.channelId, p.generation, info.epoch, info.treeHash, hash⟩))
    (hcalm : d.world.happenings = []) (hwrites : d.world.writes = [])
    (hjudged : judge K d.world.log d.world.now e = .ok log) :
    ∃ pr' d', (do
      let confirmation ← described (confirmLeaf K (wire K) actor key hash p info)
      putChain Wire.write (← Prog.get).ds.authorized
      let mls := { mls with
        epoch := confirmation.epoch, generation := p.generation, confirmed := true }
      putMlsState Wire.write key.channelId mls
      return .inl ⟨some group, mls, 1⟩ : Errand M Wire String (Stepped M)) d =
        (.ok (.inl pr'), d') ∧ Sure pr' ∧ Settled K actor key d' := by
  obtain ⟨-, hlog, hrest⟩ := Wire.submit_calm hcalm hjudged
  have hpayload : e.core.payload = .mlsLeafConfirmed
      ⟨key.channelId, p.generation, info.epoch, info.treeHash, hash⟩ := by rw [he]; rfl
  have hauthor : e.leaf = actor.leaf K := by rw [he]; rfl
  obtain ⟨record, hlookup, hleaf⟩ := confirmed_of_apply (judge_eq_ok.mp hjudged).2.2 hpayload
  rw [Prog.bind_of_ok (confirmLeaf_run hchannel he hcalm hjudged), Prog.run_get_bind]
  obtain ⟨d₁, hput, hwrites₁, hlog₁⟩ := putChain_run (M := M) d.ds.authorized
    (d := { d with chain := ChainState.advance K e, world := (d.world.submit K e).2 })
    (hrest.trans hwrites)
  rw [Prog.bind_of_ok hput, putMlsState, Prog.bind_of_ok (put_run hwrites₁)]
  refine ⟨_, _, rfl, ⟨rfl, rfl⟩, ⟨record, ?_, hauthor ▸ hleaf⟩, _, Finmap.lookup_insert _, rfl⟩
  rw [← hlookup, ← hlog, ← hlog₁]

theorem takeWelcome_joins {p : MlsWelcome} (mls : MlsChannelState) {d : Device M Wire}
    {store : ChannelStore M} {staged : StagedWelcome M.Group M.Keys} {log : LogState}
    (hcalm : d.world.happenings = []) (hwrites : d.world.writes = [])
    (hstore : d.files.stores.lookup key.channelId = some store)
    (hstaged : M.stageWelcome store.keys p.welcome = some staged) (hgroup : staged.group.isSome)
    (hchannel : p.channelId = key.channelId) (hown : (p.forMember, p.forDevice) = actor.leaf K)
    (hjudged : judge K d.world.log d.world.now (buildNextEvent K actor key.logServerId d.chain
      d.world.now (.mlsLeafConfirmed
        ⟨key.channelId, p.generation, staged.epoch, staged.treeHash, hash⟩)) = .ok log) :
    ∃ pr d', takeWelcome K (wire K) Wire.write actor key hash p ⟨none, mls, 0⟩ d =
      (.ok (.inl pr), d') ∧ Sure pr ∧ Settled K actor key d' := by
  obtain ⟨inner, hinner⟩ := Option.isSome_iff_exists.mp hgroup
  rw [takeWelcome, if_neg (not_not.mpr hown)]
  simp only
  rw [Prog.bind_of_ok (joinChannel_run hstore hstaged hinner)]
  exact afterJoin_run ⟨staged.epoch, staged.treeHash⟩ hchannel rfl hcalm hwrites hjudged

end Settled

theorem findSome?_filter {α β : Type} {f : α → Option β} {keep : α → Bool} {l : List α}
    (h : ∀ a ∈ l, (f a).isSome → keep a = true) : (l.filter keep).findSome? f = l.findSome? f := by
  induction l with
  | nil => rfl
  | cons a l ih =>
    have hrest := ih fun b hb => h b (List.mem_cons_of_mem a hb)
    by_cases hkeep : keep a = true
    · rw [List.filter_cons_of_pos hkeep, List.findSome?_cons, List.findSome?_cons, hrest]
    · have hnone : f a = none := by
        by_contra hsome
        exact hkeep (h a List.mem_cons_self (Option.isSome_iff_ne_none.mpr hsome))
      rw [List.filter_cons_of_neg hkeep, List.findSome?_cons, hnone, hrest]

/-- If no Welcome for the device has been passed over, the first one after the cursor is the first
one of all. -/
theorem findSome?_controlAfter {cursor : ℕ} {events : List Event}
    (h : ∀ x ∈ events.zipIdx 1, (ownWelcome K actor key x.1).isSome → cursor < x.2) :
    (controlAfter key.channelId cursor events).findSome? (ownWelcome K actor key) =
      events.findSome? (ownWelcome K actor key) := by
  have hall : events.findSome? (ownWelcome K actor key) =
      (events.zipIdx 1).findSome? fun x => ownWelcome K actor key x.1 := by
    conv_lhs => rw [← List.zipIdx_map_fst 1 events]
    rw [List.findSome?_map]
    rfl
  rw [hall, controlAfter, Paging.after, List.findSome?_map, List.filter_filter]
  refine findSome?_filter fun x hx hown => ?_
  have hchannel := channel_of_own hown
  simp [isControl, hchannel, h x hx hown]

/-- The processing takes the first Welcome, and the leaf is confirmed whatever else there is. -/
theorem takeAll_confirms {hash : Digest} (next : ℕ) {events : List Event} (mls : MlsChannelState)
    (before : List Leaf) {d : Device M Wire} {store : ChannelStore M} {p : MlsWelcome}
    {staged : StagedWelcome M.Group M.Keys} {log : LogState}
    (hchannel : ∀ e ∈ events, Server.controlChannel e.core.payload = some key.channelId)
    (hfirst : events.findSome? (ownWelcome K actor key) = some p)
    (hcalm : d.world.happenings = []) (hwrites : d.world.writes = [])
    (hstore : d.files.stores.lookup key.channelId = some store)
    (hstaged : M.stageWelcome store.keys p.welcome = some staged) (hgroup : staged.group.isSome)
    (hjudged : judge K d.world.log d.world.now (buildNextEvent K actor key.logServerId d.chain
      d.world.now (.mlsLeafConfirmed
        ⟨key.channelId, p.generation, staged.epoch, staged.treeHash, hash⟩)) = .ok log) :
    Settled K actor key ((do
      match ← takeAll K (wire K) Wire.write actor key hash next events ⟨none, mls, 0⟩ with
      | .inl pr => finishProcess Wire.write key.channelId next before pr
      | .inr result => return result : Errand M Wire String ProcessResult) d).2 := by
  obtain ⟨skipped, e, rest, rfl, he, hskipped⟩ := List.findSome?_eq_some_iff.mp hfirst
  obtain ⟨hpayload, hown⟩ := ownWelcome_eq_some he
  have hp : p.channelId = key.channelId := by
    simpa [Server.controlChannel, hpayload] using hchannel e (by simp)
  obtain ⟨pr, d', hjoin, hsure, hsettled⟩ := takeWelcome_joins mls hcalm hwrites hstore hstaged
    hgroup hp hown hjudged
  have hcontrol : takeControl K (wire K) Wire.write actor key hash next e ⟨none, mls, 0⟩ d =
      (.ok (.inl pr), d') := by
    simp only [takeControl, hpayload, hjoin]
  rw [takeAll_skips rfl (fun e he => hchannel e (List.mem_append_left _ he)) hskipped, takeAll,
    Prog.bind_assoc, Prog.bind_of_ok hcontrol]
  exact rest_settled hsure d' hsettled

theorem confirmed_of_ready {s : Place M Wire} {pages : ℕ}
    (hunread : Unread K actor key s.files s.world) (howed : Owed K actor key s)
    (hready : Ready K actor key s) (hpages : s.world.events.length < pages) :
    Confirmed K actor key (process K actor key .calm pages s) := by
  obtain ⟨ds, head, hds, hauthorized, -⟩ := howed.chain
  obtain ⟨store, hresume, hgroups, p, hp, staged, hstaged, hgroup, hpasses⟩ := hready
  have hstore := resumeStore_ok hresume
  have hnone : NoGroup key s.files := by
    intro store' hstore'
    obtain rfl := Option.some.inj (hstore.symm.trans hstore')
    exact hgroups
  set d : Device M Wire := ⟨ds.chain, ds, s.files, Tape.calm.on s.world⟩ with hd
  have hon : On K actor key d := hunread
  set mls := s.files.loadMlsState key.channelId store.instanceHash with hmls
  obtain ⟨hpoisoned, -, hwelcomes⟩ := loadMlsState_cursor store.instanceHash hon hnone
  have hload : store.loadGroup (channelGroupId key.logServerId key.channelId mls.generation) =
      .ok none := by
    simp [ChannelStore.loadGroup, hgroups]
  obtain ⟨log, hjudged⟩ : ∃ log, judge K s.world.log s.world.now
      (confirmation K actor key ds s.world store.instanceHash p staged) = .ok log := by
    have hok := hpasses ds hds
    rcases hj : judge K s.world.log s.world.now
        (confirmation K actor key ds s.world store.instanceHash p staged) with err | log
    · simp [hj, Except.isOk, Except.toBool] at hok
    · exact ⟨log, rfl⟩
  have hrun : process K actor key .calm pages s =
      (fun d' : Device M Wire => ⟨d'.files, d'.world⟩)
        (processMlsControlEvents K (wire K) Wire.write actor key pages d).2 := by
    simp only [process, runE2ee, hds, Option.getD_some, authorizeDeviceIfNeeded,
      Prog.run_bind, Prog.run_get, hauthorized, ↓reduceIte, Prog.run_pure, hd]
  rw [hrun]
  show Settled K actor key (processMlsControlEvents K (wire K) Wire.write actor key pages d).2
  obtain ⟨reads, hfetch⟩ := fetchAll_run (K := K) key.channelId pages mls.cursor d
  rcases hpage : fetchMlsControlExhaustive (wire K) key.channelId pages mls.cursor d with
    ⟨e | ⟨events, next⟩, d'⟩
  · rw [hpage] at hfetch
    have hlength : d.world.events.length < pages := hpages
    exact absurd rfl (hfetch.2 (by omega))
  rw [hpage] at hfetch
  obtain ⟨rfl, hevents, -⟩ := hfetch
  have hchannel : ∀ e ∈ events, Server.controlChannel e.core.payload = some key.channelId :=
    fun e he => (mem_controlAfter.mp (hevents ▸ he)).1
  have hfirst : events.findSome? (ownWelcome K actor key) = some p := by
    rw [hevents, findSome?_controlAfter hwelcomes]
    exact hp
  have hsettled := takeAll_confirms (d := Device.withReads d reads) next mls
    (leafSnapshot (none : Option (MlsChannelGroup M))) hchannel hfirst rfl rfl hstore hstaged hgroup
    hjudged
  rw [processMlsControlEvents, Prog.run_get_bind]
  simp only [hd, hstore, hresume, Except.mapError, Prog.run_bind, Prog.run_ofExcept]
  rw [← hmls, hpoisoned]
  simp only [Prog.run_bind, Prog.run_ofExcept, hload]
  rw [← hd, described_ok hpage]
  rw [Prog.run_bind] at hsettled
  exact hsettled

/-! ## Commands that were cut off -/

/-- In every state that a device gets to, however its commands have been cut off: if the log owes it a
place, and its store keeps no group and opens the Welcome, then one run of the processing without
failures confirms the leaf. -/
theorem join_survives (M : OpenMls) (K : Crypto) (g : Genesis) (actor : Actor) (key : ChannelKey)
    (moves : List Move) (howed : Owed K actor key (after (M := M) K actor key g moves))
    (hready : Ready K actor key (after (M := M) K actor key g moves)) (pages : ℕ)
    (hpages : (after (M := M) K actor key g moves).world.events.length < pages) :
    Confirmed K actor key (process K actor key .calm pages (after (M := M) K actor key g moves)) :=
  confirmed_of_ready (unread_after moves) howed hready hpages

section Sample

open SampleLog SampleMls

/-- The sample of OpenMLS, with Welcomes to the group of channel 7. -/
def joining : OpenMls :=
  { mls with
    stageWelcome := fun keys bytes => (mls.stageWelcome keys bytes).map fun staged =>
      { staged with group := staged.group.map fun group =>
          ({ group with id := "1/7/generation-0" } : Group) } }

def joiner : Actor := ⟨b0, bob, "1"⟩

def channel : ChannelKey := ⟨"1", 7⟩

def bobsLeaf : Leaf := (SampleLog.key bob, device b0)

/-- All events of the log: Alice adds the device that Bob has published a KeyPackage of. -/
def events : List Event :=
  signed (twoMembers.take 5 ++ [⟨bob, b0, 1, .mlsKeyPackagePublished ⟨[1], 5, 100⟩⟩,
    ⟨alice, a0, 2, .mlsCommit ⟨7, 0, 0, [], [⟨SampleLog.key bob, device b0, ref bob b0 2⟩], [], digest 0,
      digest 1, digest 1, "", 0⟩⟩,
    ⟨alice, a0, 2, .mlsWelcome ⟨7, 0, ref alice a0 3, SampleLog.key bob, device b0, [3, 1, 0, 1]⟩⟩])

/-- Bob joins the server, publishes a KeyPackage for the channel, and is added. -/
def untilWelcome : List Move :=
  [.others 1 (events.take 5) (some ⟨2, some (ref bob b0 1), 2, true, true⟩),
    .publish .calm 5,
    .others 2 (events.drop 6) (some ⟨3, some (ref bob b0 2), 3, true, true⟩)]

/-- The confirmation is lost on its way. -/
def cutOff : List Move := untilWelcome ++ [.process ⟨[⟨[], 2, .dropped⟩], [], []⟩ 20]

abbrev place (moves : List Move) : Place joining Wire := after crypto joiner channel genesis moves

def bobsPlace (s : Place joining Wire) : Prop :=
  (∃ group ∈ (s.world.log.mlsGroups.lookup 7).toList, bobsLeaf ∈ group.leavesPending) ∧
    (∃ e ∈ s.world.events, (ownWelcome crypto joiner channel e).isSome) ∧
    ∃ ds ∈ s.files.deviceState.toList, ds.authorized = true ∧
      ∃ head ∈ (s.world.log.chains.lookup bobsLeaf).toList,
        ds.nextSeq = head.seq + 1 ∧ ds.lastEventHash = some head.hash

instance {s : Place joining Wire} : Decidable (bobsPlace s) := by
  unfold bobsPlace
  infer_instance

theorem owed_of_bobsPlace {s : Place joining Wire} (h : bobsPlace s) :
    Owed crypto joiner channel s := by
  obtain ⟨⟨group, hgroup, hpending⟩, hwelcome, ds, hds, hauthorized, head, hhead, hseq, hlast⟩ := h
  exact ⟨⟨group, Option.mem_toList.mp hgroup, hpending⟩, hwelcome,
    ds, head, Option.mem_toList.mp hds, hauthorized, Option.mem_toList.mp hhead, hseq, hlast⟩

theorem owed_untilWelcome : Owed crypto joiner channel (place untilWelcome) :=
  owed_of_bobsPlace (by decide +kernel)

theorem owed_cutOff : Owed crypto joiner channel (place cutOff) :=
  owed_of_bobsPlace (by decide +kernel)

instance : DecidableEq joining.Group := inferInstanceAs (DecidableEq SampleMls.Group)

/-- The condition at a store and a chain that are there. -/
def opens (s : Place joining Wire) : Prop :=
  ∃ store ∈ (s.files.resumeStore 7).toOption.toList, store.groups = ∅ ∧
    ∃ p ∈ (firstWelcome crypto joiner channel s.world).toList,
      ∃ staged ∈ (joining.stageWelcome store.keys p.welcome).toList, staged.group.isSome ∧
        ∃ ds ∈ s.files.deviceState.toList,
          (judge crypto s.world.log s.world.now
            (confirmation crypto joiner channel ds s.world store.instanceHash p staged)).isOk = true

instance {s : Place joining Wire} : Decidable (opens s) := by
  unfold opens
  infer_instance

theorem ready_of_opens {s : Place joining Wire} (h : opens s) :
    Ready crypto joiner channel s := by
  obtain ⟨store, hstore, hgroups, p, hp, staged, hstaged, hgroup, ds, hds, hjudged⟩ := h
  have hresume : s.files.resumeStore 7 = .ok store := by
    have hsome := Option.mem_toList.mp hstore
    rcases hr : s.files.resumeStore 7 with e | store'
    · rw [hr] at hsome
      cases hsome
    · rw [hr] at hsome
      exact congrArg _ (Option.some.inj hsome)
  refine ⟨store, hresume, hgroups, p, Option.mem_toList.mp hp, staged, Option.mem_toList.mp hstaged,
    hgroup, fun ds' hds' => ?_⟩
  obtain rfl := Option.some.inj ((Option.mem_toList.mp hds).symm.trans hds')
  exact hjudged

/-- The run that the Welcome waits for. -/
theorem join_survives_sample :
    Confirmed crypto joiner channel (process crypto joiner channel .calm 20 (place untilWelcome)) :=
  join_survives joining crypto genesis joiner channel untilWelcome owed_untilWelcome
    (ready_of_opens (by decide +kernel)) 20 (by decide +kernel)

/-- The group is in the store, and the file says that the leaf is not confirmed. -/
theorem unconfirmed : ∃ mls ∈ ((process crypto joiner channel .calm 20
    (place cutOff)).files.mlsStates.lookup 7).toList, mls.confirmed = false := by
  decide +kernel

/-- The next run passes over the Welcome: the device takes itself for joined. -/
theorem not_always_confirmed :
    ¬∀ (M : OpenMls) (K : Crypto) (g : Genesis) (actor : Actor) (key : ChannelKey)
      (moves : List Move) (pages : ℕ), Owed K actor key (after (M := M) K actor key g moves) →
      (after (M := M) K actor key g moves).world.events.length < pages →
      Confirmed K actor key
        (process K actor key .calm pages (after (M := M) K actor key g moves)) := by
  intro h
  obtain ⟨-, mls, hmls, hconfirmed⟩ :=
    h joining crypto genesis joiner channel cutOff 20 owed_cutOff (by decide +kernel)
  obtain ⟨mls', hmls', hfalse⟩ := unconfirmed
  obtain rfl := Option.some.inj (hmls.symm.trans (Option.mem_toList.mp hmls'))
  exact Bool.false_ne_true (hfalse.symm.trans hconfirmed)

end Sample
end JoinSurvives
