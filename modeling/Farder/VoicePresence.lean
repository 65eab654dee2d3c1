import Farder.Server.SampleHost
import Farder.Server.SightKept
import Farder.Server.VoiceRoster
import Farder.Support.Reports

/-! # The truth of the voice roster

In every run a member has at most one row, and a client that follows the announcements shows what
the table says. Whether the table says the truth depends on the steps that end a member's presence
without a request to leave. -/
namespace Server

open EventLog Guarded Permissions Replica

variable {K : Crypto} {host host' : Host} {lobby lobby' : Lobby} {moment : Moment} {m : PublicKey}
  {channelId : ℕ}

def Lobby.members (lobby : Lobby) (channelId : ℕ) : Set PublicKey :=
  {m | ∃ row ∈ lobby.voiceState, row.channelId = channelId ∧ row.member = m}

def Lobby.OneRowEach (lobby : Lobby) : Prop :=
  lobby.voiceState.Pairwise fun row row' => row.member ≠ row'.member

/-- Every row is of a member with a live connection, in a channel that is not deleted and that the
member may see. -/
structure Lobby.RowsTrue (lobby : Lobby) : Prop where
  connected : ∀ row ∈ lobby.voiceState, ∃ c isOwner,
    lobby.connections.lookup c = some (row.member, isOwner)
  present : ∀ row ∈ lobby.voiceState, lobby.host.db.getChannel row.channelId ≠ none
  seen : ∀ row ∈ lobby.voiceState, lobby.host.maySee row.member row.channelId = true

/-- An operation on the host that is let through takes from no member with a row anything that it
sees its channel by. -/
def Lobby.LeavesRowsInSight (K : Crypto) (lobby : Lobby) (moment : Moment) (op : HostOp) : Prop :=
  lobby.host.Accepts K (moment, op) →
    ∀ row ∈ lobby.voiceState, op.LeavesSight lobby.host moment row.member row.channelId

/-- An operation keeps the rows true: it ends no presence without a row's leave. What is refused
ends none. -/
def Lobby.KeepsRowsTrue (K : Crypto) (lobby : Lobby) (e : Moment × LobbyOp) : Prop :=
  match e.2 with
  | .connect connection member displayName credentials genesis =>
    lobby.connections.lookup connection = none → lobby.LeavesRowsInSight K e.1
      (.handshake member displayName credentials genesis)
  | .disconnect connection => ∀ m isOwner, lobby.connections.lookup connection = some (m, isOwner) →
    (∃ c isOwner', c ≠ connection ∧ lobby.connections.lookup c = some (m, isOwner')) ∨
      ∀ row ∈ lobby.voiceState, row.member ≠ m
  | .joinChannelMedia connection channelId =>
    ∀ m isOwner, lobby.connections.lookup connection = some (m, isOwner) →
      lobby.host.contentBlockReason m = none →
      (lobby.expireTimeout e.1 m).checkJoin e.1 m isOwner channelId = .ok () →
        lobby.host.maySee m channelId = true
  | .leaveChannelMedia .. => True
  | .other op => lobby.LeavesRowsInSight K e.1 op
  | .restart => lobby.voiceState = []

theorem rowsTrue_iff : lobby.RowsTrue ↔
    (∀ row ∈ lobby.voiceState, ∃ c isOwner,
      lobby.connections.lookup c = some (row.member, isOwner)) ∧
    ∀ row ∈ lobby.voiceState, lobby.host.maySee row.member row.channelId = true :=
  ⟨fun h => ⟨h.connected, h.seen⟩,
    fun ⟨hconnected, hseen⟩ =>
      ⟨hconnected, fun row hrow => present_of_maySee (hseen row hrow), hseen⟩⟩

theorem rowsTrue_sameSight (h : lobby.RowsTrue) (hsight : SameSight lobby.host host) :
    Lobby.RowsTrue { lobby with host } :=
  rowsTrue_iff.mpr ⟨h.connected, fun row hrow => (hsight _ _).trans (h.seen row hrow)⟩

/-- What a step of the host needs to hide no row. -/
structure Lobby.InOrder (lobby : Lobby) : Prop where
  ids : lobby.host.db.IdsBounded
  roles : lobby.host.community.RolesKept

theorem seen_perform {op : HostOp} (horder : lobby.InOrder) (h : lobby.RowsTrue)
    (hleaves : lobby.LeavesRowsInSight K moment op) {row : VoiceRow}
    (hrow : row ∈ lobby.voiceState) :
    (lobby.host.perform K moment op).1.maySee row.member row.channelId = true :=
  @perform_seen K lobby.host row.member row.channelId (moment, op) horder.ids horder.roles
    (h.seen row hrow) fun haccepts => hleaves haccepts row hrow

theorem rowsTrue_perform {op : HostOp} (horder : lobby.InOrder) (h : lobby.RowsTrue)
    (hleaves : lobby.LeavesRowsInSight K moment op) :
    Lobby.RowsTrue { lobby with host := (lobby.host.perform K moment op).1 } :=
  rowsTrue_iff.mpr ⟨h.connected, fun _ => seen_perform horder h hleaves⟩

theorem rowsTrue_enter {connection : ℕ} (h : lobby.RowsTrue)
    (hfree : lobby.connections.lookup connection = none) :
    (lobby.enter connection m).RowsTrue := by
  refine rowsTrue_iff.mpr ⟨fun row hrow => ?_, h.seen⟩
  obtain ⟨c, isOwner, hc⟩ := h.connected row hrow
  have hne : c ≠ connection := by
    rintro rfl
    rw [hfree] at hc
    cases hc
  exact ⟨c, isOwner, by rw [Lobby.enter, FiniteMap.lookup_insert_eq, if_neg hne, hc]⟩

theorem rowsTrue_cleanup {connection : ℕ} {isOwner : Bool} (h : lobby.RowsTrue)
    (hlive : lobby.connections.lookup connection = some (m, isOwner))
    (hother : (∃ c isOwner', c ≠ connection ∧ lobby.connections.lookup c = some (m, isOwner')) ∨
      ∀ row ∈ lobby.voiceState, row.member ≠ m) :
    (lobby.cleanupSession connection m).RowsTrue := by
  have hsight : SameSight lobby.host (lobby.cleanupSession connection m).host := by
    unfold Lobby.cleanupSession
    split_ifs
    · exact fun _ _ => rfl
    · exact fun _ _ => rfl
  have hrows : (lobby.cleanupSession connection m).voiceState = lobby.voiceState := by
    unfold Lobby.cleanupSession
    split_ifs <;> rfl
  have hlookup : ∀ c, (lobby.cleanupSession connection m).connections.lookup c =
      if c = connection then none else lobby.connections.lookup c := by
    intro c
    unfold Lobby.cleanupSession
    split_ifs <;> simp [*]
  rw [rowsTrue_iff, hrows]
  simp only [hlookup, hsight _ _]
  refine ⟨fun row hrow => ?_, h.seen⟩
  obtain ⟨c, isOwner, hc⟩ := h.connected row hrow
  by_cases hne : c = connection
  · subst hne
    obtain ⟨hm, -⟩ := Prod.mk.inj (Option.some.inj (hc.symm.trans hlive))
    rcases hother with ⟨c', isOwner', hne, hc'⟩ | hnone
    · exact ⟨c', isOwner', by rw [if_neg hne, hc', hm]⟩
    · exact absurd hm (hnone row hrow)
  · exact ⟨c, isOwner, by rw [if_neg hne, hc]⟩

theorem sameSight_expired : SameSight lobby.host (lobby.expireTimeout moment m).host :=
  sameSight_frame.expireTimeout _ _ _

theorem joinChannelMedia_refused {isOwner : Bool} {failure : Failure}
    (h : (lobby.expireTimeout moment m).checkJoin moment m isOwner channelId = .error failure) :
    lobby.joinChannelMedia moment m isOwner channelId =
      (lobby.expireTimeout moment m, .error failure) := by
  simp only [Lobby.joinChannelMedia, h]

theorem joinChannelMedia_accepted {isOwner : Bool}
    (h : (lobby.expireTimeout moment m).checkJoin moment m isOwner channelId = .ok ()) :
    lobby.joinChannelMedia moment m isOwner channelId =
      ({ lobby.expireTimeout moment m with
          voiceState := joinVoice lobby.voiceState channelId m moment.now },
        .ok ((leaveAllVoice lobby.voiceState m).2.map (fun id => ⟨.all, .mediaLeft id m⟩) ++
          [⟨.all, .mediaJoined channelId m
            ((lobby.expireTimeout moment m).displayName m)⟩])) := by
  simp only [Lobby.joinChannelMedia, h]
  rfl

theorem mem_joinVoice {rows : List VoiceRow} {now : ℕ} {row : VoiceRow} :
    row ∈ joinVoice rows channelId m now ↔
      row ∈ rows ∧ row.member ≠ m ∨ row = ⟨channelId, m, now⟩ := by
  simp [joinVoice, leaveAllVoice]

theorem rowsTrue_join {connection : ℕ} {isOwner : Bool} (h : lobby.RowsTrue)
    (hlive : lobby.connections.lookup connection = some (m, isOwner))
    (hsees : (lobby.expireTimeout moment m).checkJoin moment m isOwner channelId = .ok () →
      lobby.host.maySee m channelId = true) :
    (lobby.joinChannelMedia moment m isOwner channelId).1.RowsTrue := by
  have hsight := @sameSight_expired lobby moment m
  cases hcheck : (lobby.expireTimeout moment m).checkJoin moment m isOwner channelId with
  | error failure =>
    rw [joinChannelMedia_refused hcheck]
    exact rowsTrue_sameSight h hsight
  | ok _ =>
    rw [joinChannelMedia_accepted hcheck]
    simp only [rowsTrue_iff, mem_joinVoice, hsight _ _]
    constructor
    · rintro row (⟨hrow, -⟩ | rfl)
      · exact h.connected row hrow
      · exact ⟨connection, isOwner, hlive⟩
    · rintro row (⟨hrow, -⟩ | rfl)
      · exact h.seen row hrow
      · exact hsees hcheck

theorem rowsTrue_leave (h : lobby.RowsTrue) : (lobby.leaveChannelMedia m channelId).1.RowsTrue := by
  refine rowsTrue_iff.mpr ⟨fun row hrow => ?_, fun row hrow => ?_⟩
  · exact h.connected row (List.mem_filter.mp hrow).1
  · exact h.seen row (List.mem_filter.mp hrow).1

theorem onConnection_cases {connection : ℕ}
    {handle : PublicKey → Bool → Lobby × Checked (List MediaBroadcast)} :
    (∃ failure, lobby.onConnection connection handle = (lobby, .error failure)) ∨
    ∃ m isOwner, lobby.connections.lookup connection = some (m, isOwner) ∧
      lobby.host.contentBlockReason m = none ∧
      lobby.onConnection connection handle = handle m isOwner := by
  unfold Lobby.onConnection
  cases lobby.connections.lookup connection with
  | none => exact .inl ⟨_, rfl⟩
  | some c =>
    obtain ⟨m, isOwner⟩ := c
    simp only
    cases hblocked : lobby.host.contentBlockReason m with
    | none => exact .inr ⟨m, isOwner, rfl, hblocked, rfl⟩
    | some reason => exact .inl ⟨_, rfl⟩

theorem rowsTrue_step {e : Moment × LobbyOp} (horder : lobby.InOrder) (h : lobby.RowsTrue)
    (hkeeps : lobby.KeepsRowsTrue K e) : (lobby.perform K e.1 e.2).1.RowsTrue := by
  obtain ⟨moment, op⟩ := e
  cases op with
  | connect connection member displayName credentials genesis =>
    cases hlookup : lobby.connections.lookup connection with
    | some c =>
      simp only [Lobby.perform, hlookup]
      exact h
    | none =>
      have hhost := rowsTrue_perform horder h (hkeeps hlookup)
      rw [Host.perform] at hhost
      simp only [Lobby.perform, hlookup]
      cases (lobby.host.handshake K member moment displayName credentials genesis).2 with
      | ok _ => exact rowsTrue_enter hhost hlookup
      | error _ => exact hhost
  | disconnect connection =>
    cases hlookup : lobby.connections.lookup connection with
    | none =>
      simp only [Lobby.perform, hlookup]
      exact h
    | some c =>
      obtain ⟨m, isOwner⟩ := c
      simp only [Lobby.perform, hlookup]
      exact rowsTrue_cleanup h hlookup (hkeeps m isOwner hlookup)
  | joinChannelMedia connection channelId =>
    rw [Lobby.perform]
    rcases onConnection_cases with ⟨failure, hsame⟩ | ⟨m, isOwner, hlive, hgate, heq⟩
    · rw [hsame]
      exact h
    · rw [heq]
      exact rowsTrue_join h hlive (hkeeps m isOwner hlive hgate)
  | leaveChannelMedia connection channelId =>
    rw [Lobby.perform]
    rcases onConnection_cases with ⟨failure, hsame⟩ | ⟨m, isOwner, -, -, heq⟩
    · rw [hsame]
      exact h
    · rw [heq]
      exact rowsTrue_leave h
  | other op => exact rowsTrue_perform horder h hkeeps
  | restart =>
    have hnone : (lobby.restart K moment).voiceState = [] := hkeeps
    rw [Lobby.perform]
    refine rowsTrue_iff.mpr ⟨fun row hrow => ?_, fun row hrow => ?_⟩ <;>
      exact absurd (hnone ▸ hrow) List.not_mem_nil

theorem inOrder_perform {op : HostOp} (h : lobby.InOrder) :
    Lobby.InOrder { lobby with host := (lobby.host.perform K moment op).1 } :=
  ⟨(@perform_ids K lobby.host (moment, op)).idsBounded h.ids,
    @perform_rolesKept K lobby.host (moment, op) h.roles⟩

theorem inOrder_expired (h : lobby.InOrder) : (lobby.expireTimeout moment m).InOrder :=
  ⟨h.ids, h.roles.within (Community.expireTimeout_within _ _)⟩

theorem inOrder_restart (h : lobby.InOrder) : (lobby.restart K moment).InOrder := by
  unfold Lobby.restart
  cases hstarted : lobby.host.performStore K moment .reconcile with
  | error _ => exact ⟨h.ids, h.roles⟩
  | ok started =>
    obtain ⟨server, hserver, rfl⟩ := map_eq_ok.mp hstarted
    have houtline := restart_outline hserver
    refine ⟨?_, h.roles⟩
    have hids : server.db.channelIds = lobby.host.db.channelIds := congrArg Prod.fst houtline
    have hnext : server.db.nextChannel = lobby.host.db.nextChannel :=
      congrArg (fun outline => outline.2.1) houtline
    have hserverIds : server.db.IdsBounded := by
      rw [Db.IdsBounded, hids, hnext]
      exact h.ids
    exact hserverIds

theorem inOrder_step {e : Moment × LobbyOp} (h : lobby.InOrder) :
    (lobby.perform K e.1 e.2).1.InOrder := by
  obtain ⟨moment, op⟩ := e
  cases op with
  | connect connection member displayName credentials genesis =>
    have hhost := @inOrder_perform K lobby moment
      (.handshake member displayName credentials genesis) h
    rw [Host.perform] at hhost
    simp only [Lobby.perform]
    cases lobby.connections.lookup connection with
    | some c => exact h
    | none =>
      cases (lobby.host.handshake K member moment displayName credentials genesis).2 with
      | ok _ => exact ⟨hhost.ids, hhost.roles⟩
      | error _ => exact hhost
  | disconnect connection =>
    simp only [Lobby.perform]
    cases lobby.connections.lookup connection with
    | none => exact h
    | some c =>
      simp only [Lobby.cleanupSession]
      split_ifs <;> exact ⟨h.ids, h.roles⟩
  | joinChannelMedia connection channelId =>
    rw [Lobby.perform]
    rcases onConnection_cases with ⟨failure, hsame⟩ | ⟨m, isOwner, -, -, heq⟩
    · rw [hsame]
      exact h
    · have hexpired := @inOrder_expired lobby moment m h
      rw [heq]
      cases hcheck : (lobby.expireTimeout moment m).checkJoin moment m isOwner channelId with
      | error failure =>
        rw [joinChannelMedia_refused hcheck]
        exact hexpired
      | ok _ =>
        rw [joinChannelMedia_accepted hcheck]
        exact ⟨hexpired.ids, hexpired.roles⟩
  | leaveChannelMedia connection channelId =>
    rw [Lobby.perform]
    rcases onConnection_cases with ⟨failure, hsame⟩ | ⟨m, isOwner, -, -, heq⟩
    · rw [hsame]
      exact h
    · rw [heq]
      exact ⟨h.ids, h.roles⟩
  | other op => exact inOrder_perform h
  | restart => exact inOrder_restart h

/-- What a step does to the table, and what it announces. -/
inductive RosterEffect (rows : List VoiceRow) (now : ℕ) :
    List VoiceRow → List MediaEvent → Prop
  | none : RosterEffect rows now rows []
  | joined (m : PublicKey) (channelId : ℕ) (displayName : String) :
      RosterEffect rows now (joinVoice rows channelId m now)
        ((leaveAllVoice rows m).2.map (fun id => .mediaLeft id m) ++
          [.mediaJoined channelId m displayName])
  | left (m : PublicKey) (channelId : ℕ) :
      RosterEffect rows now (leaveVoice rows channelId m) [.mediaLeft channelId m]

theorem roster_effect {e : Moment × LobbyOp} : RosterEffect lobby.voiceState e.1.now
    (lobby.perform K e.1 e.2).1.voiceState (lobby.announced K e) := by
  obtain ⟨moment, op⟩ := e
  unfold Lobby.announced
  cases op with
  | connect connection member displayName credentials genesis =>
    simp only [Lobby.perform]
    split
    · exact .none
    · split <;> exact .none
  | disconnect connection =>
    simp only [Lobby.perform]
    split
    · exact .none
    · simp only [Lobby.cleanupSession]
      split_ifs <;> exact .none
  | joinChannelMedia connection channelId =>
    simp only [Lobby.perform]
    rcases onConnection_cases with ⟨failure, hsame⟩ | ⟨m, isOwner, -, -, heq⟩
    · rw [hsame]
      exact .none
    · rw [heq]
      cases hcheck : (lobby.expireTimeout moment m).checkJoin moment m isOwner channelId with
      | error failure =>
        rw [joinChannelMedia_refused hcheck]
        exact .none
      | ok _ =>
        rw [joinChannelMedia_accepted hcheck]
        have heffect := @RosterEffect.joined lobby.voiceState moment.now m channelId
          ((lobby.expireTimeout moment m).displayName m)
        simpa [List.filter_append, List.filter_map, Function.comp_def] using heffect
  | leaveChannelMedia connection channelId =>
    simp only [Lobby.perform]
    rcases onConnection_cases with ⟨failure, hsame⟩ | ⟨m, isOwner, -, -, heq⟩
    · rw [hsame]
      exact .none
    · rw [heq]
      have hevents : ∀ ended : List MediaBroadcast, (∀ b ∈ ended, b.target ≠ .all) →
          (((⟨.all, .mediaLeft channelId m⟩ :: ended).filter fun b => b.target = .all).map
            MediaBroadcast.event) = [.mediaLeft channelId m] := by
        intro ended hended
        rw [List.filter_cons_of_pos (by simp), List.filter_eq_nil_iff.mpr (by simpa using hended)]
        rfl
      simp only [Lobby.leaveChannelMedia]
      rw [hevents]
      · exact .left m channelId
      · intro b hb
        split_ifs at hb
        · obtain ⟨other, -, rfl⟩ := List.mem_map.mp hb
          exact nofun
        · simp at hb
  | other op => exact .none
  | restart => exact .none

/-! ## One row for each member -/

theorem oneRow_step {e : Moment × LobbyOp} (h : lobby.OneRowEach) :
    (lobby.perform K e.1 e.2).1.OneRowEach := by
  have heffect := @roster_effect K lobby e
  unfold Lobby.OneRowEach at h ⊢
  generalize lobby.announced K e = events at heffect
  generalize (lobby.perform K e.1 e.2).1.voiceState = rows at heffect
  cases heffect with
  | none => exact h
  | joined m channelId displayName =>
    refine List.pairwise_append.mpr ⟨h.filter _, List.pairwise_singleton _ _, ?_⟩
    intro row hrow row' hrow'
    obtain rfl := List.mem_singleton.mp hrow'
    simpa using (List.mem_filter.mp hrow).2
  | left m channelId => exact h.filter _

def changeIn (channelId : ℕ) : MediaEvent → Option (Change PublicKey)
  | .mediaJoined id m _ => if id = channelId then some (.add m) else none
  | .mediaLeft id m => if id = channelId then some (.remove m) else none
  | .streamCallEnded _ => none

def changesIn (channelId : ℕ) (events : List MediaEvent) : List (Change PublicKey) :=
  events.filterMap (changeIn channelId)

theorem changesIn_append {events events' : List MediaEvent} :
    changesIn channelId (events ++ events') =
      changesIn channelId events ++ changesIn channelId events' :=
  List.filterMap_append

theorem replay_joined {s : Set PublicKey} {id : ℕ} {displayName : String} :
    replay s (changesIn channelId [.mediaJoined id m displayName]) =
      {pk | pk ∈ s ∨ pk = m ∧ id = channelId} := by
  ext pk
  by_cases hid : id = channelId
  · simp [changesIn, changeIn, hid, Change.apply, or_comm]
  · simp [changesIn, changeIn, hid]

theorem replay_left {s : Set PublicKey} {ids : List ℕ} :
    replay s (changesIn channelId (ids.map fun id => .mediaLeft id m)) =
      {pk | pk ∈ s ∧ ¬(pk = m ∧ channelId ∈ ids)} := by
  induction ids generalizing s with
  | nil => simp [changesIn]
  | cons id ids ih =>
    rw [List.map_cons, ← List.singleton_append, changesIn_append, replay_append, ih]
    ext pk
    by_cases hid : id = channelId
    · simp [changesIn, changeIn, hid, Change.apply]
      tauto
    · simp [changesIn, changeIn, hid, Ne.symm hid]

theorem members_step {e : Moment × LobbyOp} : (lobby.perform K e.1 e.2).1.members channelId =
    replay (lobby.members channelId) (changesIn channelId (lobby.announced K e)) := by
  have heffect := @roster_effect K lobby e
  unfold Lobby.members
  generalize lobby.announced K e = events at heffect
  generalize (lobby.perform K e.1 e.2).1.voiceState = rows at heffect
  cases heffect with
  | none => rfl
  | joined m id displayName =>
    rw [changesIn_append, replay_append, replay_left, replay_joined]
    ext pk
    simp only [Set.mem_ofPred_eq, mem_joinVoice, leaveAllVoice, List.mem_map, List.mem_filter,
      decide_eq_true_eq]
    constructor
    · rintro ⟨row, ⟨hrow, hne⟩ | rfl, hid, rfl⟩
      · exact .inl ⟨⟨row, hrow, hid, rfl⟩, fun hm => hne hm.1⟩
      · exact .inr ⟨rfl, hid⟩
    · rintro (⟨⟨row, hrow, hid, rfl⟩, hkept⟩ | ⟨rfl, hid⟩)
      · exact ⟨row, .inl ⟨hrow, fun hm => hkept ⟨hm, row, ⟨hrow, hm⟩, hid⟩⟩, hid, rfl⟩
      · exact ⟨_, .inr rfl, hid, rfl⟩
  | left m id =>
    have hleft := @replay_left m channelId
      {m | ∃ row ∈ lobby.voiceState, row.channelId = channelId ∧ row.member = m} [id]
    rw [List.map_singleton] at hleft
    rw [hleft]
    ext pk
    simp only [Set.mem_ofPred_eq, leaveVoice, List.mem_filter, List.mem_singleton,
      decide_eq_true_eq]
    constructor
    · rintro ⟨row, ⟨hrow, hkept⟩, rfl, rfl⟩
      exact ⟨⟨row, hrow, rfl, rfl⟩, fun ⟨hm, hid⟩ => hkept ⟨hid, hm⟩⟩
    · rintro ⟨⟨row, hrow, rfl, rfl⟩, hkept⟩
      exact ⟨row, ⟨hrow, fun ⟨hid, hm⟩ => hkept ⟨hm, hid⟩⟩, rfl, rfl⟩

def VoiceStates.shown (states : VoiceStates) (channelId : ℕ) : Set PublicKey :=
  {m | ∃ name, (m, name) ∈ states channelId}

theorem shown_receive {states : VoiceStates} {event : MediaEvent} :
    (states.receive event).shown channelId =
      replay (states.shown channelId) (changesIn channelId [event]) := by
  cases event with
  | mediaJoined id m displayName =>
    rw [replay_joined]
    ext pk
    simp only [VoiceStates.receive, VoiceStates.shown, Set.mem_ofPred_eq]
    split_ifs with hany
    · obtain ⟨v, hv, hm⟩ := List.any_eq_true.mp hany
      have hm : v.1 = m := by simpa using hm
      constructor
      · exact .inl
      · rintro (h | ⟨rfl, rfl⟩)
        · exact h
        · exact ⟨v.2, hm ▸ hv⟩
    · by_cases hid : id = channelId
      · subst hid
        simp [exists_or]
      · simp [Function.update_of_ne (Ne.symm hid), hid]
  | mediaLeft id m =>
    have hleft := @replay_left m channelId (states.shown channelId) [id]
    rw [List.map_singleton] at hleft
    rw [hleft]
    ext pk
    simp only [VoiceStates.receive, VoiceStates.shown, Set.mem_ofPred_eq]
    by_cases hid : id = channelId
    · subst hid
      simp
    · simp [Ne.symm hid]
  | streamCallEnded => rfl

theorem shown_receiveAll {states : VoiceStates} {events : List MediaEvent} :
    (states.receiveAll events).shown channelId =
      replay (states.shown channelId) (changesIn channelId events) := by
  induction events generalizing states with
  | nil => rfl
  | cons event events ih =>
    have hrest : states.receiveAll (event :: events) = (states.receive event).receiveAll events :=
      rfl
    rw [hrest, ih, shown_receive, ← replay_append, ← changesIn_append]
    rfl

theorem shown_setVoiceState {states : VoiceStates} :
    (states.setVoiceState channelId (lobby.getMediaState channelId)).shown channelId =
      lobby.members channelId := by
  have hsorted : ∀ row, row ∈ getVoiceParticipants lobby.voiceState channelId ↔
      row ∈ lobby.voiceState ∧ row.channelId = channelId := by
    intro row
    rw [getVoiceParticipants, List.mem_insertionSort, List.mem_filter, decide_eq_true_eq]
  ext m
  simp only [VoiceStates.shown, VoiceStates.setVoiceState, Function.update_self,
    Lobby.getMediaState, Lobby.members, Set.mem_ofPred_eq, List.map_map, List.mem_map, hsorted]
  constructor
  · rintro ⟨name, row, ⟨hrow, hid⟩, heq⟩
    exact ⟨row, hrow, hid, congrArg Prod.fst heq⟩
  · rintro ⟨row, hrow, hid, rfl⟩
    exact ⟨_, row, ⟨hrow, hid⟩, rfl⟩

def announcements (K : Crypto) (tr : List (Transition Lobby (Moment × LobbyOp))) :
    List MediaEvent :=
  tr.flatMap fun t => t.pre.announced K t.event

theorem members_run {tr : List (Transition Lobby (Moment × LobbyOp))}
    (hrun : LobbyRun K lobby tr lobby') : lobby'.members channelId =
      replay (lobby.members channelId) (changesIn channelId (announcements K tr)) := by
  induction hrun with
  | nil => rfl
  | @snoc pre post e tr hrun hstep ih =>
    have hannounced : announcements K (tr ++ [⟨pre, e, post⟩]) =
        announcements K tr ++ pre.announced K e := by simp [announcements]
    have hpost : (pre.perform K e.1 e.2).1 = post := hstep
    rw [hannounced, changesIn_append, replay_append, ← ih, ← hpost, members_step]

/-- A client that fetches the list of a channel, and then hears of some changes that the list has
already and of all later ones, shows the members that the table has. -/
theorem shown_run {queued later : List (Transition Lobby (Moment × LobbyOp))}
    {fetched : Lobby} (hqueued : LobbyRun K lobby queued fetched)
    (hlater : LobbyRun K fetched later lobby') (states : VoiceStates) :
    ((states.setVoiceState channelId (fetched.getMediaState channelId)).receiveAll
      (announcements K (queued ++ later))).shown channelId = lobby'.members channelId := by
  have happend : announcements K (queued ++ later) =
      announcements K queued ++ announcements K later := List.flatMap_append
  rw [shown_receiveAll, shown_setVoiceState, happend, changesIn_append,
    catches_up (members_run hqueued).symm, ← members_run hlater]

theorem oneRow_run {setup : Setup} {tr : List (Transition Lobby (Moment × LobbyOp))}
    (hrun : LobbyRun K (.firstRun setup) tr lobby) : lobby.OneRowEach := by
  refine hrun.invariant (I := Lobby.OneRowEach) List.Pairwise.nil fun pre e post hpre hstep => ?_
  have hpost : (pre.perform K e.1 e.2).1 = post := hstep
  exact hpost ▸ oneRow_step hpre

theorem inOrder_firstRun {setup : Setup} : (Lobby.firstRun setup).InOrder :=
  ⟨firstRun_nextIsFresh.1, firstRun_rolesKept⟩

/-- The run lemma: the rows stay true as long as every operation keeps them so. -/
theorem rowsTrue_run {tr : List (Transition Lobby (Moment × LobbyOp))}
    (hrun : LobbyRun K lobby tr lobby') (horder : lobby.InOrder) (h : lobby.RowsTrue)
    (hkeeps : ∀ t ∈ tr, t.pre.KeepsRowsTrue K t.event) : ∀ t ∈ tr, t.post.RowsTrue := by
  have hboth := hrun.kept (Q := fun lobby => lobby.InOrder ∧ lobby.RowsTrue) ⟨horder, h⟩
    fun t ht hstep ⟨horder, htrue⟩ => by
      have hpost : (t.pre.perform K t.event.1 t.event.2).1 = t.post := hstep
      exact hpost ▸ ⟨inOrder_step horder, rowsTrue_step horder htrue (hkeeps t ht)⟩
  exact fun t ht => (hboth t ht).2.2

/-- In every run a member has at most one row; a client that follows the announcements shows what
the table has; and the rows are true all along if every operation keeps them true. The client has
fetched a list somewhere in the run, when some announcements were still on the way. -/
theorem voice_roster {setup : Setup}
    {before queued later : List (Transition Lobby (Moment × LobbyOp))} {heard fetched : Lobby}
    (hbefore : LobbyRun K (.firstRun setup) before heard)
    (hqueued : LobbyRun K heard queued fetched) (hlater : LobbyRun K fetched later lobby) :
    lobby.OneRowEach ∧
    (∀ (states : VoiceStates) (channelId : ℕ),
      ((states.setVoiceState channelId (fetched.getMediaState channelId)).receiveAll
        (announcements K (queued ++ later))).shown channelId = lobby.members channelId) ∧
    ((∀ t ∈ before ++ queued ++ later, t.pre.KeepsRowsTrue K t.event) →
      ∀ t ∈ before ++ queued ++ later, t.post.RowsTrue) := by
  have hrun := (hbefore.trans hqueued).trans hlater
  have hempty : (Lobby.firstRun setup).RowsTrue :=
    ⟨fun _ hrow => absurd hrow List.not_mem_nil, fun _ hrow => absurd hrow List.not_mem_nil,
      fun _ hrow => absurd hrow List.not_mem_nil⟩
  exact ⟨oneRow_run hrun, fun states _ => shown_run hqueued hlater states,
    rowsTrue_run hrun inOrder_firstRun hempty⟩

open SampleLog SampleHost

def performLobby (lobby : Lobby) (e : Moment × LobbyOp) : Lobby :=
  (lobby.perform crypto e.1 e.2).1

def lobbyAfter (lobby : Lobby) (ops : List (Moment × LobbyOp)) : Lobby :=
  ops.foldl performLobby lobby

def lobbyPath (lobby : Lobby) (ops : List (Moment × LobbyOp)) :
    List (Transition Lobby (Moment × LobbyOp)) :=
  Execution.path performLobby lobby ops

theorem run_lobby (lobby : Lobby) (ops : List (Moment × LobbyOp)) :
    LobbyRun crypto lobby (lobbyPath lobby ops) (lobbyAfter lobby ops) :=
  Execution.of_path performLobby ops

def aliceConnects (s connection : ℕ) : Moment × LobbyOp :=
  (momentAt s, .connect connection (key alice) "Alice" ⟨none, some "token"⟩ genesis)

/-- Alice claims the server, and sets up a voice channel. -/
def loungeOpened : List (Moment × LobbyOp) :=
  [aliceConnects 1 1,
   (momentAt 2, .other (.request (key alice) true
     (.channel (.createChannel "Lounge" .voice none none))))]

def aliceJoins : Moment × LobbyOp := (momentAt 3, .joinChannelMedia 1 2)

/-- She takes up a new connection before the old one ends. -/
def aliceMovesOver : List (Moment × LobbyOp) :=
  [aliceConnects 4 2, (momentAt 5, .disconnect 1)]

def lounge : Lobby := lobbyAfter (.firstRun blankSetup) loungeOpened

def aliceInLounge : Lobby := lobbyAfter lounge [aliceJoins]

theorem aliceInLounge_connected : aliceInLounge.connections.lookup 1 = some (key alice, true) ∧
    (lobbyAfter aliceInLounge [aliceConnects 4 2]).connections.lookup 2 =
      some (key alice, true) ∧
    aliceInLounge.host.community.getMember (key alice) ≠ none := by decide +kernel

theorem voice_roster_moved :
    (lobbyAfter aliceInLounge aliceMovesOver).OneRowEach ∧
    (∀ (states : VoiceStates) (channelId : ℕ),
      ((states.setVoiceState channelId (aliceInLounge.getMediaState channelId)).receiveAll
          (announcements crypto (lobbyPath lounge [aliceJoins] ++
            lobbyPath aliceInLounge aliceMovesOver))).shown channelId =
        (lobbyAfter aliceInLounge aliceMovesOver).members channelId) ∧
    ∀ t ∈ lobbyPath (.firstRun blankSetup) loungeOpened ++ lobbyPath lounge [aliceJoins] ++
      lobbyPath aliceInLounge aliceMovesOver, t.post.RowsTrue := by
  have hopened : LobbyRun crypto (.firstRun blankSetup)
      (lobbyPath (.firstRun blankSetup) loungeOpened) lounge := run_lobby _ _
  have hjoined : LobbyRun crypto lounge (lobbyPath lounge [aliceJoins]) aliceInLounge :=
    run_lobby _ _
  obtain ⟨hrows, hshown, htrue⟩ := voice_roster hopened hjoined (run_lobby _ aliceMovesOver)
  refine ⟨hrows, hshown, htrue ?_⟩
  obtain ⟨hconnected, hsecond, hmember⟩ := aliceInLounge_connected
  have hnone : ∀ row ∈ (lobbyAfter (.firstRun blankSetup) [aliceConnects 1 1]).voiceState,
      False := by decide +kernel
  simp only [lobbyPath, Execution.path, loungeOpened, aliceMovesOver, List.cons_append,
    List.nil_append, List.forall_mem_cons, List.not_mem_nil, false_implies, implies_true, and_true]
  refine ⟨?_, ?_, ?_, ?_, ?_⟩
  · exact fun _ _ row hrow => absurd hrow List.not_mem_nil
  · exact fun _ row hrow => (hnone row hrow).elim
  · intro m isOwner hlive _ _
    have hlounge : lounge.connections.lookup 1 = some (key alice, true) := by decide +kernel
    obtain ⟨rfl, -⟩ := Prod.mk.inj (Option.some.inj (hlounge.symm.trans hlive))
    decide +kernel
  · exact fun _ _ row _ hclaim => absurd hclaim.1 hmember
  · intro m isOwner hlive
    have hstill : (performLobby aliceInLounge (aliceConnects 4 2)).connections.lookup 1 =
        some (key alice, true) := by decide +kernel
    obtain ⟨rfl, -⟩ := Prod.mk.inj (Option.some.inj (hstill.symm.trans hlive))
    exact .inl ⟨2, true, by decide, hsecond⟩

/-- Alice is in the channel, and something else happens. -/
def afterJoining (op : LobbyOp) : Lobby := lobbyAfter aliceInLounge [(momentAt 4, op)]

def loungeDeleted : LobbyOp :=
  .other (.request (key alice) true (.channel (.deleteChannel 2)))

theorem not_rowsTrue_of_unconnected {row : VoiceRow} (hrow : row ∈ lobby.voiceState)
    (hnone : lobby.connections = ∅) : ¬lobby.RowsTrue := by
  intro htrue
  obtain ⟨c, isOwner, hc⟩ := htrue.connected row hrow
  simp [hnone] at hc

theorem run_afterJoining (op : LobbyOp) :
    ∃ tr, LobbyRun crypto (.firstRun blankSetup) tr (afterJoining op) := by
  have hopened : LobbyRun crypto (.firstRun blankSetup)
      (lobbyPath (.firstRun blankSetup) loungeOpened) lounge := run_lobby _ _
  have hjoined : LobbyRun crypto lounge (lobbyPath lounge [aliceJoins]) aliceInLounge :=
    run_lobby _ _
  exact ⟨_, (hopened.trans hjoined).trans (run_lobby _ _)⟩

/-- The end of the connection, the deletion of the channel and a restart leave the row of Alice. -/
theorem voice_roster_stale :
    ((∃ tr, LobbyRun crypto (.firstRun blankSetup) tr (afterJoining (.disconnect 1))) ∧
      ¬(afterJoining (.disconnect 1)).RowsTrue) ∧
    ((∃ tr, LobbyRun crypto (.firstRun blankSetup) tr (afterJoining loungeDeleted)) ∧
      ¬(afterJoining loungeDeleted).RowsTrue) ∧
    (∃ tr, LobbyRun crypto (.firstRun blankSetup) tr (afterJoining .restart)) ∧
      ¬(afterJoining .restart).RowsTrue := by
  refine ⟨⟨run_afterJoining _, ?_⟩, ⟨run_afterJoining _, ?_⟩, run_afterJoining _, ?_⟩
  · have hrow : (⟨2, key alice, 3⟩ : VoiceRow) ∈ (afterJoining (.disconnect 1)).voiceState := by
      decide +kernel
    exact not_rowsTrue_of_unconnected hrow (by decide +kernel)
  · have hrow : (⟨2, key alice, 3⟩ : VoiceRow) ∈ (afterJoining loungeDeleted).voiceState := by
      decide +kernel
    have hdeleted : (afterJoining loungeDeleted).host.db.getChannel 2 = none := by decide +kernel
    exact fun htrue => htrue.present _ hrow hdeleted
  · have hrow : (⟨2, key alice, 3⟩ : VoiceRow) ∈ (afterJoining .restart).voiceState := by
      decide +kernel
    exact not_rowsTrue_of_unconnected hrow (by decide +kernel)

end Server
