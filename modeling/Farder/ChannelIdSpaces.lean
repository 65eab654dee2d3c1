import Farder.Server.ChannelRows
import Farder.Server.SampleHost

/-! # The two spaces of channel ids

A declared channel brings its own id, from a reserved range; all other channels take the next id
of the table, and a declaration moves that one up, unless the database stores its id as a negative
number. The server's own channels stay below the range as long as none is created after a
declaration that does so. -/
namespace Server

open EventLog Guarded Permissions

variable {K : Crypto} {host : Host}

def CreatesChannel (x : Transition Host (Moment × HostOp)) (id : ℕ) : Prop :=
  id ∉ x.pre.db.channelIds ∧ id ∈ x.post.db.channelIds ∧ x.event.2.declares ≠ some id

instance (x : Transition Host (Moment × HostOp)) (id : ℕ) : Decidable (CreatesChannel x id) :=
  inferInstanceAs (Decidable (_ ∧ _ ∧ _))

def DeclaresChannel (K : Crypto) (x : Transition Host (Moment × HostOp)) (id : ℕ) : Prop :=
  x.event.2.declares = some id ∧ x.pre.Accepts K x.event

theorem id_of_creates {x : Transition Host (Moment × HostOp)} {id : ℕ}
    (h : ChannelStep K x.pre x.event x.post) (hcreates : CreatesChannel x id) :
    id = x.pre.db.nextChannel := by
  obtain ⟨hnew, hthere, hserver⟩ := hcreates
  cases h with
  | kept hids =>
    rw [hids] at hthere
    exact absurd hthere hnew
  | created _ _ hids =>
    rw [hids] at hthere
    exact List.mem_singleton.mp ((List.mem_append.mp hthere).resolve_left hnew)
  | declared new hdeclares _ _ _ hids =>
    rw [hids] at hthere
    obtain rfl := List.mem_singleton.mp ((List.mem_append.mp hthere).resolve_left hnew)
    exact absurd hdeclares hserver

/-- The server's next id is below the floor exactly if no id is at the floor or next to it, as the
database stores them. -/
theorem nextChannel_lt_iff {db : Db} (h : db.NextIsFresh) {bound : ℕ} :
    db.nextChannel < bound ↔ ∀ id ∈ db.channelIds, Db.rowId id + 1 < bound := by
  obtain ⟨hlt, last, hlast, hnext⟩ := h
  constructor
  · intro hbound id hid
    have := hlt id hid
    omega
  · intro hbound
    have := hbound last hlast
    omega

theorem creates_iff {setup : Setup} {tr : List (Transition Host (Moment × HostOp))}
    {x : Transition Host (Moment × HostOp)} {id : ℕ}
    (hrun : HostRun K (.firstRun setup) tr host) (hx : x ∈ tr)
    (hcreates : CreatesChannel x id) :
    id < e2eeChannelIdFloor ↔
      ∀ other ∈ x.pre.db.channelIds, Db.rowId other + 1 < e2eeChannelIdFloor := by
  have hfresh := (hrun.invariant_of_mem (I := fun host => host.db.NextIsFresh)
    firstRun_nextIsFresh (fun _ _ _ hfresh hstep => hstep ▸ perform_ids.nextIsFresh hfresh) hx).1
  have hstep : ChannelStep K x.pre x.event x.post := hrun.step_of_mem hx ▸ perform_ids
  rw [id_of_creates hstep hcreates, nextChannel_lt_iff hfresh]

theorem reserved_declared {setup : Setup} {tr : List (Transition Host (Moment × HostOp))}
    (hrun : HostRun K (.firstRun setup) tr host)
    (hcreates : ∀ x ∈ tr, ∀ id, CreatesChannel x id → id < e2eeChannelIdFloor) :
    ∀ id ∈ host.db.channelIds, e2eeChannelIdFloor ≤ id → ∃ x ∈ tr, DeclaresChannel K x id := by
  induction hrun with
  | nil =>
    intro id hid hfloor
    obtain ⟨hids, -, -, hlt⟩ := firstRun_ids setup
    rw [hids] at hid
    obtain ⟨i, hi, rfl⟩ := List.mem_range'.mp hid
    have hfloor : 2 ^ 32 ≤ 1 + 1 * i := hfloor
    omega
  | @snoc pre post e tr hrun hstep ih =>
    intro id hid hfloor
    have hlast : ChannelStep K pre e post := hstep ▸ perform_ids
    by_cases hold : id ∈ pre.db.channelIds
    · obtain ⟨x, hx, hdeclares⟩ := ih (fun x hx => hcreates x (List.mem_append_left _ hx)) id hold
        hfloor
      exact ⟨x, List.mem_append_left _ hx, hdeclares⟩
    · have hmem : (⟨pre, e, post⟩ : Transition Host (Moment × HostOp)) ∈ tr ++ [⟨pre, e, post⟩] :=
        List.mem_append_right _ (List.mem_singleton_self _)
      refine ⟨⟨pre, e, post⟩, hmem, ?_⟩
      by_cases hserver : e.2.declares = some id
      · cases hlast with
        | kept hids =>
          rw [hids] at hid
          exact absurd hid hold
        | created hnone => simp [hserver] at hnone
        | declared new hdeclares haccepted => exact ⟨hserver, haccepted⟩
      · exact absurd (hcreates _ hmem id ⟨hold, hid, hserver⟩) (Nat.not_lt.mpr hfloor)

/-- The server creates a channel below the floor exactly if the database stores no channel under the
floor, a higher id, or the one below it. If that is so whenever it creates one, its channels and the
declared ones never meet: no declaration is accepted under the id of a channel, and one that is
refused as taken is taken by a declaration. -/
theorem id_spaces {setup : Setup} {tr : List (Transition Host (Moment × HostOp))}
    (hrun : HostRun K (.firstRun setup) tr host) :
    (∀ x ∈ tr, ∀ id, CreatesChannel x id →
      (id < e2eeChannelIdFloor ↔
        ∀ other ∈ x.pre.db.channelIds, Db.rowId other + 1 < e2eeChannelIdFloor)) ∧
    (∀ x ∈ tr, ∀ id, DeclaresChannel K x id →
      e2eeChannelIdFloor ≤ id ∧ id ∉ x.pre.db.channelIds) ∧
    ((∀ x ∈ tr, ∀ id, CreatesChannel x id →
        ∀ other ∈ x.pre.db.channelIds, Db.rowId other + 1 < e2eeChannelIdFloor) →
      (∀ x ∈ tr, ∀ id, CreatesChannel x id → id < e2eeChannelIdFloor) ∧
      ∀ id ∈ host.db.channelIds, e2eeChannelIdFloor ≤ id → ∃ x ∈ tr, DeclaresChannel K x id) := by
  refine ⟨fun x hx id => creates_iff hrun hx,
    fun x _ id hdeclares => declared_of_accepts hdeclares.1 hdeclares.2, fun hcondition => ?_⟩
  · have hcreates : ∀ x ∈ tr, ∀ id, CreatesChannel x id → id < e2eeChannelIdFloor :=
      fun x hx id h => (creates_iff hrun hx h).mpr (hcondition x hx id h)
    exact ⟨hcreates, reserved_declared hrun hcreates⟩

/-! ## A declaration moves the next id up -/

open SampleLog SampleHost

def declaration (channelId : ℕ) : EventPayload :=
  .channelCreated ⟨channelId, "sealed", "text", .e2ee, none⟩

/-- Alice authorizes her device, and declares three channels: one under an id that the database
stores as a negative number, and two under the lowest ids there are. -/
def declarations : List (Keypair × Request) :=
  (signed
    [⟨alice, a0, 1, cert alice a0 none⟩,
     ⟨alice, a0, 1, declaration (2 ^ 63)⟩,
     ⟨alice, a0, 1, declaration e2eeChannelIdFloor⟩,
     ⟨alice, a0, 1, declaration (e2eeChannelIdFloor + 1)⟩]).map fun e => (alice, .submitEvent e)

def lobby : Keypair × Request := (alice, .channel (.createChannel "lobby" .text none none))

/-- The lobby comes before the declarations of low ids. -/
def lobbyFirst : List (Moment × HostOp) :=
  claimed ++ requests 2 (declarations.take 2 ++ lobby :: (declarations.drop 2).take 1)

def lobbyBetween : List (Moment × HostOp) :=
  claimed ++ requests 2 (declarations.take 3 ++ [lobby])

def secondDeclaration : Moment × HostOp :=
  (momentAt 9, .request (key alice) true ((declarations[3]?.map Prod.snd).getD .bootstrap))

theorem id_spaces_of_lobby :
    (∀ x ∈ path lobbyFirst, ∀ id, CreatesChannel x id → id < e2eeChannelIdFloor) ∧
      ∀ id ∈ (hostAfter lobbyFirst).db.channelIds, e2eeChannelIdFloor ≤ id →
        ∃ x ∈ path lobbyFirst, DeclaresChannel crypto x id := by
  have hpre : ∀ x ∈ path lobbyFirst, ∀ other ∈ x.pre.db.channelIds,
      Db.rowId other + 1 < e2eeChannelIdFloor := by
    decide +kernel
  exact (id_spaces (run_path lobbyFirst)).2.2 fun x hx _ _ => hpre x hx

/-- The server gives the lobby an id of the reserved range, and the declaration of a channel
under that id is refused. -/
theorem lobby_takes_declared_id :
    HostRun crypto start (path lobbyBetween) (hostAfter lobbyBetween) ∧
      (hostAfter lobbyBetween).db.channelIds =
        [1, 2 ^ 63, e2eeChannelIdFloor, e2eeChannelIdFloor + 1] ∧
      (∃ x ∈ path lobbyBetween, CreatesChannel x (e2eeChannelIdFloor + 1)) ∧
      secondDeclaration.2.declares = some (e2eeChannelIdFloor + 1) ∧
      (((hostAfter lobbyBetween).perform crypto secondDeclaration.1 secondDeclaration.2).2.map
        fun _ => ()) =
        .error (.rejected "event rejected: channel id already exists on this server") ∧
      (hostAfter (lobbyBetween.take 4)).Accepts crypto secondDeclaration := by
  exact ⟨run_path _, by decide +kernel, by decide +kernel, by decide +kernel, by decide +kernel,
    by decide +kernel⟩

end Server
