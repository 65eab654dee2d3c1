import Farder.Support.Bytes
import Farder.Support.Execution
import Mathlib.Data.Finset.Basic
import Mathlib.Logic.Function.Basic

/-! # The relay between servers and their clients

Servers register under an id, and a client that asks for one gets a routing handle and is
bridged to it. The tasks of the connections interleave at every point where they wait. -/
namespace Relay

open Bytes

abbrev Conn := ℕ

/-- A client, the handle that it was given, and the server it asked for. -/
structure Bridge where
  handle : ℕ
  client : Conn
  server : Conn
  deriving DecidableEq, Repr

/-- What the relay has sent on, with the connection that it came from. -/
inductive Delivery where
  | toClient (client : Conn) (payload : List UInt8) (source : Conn)
  | toServer (server : Conn) (tagged : List UInt8) (source : Conn)
  | stream (server : Conn) (stamp : List UInt8) (source : Conn)
  deriving DecidableEq, Repr

/-- The registry and the handles, the tasks that run, and on record which handles were given out
and what was sent on. -/
structure State where
  servers : List UInt8 → Option Conn
  clients : ℕ → Option Conn
  nextHandle : ℕ
  accepted : Finset Conn
  registered : List (List UInt8 × Conn)
  routing : List Conn
  /-- Clients that have been told they are connected and have no handle yet. -/
  waiting : List (Conn × Conn)
  /-- Clients whose handle is not in the map yet. -/
  starting : List Bridge
  bridging : List Bridge
  forwarding : List Bridge
  assigned : List Bridge
  delivered : List Delivery

/-- `new_state`; handle 0 is never given out. -/
def initial : State :=
  ⟨fun _ => none, fun _ => none, 1, ∅, [], [], [], [], [], [], [], []⟩

inductive Event where
  /-- `handle_register`, and `route_server_datagrams` is spawned. -/
  | register (serverId : List UInt8) (conn : Conn)
  | closeServer (serverId : List UInt8) (conn : Conn)
  | endRoute (conn : Conn)
  /-- `handle_connect` up to its answer. -/
  | connect (destinationId : List UInt8) (client : Conn)
  | assign (client server : Conn)
  /-- The handle is in the map, and `forward_client_datagrams` is spawned. -/
  | bridge (b : Bridge)
  | endBridge (b : Bridge)
  /-- A turn of `bridge_client`. -/
  | openStream (b : Bridge)
  /-- A turn of `forward_client_datagrams`. -/
  | forward (b : Bridge) (datagram : List UInt8)
  | endForward (b : Bridge)
  /-- A turn of `route_server_datagrams`. -/
  | route (server : Conn) (datagram : List UInt8)
  deriving DecidableEq, Repr

/-- A connection takes one role, and each task does what is next for it. -/
def Enabled (s : State) : Event → Prop
  | .register _ conn => conn ∉ s.accepted
  | .closeServer serverId conn => (serverId, conn) ∈ s.registered
  | .endRoute conn => conn ∈ s.routing
  | .connect _ client => client ∉ s.accepted
  | .assign client server => (client, server) ∈ s.waiting
  | .bridge b => b ∈ s.starting
  | .endBridge b => b ∈ s.bridging
  | .openStream b => b ∈ s.bridging
  | .forward b _ => b ∈ s.forwarding
  | .endForward b => b ∈ s.forwarding
  | .route server _ => server ∈ s.routing

instance (s : State) (e : Event) : Decidable (Enabled s e) := by
  cases e <;> unfold Enabled <;> infer_instance

def handleOf (datagram : List UInt8) : ℕ := ofBigEndian (datagram.take 4)

def tag (handle : ℕ) : List UInt8 := toBigEndian 4 handle

/-- A datagram without a handle, or for no client, is dropped. -/
def routed (s : State) (server : Conn) (datagram : List UInt8) : List Delivery :=
  if datagram.length < 4 then []
  else (s.clients (handleOf datagram)).toList.map fun client =>
    .toClient client (datagram.drop 4) server

def next (s : State) : Event → State
  | .register serverId conn =>
    { s with
      servers := Function.update s.servers serverId (some conn)
      accepted := insert conn s.accepted
      registered := (serverId, conn) :: s.registered
      routing := conn :: s.routing }
  | .closeServer serverId conn =>
    { s with
      servers := if s.servers serverId = some conn then Function.update s.servers serverId none
        else s.servers
      registered := s.registered.erase (serverId, conn) }
  | .endRoute conn => { s with routing := s.routing.erase conn }
  | .connect destinationId client =>
    { s with
      accepted := insert client s.accepted
      waiting := (s.servers destinationId).toList.map (client, ·) ++ s.waiting }
  | .assign client server =>
    { s with
      nextHandle := (s.nextHandle + 1) % 2 ^ 32
      waiting := s.waiting.erase (client, server)
      starting := ⟨s.nextHandle, client, server⟩ :: s.starting
      assigned := ⟨s.nextHandle, client, server⟩ :: s.assigned }
  | .bridge b =>
    { s with
      clients := Function.update s.clients b.handle (some b.client)
      starting := s.starting.erase b
      bridging := b :: s.bridging
      forwarding := b :: s.forwarding }
  | .endBridge b =>
    { s with
      clients := Function.update s.clients b.handle none
      bridging := s.bridging.erase b }
  | .openStream b =>
    { s with delivered := .stream b.server (tag b.handle) b.client :: s.delivered }
  | .forward b datagram =>
    { s with
      delivered := .toServer b.server (tag b.handle ++ datagram) b.client :: s.delivered }
  | .endForward b => { s with forwarding := s.forwarding.erase b }
  | .route server datagram => { s with delivered := routed s server datagram ++ s.delivered }

def Step (s : State) (e : Event) (t : State) : Prop := Enabled s e ∧ t = next s e

abbrev Run (tr : List (Transition State Event)) (t : State) : Prop :=
  Execution Step initial tr t

def Event.isConnect : Event → Bool
  | .connect .. => true
  | _ => false

end Relay

/-! ## Tenants of the relay

A handle belongs to one client for ever, and what a client sends carries its handle. What a server
sends goes to whatever client has the handle in front of it. -/
namespace Relay

open Bytes

/-- What a client gets comes from its server, and what a server gets under a handle comes from the
client with that handle. -/
def Rightful (s : State) : Delivery → Prop
  | .toClient client _ source => ∃ b ∈ s.assigned, b.client = client ∧ b.server = source
  | .toServer server tagged source =>
    ∃ b ∈ s.assigned, b.handle = handleOf tagged ∧ b.client = source ∧ b.server = server
  | .stream server stamp source =>
    ∃ b ∈ s.assigned, b.handle = handleOf stamp ∧ b.client = source ∧ b.server = server

/-- All that is sent on is rightful, and every handle is one client's. -/
structure Apart (s : State) : Prop where
  rightful : ∀ d ∈ s.delivered, Rightful s d
  unique : ∀ b ∈ s.assigned, ∀ b' ∈ s.assigned, b.handle = b'.handle → b = b'
  reserved : ∀ b ∈ s.assigned, b.handle ≠ 0

/-- The handle in front of a server's datagram is that of a client of its own, or of none that is
in the map. -/
def OwnHandle (s : State) : Event → Prop
  | .route server datagram => datagram.length < 4 ∨ s.clients (handleOf datagram) = none ∨
      ∃ b ∈ s.assigned, b.handle = handleOf datagram ∧ b.server = server
  | _ => True

instance (s : State) (e : Event) : Decidable (OwnHandle s e) := by
  cases e <;> unfold OwnHandle <;> infer_instance

variable {s t : State} {e : Event} {tr : List (Transition State Event)} {b : Bridge}

/-! ## Handles and tasks -/

/-- Every task works for a client with a handle, and the handles are given out in turn. -/
structure Kept (s : State) : Prop where
  counter : s.nextHandle = (s.assigned.length + 1) % 2 ^ 32
  handles : s.assigned.map Bridge.handle =
    (List.range s.assigned.length).reverse.map fun i => (i + 1) % 2 ^ 32
  starting : ∀ b ∈ s.starting, b ∈ s.assigned
  bridging : ∀ b ∈ s.bridging, b ∈ s.assigned
  forwarding : ∀ b ∈ s.forwarding, b ∈ s.assigned
  clients : ∀ h client, s.clients h = some client → ∃ b ∈ s.assigned, b.handle = h ∧
    b.client = client
  once : (s.waiting.map Prod.fst ++ s.assigned.map Bridge.client).Nodup
  accepted : ∀ c ∈ s.waiting.map Prod.fst ++ s.assigned.map Bridge.client, c ∈ s.accepted

theorem kept_initial : Kept initial where
  counter := rfl
  handles := rfl
  starting := nofun
  bridging := nofun
  forwarding := nofun
  clients := nofun
  once := List.nodup_nil
  accepted := nofun

/-- The clients that wait and those with a handle, while one of them gets its handle. -/
theorem clients_assign {client server : ℕ} (handle : ℕ) (h : (client, server) ∈ s.waiting) :
    ((s.waiting.erase (client, server)).map Prod.fst ++
        (⟨handle, client, server⟩ :: s.assigned : List Bridge).map Bridge.client).Perm
      (s.waiting.map Prod.fst ++ s.assigned.map Bridge.client) := by
  have hwaiting := (List.perm_cons_erase h).map Prod.fst
  exact List.perm_middle.trans (hwaiting.symm.append_right _)

theorem Kept.step (h : Kept s) (hstep : Step s e t) : Kept t := by
  obtain ⟨henabled, rfl⟩ := hstep
  cases e with
  | register serverId conn =>
    exact { h with accepted := fun c hc => Finset.mem_insert_of_mem (h.accepted c hc) }
  | closeServer serverId conn => exact { h with }
  | endRoute conn => exact { h with }
  | connect destinationId client =>
    have hnew := mt (h.accepted client) henabled
    cases hserver : s.servers destinationId with
    | none =>
      exact { h with
        once := by simpa [next, hserver] using h.once
        accepted := fun c hc => Finset.mem_insert_of_mem (h.accepted c (by
          simpa [next, hserver] using hc)) }
    | some server =>
      have hwaiting : (next s (.connect destinationId client)).waiting =
          (client, server) :: s.waiting := by simp [next, hserver]
      exact { h with
        once := by
          rw [hwaiting]
          exact List.nodup_cons.mpr ⟨hnew, h.once⟩
        accepted := by
          rw [hwaiting]
          exact List.forall_mem_cons.mpr ⟨Finset.mem_insert_self _ _,
            fun c hc => Finset.mem_insert_of_mem (h.accepted c hc)⟩ }
  | assign client server =>
    have hperm := clients_assign s.nextHandle henabled
    have hmem {l : List Bridge} (hl : ∀ b ∈ l, b ∈ s.assigned) :
        ∀ b ∈ l, b ∈ (next s (.assign client server)).assigned :=
      fun b hb => List.mem_cons_of_mem _ (hl b hb)
    exact
      { counter := by
          simp only [next, h.counter, List.length_cons]
          omega
        handles := by
          simp only [next, List.map_cons, List.length_cons, List.range_succ,
            List.reverse_append, List.reverse_singleton, List.singleton_append, h.handles, h.counter]
        starting := List.forall_mem_cons.mpr ⟨List.mem_cons_self, hmem h.starting⟩
        bridging := hmem h.bridging
        forwarding := hmem h.forwarding
        clients := fun handle c hc => by
          obtain ⟨b, hb, hhandle⟩ := h.clients handle c hc
          exact ⟨b, List.mem_cons_of_mem _ hb, hhandle⟩
        once := hperm.nodup_iff.mpr h.once
        accepted := fun c hc => h.accepted c (hperm.mem_iff.mp hc) }
  | bridge b =>
    have hb := h.starting b henabled
    exact { h with
      starting := fun b' hb' => h.starting b' (List.mem_of_mem_erase hb')
      bridging := List.forall_mem_cons.mpr ⟨hb, h.bridging⟩
      forwarding := List.forall_mem_cons.mpr ⟨hb, h.forwarding⟩
      clients := fun handle c hc => by
        by_cases hhandle : handle = b.handle
        · subst hhandle
          simp only [next, Function.update_self] at hc
          exact ⟨b, hb, rfl, Option.some.inj hc⟩
        · simp only [next, Function.update_of_ne hhandle] at hc
          exact h.clients handle c hc }
  | endBridge b =>
    exact { h with
      bridging := fun b' hb' => h.bridging b' (List.mem_of_mem_erase hb')
      clients := fun handle c hc => by
        by_cases hhandle : handle = b.handle
        · simp [next, hhandle] at hc
        · simp only [next, Function.update_of_ne hhandle] at hc
          exact h.clients handle c hc }
  | openStream b => exact { h with }
  | forward b datagram => exact { h with }
  | endForward b =>
    exact { h with forwarding := fun b' hb' => h.forwarding b' (List.mem_of_mem_erase hb') }
  | route server datagram => exact { h with }

theorem Kept.unique (h : Kept s) (hfew : s.assigned.length < 2 ^ 32 - 1) :
    (∀ b ∈ s.assigned, ∀ b' ∈ s.assigned, b.handle = b'.handle → b = b') ∧
      ∀ b ∈ s.assigned, b.handle ≠ 0 := by
  have hmod : ∀ i ∈ (List.range s.assigned.length).reverse, (i + 1) % 2 ^ 32 = i + 1 := by
    intro i hi
    rw [List.mem_reverse, List.mem_range] at hi
    exact Nat.mod_eq_of_lt (by omega)
  have hhandles := h.handles.trans (List.map_congr_left hmod)
  constructor
  · have hnodup : (s.assigned.map Bridge.handle).Nodup := by
      rw [hhandles]
      exact (List.nodup_reverse.mpr List.nodup_range).map fun i j hij => Nat.succ.inj hij
    exact fun b hb b' hb' heq => List.inj_on_of_nodup_map hnodup hb hb' heq
  · intro b hb hzero
    have hmem : 0 ∈ s.assigned.map Bridge.handle := hzero ▸ List.mem_map_of_mem hb
    rw [hhandles] at hmem
    obtain ⟨i, -, hi⟩ := List.mem_map.mp hmem
    exact Nat.succ_ne_zero i hi

theorem Kept.eq_of_client (h : Kept s) {b b' : Bridge} (hb : b ∈ s.assigned)
    (hb' : b' ∈ s.assigned) (heq : b.client = b'.client) : b = b' :=
  List.inj_on_of_nodup_map (List.nodup_append.mp h.once).2.1 hb hb' heq

theorem assigned_le_connects (h : Execution Step initial tr t) :
    t.waiting.length + t.assigned.length ≤ tr.countP fun x => x.event.isConnect := by
  induction h with
  | nil => exact Nat.zero_le _
  | @snoc t u e tr _ hstep ih =>
    obtain ⟨henabled, rfl⟩ := hstep
    rw [List.countP_append]
    refine le_trans ?_ (Nat.add_le_add_right ih _)
    cases e with
    | connect destinationId client =>
      have hserver : (t.servers destinationId).toList.length ≤ 1 := Option.length_toList_le
      simp [next, Event.isConnect]
      omega
    | assign client server =>
      have hlength := List.length_erase_of_mem henabled
      have hpos := List.length_pos_of_mem henabled
      simp only [next, List.length_cons, hlength]
      omega
    | _ => exact Nat.le_add_right _ _

/-! ## What is delivered -/

theorem handleOf_tag {handle : ℕ} (h : handle < 2 ^ 32) (datagram : List UInt8) :
    handleOf (tag handle ++ datagram) = handle := by
  rw [handleOf, tag, List.take_left' (length_toBigEndian 4 handle), ofBigEndian_toBigEndian h]

theorem Kept.handle_lt (h : Kept s) (hb : b ∈ s.assigned) : b.handle < 2 ^ 32 := by
  have hmem := List.mem_map_of_mem (f := Bridge.handle) hb
  rw [h.handles] at hmem
  obtain ⟨i, -, hi⟩ := List.mem_map.mp hmem
  rw [← hi]
  exact Nat.mod_lt _ (by decide)

theorem Rightful.mono {d : Delivery} (h : Rightful s d)
    (hassigned : ∀ b ∈ s.assigned, b ∈ t.assigned) : Rightful t d := by
  cases d with
  | toClient client payload source =>
    obtain ⟨b, hb, hrest⟩ := h
    exact ⟨b, hassigned b hb, hrest⟩
  | toServer server tagged source =>
    obtain ⟨b, hb, hrest⟩ := h
    exact ⟨b, hassigned b hb, hrest⟩
  | stream server stamp source =>
    obtain ⟨b, hb, hrest⟩ := h
    exact ⟨b, hassigned b hb, hrest⟩

theorem assigned_next (s : State) (e : Event) : ∀ b ∈ s.assigned, b ∈ (next s e).assigned := by
  intro b hb
  cases e with
  | assign client server => exact List.mem_cons_of_mem _ hb
  | _ => exact hb

/-- A datagram of a server reaches a client of another one exactly if it names a handle that is not
one of its own. -/
theorem routed_rightful (h : Kept s)
    (hunique : ∀ b ∈ s.assigned, ∀ b' ∈ s.assigned, b.handle = b'.handle → b = b')
    {server : Conn} {datagram : List UInt8} :
    (∀ d ∈ routed s server datagram, Rightful s d) ↔ OwnHandle s (.route server datagram) := by
  simp only [routed, OwnHandle]
  by_cases hshort : datagram.length < 4
  · rw [if_pos hshort]
    exact iff_of_true nofun (.inl hshort)
  · rw [if_neg hshort, or_iff_right hshort]
    cases hclient : s.clients (handleOf datagram) with
    | none => exact iff_of_true nofun (.inl rfl)
    | some client =>
      obtain ⟨b, hb, hhandle, rfl⟩ := h.clients _ _ hclient
      rw [or_iff_right nofun]
      constructor
      · intro hall
        have hsent : Rightful s (.toClient b.client (datagram.drop 4) server) :=
          hall _ (by simp)
        obtain ⟨b', hb', heq, hserver⟩ := hsent
        obtain rfl := h.eq_of_client hb' hb heq
        exact ⟨b', hb', hhandle, hserver⟩
      · rintro ⟨b', hb', hhandle', hserver⟩ d hd
        obtain rfl := hunique b' hb' b hb (hhandle'.trans hhandle.symm)
        obtain rfl : d = _ := by simpa using hd
        exact ⟨b', hb', rfl, hserver⟩

theorem Apart.step_iff (h : Kept s) (hapart : Apart s) (hstep : Step s e t)
    (hfew : t.assigned.length < 2 ^ 32 - 1) : Apart t ↔ OwnHandle s e := by
  obtain ⟨hunique, hreserved⟩ := (h.step hstep).unique hfew
  obtain ⟨henabled, rfl⟩ := hstep
  have hgrown := assigned_next s e
  have hbefore : ∀ d ∈ s.delivered, Rightful (next s e) d :=
    fun d hd => (hapart.rightful d hd).mono hgrown
  have hiff : Apart (next s e) ↔ ∀ d ∈ (next s e).delivered, Rightful (next s e) d :=
    ⟨Apart.rightful, fun hall => ⟨hall, hunique, hreserved⟩⟩
  rw [hiff]
  cases e with
  | openStream b =>
    have hb := h.bridging b henabled
    have htag := handleOf_tag (h.handle_lt hb) []
    rw [List.append_nil] at htag
    exact iff_of_true (List.forall_mem_cons.mpr ⟨⟨b, hb, htag.symm, rfl, rfl⟩, hbefore⟩) trivial
  | forward b datagram =>
    have hb := h.forwarding b henabled
    have htag := handleOf_tag (h.handle_lt hb) datagram
    exact iff_of_true (List.forall_mem_cons.mpr ⟨⟨b, hb, htag.symm, rfl, rfl⟩, hbefore⟩) trivial
  | route server datagram =>
    have hdelivered : (next s (.route server datagram)).delivered =
      routed s server datagram ++ s.delivered := rfl
    rw [hdelivered, List.forall_mem_append, and_iff_left hbefore]
    exact routed_rightful h hapart.unique
  | _ => exact iff_of_true hbefore trivial

/-- With fewer clients than handles, the relay keeps its tenants apart all along a run exactly if
no server ever sends to a handle that another server's client has. -/
theorem tenants_apart_iff (h : Run tr t)
    (hfew : (tr.countP fun x => x.event.isConnect) < 2 ^ 32 - 1) :
    (∀ x ∈ tr, Apart x.post) ↔ ∀ x ∈ tr, OwnHandle x.pre x.event := by
  have hinitial : Apart initial := ⟨nofun, nofun, nofun⟩
  refine h.forall_post_iff (I := Kept) Apart (fun x => OwnHandle x.pre x.event) kept_initial
    hinitial (fun s e t hs hstep => hs.step hstep) fun x hx hkept hapart hstep => ?_
  refine hapart.step_iff hkept hstep ?_
  obtain ⟨a, b, rfl⟩ := List.append_of_mem hx
  have hconnects := assigned_le_connects (h.split_at.1.snoc hstep)
  have hsublist : (a ++ [x]).Sublist (a ++ x :: b) :=
    (List.append_sublist_append_left a).mpr (List.singleton_sublist.mpr List.mem_cons_self)
  have hcount := hsublist.countP_le (p := fun x => x.event.isConnect)
  have hlength : x.post.assigned.length ≤ (a ++ [x]).countP fun x => x.event.isConnect :=
    (Nat.le_add_left _ _).trans hconnects
  omega

/-- Two servers, a client of the first one, and a datagram of the second one for its handle. -/
def stray : List Event :=
  [.register [1] 1, .register [2] 2, .connect [1] 3, .assign 3 1, .bridge ⟨1, 3, 1⟩,
    .route 2 [0, 0, 0, 1, 7]]

theorem stray_datagram : ∃ tr t, Run tr t ∧ ¬∀ x ∈ tr, Apart x.post := by
  have hrun : Run (Execution.path next initial stray) (stray.foldl next initial) := by
    refine (((((((Execution.nil _).snoc ⟨?_, rfl⟩).snoc ⟨?_, rfl⟩).snoc ⟨?_, rfl⟩).snoc
      ⟨?_, rfl⟩).snoc ⟨?_, rfl⟩).snoc ⟨?_, rfl⟩)
    all_goals decide +kernel
  refine ⟨_, _, hrun, fun hall => ?_⟩
  have hown := (tenants_apart_iff hrun (by decide +kernel)).mp hall
  exact absurd (hown _ (List.getLast_mem (by decide +kernel))) (by decide +kernel)

end Relay
