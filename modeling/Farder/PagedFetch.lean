import Farder.Client.Join
import Farder.Client.SampleMls
import Farder.Server.EventPages

/-! # Fetching events page by page

Events may be added to the log at any time, also between two pages. Whoever follows the cursor
still gets each matching event once, in the order of acceptance. -/
namespace Client

open EventLog Effects Server

variable {M : OpenMls} {σ α : Type}

def received (page : EventPage) : MlsControl :=
  ⟨page.events.map some, page.nextAcceptSeq, page.more⟩

/-- A fetch is answered from the stored log, and events may be added to that. -/
def Answers (log : σ → List Event) (q : PageQuery)
    (fetch : ℕ → σ → Except TransportError MlsControl × σ) : Prop :=
  ∀ since w, (fetch since w).1 = .ok (received (q.fetch since (log w))) ∧
    log w <+: log (fetch since w).2

structure EventServer (σ : Type) (member : PublicKey) where
  transport : Transport σ
  fetchWelcomes : Option ℕ → ℕ → σ → Except TransportError MlsControl × σ
  log : σ → List Event
  bounded : ∀ w, (log w).length < 2 ^ 63
  control : ∀ channelId, Answers log (mlsControl channelId) (transport.fetchMlsControl channelId)
  welcomes : ∀ channelFilter,
    Answers log (welcomesFor member channelFilter) (fetchWelcomes channelFilter)

/-- A client has got all matching events of a state of the log that is no older than the start of
the fetch, and the cursor leads to those that come after. -/
structure Caught (q : PageQuery) (since : ℕ) (start : List Event) (events : List Event) (next : ℕ)
    (l : List Event) : Prop where
  current : start <+: l
  complete : events = q.matching since l
  resumes : ∀ later, l <+: later → events ++ q.matching next later = q.matching since later

/-! ## Following the cursor -/

section Follow

variable {q : PageQuery} {log : σ → List Event}
  {fetch : ℕ → σ → Except TransportError MlsControl × σ}
  {decode : List (Option Event) → Except E2eeError (List α)} {pick : Event → Option α}

theorem caught_of_last {since : ℕ} (h : since < 2 ^ 63) {l : List Event}
    (hlast : (q.fetch since l).more = false) :
    Caught q since l (q.fetch since l).events (q.fetch since l).nextAcceptSeq l where
  current := List.prefix_refl l
  complete := q.fetch_last h hlast
  resumes _ hlater := q.fetch_append h hlater

theorem Caught.after_page {since : ℕ} (h : since < 2 ^ 63) {start start' events l : List Event}
    {next : ℕ} (hgrows : start <+: start')
    (hrest : Caught q (q.fetch since start).nextAcceptSeq start' events next l) :
    Caught q since start ((q.fetch since start).events ++ events) next l where
  current := hgrows.trans hrest.current
  complete := by
    rw [hrest.complete]
    exact q.fetch_append h (hgrows.trans hrest.current)
  resumes later hlater := by
    rw [List.append_assoc, hrest.resumes later hlater]
    exact q.fetch_append h ((hgrows.trans hrest.current).trans hlater)

/-- The cursor gets nearer to its bound with every page, so that the loop comes to its end. -/
theorem followPages_run (hanswers : Answers log q fetch) (hbounded : ∀ w, (log w).length < 2 ^ 63)
    (hdecode : ∀ events : List Event, decode (events.map some) = .ok (events.filterMap pick)) (stalled : String)
    {pages since : ℕ} (h : since < 2 ^ 63) (hpages : 2 ^ 63 ≤ pages + since) (d : Device M σ) :
    ∃ w events next l, Caught q since (log d.world) events next l ∧ l <+: log w ∧
      followPages (fun since => fetching (fetch since)) decode stalled pages since d =
        (.ok (events.filterMap pick, next), { d with world := w }) := by
  induction pages generalizing since d with
  | zero => omega
  | succ pages ih =>
    obtain ⟨hpage, hgrows⟩ := hanswers since d.world
    set page := q.fetch since (log d.world) with hfetch
    have hrun : (fetching (fetch since) : Errand M σ E2eeError MlsControl) d =
        (.ok (received page), { d with world := (fetch since d.world).2 }) := by
      rw [fetching, hpage]
      rfl
    have hfound : decode (received page).events = .ok (page.events.filterMap pick) :=
      hdecode page.events
    rw [followPages, Prog.bind_of_ok hrun, Prog.run_bind, Prog.run_ofExcept, hfound]
    by_cases hmore : page.more = false
    · refine ⟨_, page.events, page.nextAcceptSeq, _, caught_of_last h hmore, hgrows, ?_⟩
      simp only [received, hmore, ↓reduceIte, Prog.run_pure]
    · have hmore' : page.more = true := by simpa using hmore
      have hlt : since < page.nextAcceptSeq := q.lt_nextAcceptSeq h hmore'
      have hle : page.nextAcceptSeq ≤ max since (log d.world).length := q.nextAcceptSeq_le h _
      have hlength := hbounded d.world
      obtain ⟨w, events, next, l, hcaught, hlog, hrest⟩ :=
        ih (show page.nextAcceptSeq < 2 ^ 63 by omega) (by omega)
          { d with world := (fetch since d.world).2 }
      refine ⟨w, page.events ++ events, next, l, hcaught.after_page h hgrows, hlog, ?_⟩
      simp only [received, hmore', Bool.true_eq_false, ↓reduceIte, if_neg (Nat.not_le.mpr hlt)]
      rw [Prog.bind_of_ok hrest, Prog.run_pure, List.filterMap_append]

end Follow

variable (K : Crypto)

theorem fetchPendingWelcomes_run {actor : Actor}
    (server : EventServer σ (K.publicKey actor.identity)) (channelFilter : Option ℕ)
    {pages since : ℕ} (h : since < 2 ^ 63) (hpages : 2 ^ 63 ≤ pages + since) (d : Device M σ) :
    ∃ w events next l, Caught (welcomesFor (K.publicKey actor.identity) channelFilter) since
        (server.log d.world) events next l ∧ l <+: server.log w ∧
      fetchPendingWelcomes K actor server.fetchWelcomes channelFilter pages since d =
        (.ok (events.filterMap (matchPendingWelcome K actor)), { d with world := w }) := by
  obtain ⟨w, events, next, l, hcaught, hlog, hrun⟩ :=
    followPages_run (server.welcomes channelFilter) server.bounded
      (decodeWelcomes_some K actor)
      "fetch_welcomes returned more=true without advancing the cursor" h hpages d
  refine ⟨w, events, next, l, hcaught, hlog, ?_⟩
  rw [fetchPendingWelcomes, Prog.bind_of_ok hrun, Prog.run_pure]

theorem fetchMlsControlExhaustive_run {member : PublicKey} (server : EventServer σ member)
    (channelId : ℕ) {pages since : ℕ} (h : since < 2 ^ 63) (hpages : 2 ^ 63 ≤ pages + since)
    (d : Device M σ) :
    ∃ w events next l, Caught (mlsControl channelId) since (server.log d.world) events next l ∧
      l <+: server.log w ∧
      fetchMlsControlExhaustive server.transport channelId pages since d =
        (.ok (events, next), { d with world := w }) := by
  obtain ⟨w, events, next, l, hcaught, hlog, hrun⟩ :=
    followPages_run (server.control channelId) server.bounded
      (fun events => (decodeControl_some events).trans (by rw [List.filterMap_some]))
      "fetch_mls_control returned more=true without advancing the cursor" h hpages d
  refine ⟨w, events, next, l, hcaught, hlog, ?_⟩
  rw [fetchMlsControlExhaustive_eq, hrun, List.filterMap_some]

/-- Below the sign bit of the database's integers, following the cursor loses and repeats nothing,
and the loops of the client end with what they ask for. -/
theorem paged_fetch {since : ℕ} (h : since < 2 ^ 63) :
    (∀ (log : StoredLog) (recipient : PublicKey) (channelFilter : Option ℕ),
      (welcomesFor recipient channelFilter).ReadsAll log.events since) ∧
    (∀ (log : StoredLog) (channelId : ℕ), (mlsControl channelId).ReadsAll log.events since) ∧
    ∀ (M : OpenMls) (σ : Type) (actor : Actor)
      (server : EventServer σ (K.publicKey actor.identity)) (d : Device M σ) (pages : ℕ),
      2 ^ 63 ≤ pages + since →
      (∀ channelFilter, ∃ w events next l,
        Caught (welcomesFor (K.publicKey actor.identity) channelFilter) since (server.log d.world)
          events next l ∧ l <+: server.log w ∧
        fetchPendingWelcomes K actor server.fetchWelcomes channelFilter pages since d =
          (.ok (events.filterMap (matchPendingWelcome K actor)), { d with world := w })) ∧
      ∀ channelId, ∃ w events next l,
        Caught (mlsControl channelId) since (server.log d.world) events next l ∧
        l <+: server.log w ∧
        fetchMlsControlExhaustive server.transport channelId pages since d =
          (.ok (events, next), { d with world := w }) := by
  refine ⟨fun log _ _ => PageQuery.readsAll _ log h, fun log _ => PageQuery.readsAll _ log h, ?_⟩
  intro M σ actor server d pages hpages
  constructor
  · intro channelFilter
    exact fetchPendingWelcomes_run K server channelFilter h hpages d
  · intro channelId
    exact fetchMlsControlExhaustive_run server channelId h hpages d

section Sample

open SampleLog SampleMls

/-- Alice invites her second device to a channel. -/
def inviting : List Event :=
  signed
    [⟨alice, a0, 1, cert alice a0 none⟩,
     ⟨alice, a1, 1, cert alice a1 none⟩,
     ⟨alice, a0, 1, .channelCreated ⟨7, "sealed", "text", .e2ee, none⟩⟩,
     ⟨alice, a0, 1, .mlsWelcome ⟨7, 1, "", SampleLog.key alice, device a1, []⟩⟩]

theorem length_inviting : inviting.length = 4 := by decide +kernel

def stillLog : StoredLog where
  events _ := inviting
  grows _ := List.prefix_refl _
  bounded _ := by
    rw [length_inviting]
    decide

/-- Each fetch finds one event more in the log. -/
def laterFetch (q : PageQuery) (since w : ℕ) : Except TransportError MlsControl × ℕ :=
  (.ok (received (q.fetch since (inviting.take w))), w + 1)

theorem answers_laterFetch (q : PageQuery) :
    Answers (fun w => inviting.take w) q (laterFetch q) := by
  intro since w
  refine ⟨rfl, ?_⟩
  exact List.take_prefix_take_left (Nat.le_succ w)

def sampleServer : EventServer ℕ (SampleLog.key alice) where
  transport :=
    { now := fun _ => 0
      submitEvent := fun _ w => (.error (.transport ""), w)
      fetchMlsControl := fun channelId => laterFetch (mlsControl channelId)
      fetchKeyPackages := fun _ w => (.ok [], w)
      fetchDeviceCerts := fun _ w => (.ok [], w) }
  fetchWelcomes channelFilter := laterFetch (welcomesFor (SampleLog.key alice) channelFilter)
  log w := inviting.take w
  bounded w := by
    have hle := List.length_take_le' w inviting
    have hlength := length_inviting
    omega
  control channelId := answers_laterFetch _
  welcomes channelFilter := answers_laterFetch _

def sampleDevice (w : ℕ) : Device mls ℕ :=
  ⟨⟨0, none, 0⟩, ⟨0, none, 0, false, false⟩, ⟨none, ∅, ∅, ∅⟩, w⟩

def firstDevice : Actor := ⟨a0, alice, "1"⟩
def secondDevice : Actor := ⟨a1, alice, "1"⟩

theorem paged_fetch_inviting :
    ∃ w events next l, Caught (welcomesFor (SampleLog.key alice) (some 7)) 1
        (inviting.take 4) events next l ∧ l <+: inviting.take w ∧
      fetchPendingWelcomes crypto secondDevice sampleServer.fetchWelcomes (some 7) (2 ^ 63) 1
        (sampleDevice 4) =
          (.ok (events.filterMap (matchPendingWelcome crypto secondDevice)), sampleDevice w) :=
  ((paged_fetch crypto (by decide)).2.2 mls ℕ secondDevice sampleServer (sampleDevice 4) (2 ^ 63)
    (by decide)).1 (some 7)

/-- The Welcome is for another device of the member: the server returns it, and the loop does not.
A cursor with the sign bit set starts over. -/
theorem paged_fetch_narrows :
    (LogState.replay crypto genesis inviting).isOk = true ∧
    ((welcomesFor (SampleLog.key alice) none).matching 0 inviting).length = 1 ∧
    (fetchPendingWelcomes crypto firstDevice sampleServer.fetchWelcomes none 3 0
      (sampleDevice 4)).1.toOption = some [] ∧
    ¬(mlsControl 7).ReadsAll (fun _ => inviting) (2 ^ 63) := by
  refine ⟨by decide +kernel, by decide +kernel, by decide +kernel, ?_⟩
  have hsome : ∃ e ∈ inviting, (mlsControl 7).wanted e = true := by decide +kernel
  exact (mlsControl 7).not_readsAll stillLog (Nat.le_refl _) (by decide) hsome

end Sample

end Client
