import Farder.Server.ChannelRows
import Farder.Server.SampleHost
import Farder.Server.Step
import Farder.Ui.SealedDecrypt
import Farder.Ui.Timeline

/-! # Sealed edits that are read

A sealed edit puts a new ciphertext into the row of its message, and leaves the event hash of the row
as it is. A client that has opened the row takes the edited one for opened too. -/
namespace SealedEdits

open EventLog Server Ui Guarded

/-! ## A client that reads an encrypted channel -/

structure Opening where
  messageId : ℕ
  eventHash : Option EventHash
  ciphertext : List UInt8
  result : SealedDecrypt

/-- A page that has been fetched: for the whole list, or for its upper end. -/
structure Page where
  scrolled : Bool
  messages : List Ui.MessageInfo

/-- A server, and a client that has subscribed to a channel. What the client is told of is on the way
in order; `handed` collects all openings, `inFlight` those that have not settled. -/
structure Scene where
  host : Host
  onTheWay : List Ui.MessageInfo
  pages : List Page
  view : PerServer
  inFlight : List Opening
  handed : List Opening

inductive Op where
  | submit (moment : Moment) (event : Event)
  | deliver
  | fetch (beforeId : Option ℕ)
  | answered (i : ℕ)
  | hydrated
  | scan (i : ℕ)
  | settle (i : ℕ)

def sealedChannel (payload : EventPayload) : Option ℕ :=
  match payload with
  | .messagePostedE2ee p => some p.channelId
  | .messageEditedE2ee p => some p.channelId
  | _ => none

def sealedEdit (payload : EventPayload) : Option MessageEditedE2ee :=
  match payload with
  | .messageEditedE2ee p => some p
  | _ => none

/-- The listeners for sealed messages. -/
def heard (event : BroadcastEvent) : Option Ui.MessageInfo :=
  match event.event with
  | .sealedMessage _ message => some (.flatten message)
  | .sealedMessageEdited _ message => some (.flatten message)
  | _ => none

section Model

variable (K : Crypto) (text : List UInt8 → String) (ownPk : PublicKey) (channelId : ℕ)

namespace Scene

variable (s : Scene)

/-- The list of the channel. -/
def shown : List Ui.MessageInfo := s.view.messages channelId

def isInFlight (m : Ui.MessageInfo) : Bool :=
  s.inFlight.any fun o => o.messageId = m.id ∧ o.eventHash = m.eventHash

theorem lawfulBEq_bytes : LawfulBEq (List UInt8) := inferInstance

attribute [local instance] lawfulBEq_bytes

/-- The key of a ciphertext is gone after its first opening. -/
def opening (m : Ui.MessageInfo) (ciphertext : List UInt8) : Opening where
  messageId := m.id
  eventHash := m.eventHash
  ciphertext := ciphertext
  result :=
    if ciphertext ∈ s.handed.map Opening.ciphertext then .undecryptable m.eventHash
    else .decrypted (text ciphertext) m.eventHash

def handOver (o : Opening) : Scene :=
  { s with inFlight := s.inFlight ++ [o], handed := s.handed ++ [o] }

/-- A page for the whole list takes its place. -/
def receive (page : Page) : Scene :=
  { s with view := s.view.dispatch
            (if page.scrolled then .prependMessages channelId page.messages.reverse
             else .setMessages channelId page.messages.reverse) }

def step : Op → Option Scene
  | .submit moment event =>
    if sealedChannel event.core.payload = some channelId then
      match s.host.submitEvent K moment event with
      | (host, .ok answer) =>
        some { s with host, onTheWay := s.onTheWay ++ answer.events.filterMap heard }
      | (_, .error _) => none
    else none
  | .deliver =>
    match s.onTheWay with
    | message :: rest =>
      some { s with onTheWay := rest, view := s.view.dispatch (.addOrUpdateMessage message) }
    | [] => none
  | .fetch beforeId =>
    let messages := (s.host.history channelId beforeId pageSize true).map Ui.MessageInfo.flatten
    some { s with pages := s.pages ++ [⟨beforeId.isSome, messages⟩] }
  | .answered i =>
    s.pages[i]?.map fun page => { s with pages := s.pages.eraseIdx i }.receive channelId page
  | .hydrated => some { s with view := s.view.hydrated channelId }
  | .scan i =>
    if s.view.historyHydrated channelId then
      (s.shown channelId)[i]?.map fun m =>
        match s.view.pass ownPk (s.isInFlight m) m with
        | .opens ciphertext => s.handOver (s.opening text m ciphertext)
        | .own content =>
          { s with view := s.view.setDecrypt m.id (.decrypted content m.eventHash) }
        | .skip => s
    else none
  | .settle i =>
    s.inFlight[i]?.map fun o =>
      { s with inFlight := s.inFlight.eraseIdx i, view := s.view.setDecrypt o.messageId o.result }

/-- The text of the last accepted version of a message. -/
def textOf (id : ℕ) : Option String :=
  ((s.host.db.messages.get? id).bind MessageRow.sealed).map text

/-- A client that has not shown the channel, with nothing of it in its local history. -/
structure Fresh : Prop where
  onTheWay : s.onTheWay = []
  pages : s.pages = []
  view : s.view = .initial
  inFlight : s.inFlight = []
  handed : s.handed = []

/-- Everything has come, and everything that the client shows has been looked at. -/
structure Quiet : Prop where
  onTheWay : s.onTheWay = []
  pages : s.pages = []
  inFlight : s.inFlight = []
  hydrated : s.view.historyHydrated channelId = true
  looked : ∀ m ∈ s.shown channelId, ∀ ciphertext,
    s.view.pass ownPk (s.isInFlight m) m ≠ .opens ciphertext

/-- The client has the latest text of all that it shows of others, and no other text. -/
structure ShowsLatest : Prop where
  shown : ∀ m ∈ s.shown channelId, m.ciphertext ≠ none → m.author ≠ ownPk → ∃ content,
    s.textOf text m.id = some content ∧
      s.view.sealedDecrypts m.id = some (.decrypted content m.eventHash)
  held : ∀ id content eventHash,
    s.view.sealedDecrypts id = some (.decrypted content eventHash) →
      s.textOf text id = some content

def OpensOnce : Prop := (s.handed.map Opening.ciphertext).Nodup

/-- What has been handed over is the latest version of its message, by its text. -/
structure Current : Prop where
  latest : ∀ o ∈ s.handed, s.textOf text o.messageId = some (text o.ciphertext)
  once : s.OpensOnce

/-- A message that has been handed over is not edited, unless to the same text; and a message is
handed over in its latest version, with bytes that have not been handed over before. -/
def UpToDate : Op → Prop
  | .submit _ event => ∀ p ∈ sealedEdit event.core.payload, ∀ o ∈ s.handed,
      (s.host.db.rowOfHash p.target).map Prod.fst = some o.messageId →
        text p.ciphertext = text o.ciphertext
  | .scan i => ∀ m ∈ (s.shown channelId)[i]?, ∀ ciphertext ∈ m.ciphertext, m.author ≠ ownPk →
      m.id ∉ s.handed.map Opening.messageId →
        s.textOf text m.id = some (text ciphertext) ∧
          ciphertext ∉ s.handed.map Opening.ciphertext
  | _ => True

instance decidableUpToDate (op : Op) : Decidable (s.UpToDate text ownPk channelId op) :=
  match op with
  | .submit _ _ => inferInstanceAs (Decidable (∀ p ∈ _, ∀ o ∈ _, _))
  | .scan _ => inferInstanceAs (Decidable (∀ m ∈ _, ∀ ciphertext ∈ _, _))
  | .deliver | .fetch _ | .answered _ | .hydrated | .settle _ => .isTrue trivial

end Scene

abbrev SceneRun := Execution fun s op t => Scene.step K text ownPk channelId s op = some t

end Model

variable {K : Crypto} {text : List UInt8 → String} {ownPk : PublicKey} {channelId : ℕ}
  {s t : Scene} {host host' : Host} {moment : Moment} {event : Event} {a : Answer} {op : Op}
  {m : Ui.MessageInfo} {o : Opening}

/-! ## What the server does with an event -/

theorem posted_rows {p : MessagePostedE2ee} (hp : event.core.payload = .messagePostedE2ee p)
    (h : host.submitEvent K moment event = (host', .ok a)) :
    ∃ row, host'.db.messages = host.db.messages.insert row := by
  obtain ⟨db, orphans, hingest, hdb⟩ := submitEvent_ingested (congrArg Prod.snd h)
  obtain rfl : host'.db = db := (congrArg (fun x => x.1.db) h).symm.trans hdb
  have hposted : host.db.checkPosted event = .ok () := by
    simp only [Db.checkPosted, hp]
  have heffect := (ingested hposted hingest).2
  generalize hv : host'.db.view = v at heffect
  cases heffect with
  | posted row => exact ⟨row, congrArg View.messages hv⟩
  | declared _ _ hother | edited _ _ _ hother | deleted _ _ _ hother =>
    exact absurd (hp.symm.trans hother) (by simp)
  | stored hother => simp [isPosted, hp] at hother

theorem edited_rows {p : MessageEditedE2ee} (hp : event.core.payload = .messageEditedE2ee p)
    (h : host.submitEvent K moment event = (host', .ok a)) :
    ∃ id row, host.db.rowOfHash p.target = some (id, row) ∧
      host'.db.messages = host.db.messages.modify id fun row =>
        { row with sealed := some p.ciphertext, editedAt := some event.core.timestamp } := by
  obtain ⟨db, orphans, hingest, hdb⟩ := submitEvent_ingested (congrArg Prod.snd h)
  obtain rfl : host'.db = db := (congrArg (fun x => x.1.db) h).symm.trans hdb
  simp only [Db.ingest, bind_eq_ok, prefixed_eq_ok] at hingest
  obtain ⟨db₁, hstore, db₂, hmaterialize, ⟨db₃, id⟩, hderive, db₄, hedit, htombstone⟩ := hingest
  obtain ⟨-, hview₁⟩ := view_storeEvent hstore
  obtain rfl := materialize_other (by simp [hp]) hmaterialize
  obtain ⟨rfl, rfl⟩ := derive_other (by simp [isPosted, hp]) hderive
  have hmessages : ((db₃.attachDerived event none).redactAttachment event).messages =
      host.db.messages := by
    rw [← Db.view_messages, Db.view_redactAttachment, Db.view_attachDerived]
    exact congrArg View.messages hview₁
  obtain rfl := applyTombstone_other (by simp [hp]) htombstone
  simp only [Db.applySealedEdit, hp, bind_eq_ok, context_eq_ok] at hedit
  obtain ⟨target, htarget, id, rfl, hupdate⟩ := hedit
  obtain ⟨row, hrow, -⟩ := sealedEditTarget_eq_some htarget
  obtain ⟨-, -, -, -, hdb'⟩ := Db.view_updateSealedRow hupdate
  rw [Db.rowOfHash, hmessages] at hrow
  refine ⟨id, row, hrow, ?_⟩
  rw [hdb', ← hmessages]

theorem mem_announceRow {c : ℕ} {b : BroadcastEvent}
    (hp : sealedChannel event.core.payload = some c) (hb : b ∈ host.announceRow K event)
    (hm : heard b = some m) :
    ∃ x ∈ host.db.messages, m = .flatten (host.messageInfo x) := by
  have hrow {announce : Server.MessageInfo → BroadcastEvent} {hash : EventHash}
      (hannounce : ∀ message, heard (announce message) = some (.flatten message))
      (hb : b ∈ Host.announceRow.rows host hash announce) :
      ∃ x ∈ host.db.messages, m = .flatten (host.messageInfo x) := by
    obtain ⟨x, hx, rfl⟩ := List.mem_map.mp hb
    rw [hannounce] at hm
    exact ⟨x, (Table.find?_mem (Option.mem_toList.mp hx)).1, (Option.some.inj hm).symm⟩
  cases hpayload : event.core.payload with
  | messagePostedE2ee p =>
    rw [Host.announceRow, hpayload] at hb
    exact hrow (fun _ => rfl) hb
  | messageEditedE2ee p =>
    rw [Host.announceRow, hpayload] at hb
    exact hrow (fun _ => rfl) hb
  | _ => simp [sealedChannel, hpayload] at hp

theorem announceLog_sealed {c : ℕ} {trial : LogState}
    (hp : sealedChannel event.core.payload = some c) : host.announceLog K event trial = [] := by
  cases hpayload : event.core.payload with
  | messagePostedE2ee p => simp [Host.announceLog, hpayload, controlChannel]
  | messageEditedE2ee p => simp [Host.announceLog, hpayload, controlChannel]
  | _ => simp [sealedChannel, hpayload] at hp

theorem announceTombstone_sealed {c : ℕ} {target : Option (ℕ × MessageRow)}
    (hp : sealedChannel event.core.payload = some c) :
    host.announceTombstone event target = [] := by
  cases hpayload : event.core.payload with
  | messageDeleted p => simp [sealedChannel, hpayload] at hp
  | _ => simp [Host.announceTombstone, hpayload]

theorem heard_rows {c : ℕ} (hp : sealedChannel event.core.payload = some c)
    (h : host.submitEvent K moment event = (host', .ok a)) (hm : m ∈ a.events.filterMap heard) :
    ∃ x ∈ host'.db.messages, m = .flatten (host'.messageInfo x) := by
  obtain ⟨b, hb, hheard⟩ := List.mem_filterMap.mp hm
  unfold Host.submitEvent at h
  split at h
  · cases h
  · obtain ⟨rfl, ha⟩ := Prod.mk.inj h
    obtain rfl := Except.ok.inj ha
    rename_i server orphans _
    rw [announceTombstone_sealed hp, List.append_nil] at hb
    rcases List.mem_append.mp hb with hb | hb
    · exact mem_announceRow hp hb hheard
    · cases hls : server.logState <;> simp [hls, announceLog_sealed hp] at hb

/-! ## The rows that the client knows of -/

/-- A message that the client knows has a row, with its event hash and its author. -/
def Names (host : Host) (m : Ui.MessageInfo) : Prop :=
  ∃ row, host.db.messages.get? m.id = some row ∧ row.eventHash = m.eventHash ∧
    row.author = m.author

theorem names_flatten {x : ℕ × MessageRow} (hx : x ∈ host.db.messages) :
    Names host (.flatten (host.messageInfo x)) :=
  ⟨x.2, Table.get?_eq_some.mpr hx, rfl, rfl⟩

theorem row_submitted {c id : ℕ} {row : MessageRow} (hp : sealedChannel event.core.payload = some c)
    (h : host.submitEvent K moment event = (host', .ok a))
    (hrow : host.db.messages.get? id = some row) :
    ∃ row', host'.db.messages.get? id = some row' ∧ row'.eventHash = row.eventHash ∧
      row'.author = row.author := by
  cases hpayload : event.core.payload with
  | messagePostedE2ee p =>
    obtain ⟨new, hmessages⟩ := posted_rows hpayload h
    have hid : id ≠ host.db.messages.next := (Table.key_lt (Table.get?_eq_some.mp hrow)).ne
    rw [hmessages, Table.get?_insert, if_neg hid]
    exact ⟨row, hrow, rfl, rfl⟩
  | messageEditedE2ee p =>
    obtain ⟨target, old, -, hmessages⟩ := edited_rows hpayload h
    rw [hmessages, Table.modify, Table.get?_map, hrow]
    refine ⟨_, rfl, ?_⟩
    split_ifs
    · exact ⟨rfl, rfl⟩
    · exact ⟨rfl, rfl⟩
  | _ => simp [sealedChannel, hpayload] at hp

theorem Names.submitted {c : ℕ} (hp : sealedChannel event.core.payload = some c)
    (h : host.submitEvent K moment event = (host', .ok a)) (hm : Names host m) : Names host' m := by
  obtain ⟨row, hrow, hhash, hauthor⟩ := hm
  obtain ⟨row', hrow', hhash', hauthor'⟩ := row_submitted hp h hrow
  exact ⟨row', hrow', hhash'.trans hhash, hauthor'.trans hauthor⟩

/-- The messages in the list of the client, or on their way to it. -/
def Scene.known (s : Scene) (channelId : ℕ) : List Ui.MessageInfo :=
  s.shown channelId ++ s.onTheWay ++ s.pages.flatMap Page.messages

/-- What is cached is what came of an opening, and what is cached or in flight is handed over. -/
structure Inv (text : List UInt8 → String) (channelId : ℕ) (s : Scene) : Prop where
  known : ∀ m ∈ s.known channelId, Names s.host m
  handed : ∀ o ∈ s.handed, ∃ row, s.host.db.messages.get? o.messageId = some row ∧
    row.eventHash = o.eventHash
  ids : (s.handed.map Opening.messageId).Nodup
  inFlight : ∀ o ∈ s.inFlight, o ∈ s.handed
  settled : ∀ o ∈ s.handed, o ∈ s.inFlight ∨
    s.view.sealedDecrypts o.messageId = some o.result
  cached : ∀ id entry, s.view.sealedDecrypts id = some entry →
    ∃ o ∈ s.handed, o.messageId = id ∧ o.result = entry
  version : ∀ o ∈ s.handed, o.result.eventHash = o.eventHash
  opened : s.OpensOnce → ∀ o ∈ s.handed, o.result = .decrypted (text o.ciphertext) o.eventHash
  own : s.view.ownSealedSends = fun _ => none

namespace Inv

theorem fresh (h : s.Fresh) : Inv text channelId s where
  known m hm := by
    simp [Scene.known, Scene.shown, h.view, h.onTheWay, h.pages, PerServer.initial] at hm
  handed o ho := by simp [h.handed] at ho
  ids := by simp [h.handed]
  inFlight o ho := by simp [h.inFlight] at ho
  settled o ho := by simp [h.handed] at ho
  cached id entry hentry := by simp [h.view, PerServer.initial] at hentry
  version o ho := by simp [h.handed] at ho
  opened _ o ho := by simp [h.handed] at ho
  own := by rw [h.view]; rfl

/-- A message that has been handed over is opened again exactly if it is not there. -/
theorem opens_iff (h : Inv text channelId s) (hm : m ∈ s.shown channelId)
    {ciphertext : List UInt8} :
    s.view.pass ownPk (s.isInFlight m) m = .opens ciphertext ↔
      m.ciphertext = some ciphertext ∧ m.author ≠ ownPk ∧
        m.id ∉ s.handed.map Opening.messageId := by
  have hnone : m.eventHash.bind s.view.ownSealedSends = none := by
    rw [h.own]
    cases m.eventHash <;> rfl
  obtain ⟨row, hrow, hhash, -⟩ := h.known m
    (List.mem_append_left _ (List.mem_append_left _ hm))
  rw [pass_opens_iff]
  constructor
  · rintro ⟨hciphertext, -, hauthor, hcached, hflight⟩
    refine ⟨hciphertext, hauthor, fun hid => ?_⟩
    obtain ⟨o, ho, hid⟩ := List.mem_map.mp hid
    obtain ⟨row', hrow', hhash'⟩ := h.handed o ho
    rw [hid] at hrow'
    obtain rfl := Option.some.inj (hrow.symm.trans hrow')
    rcases h.settled o ho with hin | hsettled
    · have : s.isInFlight m = true :=
        List.any_eq_true.mpr ⟨o, hin, decide_eq_true ⟨hid, hhash'.symm.trans hhash⟩⟩
      simp [hflight] at this
    · rw [hid] at hsettled
      refine hcached ?_
      rw [hsettled, Option.map_some, h.version o ho, ← hhash', hhash]
  · rintro ⟨hciphertext, hauthor, hid⟩
    refine ⟨hciphertext, hnone, hauthor, fun hcached => ?_, ?_⟩
    · obtain ⟨entry, hentry, -⟩ := Option.map_eq_some_iff.mp hcached
      obtain ⟨o, ho, heq, -⟩ := h.cached _ _ hentry
      exact hid (List.mem_map.mpr ⟨o, ho, heq⟩)
    · refine Bool.eq_false_iff.mpr fun hflight => ?_
      obtain ⟨o, ho, heq⟩ := List.any_eq_true.mp hflight
      exact hid (List.mem_map.mpr ⟨o, h.inFlight o ho, (of_decide_eq_true heq).1⟩)

theorem relist (h : Inv text channelId s) {w : List Ui.MessageInfo} {pages : List Page}
    {messages : ℕ → List Ui.MessageInfo} {hydrated : ℕ → Bool}
    (hknown : ∀ m, m ∈ messages channelId ∨ m ∈ w ∨ m ∈ pages.flatMap Page.messages →
      Names s.host m) :
    Inv text channelId { s with
      onTheWay := w
      pages := pages
      view := { s.view with messages := messages, historyHydrated := hydrated } } where
  known m hm := by
    simp only [Scene.known, Scene.shown, List.mem_append, or_assoc] at hm
    exact hknown m hm
  handed := h.handed
  ids := h.ids
  inFlight := h.inFlight
  settled := h.settled
  cached := h.cached
  version := h.version
  opened := h.opened
  own := h.own

theorem names (h : Inv text channelId s)
    (hm : m ∈ s.shown channelId ∨ m ∈ s.onTheWay ∨ m ∈ s.pages.flatMap Page.messages) :
    Names s.host m := by
  refine h.known m ?_
  simpa only [Scene.known, List.mem_append, or_assoc] using hm

theorem submitted (h : Inv text channelId s)
    (hp : sealedChannel event.core.payload = some channelId)
    (hok : s.host.submitEvent K moment event = (host', .ok a)) :
    Inv text channelId { s with
      host := host', onTheWay := s.onTheWay ++ a.events.filterMap heard } where
  known m hm := by
    simp only [Scene.known, Scene.shown, List.mem_append, or_assoc] at hm
    rcases hm with hm | hm | hm | hm
    · exact (h.names (.inl hm)).submitted hp hok
    · exact (h.names (.inr (.inl hm))).submitted hp hok
    · obtain ⟨x, hx, rfl⟩ := heard_rows hp hok hm
      exact names_flatten hx
    · exact (h.names (.inr (.inr hm))).submitted hp hok
  handed o ho := by
    obtain ⟨row, hrow, hhash⟩ := h.handed o ho
    obtain ⟨row', hrow', hhash', -⟩ := row_submitted hp hok hrow
    exact ⟨row', hrow', hhash'.trans hhash⟩
  ids := h.ids
  inFlight := h.inFlight
  settled := h.settled
  cached := h.cached
  version := h.version
  opened := h.opened
  own := h.own

theorem handOver (h : Inv text channelId s) (hm : m ∈ s.shown channelId) {ciphertext : List UInt8}
    (hid : m.id ∉ s.handed.map Opening.messageId) :
    Inv text channelId (s.handOver (s.opening text m ciphertext)) where
  known := h.known
  handed o ho := by
    rcases List.mem_append.mp ho with ho | ho
    · exact h.handed o ho
    · obtain rfl := List.mem_singleton.mp ho
      obtain ⟨row, hrow, hhash, -⟩ := h.names (.inl hm)
      exact ⟨row, hrow, hhash⟩
  ids := by
    rw [Scene.handOver, List.map_append, List.map_singleton, ← List.concat_eq_append]
    exact (List.nodup_concat _ _).mpr ⟨hid, h.ids⟩
  inFlight o ho :=
    (List.mem_append.mp ho).elim (fun ho => List.mem_append_left _ (h.inFlight o ho))
      (List.mem_append_right _)
  settled o ho := by
    rcases List.mem_append.mp ho with ho | ho
    · exact (h.settled o ho).imp_left (List.mem_append_left _)
    · exact .inl (List.mem_append_right _ ho)
  cached id entry hentry := by
    obtain ⟨o, ho, heq⟩ := h.cached id entry hentry
    exact ⟨o, List.mem_append_left _ ho, heq⟩
  version o ho := by
    rcases List.mem_append.mp ho with ho | ho
    · exact h.version o ho
    · obtain rfl := List.mem_singleton.mp ho
      rw [Scene.opening]
      split_ifs <;> rfl
  opened honce o ho := by
    rw [Scene.OpensOnce, Scene.handOver, List.map_append, List.map_singleton,
      ← List.concat_eq_append] at honce
    obtain ⟨hnew, honce⟩ := (List.nodup_concat _ _).mp honce
    rcases List.mem_append.mp ho with ho | ho
    · exact h.opened honce o ho
    · obtain rfl := List.mem_singleton.mp ho
      exact if_neg hnew
  own := h.own

theorem settle (h : Inv text channelId s) {i : ℕ} (ho : s.inFlight[i]? = some o) :
    Inv text channelId { s with
      inFlight := s.inFlight.eraseIdx i, view := s.view.setDecrypt o.messageId o.result } where
  known := h.known
  handed := h.handed
  ids := h.ids
  inFlight o ho := h.inFlight o (List.mem_of_mem_eraseIdx ho)
  settled o' ho' := by
    have hmem := h.inFlight o (List.mem_of_getElem? ho)
    by_cases hid : o'.messageId = o.messageId
    · obtain rfl := List.inj_on_of_nodup_map h.ids ho' hmem hid
      exact .inr (Function.update_self ..)
    · rcases h.settled o' ho' with hin | hsettled
      · obtain ⟨j, hj⟩ := List.mem_iff_getElem?.mp hin
        refine .inl (List.mem_eraseIdx_iff_getElem?.mpr ⟨j, ?_, hj⟩)
        rintro rfl
        exact hid (by rw [Option.some.inj (hj.symm.trans ho)])
      · exact .inr ((Function.update_of_ne hid ..).trans hsettled)
  cached id entry hentry := by
    by_cases hid : id = o.messageId
    · subst hid
      have hentry : some o.result = some entry :=
        (Function.update_self (f := s.view.sealedDecrypts) ..).symm.trans hentry
      exact ⟨o, h.inFlight o (List.mem_of_getElem? ho), rfl, Option.some.inj hentry⟩
    · exact h.cached id entry ((Function.update_of_ne hid ..).symm.trans hentry)
  version := h.version
  opened := h.opened
  own := by
    unfold PerServer.setDecrypt
    split
    · exact Function.update_eq_self_iff.mpr (congrFun h.own _).symm |>.trans h.own
    · exact h.own

end Inv

theorem step_submit (h : s.step K text ownPk channelId (.submit moment event) = some t) :
    sealedChannel event.core.payload = some channelId ∧
      ∃ host a, s.host.submitEvent K moment event = (host, .ok a) ∧
        t = { s with host, onTheWay := s.onTheWay ++ a.events.filterMap heard } := by
  simp only [Scene.step] at h
  split at h
  · next hp =>
    refine ⟨hp, ?_⟩
    split at h
    · next host a hok => exact ⟨host, a, hok, (Option.some.inj h).symm⟩
    · cases h
  · cases h

/-- Another row of the channel is looked at, and handed over if it has not been. -/
theorem step_scan (hs : Inv text channelId s) {i : ℕ}
    (h : s.step K text ownPk channelId (.scan i) = some t) :
    ∃ m, (s.shown channelId)[i]? = some m ∧
      ((∃ ciphertext, m.ciphertext = some ciphertext ∧ m.author ≠ ownPk ∧
          m.id ∉ s.handed.map Opening.messageId ∧
          t = s.handOver (s.opening text m ciphertext)) ∨
        (∀ ciphertext, m.ciphertext = some ciphertext → m.author ≠ ownPk →
          m.id ∈ s.handed.map Opening.messageId) ∧ t = s) := by
  simp only [Scene.step] at h
  split at h
  · obtain ⟨m, hm, rfl⟩ := Option.map_eq_some_iff.mp h
    have hmem : m ∈ s.shown channelId := List.mem_of_getElem? hm
    refine ⟨m, hm, ?_⟩
    cases hpass : s.view.pass ownPk (s.isInFlight m) m with
    | opens ciphertext =>
      obtain ⟨hciphertext, hauthor, hid⟩ := (hs.opens_iff hmem).mp hpass
      exact .inl ⟨ciphertext, hciphertext, hauthor, hid, rfl⟩
    | own content =>
      -- Nothing has been sent from here.
      have hnone : m.eventHash.bind s.view.ownSealedSends = none := by
        rw [hs.own]
        cases m.eventHash <;> rfl
      unfold PerServer.pass at hpass
      rw [hnone] at hpass
      split at hpass
      · cases hpass
      · split_ifs at hpass
    | skip =>
      refine .inr ⟨fun ciphertext hciphertext hauthor => ?_, rfl⟩
      by_contra hid
      rw [(hs.opens_iff hmem).mpr ⟨hciphertext, hauthor, hid⟩] at hpass
      cases hpass
  · cases h

theorem Inv.step (hs : Inv text channelId s) (h : s.step K text ownPk channelId op = some t) :
    Inv text channelId t := by
  cases op with
  | submit moment event =>
    obtain ⟨hp, host, a, hok, rfl⟩ := step_submit h
    exact hs.submitted hp hok
  | deliver =>
    simp only [Scene.step] at h
    split at h
    · next message rest hway =>
      obtain rfl := Option.some.inj h
      refine hs.relist fun m hm => hs.names ?_
      rw [hway]
      rcases hm with hm | hm | hm
      · have hm : m ∈ (s.view.dispatch (.addOrUpdateMessage message)).messages channelId := hm
        rw [PerServer.messages_dispatch, reduceChannel] at hm
        split_ifs at hm
        · rcases mem_addOrUpdate hm with hm | rfl
          · exact .inl hm
          · exact .inr (.inl List.mem_cons_self)
        · exact .inl hm
      · exact .inr (.inl (List.mem_cons_of_mem _ hm))
      · exact .inr (.inr hm)
    · cases h
  | fetch beforeId =>
    obtain rfl := Option.some.inj h
    refine hs.relist fun m hm => ?_
    rcases hm with hm | hm | hm
    · exact hs.names (.inl hm)
    · exact hs.names (.inr (.inl hm))
    · rw [List.flatMap_append, List.mem_append] at hm
      rcases hm with hm | hm
      · exact hs.names (.inr (.inr hm))
      · simp only [Host.history, List.flatMap_cons, List.flatMap_nil, List.append_nil,
          List.map_map] at hm
        obtain ⟨x, hx, rfl⟩ := List.mem_map.mp hm
        have hx := List.mem_reverse.mp (List.mem_of_mem_take hx)
        exact names_flatten (List.mem_filter.mp hx).1
  | answered i =>
    obtain ⟨page, hpage, rfl⟩ := Option.map_eq_some_iff.mp h
    have hmem : ∀ m ∈ page.messages.reverse, m ∈ s.pages.flatMap Page.messages := fun m hm =>
      List.mem_flatMap.mpr ⟨page, List.mem_of_getElem? hpage, List.mem_reverse.mp hm⟩
    refine hs.relist fun m hm => hs.names ?_
    rcases hm with hm | hm | hm
    · have hm : m ∈ ({ s with pages := s.pages.eraseIdx i }.receive channelId page).shown
          channelId := hm
      rw [Scene.shown, Scene.receive, PerServer.messages_dispatch] at hm
      split_ifs at hm <;> simp only [reduceChannel, Action.channelId, if_true, reduce] at hm
      · exact (List.mem_append.mp hm).elim (fun hm => .inr (.inr (hmem m hm))) .inl
      · exact .inr (.inr (hmem m hm))
    · exact .inr (.inl hm)
    · obtain ⟨x, hx, hm⟩ := List.mem_flatMap.mp hm
      exact .inr (.inr (List.mem_flatMap.mpr ⟨x, List.mem_of_mem_eraseIdx hx, hm⟩))
  | hydrated =>
    obtain rfl := Option.some.inj h
    exact hs.relist fun m hm => hs.names hm
  | scan i =>
    obtain ⟨m, hm, ⟨ciphertext, -, -, hid, rfl⟩ | ⟨-, rfl⟩⟩ := step_scan hs h
    · exact hs.handOver (List.mem_of_getElem? hm) hid
    · exact hs
  | settle i =>
    obtain ⟨o, ho, rfl⟩ := Option.map_eq_some_iff.mp h
    exact hs.settle ho

theorem current_congr (hcurrent : s.Current text) (hhost : t.host = s.host)
    (hhanded : t.handed = s.handed) : t.Current text where
  latest o ho := by
    rw [Scene.textOf, hhost]
    exact hcurrent.latest o (hhanded ▸ ho)
  once := by
    rw [Scene.OpensOnce, hhanded]
    exact hcurrent.once

/-- A sealed event leaves what has been handed over the latest version, unless it edits it. -/
theorem current_submit (hs : Inv text channelId s) (hcurrent : s.Current text)
    (hp : sealedChannel event.core.payload = some channelId)
    (hok : s.host.submitEvent K moment event = (host, .ok a)) {w : List Ui.MessageInfo} :
    ({ s with host, onTheWay := w } : Scene).Current text ↔
      s.UpToDate text ownPk channelId (.submit moment event) := by
  cases hpayload : event.core.payload with
  | messagePostedE2ee p =>
    obtain ⟨row, hmessages⟩ := posted_rows hpayload hok
    refine iff_of_true ⟨fun o ho => ?_, hcurrent.once⟩ fun p hp => ?_
    · obtain ⟨old, hold, -⟩ := hs.handed o ho
      have hid : o.messageId ≠ s.host.db.messages.next :=
        (Table.key_lt (Table.get?_eq_some.mp hold)).ne
      rw [Scene.textOf, hmessages, Table.get?_insert, if_neg hid]
      exact hcurrent.latest o ho
    · rw [hpayload] at hp
      exact nomatch hp
  | messageEditedE2ee p =>
    obtain ⟨id, row, hrow, hmessages⟩ := edited_rows hpayload hok
    have hafter : ∀ o ∈ s.handed,
        ({ s with host, onTheWay := w } : Scene).textOf text o.messageId =
          if o.messageId = id then some (text p.ciphertext) else some (text o.ciphertext) := by
      intro o ho
      obtain ⟨old, hold, -⟩ := hs.handed o ho
      rw [← hcurrent.latest o ho, Scene.textOf, Scene.textOf, hmessages, Table.modify,
        Table.get?_map, hold]
      split_ifs <;> rfl
    simp only [Scene.UpToDate, sealedEdit, hpayload, hrow, Option.map_some, Option.some.injEq,
      Option.mem_some, forall_eq']
    constructor
    · intro h o ho heq
      have hlatest := h.latest o ho
      rw [hafter o ho, if_pos heq.symm] at hlatest
      exact Option.some.inj hlatest
    · intro h
      refine ⟨fun o ho => ?_, hcurrent.once⟩
      rw [hafter o ho]
      split_ifs with heq
      · rw [h o ho heq.symm]
      · rfl
  | _ => simp [sealedChannel, hpayload] at hp

theorem current_handOver (hcurrent : s.Current text) {ciphertext : List UInt8} :
    (s.handOver (s.opening text m ciphertext)).Current text ↔
      s.textOf text m.id = some (text ciphertext) ∧
        ciphertext ∉ s.handed.map Opening.ciphertext := by
  have honce : (s.handOver (s.opening text m ciphertext)).OpensOnce ↔
      ciphertext ∉ s.handed.map Opening.ciphertext := by
    rw [Scene.OpensOnce, Scene.handOver, List.map_append, List.map_singleton,
      ← List.concat_eq_append, List.nodup_concat]
    exact and_iff_left hcurrent.once
  constructor
  · intro h
    exact ⟨h.latest _ (List.mem_append_right _ (List.mem_singleton_self _)), honce.mp h.once⟩
  · rintro ⟨hlatest, hnew⟩
    refine ⟨fun o ho => ?_, honce.mpr hnew⟩
    rcases List.mem_append.mp ho with ho | ho
    · exact hcurrent.latest o ho
    · obtain rfl := List.mem_singleton.mp ho
      exact hlatest

theorem current_step_iff (hs : Inv text channelId s) (hcurrent : s.Current text)
    (h : s.step K text ownPk channelId op = some t) :
    t.Current text ↔ s.UpToDate text ownPk channelId op := by
  cases op with
  | submit moment event =>
    obtain ⟨hp, host, a, hok, rfl⟩ := step_submit h
    exact current_submit hs hcurrent hp hok
  | scan i =>
    obtain ⟨m, hm, ⟨ciphertext, hciphertext, hauthor, hid, rfl⟩ | ⟨hold, rfl⟩⟩ := step_scan hs h
    · rw [current_handOver hcurrent]
      constructor
      · intro h m' hm' ciphertext' hciphertext' _ _
        obtain rfl := Option.some.inj (hm.symm.trans hm')
        obtain rfl := Option.some.inj (hciphertext.symm.trans hciphertext')
        exact h
      · exact fun h => h m hm ciphertext hciphertext hauthor hid
    · refine iff_of_true hcurrent fun m' hm' ciphertext hciphertext hauthor hid => ?_
      obtain rfl := Option.some.inj (hm.symm.trans hm')
      exact absurd (hold ciphertext hciphertext hauthor) hid
  | deliver =>
    simp only [Scene.step] at h
    split at h
    · obtain rfl := Option.some.inj h
      exact iff_of_true (current_congr hcurrent rfl rfl) trivial
    · cases h
  | fetch | hydrated =>
    obtain rfl := Option.some.inj h
    exact iff_of_true (current_congr hcurrent rfl rfl) trivial
  | answered i =>
    obtain ⟨page, -, rfl⟩ := Option.map_eq_some_iff.mp h
    exact iff_of_true (current_congr hcurrent rfl rfl) trivial
  | settle i =>
    obtain ⟨o, -, rfl⟩ := Option.map_eq_some_iff.mp h
    exact iff_of_true (current_congr hcurrent rfl rfl) trivial

theorem showsLatest_of_current (hs : Inv text channelId s) (hcurrent : s.Current text)
    (hquiet : s.Quiet ownPk channelId) : s.ShowsLatest text ownPk channelId := by
  have hresult : ∀ o ∈ s.handed, s.view.sealedDecrypts o.messageId =
      some (.decrypted (text o.ciphertext) o.eventHash) := by
    intro o ho
    rw [← hs.opened hcurrent.once o ho]
    refine (hs.settled o ho).resolve_left fun hin => ?_
    rw [hquiet.inFlight] at hin
    exact absurd hin List.not_mem_nil
  refine ⟨fun m hm hciphertext hauthor => ?_, fun id content eventHash hentry => ?_⟩
  · obtain ⟨ciphertext, hciphertext⟩ := Option.ne_none_iff_exists'.mp hciphertext
    have hid : m.id ∈ s.handed.map Opening.messageId := by
      by_contra hid
      exact hquiet.looked m hm ciphertext ((hs.opens_iff hm).mpr ⟨hciphertext, hauthor, hid⟩)
    obtain ⟨o, ho, hid⟩ := List.mem_map.mp hid
    obtain ⟨row, hrow, hhash⟩ := hs.handed o ho
    obtain ⟨row', hrow', hhash', -⟩ := hs.names (.inl hm)
    rw [hid] at hrow
    obtain rfl := Option.some.inj (hrow.symm.trans hrow')
    have hlatest := hcurrent.latest o ho
    have hcached := hresult o ho
    rw [hid] at hlatest hcached
    exact ⟨_, hlatest, by rw [hcached, ← hhash, hhash']⟩
  · obtain ⟨o, ho, rfl, -⟩ := hs.cached id _ hentry
    obtain ⟨rfl, -⟩ := SealedDecrypt.decrypted.inj
      (Option.some.inj ((hresult o ho).symm.trans hentry))
    exact hcurrent.latest o ho

/-- The client hands over latest versions only, and each ciphertext once, exactly if no message is
edited that has been handed over, and none is handed over late; then it shows the latest text of all
that it has opened. -/
theorem latest_edit_shown {tr : List (Transition Scene Op)} (hs : s.Fresh)
    (h : SceneRun K text ownPk channelId s tr t) :
    ((∀ x ∈ tr, x.post.Current text) ↔
        ∀ x ∈ tr, x.pre.UpToDate text ownPk channelId x.event) ∧
      ((∀ x ∈ tr, x.pre.UpToDate text ownPk channelId x.event) → t.OpensOnce ∧
        (t.Quiet ownPk channelId → t.ShowsLatest text ownPk channelId)) := by
  have hinv : Inv text channelId s := .fresh hs
  have hcurrent : s.Current text := by
    refine ⟨fun o ho => ?_, ?_⟩
    · simp [hs.handed] at ho
    · simp [Scene.OpensOnce, hs.handed]
  have hiff := h.forall_post_iff (I := Inv text channelId) (fun s => s.Current text)
    (fun x => x.pre.UpToDate text ownPk channelId x.event) hinv hcurrent
    (fun _ _ _ hs hstep => hs.step hstep)
    fun x _ hpre hgood hstep => current_step_iff hpre hgood hstep
  refine ⟨hiff, fun hcond => ?_⟩
  have hlast := h.good_end hcurrent (hiff.mpr hcond)
  exact ⟨hlast.once, showsLatest_of_current (h.invariant hinv fun _ _ _ hs hstep => hs.step hstep)
    hlast⟩

section Sample

open SampleLog SampleHost

/-- Alice and Bob are in an encrypted channel; Alice posts, and edits what she has posted. -/
def entries : List Entry :=
  [⟨alice, a0, 1, cert alice a0 none⟩,
   ⟨alice, a0, 1, .inviteCreated ⟨"", 5, 100, false⟩⟩,
   ⟨bob, b0, 1, cert bob b0 none⟩,
   ⟨bob, b0, 1, .memberJoined (key bob) (ref alice a0 1)⟩,
   ⟨alice, a0, 1, .channelCreated ⟨e2eeChannelIdFloor, "sealed", "text", .e2ee, none⟩⟩,
   ⟨bob, b0, 1, .mlsKeyPackagePublished ⟨[], 0, 100⟩⟩,
   ⟨alice, a0, 2, .mlsCommit ⟨e2eeChannelIdFloor, 0, 0, [],
     [⟨key bob, device b0, ref bob b0 2⟩], [], 0, 1, 0, "", 0⟩⟩,
   ⟨bob, b0, 2, .mlsLeafConfirmed ⟨e2eeChannelIdFloor, 0, 1, 0, 0⟩⟩,
   ⟨alice, a0, 3, .messagePostedE2ee ⟨e2eeChannelIdFloor, 0, 1, [1], none, [], ""⟩⟩,
   ⟨alice, a0, 4, .messageEditedE2ee ⟨e2eeChannelIdFloor, ref alice a0 4, 0, 1, [2], ""⟩⟩]

def submits : List (Moment × HostOp) :=
  requests 8 (((signed entries).take 8).drop 4 |>.map fun e => (alice, .submitEvent e))

/-- Bob's client, before the post. -/
def start : Scene := ⟨hostAfter (joined ++ submits), [], [], .initial, [], []⟩

def words (ciphertext : List UInt8) : String :=
  if ciphertext = [1] then "hello" else "hello, Bob"

def stepBob : Scene → Op → Option Scene :=
  Scene.step crypto words (key bob) e2eeChannelIdFloor

def opened : List Op :=
  (((signed entries).drop 8).take 1).map (Op.submit (momentAt 20)) ++
    [.hydrated, .deliver, .scan 0, .settle 0]

/-- Alice has edited the post when Bob looks at it. -/
def editedUnopened : List Op :=
  ((signed entries).drop 8).map (Op.submit (momentAt 20)) ++
    [.hydrated, .deliver, .deliver, .scan 0, .settle 0]

/-- Alice edits the post that Bob has opened. -/
def edited : List Op :=
  opened ++ ((signed entries).drop 9).map (Op.submit (momentAt 21)) ++ [.deliver, .scan 0]

def after (ops : List Op) : Scene := ops.foldl (Execution.attempt stepBob) start

theorem fresh_start : start.Fresh := ⟨rfl, rfl, rfl, rfl, rfl⟩

theorem quiet_after {ops : List Op} (hway : (after ops).onTheWay = [])
    (hpages : (after ops).pages = []) (hflight : (after ops).inFlight = [])
    (hhydrated : (after ops).view.historyHydrated e2eeChannelIdFloor = true)
    (hskip : ((after ops).shown e2eeChannelIdFloor).all (fun m =>
      (after ops).view.pass (key bob) ((after ops).isInFlight m) m = .skip) = true) :
    (after ops).Quiet (key bob) e2eeChannelIdFloor := by
  refine ⟨hway, hpages, hflight, hhydrated, fun m hm ciphertext hopens => ?_⟩
  have hpass := of_decide_eq_true (List.all_eq_true.mp hskip m hm)
  rw [hpass] at hopens
  cases hopens

theorem latest_edit_shown_bob :
    (after editedUnopened).ShowsLatest words (key bob) e2eeChannelIdFloor ∧
      (after editedUnopened).textOf words 1 = some "hello, Bob" := by
  refine ⟨?_, by decide +kernel⟩
  have hquiet : (after editedUnopened).Quiet (key bob) e2eeChannelIdFloor :=
    quiet_after (by decide +kernel) (by decide +kernel) (by decide +kernel) (by decide +kernel)
      (by decide +kernel)
  refine ((latest_edit_shown fresh_start (Execution.of_attempt stepBob editedUnopened
    (by decide +kernel))).2 ?_).2 hquiet
  decide +kernel

/-- Bob does not open the edit: he has opened the message of that event. -/
theorem edit_not_shown :
    ¬∀ (K : Crypto) (text : List UInt8 → String) (ownPk : PublicKey) (channelId : ℕ) (s t : Scene)
      (tr : List (Transition Scene Op)), s.Fresh → SceneRun K text ownPk channelId s tr t →
        t.Quiet ownPk channelId → t.ShowsLatest text ownPk channelId ∧ t.OpensOnce := by
  intro h
  have hquiet : (after edited).Quiet (key bob) e2eeChannelIdFloor :=
    quiet_after (by decide +kernel) (by decide +kernel) (by decide +kernel) (by decide +kernel)
      (by decide +kernel)
  have hshows := (h crypto words (key bob) e2eeChannelIdFloor start (after edited) _ fresh_start
    (Execution.of_attempt stepBob edited (by decide +kernel)) hquiet).1
  have hlatest : (after edited).textOf words 1 = some "hello, Bob" := by decide +kernel
  have hold : (after edited).view.sealedDecrypts 1 =
      some (.decrypted "hello" (some (ref alice a0 4))) := by
    decide +kernel
  exact absurd ((hshows.held _ _ _ hold).symm.trans hlatest) (by decide)

end Sample

end SealedEdits
