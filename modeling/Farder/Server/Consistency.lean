import Farder.LogStep
import Farder.Server.Step

/-! # The message view agrees with the log

Whatever happens to a server, its rows come from accepted events, no row is tombstoned, and
each row already carries the edits that a replay of the log would give it. -/
namespace Server

open EventLog EventLog.LogState Guarded

variable {K : Crypto} {g : Genesis} {v v' : View} {ls ls' : LogState} {e : Event}
  {events : List Event} {row : MessageRow} {hash : EventHash}

/-! ## Tombstones of the authorization state -/

theorem mem_tombstones_step (h : ls.apply K e = .ok ls') :
    hash ∈ ls'.tombstones ↔ hash ∈ ls.tombstones ∨ deletedTarget e = some hash := by
  obtain ⟨key, m, -, heff, rfl⟩ := apply_cases h
  cases hdelete : deletedTarget e with
  | none =>
    have hsame : m.tombstones = ls.tombstones := by
      cases heff with
      | messageDeleted p hp => simp [deletedTarget, hp] at hdelete
      | _ => rfl
    show hash ∈ m.tombstones ↔ _
    simp [hsame]
  | some target =>
    cases heff with
    | messageDeleted p hp =>
      obtain rfl : p.target = target := by simpa [deletedTarget, hp] using hdelete
      show hash ∈ insert p.target ls.tombstones ↔ _
      simp [or_comm, eq_comm]
    | _ => simp_all [deletedTarget]

/-- The tombstones of the authorization state are those of the stored events. -/
theorem mem_tombstones (h : replay K g events = .ok ls) :
    hash ∈ ls.tombstones ↔ hash ∈ storedTombstoneTargets events := by
  induction events using List.reverseRecOn generalizing ls with
  | nil =>
    obtain rfl : fromGenesis K g = ls := by simpa [replay] using h
    simp [storedTombstoneTargets, fromGenesis]
  | append_singleton events e ih =>
    simp only [replay, List.foldlM_append, List.foldlM_cons, List.foldlM_nil, bind_eq_ok,
      pure_eq_ok] at h
    obtain ⟨ls₁, hprefix, ls₂, happly, rfl⟩ := h
    rw [mem_tombstones_step happly, ih hprefix, storedTombstoneTargets, storedTombstoneTargets,
      List.filterMap_append, List.mem_append]
    simp

/-- What the replay of one event does to a row: only an edit of that row, by its author,
changes it. -/
def reseal (row : MessageRow) (e : Event) : MessageRow :=
  match e.core.payload with
  | .messageEditedE2ee p =>
    if row.eventHash = some p.target ∧ row.author = e.core.author then
      { row with sealed := some p.ciphertext, editedAt := some e.core.timestamp }
    else row
  | _ => row

def resealed (events : List Event) (row : MessageRow) : MessageRow := events.foldl reseal row

/-- The same row up to its sealed body and the time of its last edit. -/
structure SameButEdits (row row' : MessageRow) : Prop where
  channelId : row'.channelId = row.channelId
  author : row'.author = row.author
  content : row'.content = row.content
  timestamp : row'.timestamp = row.timestamp
  replyTo : row'.replyTo = row.replyTo
  eventHash : row'.eventHash = row.eventHash
  isE2ee : row'.isE2ee = row.isE2ee

theorem reseal_same (row : MessageRow) (e : Event) : SameButEdits row (reseal row e) := by
  unfold reseal
  split
  · split_ifs <;> exact ⟨rfl, rfl, rfl, rfl, rfl, rfl, rfl⟩
  · exact ⟨rfl, rfl, rfl, rfl, rfl, rfl, rfl⟩

theorem SameButEdits.trans {a b c : MessageRow} (h : SameButEdits a b) (k : SameButEdits b c) :
    SameButEdits a c :=
  ⟨k.channelId.trans h.channelId, k.author.trans h.author, k.content.trans h.content,
    k.timestamp.trans h.timestamp, k.replyTo.trans h.replyTo, k.eventHash.trans h.eventHash,
    k.isE2ee.trans h.isE2ee⟩

theorem resealed_same (events : List Event) (row : MessageRow) :
    SameButEdits row (resealed events row) := by
  induction events generalizing row with
  | nil => exact ⟨rfl, rfl, rfl, rfl, rfl, rfl, rfl⟩
  | cons e events ih => exact (reseal_same row e).trans (ih (reseal row e))

theorem resealed_snoc : resealed (events ++ [e]) row = reseal (resealed events row) e := by
  simp [resealed]

theorem reseal_of_not_edit (h : ∀ p, e.core.payload = .messageEditedE2ee p →
    row.eventHash = some p.target → row.author ≠ e.core.author) : reseal row e = row := by
  unfold reseal
  split
  · rename_i p hp
    exact if_neg fun hrow => h p hp hrow.1 hrow.2
  · rfl

theorem resealed_eq_self (h : ∀ e ∈ events, ∀ p, e.core.payload = .messageEditedE2ee p →
    row.eventHash = some p.target → row.author ≠ e.core.author) : resealed events row = row := by
  induction events with
  | nil => rfl
  | cons e events ih =>
    rw [resealed, List.foldl_cons, reseal_of_not_edit (h e (by simp))]
    exact ih fun e' he' => h e' (by simp [he'])

/-- A rewrite that leaves alone what edits look at and what they write goes past a replay. -/
theorem resealed_map {f : MessageRow → MessageRow}
    (hf : ∀ row e, reseal (f row) e = f (reseal row e)) (row : MessageRow) : resealed events (f row) = f (resealed events row) := by
  induction events generalizing row with
  | nil => rfl
  | cons e events ih =>
    simp only [resealed, List.foldl_cons] at ih ⊢
    rw [hf, ih]

theorem reseal_congr {row' : MessageRow} {p : MessageEditedE2ee}
    (hp : e.core.payload = .messageEditedE2ee p) (h : SameButEdits row row')
    (hhash : row.eventHash = some p.target) (hauthor : row.author = e.core.author) :
    reseal row' e = reseal row e := by
  obtain ⟨h1, h2, h3, h4, h5, h6, h7⟩ := h
  cases row
  cases row'
  simp_all [reseal]

def editedTarget (e : Event) : Option EventRef :=
  match e.core.payload with
  | .messageEditedE2ee p => some p.target
  | _ => none

/-- The authorization state is the fold of the stored events, each stored once. -/
structure LogKept (K : Crypto) (g : Genesis) (v : View) (ls : LogState) : Prop where
  genesis : v.genesis = some g
  replay : replay K g v.events = .ok ls
  nodup : (v.events.map fun e => e.hash K).Nodup

/-- Every declared channel has its class, and every post is in a channel of its own class. -/
structure ClassesKept (K : Crypto) (v : View) : Prop where
  declared : ∀ e ∈ v.events, ∀ p, e.core.payload = .channelCreated p →
    v.classOf p.channelId = some p.cls
  posted : ∀ e ∈ v.events, ∀ row, derivedRow K e none = some row →
    v.classOf row.channelId = some row.contentClass

/-- The rows come from posted events that no tombstone names. An edit names a sealed post of
its own channel, and the post's row is its author's, or of nobody any more. -/
structure RowsKept (K : Crypto) (v : View) : Prop where
  unique : v.messages.UniqueIndex MessageRow.eventHash
  origin : ∀ x ∈ v.messages, ∀ h, x.2.eventHash = some h → ∃ e ∈ v.events, e.hash K = h ∧
    ∃ base, derivedRow K e none = some base ∧ x.2.channelId = base.channelId ∧
      x.2.isE2ee = base.isE2ee
  plain : ∀ x ∈ v.messages, x.2.eventHash = none → x.2.isE2ee = false
  targets : ∀ e ∈ v.events, ∀ h, editedTarget e = some h ∨ deletedTarget e = some h →
    ∃ e' ∈ v.events, e'.hash K = h
  kept : ∀ x ∈ v.messages, ∀ h, x.2.eventHash = some h → h ∉ storedTombstoneTargets v.events
  edits : ∀ e ∈ v.events, ∀ p, e.core.payload = .messageEditedE2ee p →
    ∀ e₀ ∈ v.events, e₀.hash K = p.target → ∃ base, derivedRow K e₀ none = some base ∧
      base.channelId = p.channelId ∧ base.isE2ee = true
  authors : ∀ e ∈ v.events, ∀ p, e.core.payload = .messageEditedE2ee p →
    ∀ x ∈ v.messages, x.2.eventHash = some p.target →
      x.2.author = e.core.author ∨ x.2.author = deletedUserKey

/-- A replay of the log changes no row. -/
def Settled (v : View) : Prop := ∀ x ∈ v.messages, resealed v.events x.2 = x.2

structure Consistent (K : Crypto) (g : Genesis) (v : View) (ls : LogState) : Prop extends
    LogKept K g v ls, ClassesKept K v, RowsKept K v where
  settled : Settled v

theorem mem_storedTombstoneTargets {h : EventRef} :
    h ∈ storedTombstoneTargets events ↔ ∃ e ∈ events, deletedTarget e = some h := by
  simp [storedTombstoneTargets]

theorem storedTombstoneTargets_snoc :
    storedTombstoneTargets (events ++ [e]) =
      storedTombstoneTargets events ++ (deletedTarget e).toList := by
  cases h : deletedTarget e <;> simp [storedTombstoneTargets, h]

/-! ## Rewrites and deletions of rows -/

theorem RowsKept.map {f : ℕ → MessageRow → MessageRow} (h : RowsKept K v)
    (hhash : ∀ k r, (f k r).eventHash = r.eventHash)
    (hchannel : ∀ k r, (f k r).channelId = r.channelId)
    (hclass : ∀ k r, (f k r).isE2ee = r.isE2ee)
    (hauthor : ∀ k r, (f k r).author = r.author ∨ (f k r).author = deletedUserKey) :
    RowsKept K { v with messages := v.messages.map f } where
  unique := h.unique.map fun x _ => hhash x.1 x.2
  origin := by
    intro x hx
    obtain ⟨y, hy, rfl⟩ := Table.mem_map.mp hx
    simp only [hhash, hchannel, hclass]
    exact h.origin y hy
  plain := by
    intro x hx
    obtain ⟨y, hy, rfl⟩ := Table.mem_map.mp hx
    simp only [hhash, hclass]
    exact h.plain y hy
  targets := h.targets
  kept := by
    intro x hx
    obtain ⟨y, hy, rfl⟩ := Table.mem_map.mp hx
    simp only [hhash]
    exact h.kept y hy
  edits := h.edits
  authors := by
    intro e he p hp x hx
    obtain ⟨y, hy, rfl⟩ := Table.mem_map.mp hx
    simp only [hhash]
    intro htarget
    rcases hauthor y.1 y.2 with heq | heq
    · rw [heq]
      exact h.authors e he p hp y hy htarget
    · exact .inr heq

theorem RowsKept.delete {p : ℕ × MessageRow → Bool} (h : RowsKept K v) :
    RowsKept K { v with messages := v.messages.delete p } where
  unique := h.unique.delete
  origin x hx := h.origin x (Table.mem_delete.mp hx).1
  plain x hx := h.plain x (Table.mem_delete.mp hx).1
  targets := h.targets
  kept x hx := h.kept x (Table.mem_delete.mp hx).1
  edits := h.edits
  authors e he p hp x hx := h.authors e he p hp x (Table.mem_delete.mp hx).1

/-- A stored event keeps the rows if it tombstones none of them and, as an edit, may edit the
row it names. -/
theorem RowsKept.store (h : RowsKept K v) (hnew : ∀ x ∈ v.events, x.hash K ≠ e.hash K)
    (htarget : ∀ t, editedTarget e = some t ∨ deletedTarget e = some t →
      ∃ e' ∈ v.events, e'.hash K = t)
    (hkept : ∀ x ∈ v.messages, ∀ t, deletedTarget e = some t → x.2.eventHash ≠ some t)
    (hedit : ∀ p, e.core.payload = .messageEditedE2ee p → ∀ e₀ ∈ v.events,
      e₀.hash K = p.target → ∃ base, derivedRow K e₀ none = some base ∧
        base.channelId = p.channelId ∧ base.isE2ee = true)
    (hauthor : ∀ p, e.core.payload = .messageEditedE2ee p → ∀ x ∈ v.messages,
      x.2.eventHash = some p.target → x.2.author = e.core.author ∨ x.2.author = deletedUserKey) :
    RowsKept K { v with events := v.events ++ [e] } where
  unique := h.unique
  origin := by
    intro x hx t ht
    obtain ⟨e', he', hrow⟩ := h.origin x hx t ht
    exact ⟨e', List.mem_append_left _ he', hrow⟩
  plain := h.plain
  targets := by
    intro e' he' t ht
    rcases List.mem_append.mp he' with he' | he'
    · obtain ⟨e₀, he₀, hhash⟩ := h.targets e' he' t ht
      exact ⟨e₀, List.mem_append_left _ he₀, hhash⟩
    · obtain rfl := List.mem_singleton.mp he'
      obtain ⟨e₀, he₀, hhash⟩ := htarget t ht
      exact ⟨e₀, List.mem_append_left _ he₀, hhash⟩
  kept := by
    intro x hx t ht hmem
    rw [storedTombstoneTargets_snoc, List.mem_append] at hmem
    rcases hmem with hmem | hmem
    · exact h.kept x hx t ht hmem
    · exact hkept x hx t (Option.mem_toList.mp hmem) ht
  edits := by
    intro e' he' p hp e₀ he₀ hhash
    -- A new event is nobody's target yet: targets are hashes of events stored before.
    have hold : ∃ e₁ ∈ v.events, e₁.hash K = p.target := by
      rcases List.mem_append.mp he' with he' | he'
      · exact h.targets e' he' p.target (.inl (by simp [editedTarget, hp]))
      · obtain rfl := List.mem_singleton.mp he'
        exact htarget p.target (.inl (by simp [editedTarget, hp]))
    have he₀' : e₀ ∈ v.events := by
      rcases List.mem_append.mp he₀ with he₀ | he₀
      · exact he₀
      · obtain rfl := List.mem_singleton.mp he₀
        obtain ⟨e₁, he₁, hhash₁⟩ := hold
        exact absurd (hhash₁.trans hhash.symm) (hnew e₁ he₁)
    rcases List.mem_append.mp he' with he' | he'
    · exact h.edits e' he' p hp e₀ he₀' hhash
    · obtain rfl := List.mem_singleton.mp he'
      exact hedit p hp e₀ he₀' hhash
  authors := by
    intro e' he' p hp
    rcases List.mem_append.mp he' with he' | he'
    · exact h.authors e' he' p hp
    · obtain rfl := List.mem_singleton.mp he'
      exact hauthor p hp

theorem RowsKept.store_other (h : RowsKept K v) (hnew : ∀ x ∈ v.events, x.hash K ≠ e.hash K)
    (hedit : ∀ p, e.core.payload ≠ .messageEditedE2ee p) (hdelete : deletedTarget e = none) :
    RowsKept K { v with events := v.events ++ [e] } := by
  have htarget : editedTarget e = none := by
    unfold editedTarget
    split
    · exact absurd ‹_› (hedit _)
    · rfl
  refine h.store hnew ?_ (by simp [hdelete]) (fun p hp => absurd hp (hedit p))
    fun p hp => absurd hp (hedit p)
  rw [htarget, hdelete]
  simp

/-- A row of a stored event, when that event has no row, no tombstone and, so far, no edit by
somebody else. -/
theorem RowsKept.insert {base : MessageRow} (h : RowsKept K v) (he : e ∈ v.events)
    (hbase : derivedRow K e none = some base) (hhash : row.eventHash = some (e.hash K))
    (hchannel : row.channelId = base.channelId) (hclass : row.isE2ee = base.isE2ee)
    (hnone : ∀ x ∈ v.messages, x.2.eventHash ≠ some (e.hash K))
    (hkept : e.hash K ∉ storedTombstoneTargets v.events)
    (hauthor : ∀ e' ∈ v.events, ∀ p, e'.core.payload = .messageEditedE2ee p →
      p.target = e.hash K → row.author = e'.core.author ∨ row.author = deletedUserKey) :
    RowsKept K { v with messages := v.messages.insert row } where
  unique := h.unique.insert fun x hx heq => absurd (heq.trans hhash) (hnone x hx)
  origin := by
    intro x hx t ht
    rcases Table.mem_insert.mp hx with hx | rfl
    · exact h.origin x hx t ht
    · obtain rfl : e.hash K = t := Option.some.inj (hhash.symm.trans ht)
      exact ⟨e, he, rfl, base, hbase, hchannel, hclass⟩
  plain := by
    intro x hx ht
    rcases Table.mem_insert.mp hx with hx | rfl
    · exact h.plain x hx ht
    · exact absurd ht (by simp [hhash])
  targets := h.targets
  kept := by
    intro x hx t ht
    rcases Table.mem_insert.mp hx with hx | rfl
    · exact h.kept x hx t ht
    · obtain rfl : e.hash K = t := Option.some.inj (hhash.symm.trans ht)
      exact hkept
  edits := h.edits
  authors := by
    intro e' he' p hp x hx ht
    rcases Table.mem_insert.mp hx with hx | rfl
    · exact h.authors e' he' p hp x hx ht
    · exact hauthor e' he' p hp (Option.some.inj (ht.symm.trans hhash))

theorem derivedRow_reply {replyTo : Option ℕ} (h : derivedRow K e replyTo = some row)
    (replyTo' : Option ℕ) : derivedRow K e replyTo' = some { row with replyTo := replyTo' } := by
  unfold derivedRow at h ⊢
  split at h
  · obtain rfl := Option.some.inj h
    rfl
  · obtain rfl := Option.some.inj h
    rfl
  · exact absurd h (by simp)

theorem posted_not_edit {replyTo : Option ℕ} (h : derivedRow K e replyTo = some row) :
    (∀ p, e.core.payload ≠ .messageEditedE2ee p) ∧ deletedTarget e = none := by
  constructor
  · intro p hp
    simp [derivedRow, hp] at h
  · cases hp : e.core.payload with
    | messageDeleted p => simp [derivedRow, hp] at h
    | _ => simp [deletedTarget, hp]

theorem LogKept.ingested (h : LogKept K g v ls) (happly : ls.apply K e = .ok ls')
    (hnew : ∀ x ∈ v.events, x.hash K ≠ e.hash K) (hgenesis : v'.genesis = v.genesis)
    (hevents : v'.events = v.events ++ [e]) : LogKept K g v' ls' where
  genesis := hgenesis.trans h.genesis
  replay := by
    have hreplay := h.replay
    simp only [LogState.replay] at hreplay ⊢
    rw [hevents, List.foldlM_append, hreplay]
    simp [happly, bind, Except.bind, pure, Except.pure]
  nodup := by
    rw [hevents, List.map_append, List.nodup_append]
    refine ⟨h.nodup, by simp, ?_⟩
    intro a ha b hb
    obtain ⟨x, hx, rfl⟩ := List.mem_map.mp ha
    obtain rfl : b = e.hash K := by simpa using hb
    exact hnew x hx

theorem classOf_append {channels : List ChannelRow} {id : ℕ} {c : ChannelClass}
    (h : v.classOf id = some c) :
    ({ v with channels := v.channels ++ channels } : View).classOf id = some c := by
  unfold View.classOf at h ⊢
  obtain ⟨ch, hch, hclass⟩ := Option.bind_eq_some_iff.mp h
  simp [List.find?_append, hch, hclass]

theorem RowsKept.target_ne (h : RowsKept K v) (hnew : ∀ x ∈ v.events, x.hash K ≠ e.hash K)
    {e' : Event} {t : EventRef} (he' : e' ∈ v.events)
    (ht : editedTarget e' = some t ∨ deletedTarget e' = some t) : t ≠ e.hash K := by
  obtain ⟨e₀, he₀, rfl⟩ := h.targets e' he' t ht
  exact hnew e₀ he₀

theorem ClassesKept.ingested (h : ClassesKept K v) (heff : Ingested K v e v') :
    ClassesKept K v' := by
  have hclasses : ∀ id c, v.classOf id = some c → v'.classOf id = some c := by
    intro id c hc
    cases heff with
    | declared => exact classOf_append hc
    | _ => exact hc
  have hevents := heff.events
  constructor
  · intro e' he' p hp
    rw [hevents, List.mem_append, List.mem_singleton] at he'
    rcases he' with he' | rfl
    · exact hclasses _ _ (h.declared e' he' p hp)
    · cases heff with
      | declared q ch hq hid hclass hfree =>
        obtain rfl : q = p := EventPayload.channelCreated.inj (hq.symm.trans hp)
        have hnone : v.channels.find? (fun c => c.id = q.channelId) = none := by
          simpa using hfree
        simp [View.classOf, List.find?_append, hnone, hid, hclass]
      | posted row hrow => simp [derivedRow, hp] at hrow
      | edited q id row hq => simp [hq] at hp
      | deleted q id row hq => simp [hq] at hp
      | stored _ _ _ hchannel => exact absurd hp (hchannel p)
  · intro e' he' base hbase
    rw [hevents, List.mem_append, List.mem_singleton] at he'
    rcases he' with he' | rfl
    · exact hclasses _ _ (h.posted e' he' base hbase)
    · cases heff with
      | posted row hrow hclass =>
        rw [derivedRow_reply hrow, Option.some.injEq] at hbase
        subst hbase
        exact hclass
      | declared q ch hq => simp [derivedRow, hq] at hbase
      | edited q id row hq => simp [derivedRow, hq] at hbase
      | deleted q id row hq => simp [derivedRow, hq] at hbase
      | stored hposted => simp [isPosted_iff.mpr ⟨base, hbase⟩] at hposted

theorem RowsKept.ingested (h : RowsKept K v) (hlog : LogKept K g v ls)
    (hnew : ∀ x ∈ v.events, x.hash K ≠ e.hash K) (heff : Ingested K v e v') :
    RowsKept K v' := by
  cases heff with
  | declared p ch hp =>
    have hk := h.store_other hnew (by simp [hp]) (by simp [deletedTarget, hp])
    exact ⟨hk.unique, hk.origin, hk.plain, hk.targets, hk.kept, hk.edits, hk.authors⟩
  | stored hposted hedit hdelete => exact h.store_other hnew hedit hdelete
  | posted row hrow hclass hnone =>
    obtain ⟨hedit, hdelete⟩ := posted_not_edit hrow
    refine (h.store_other hnew hedit hdelete).insert (by simp) (derivedRow_reply hrow none)
      (derivedRow_eventHash hrow) rfl rfl hnone ?_ ?_
    · rw [storedTombstoneTargets_snoc, hdelete, Option.toList_none, List.append_nil,
        mem_storedTombstoneTargets]
      rintro ⟨e', he', ht⟩
      exact h.target_ne hnew he' (.inr ht) rfl
    · intro e' he' p hp ht
      rcases List.mem_append.mp he' with he' | he'
      · exact absurd ht (h.target_ne hnew he' (.inl (by simp [editedTarget, hp])))
      · obtain rfl := List.mem_singleton.mp he'
        exact absurd hp (hedit p)
  | edited p id row hp hrow hhash hchannel hsealed hauthor =>
    obtain ⟨e₀, he₀, hhash₀, base, hbase, hch, hcls⟩ := h.origin _ hrow _ hhash
    have hmap : RowsKept K { v with messages := v.messages.modify id fun row =>
        { row with sealed := some p.ciphertext, editedAt := some e.core.timestamp } } := by
      refine h.map ?_ ?_ ?_ ?_ <;> intro k r <;> split_ifs <;> simp
    refine hmap.store hnew ?_ (by simp [deletedTarget, hp]) ?_ ?_
    · intro t ht
      obtain rfl : p.target = t := by simpa [editedTarget, deletedTarget, hp] using ht
      exact ⟨e₀, he₀, hhash₀⟩
    · intro q hq e₁ he₁ hhash₁
      obtain rfl : p = q := EventPayload.messageEditedE2ee.inj (hp.symm.trans hq)
      obtain rfl : e₀ = e₁ :=
        List.inj_on_of_nodup_map hlog.nodup he₀ he₁ (hhash₀.trans hhash₁.symm)
      exact ⟨base, hbase, hch.symm.trans hchannel, hcls.symm.trans hsealed⟩
    · intro q hq x hx hxhash
      obtain rfl : p = q := EventPayload.messageEditedE2ee.inj (hp.symm.trans hq)
      obtain ⟨y, hy, rfl⟩ := Table.mem_map.mp hx
      have hyhash : y.2.eventHash = some p.target := by
        simp only at hxhash
        split_ifs at hxhash <;> exact hxhash
      obtain rfl := h.unique y hy _ hrow (by simp [hyhash]) (hyhash.trans hhash.symm)
      exact .inl (by simpa using hauthor)
  | deleted p id row hp hrow hhash hchannel =>
    obtain ⟨e₀, he₀, hhash₀, -⟩ := h.origin _ hrow _ hhash
    refine (h.delete (p := fun x => x.1 = id)).store hnew ?_ ?_ (by simp [hp]) (by simp [hp])
    · intro t ht
      obtain rfl : p.target = t := by simpa [editedTarget, deletedTarget, hp] using ht
      exact ⟨e₀, he₀, hhash₀⟩
    · intro x hx t ht hxhash
      obtain rfl : p.target = t := by simpa [deletedTarget, hp] using ht
      obtain ⟨hx, hne⟩ := Table.mem_delete.mp hx
      obtain rfl := h.unique x hx _ hrow (by simp [hxhash]) (hxhash.trans hhash.symm)
      simp at hne

theorem settled_ingested (h : Consistent K g v ls)
    (hnew : ∀ x ∈ v.events, x.hash K ≠ e.hash K) (heff : Ingested K v e v') : Settled v' := by
  have hother (hedit : ∀ p, e.core.payload ≠ .messageEditedE2ee p) {x : ℕ × MessageRow}
      (hx : x ∈ v.messages) : resealed (v.events ++ [e]) x.2 = x.2 := by
    rw [resealed_snoc, h.settled x hx]
    exact reseal_of_not_edit fun p hp => absurd hp (hedit p)
  cases heff with
  | declared p ch hp => exact fun x hx => hother (by simp [hp]) hx
  | stored hposted hedit => exact fun x hx => hother hedit hx
  | deleted p id row hp =>
    exact fun x hx => hother (by simp [hp]) (Table.mem_delete.mp hx).1
  | posted row hrow =>
    obtain ⟨hedit, -⟩ := posted_not_edit hrow
    intro x hx
    rcases Table.mem_insert.mp hx with hx | rfl
    · exact hother hedit hx
    · refine resealed_eq_self fun e' he' p hp ht => ?_
      rw [derivedRow_eventHash hrow, Option.some.injEq] at ht
      rcases List.mem_append.mp he' with he' | he'
      · exact absurd ht.symm (h.target_ne hnew he' (.inl (by simp [editedTarget, hp])))
      · obtain rfl := List.mem_singleton.mp he'
        exact absurd hp (hedit p)
  | edited p id row hp hrow hhash hchannel hsealed hauthor =>
    intro x hx
    obtain ⟨y, hy, rfl⟩ := Table.mem_map.mp hx
    by_cases hid : y.1 = id
    · obtain rfl : y = (id, row) := Table.eq_of_key_eq hy hrow hid
      -- The edit that comes last decides, whatever the replay made of the row before.
      have hedited : reseal row e =
          { row with sealed := some p.ciphertext, editedAt := some e.core.timestamp } := by
        simp [reseal, hp, hhash, hauthor]
      simp only [if_true]
      rw [← hedited, resealed_snoc]
      exact reseal_congr hp ((reseal_same row e).trans (resealed_same v.events _)) hhash hauthor
    · simp only [hid, if_false]
      rw [resealed_snoc, h.settled y hy]
      refine reseal_of_not_edit fun q hq ht => ?_
      obtain rfl : p = q := EventPayload.messageEditedE2ee.inj (hp.symm.trans hq)
      exact absurd (congrArg Prod.fst
        (h.unique y hy _ hrow (by simp [ht]) (ht.trans hhash.symm))) hid

theorem Consistent.ingested (h : Consistent K g v ls) (happly : ls.apply K e = .ok ls')
    (hnew : ∀ x ∈ v.events, x.hash K ≠ e.hash K) (heff : Ingested K v e v') :
    Consistent K g v' ls' where
  toLogKept := h.toLogKept.ingested happly hnew heff.genesis heff.events
  toClassesKept := h.toClassesKept.ingested heff
  toRowsKept := h.toRowsKept.ingested h.toLogKept hnew heff
  settled := settled_ingested h hnew heff

theorem Consistent.delete {p : ℕ × MessageRow → Bool} (h : Consistent K g v ls) :
    Consistent K g { v with messages := v.messages.delete p } ls where
  toLogKept := ⟨h.genesis, h.replay, h.nodup⟩
  toClassesKept := ⟨h.declared, h.posted⟩
  toRowsKept := h.toRowsKept.delete
  settled x hx := h.settled x (Table.mem_delete.mp hx).1

/-- Rewriting rows keeps the view consistent if a replay changes none of the new rows. -/
theorem Consistent.map {f : ℕ → MessageRow → MessageRow} (h : Consistent K g v ls)
    (hhash : ∀ k r, (f k r).eventHash = r.eventHash)
    (hchannel : ∀ k r, (f k r).channelId = r.channelId)
    (hclass : ∀ k r, (f k r).isE2ee = r.isE2ee)
    (hauthor : ∀ k r, (f k r).author = r.author ∨ (f k r).author = deletedUserKey)
    (hsettled : ∀ x ∈ v.messages, resealed v.events (f x.1 x.2) = f x.1 x.2) :
    Consistent K g { v with messages := v.messages.map f } ls where
  toLogKept := ⟨h.genesis, h.replay, h.nodup⟩
  toClassesKept := ⟨h.declared, h.posted⟩
  toRowsKept := h.toRowsKept.map hhash hchannel hclass hauthor
  settled := by
    intro x hx
    obtain ⟨y, hy, rfl⟩ := Table.mem_map.mp hx
    exact hsettled y hy

theorem Consistent.channels {channels : List ChannelRow} (h : Consistent K g v ls)
    (hclasses : ∀ id c, v.classOf id = some c →
      ({ v with channels } : View).classOf id = some c) :
    Consistent K g { v with channels } ls where
  toLogKept := ⟨h.genesis, h.replay, h.nodup⟩
  toClassesKept :=
    ⟨fun e he p hp => hclasses _ _ (h.declared e he p hp),
      fun e he row hrow => hclasses _ _ (h.posted e he row hrow)⟩
  toRowsKept := ⟨h.unique, h.origin, h.plain, h.targets, h.kept, h.edits, h.authors⟩
  settled := h.settled

theorem Consistent.classOf_row (h : Consistent K g v ls) {x : ℕ × MessageRow}
    (hx : x ∈ v.messages) {t : EventHash} (ht : x.2.eventHash = some t) :
    v.classOf x.2.channelId = some x.2.contentClass := by
  obtain ⟨e, he, -, base, hbase, hchannel, hclass⟩ := h.origin x hx t ht
  rw [hchannel, h.posted e he base hbase, MessageRow.contentClass, MessageRow.contentClass, hclass]

theorem Consistent.edited_row (h : Consistent K g v ls) (he : e ∈ v.events)
    {p : MessageEditedE2ee} (hp : e.core.payload = .messageEditedE2ee p) {x : ℕ × MessageRow}
    (hx : x ∈ v.messages) (ht : x.2.eventHash = some p.target) :
    x.2.channelId = p.channelId ∧ x.2.isE2ee = true := by
  obtain ⟨e₀, he₀, hhash₀, base, hbase, hchannel, hclass⟩ := h.origin x hx _ ht
  obtain ⟨base', hbase', hch, hcls⟩ := h.edits e he p hp e₀ he₀ hhash₀
  obtain rfl : base = base' := Option.some.inj (hbase.symm.trans hbase')
  exact ⟨hchannel.trans hch, hclass.trans hcls⟩

theorem settled_anonymized (h : Consistent K g v ls) {x : ℕ × MessageRow} (hx : x ∈ v.messages) :
    resealed v.events (Db.anonymized x.2) = Db.anonymized x.2 := by
  by_cases hauthor : x.2.author = deletedUserKey
  · -- The name is gone already: only the content changes, which no edit looks at.
    have hcontent : Db.anonymized x.2 =
        { x.2 with content := if x.2.isE2ee then x.2.content else "[deleted]" } := by
      simp [Db.anonymized, hauthor]
    rw [hcontent]
    refine (resealed_map (f := fun row => { row with
      content := if row.isE2ee then row.content else "[deleted]" }) ?_ x.2).trans ?_
    · intro row e
      unfold reseal
      split
      · split_ifs <;> rfl
      · rfl
    · rw [h.settled x hx]
  · refine resealed_eq_self fun e he p hp ht heq => ?_
    have hown := (h.authors e he p hp x hx ht).resolve_right hauthor
    exact hauthor (hown.trans heq.symm)

theorem settled_edited (h : Consistent K g v ls) {x : ℕ × MessageRow} (hx : x ∈ v.messages)
    (hplain : v.classOf x.2.channelId = some .plaintext) {content : String} {now : ℕ} :
    resealed v.events { x.2 with content, editedAt := some now } =
      { x.2 with content, editedAt := some now } := by
  refine resealed_eq_self fun e he p hp ht => ?_
  obtain ⟨-, hsealed⟩ := h.edited_row he hp hx ht
  have hclass := h.classOf_row hx ht
  rw [hplain, MessageRow.contentClass, hsealed] at hclass
  simp at hclass

end Server
