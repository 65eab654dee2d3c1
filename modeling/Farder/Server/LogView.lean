import Farder.Server.RestartSpec

/-! # The message view that a log calls for

The log alone says which message each hash stands for: the post with that hash, under the last
edit of it, unless a tombstone names it. It also says what each reply points to. A view shows the
log if its rows are those messages, up to the ids they got. -/
namespace Server

open EventLog EventLog.LogState Guarded

variable {K : Crypto} {g : Genesis} {v v' : View} {db : Db} {ls : LogState} {e : Event}
  {events : List Event} {row : MessageRow} {hash : EventHash}

def MessageRow.body (row : MessageRow) : MessageRow := { row with replyTo := none }

/-- The message of a hash. -/
def logRow (K : Crypto) (events : List Event) (hash : EventHash) : Option MessageRow :=
  if hash ∈ storedTombstoneTargets events then none
  else (events.find? fun e => e.hash K = hash).bind fun e =>
    (derivedRow K e none).map (resealed events)

/-- What a post replies to: the message it cites, if there is one in its channel. -/
def logEdge (K : Crypto) (events : List Event) (e : Event) : Option EventHash :=
  (citedBy e).bind fun cited =>
    if (logRow K events cited.2).any fun row => row.channelId = cited.1 then some cited.2 else none

/-- The hash of the message that a row points to. -/
def View.edge (v : View) (row : MessageRow) : Option EventHash :=
  row.replyTo.bind fun id => (v.messages.get? id).bind MessageRow.eventHash

/-- No event before this one has the hash. -/
def NotBefore (K : Crypto) (events : List Event) (e : Event) (hash : EventHash) : Prop :=
  ∃ a b, events = a ++ e :: b ∧ ∀ e' ∈ a, e'.hash K ≠ hash

theorem find?_hash (hnodup : (events.map fun e => e.hash K).Nodup) (he : e ∈ events) :
    events.find? (fun e' => e'.hash K = e.hash K) = some e := by
  cases h : events.find? fun e' => e'.hash K = e.hash K with
  | none => exact absurd (List.find?_eq_none.mp h e he) (by simp)
  | some e' =>
    have hhash : e'.hash K = e.hash K := by simpa using List.find?_some h
    exact congrArg some (List.inj_on_of_nodup_map hnodup (List.mem_of_find?_eq_some h) he hhash)

/-- The rows carry the content and the edits of their events, and nothing else. -/
def BodiesKept (K : Crypto) (v : View) : Prop :=
  ∀ e ∈ v.events, ∀ x ∈ v.messages, x.2.eventHash = some (e.hash K) →
    ∃ base, derivedRow K e none = some base ∧ x.2.body = resealed v.events base

/-- A view that misses no row and has no other rows of events. -/
structure ShowsLog (K : Crypto) (v : View) : Prop where
  row : ∀ x ∈ v.messages, ∀ hash, x.2.eventHash = some hash →
    logRow K v.events hash = some x.2.body
  all : ∀ hash row, logRow K v.events hash = some row → ∃ x ∈ v.messages, x.2.eventHash = some hash

theorem logRow_eq_some (hnodup : (events.map fun e => e.hash K).Nodup) :
    logRow K events hash = some row ↔ hash ∉ storedTombstoneTargets events ∧
      ∃ e ∈ events, e.hash K = hash ∧ ∃ base, derivedRow K e none = some base ∧
        row = resealed events base := by
  unfold logRow
  split_ifs with hdead
  · simp [hdead]
  · simp only [Option.bind_eq_some_iff, Option.map_eq_some_iff, hdead, not_false_iff, true_and]
    constructor
    · rintro ⟨e, hfind, base, hbase, rfl⟩
      exact ⟨e, List.mem_of_find?_eq_some hfind, by simpa using List.find?_some hfind, base,
        hbase, rfl⟩
    · rintro ⟨e, he, rfl, base, hbase, rfl⟩
      exact ⟨e, find?_hash hnodup he, base, hbase, rfl⟩

theorem showsLog (hlog : LogKept K g v ls) (hrows : RowsKept K v) (hall : AllDerived K v)
    (hbodies : BodiesKept K v) : ShowsLog K v where
  row := by
    intro x hx hash hhash
    obtain ⟨e, he, rfl, -⟩ := hrows.origin x hx hash hhash
    obtain ⟨base, hbase, hbody⟩ := hbodies e he x hx hhash
    exact (logRow_eq_some hlog.nodup).mpr
      ⟨hrows.kept x hx _ hhash, e, he, rfl, base, hbase, hbody⟩
  all := by
    intro hash row hrow
    obtain ⟨hlive, e, he, rfl, base, hbase, -⟩ := (logRow_eq_some hlog.nodup).mp hrow
    exact hall e he (isPosted_iff.mpr ⟨base, hbase⟩) hlive

theorem ShowsLog.rowOfHash (h : ShowsLog K db.view)
    (hunique : db.messages.UniqueIndex MessageRow.eventHash) (hash : EventHash) :
    (db.rowOfHash hash).map (fun x => x.2.body) = logRow K db.events hash := by
  cases hrow : db.rowOfHash hash with
  | some x =>
    obtain ⟨hx, hhash⟩ := (rowOfHash_eq_some hunique).mp hrow
    exact (h.row x hx hash hhash).symm
  | none =>
    cases hlog : logRow K db.events hash with
    | none => rfl
    | some row =>
      obtain ⟨x, hx, hhash⟩ := h.all hash row hlog
      simp [(rowOfHash_eq_some hunique).mpr ⟨hx, hhash⟩] at hrow

theorem reseal_body (row : MessageRow) (e : Event) : reseal row.body e = (reseal row e).body :=
  reseal_replyTo row e none

theorem resealed_body (row : MessageRow) : resealed events row.body = (resealed events row).body :=
  resealed_map reseal_body row

theorem RowsKept.old_event (h : RowsKept K v) (hnew : ∀ x ∈ v.events, x.hash K ≠ e.hash K)
    {x : ℕ × MessageRow} (hx : x ∈ v.messages) {e' : Event} (he' : e' ∈ v.events ++ [e])
    (hhash : x.2.eventHash = some (e'.hash K)) : e' ∈ v.events := by
  rcases List.mem_append.mp he' with he' | he'
  · exact he'
  · obtain rfl := List.mem_singleton.mp he'
    obtain ⟨e₀, he₀, hhash₀, -⟩ := h.origin x hx _ hhash
    exact absurd hhash₀ (hnew e₀ he₀)

theorem event_of_derived {e' : Event} (hnew : ∀ x ∈ v.events, x.hash K ≠ e.hash K)
    {replyTo : Option ℕ} (hrow : derivedRow K e replyTo = some row) (he' : e' ∈ v.events ++ [e])
    (hhash : row.eventHash = some (e'.hash K)) : e' = e := by
  have hsame : e'.hash K = e.hash K :=
    Option.some.inj (hhash.symm.trans (derivedRow_eventHash hrow))
  rcases List.mem_append.mp he' with he' | he'
  · exact absurd hsame (hnew e' he')
  · exact List.mem_singleton.mp he'

/-- An event that edits nothing of the row leaves its body as the log has it. -/
theorem body_snoc {base : MessageRow} (hbase : row.body = resealed events base)
    (hedit : ∀ p, e.core.payload = .messageEditedE2ee p → row.eventHash ≠ some p.target) :
    row.body = resealed (events ++ [e]) base := by
  rw [resealed_snoc, ← hbase, reseal_of_not_edit]
  exact fun p hp hhash => absurd hhash (hedit p hp)

theorem BodiesKept.ingested (h : BodiesKept K v) (hrows : RowsKept K v)
    (hnew : ∀ x ∈ v.events, x.hash K ≠ e.hash K) (heff : Ingested K v e v') :
    BodiesKept K v' := by
  have hother (hedit : ∀ p, e.core.payload ≠ .messageEditedE2ee p) {x : ℕ × MessageRow}
      (hx : x ∈ v.messages) {e' : Event} (he' : e' ∈ v.events ++ [e])
      (hhash : x.2.eventHash = some (e'.hash K)) :
      ∃ base, derivedRow K e' none = some base ∧ x.2.body = resealed (v.events ++ [e]) base := by
    obtain ⟨base, hbase, hbody⟩ := h e' (hrows.old_event hnew hx he' hhash) x hx hhash
    exact ⟨base, hbase, body_snoc hbody fun p hp => absurd hp (hedit p)⟩
  intro e' he' x hx hhash
  rw [heff.events] at he' ⊢
  cases heff with
  | declared p ch hp => exact hother (by simp [hp]) hx he' hhash
  | stored hposted hedit => exact hother hedit hx he' hhash
  | deleted p id row hp => exact hother (by simp [hp]) (Table.mem_delete.mp hx).1 he' hhash
  | posted row hrow =>
    obtain ⟨hedit, -⟩ := posted_not_edit hrow
    rcases Table.mem_insert.mp hx with hx | rfl
    · exact hother hedit hx he' hhash
    · obtain rfl := event_of_derived hnew hrow he' hhash
      refine ⟨_, derivedRow_reply hrow none, ?_⟩
      refine (resealed_eq_self fun e₁ he₁ p hp ht => ?_).symm
      have ht : p.target = e'.hash K :=
        (Option.some.inj ((derivedRow_eventHash hrow).symm.trans ht)).symm
      rcases List.mem_append.mp he₁ with he₁ | he₁
      · exact absurd ht (hrows.target_ne hnew he₁ (.inl (by simp [editedTarget, hp])))
      · obtain rfl := List.mem_singleton.mp he₁
        exact absurd hp (hedit p)
  | edited p id row hp hrow hrowHash hchannel hsealed hauthor =>
    obtain ⟨y, hy, rfl⟩ := Table.mem_map.mp hx
    by_cases hid : y.1 = id
    · obtain rfl : y = (id, row) := Table.eq_of_key_eq hy hrow hid
      simp only [if_true] at hhash ⊢
      obtain ⟨base, hbase, hbody⟩ := h e' (hrows.old_event hnew hrow he' hhash) _ hrow hhash
      refine ⟨base, hbase, ?_⟩
      rw [resealed_snoc, ← hbody, reseal_body]
      simp [reseal, hp, hrowHash, hauthor]
    · simp only [hid, if_false] at hhash ⊢
      obtain ⟨base, hbase, hbody⟩ := h e' (hrows.old_event hnew hy he' hhash) y hy hhash
      refine ⟨base, hbase, body_snoc hbody fun q hq ht => hid ?_⟩
      obtain rfl : p = q := EventPayload.messageEditedE2ee.inj (hp.symm.trans hq)
      exact congrArg Prod.fst (hrows.unique y hy _ hrow (by simp [ht]) (ht.trans hrowHash.symm))

/-- An edge points to the message that the row's event cites, or to an id whose message is
tombstoned by now. -/
structure EdgeValid (v : View) (e : Event) (id : ℕ) : Prop where
  given : id < v.messages.next
  target : ∃ cited, citedBy e = some cited ∧
    (∀ row, (id, row) ∈ v.messages → row.eventHash = some cited.2 ∧ row.channelId = cited.1) ∧
    ((∀ row, (id, row) ∉ v.messages) → cited.2 ∈ storedTombstoneTargets v.events)

def EdgesKept (K : Crypto) (v : View) : Prop :=
  ∀ e ∈ v.events, ∀ x ∈ v.messages, x.2.eventHash = some (e.hash K) →
    ∀ id ∈ x.2.replyTo, EdgeValid v e id

/-- A row lacks an edge only if the message that its event cites came no earlier. -/
def GapsKept (K : Crypto) (v : View) : Prop :=
  ∀ e ∈ v.events, ∀ x ∈ v.messages, x.2.eventHash = some (e.hash K) → x.2.replyTo = none →
    ∀ cited, citedBy e = some cited → ∀ y ∈ v.messages, y.2.eventHash = some cited.2 →
      y.2.channelId = cited.1 → NotBefore K v.events e cited.2

theorem replyRow_eq_some {id : ℕ} (h : v.replyRow e = some id) : EdgeValid v e id := by
  obtain ⟨cited, hcited, hfound⟩ := Option.bind_eq_some_iff.mp h
  obtain ⟨y, hy, rfl⟩ := Option.map_eq_some_iff.mp hfound
  obtain ⟨hmem, hy⟩ := Table.find?_mem hy
  simp only [decide_eq_true_eq] at hy
  refine ⟨Table.key_lt hmem, cited, hcited, fun row hrow => ?_, fun hnone => absurd hmem (hnone _)⟩
  obtain rfl := Table.row_eq hrow hmem
  exact hy

theorem replyRow_eq_none (h : v.replyRow e = none) {cited : ℕ × EventRef}
    (hcited : citedBy e = some cited) {y : ℕ × MessageRow} (hy : y ∈ v.messages)
    (hhash : y.2.eventHash = some cited.2) : y.2.channelId ≠ cited.1 := by
  simp only [View.replyRow, hcited, Option.bind_some, Option.map_eq_none_iff] at h
  intro hchannel
  simpa [hhash, hchannel] using Table.find?_eq_none.mp h y hy

theorem NotBefore.snoc {events : List Event} {e' : Event} (h : NotBefore K events e hash) :
    NotBefore K (events ++ [e']) e hash := by
  obtain ⟨a, b, rfl, ha⟩ := h
  exact ⟨a, b ++ [e'], by simp, ha⟩

/-- An edge stays valid while no row takes its id or leaves it without a tombstone. -/
theorem EdgeValid.mono {id : ℕ} (h : EdgeValid v e id) (hnext : v.messages.next ≤ v'.messages.next)
    (htombstones : ∀ t ∈ storedTombstoneTargets v.events, t ∈ storedTombstoneTargets v'.events)
    (hrows : ∀ row', (id, row') ∈ v'.messages → ∃ row, (id, row) ∈ v.messages ∧
      row'.eventHash = row.eventHash ∧ row'.channelId = row.channelId)
    (hgone : ∀ row, (id, row) ∈ v.messages → (∀ row', (id, row') ∉ v'.messages) →
      ∀ t, row.eventHash = some t → t ∈ storedTombstoneTargets v'.events) :
    EdgeValid v' e id := by
  obtain ⟨hgiven, cited, hcited, htarget, hdead⟩ := h
  refine ⟨hgiven.trans_le hnext, cited, hcited, ?_, ?_⟩
  · intro row' hrow'
    obtain ⟨row, hrow, hhash, hchannel⟩ := hrows row' hrow'
    rw [hhash, hchannel]
    exact htarget row hrow
  · intro hnone
    by_cases hrow : ∃ row, (id, row) ∈ v.messages
    · obtain ⟨row, hrow⟩ := hrow
      exact hgone row hrow hnone _ (htarget row hrow).1
    · exact htombstones _ (hdead fun row h => hrow ⟨row, h⟩)

theorem EdgeValid.insert {id : ℕ} (h : EdgeValid v e id) (row : MessageRow) :
    EdgeValid { v with messages := v.messages.insert row } e id := by
  refine h.mono (Nat.le_succ _) (fun _ ht => ht) (fun row' hrow' => ?_)
    fun row' hrow' hnone => absurd (Table.mem_insert.mpr (.inl hrow')) (hnone row')
  rcases Table.mem_insert.mp hrow' with hrow' | hnew
  · exact ⟨row', hrow', rfl, rfl⟩
  · have hlt := h.given
    rw [(Prod.mk.inj hnew).1] at hlt
    exact absurd hlt (lt_irrefl _)

theorem EdgeValid.map {id : ℕ} {f : ℕ → MessageRow → MessageRow} (h : EdgeValid v e id)
    (hf : ∀ k r, (f k r).eventHash = r.eventHash ∧ (f k r).channelId = r.channelId) :
    EdgeValid { v with messages := v.messages.map f } e id := by
  refine h.mono le_rfl (fun _ ht => ht) (fun row' hrow' => ?_)
    fun row' hrow' hnone => absurd (Table.mem_map_of_mem hrow') (hnone _)
  obtain ⟨y, hy, heq⟩ := Table.mem_map.mp hrow'
  obtain ⟨rfl, rfl⟩ := Prod.mk.inj heq
  exact ⟨y.2, hy, hf y.1 y.2⟩

theorem EdgeValid.store {e' : Event} {id : ℕ} (h : EdgeValid v e' id)
    (hmessages : v'.messages = v.messages) (hevents : v'.events = v.events ++ [e]) :
    EdgeValid v' e' id := by
  refine h.mono (by rw [hmessages]) (fun t ht => ?_)
    (fun row hrow => ⟨row, hmessages ▸ hrow, rfl, rfl⟩)
    fun row hrow hnone => absurd (hmessages ▸ hrow) (hnone row)
  rw [hevents, storedTombstoneTargets_snoc]
  exact List.mem_append_left _ ht

theorem EdgeValid.ingested {e' : Event} {id : ℕ} (h : EdgeValid v e' id)
    (heff : Ingested K v e v') : EdgeValid v' e' id := by
  cases heff with
  | declared | stored => exact h.store rfl rfl
  | posted row => exact (h.insert row).store rfl rfl
  | edited p id' row =>
    refine (h.map (f := fun k r => if k = id' then
      { r with sealed := some p.ciphertext, editedAt := some e.core.timestamp } else r) ?_).store
      rfl rfl
    intro k r
    split_ifs <;> exact ⟨rfl, rfl⟩
  | deleted p id' row hp hrow hhash =>
    refine h.mono le_rfl (fun t ht => ?_)
      (fun row' hrow' => ⟨row', (Table.mem_delete.mp hrow').1, rfl, rfl⟩) ?_
    · rw [storedTombstoneTargets_snoc]
      exact List.mem_append_left _ ht
    · intro row' hrow' hnone t ht
      -- The row that is gone is the one that the tombstone names.
      have hid : id = id' := by
        by_contra hne
        exact hnone row' (Table.mem_delete.mpr ⟨hrow', by simpa using hne⟩)
      subst hid
      obtain rfl := Table.row_eq hrow' hrow
      rw [storedTombstoneTargets_snoc, List.mem_append, Option.mem_toList]
      exact .inr (by simpa [deletedTarget, hp] using hhash.symm.trans ht)

/-- A row after a transaction is the post's, or one that was there up to its sealed body. -/
theorem mem_ingested (heff : Ingested K v e v') {x : ℕ × MessageRow} (hx : x ∈ v'.messages) :
    derivedRow K e (v.replyRow e) = some x.2 ∨
      ∃ y ∈ v.messages, y.2.eventHash = x.2.eventHash ∧ y.2.channelId = x.2.channelId ∧
        y.2.replyTo = x.2.replyTo := by
  cases heff with
  | declared | stored => exact .inr ⟨x, hx, rfl, rfl, rfl⟩
  | deleted => exact .inr ⟨x, (Table.mem_delete.mp hx).1, rfl, rfl, rfl⟩
  | posted row hrow =>
    rcases Table.mem_insert.mp hx with hx | rfl
    · exact .inr ⟨x, hx, rfl, rfl, rfl⟩
    · exact .inl hrow
  | edited p id row =>
    obtain ⟨y, hy, rfl⟩ := Table.mem_map.mp hx
    refine .inr ⟨y, hy, ?_⟩
    split_ifs <;> exact ⟨rfl, rfl, rfl⟩

theorem derivedRow_replyTo {replyTo : Option ℕ} (h : derivedRow K e replyTo = some row) :
    row.replyTo = replyTo := by
  have hself := derivedRow_reply h replyTo
  rw [h, Option.some.injEq] at hself
  exact congrArg MessageRow.replyTo hself

theorem EdgesKept.ingested (h : EdgesKept K v) (hrows : RowsKept K v)
    (hnew : ∀ x ∈ v.events, x.hash K ≠ e.hash K) (heff : Ingested K v e v') : EdgesKept K v' := by
  intro e' he' x hx hhash id hid
  rw [heff.events] at he'
  rcases mem_ingested heff hx with hrow | ⟨y, hy, hyhash, -, hyreply⟩
  · obtain rfl := event_of_derived hnew hrow he' hhash
    rw [derivedRow_replyTo hrow] at hid
    exact (replyRow_eq_some hid).ingested heff
  · rw [← hyhash] at hhash
    rw [← hyreply] at hid
    exact (h e' (hrows.old_event hnew hy he' hhash) y hy hhash id hid).ingested heff

theorem GapsKept.ingested (h : GapsKept K v) (hrows : RowsKept K v)
    (hnew : ∀ x ∈ v.events, x.hash K ≠ e.hash K) (heff : Ingested K v e v') : GapsKept K v' := by
  intro e' he' x hx hhash hnone cited hcited y hy hyhash hychannel
  rw [heff.events] at he' ⊢
  rcases mem_ingested heff hy with hyrow | ⟨y₀, hy₀, hy₀hash, hy₀channel, -⟩
  · -- The cited message is the new one: every older event came before it.
    have hcitedHash : e.hash K = cited.2 :=
      Option.some.inj ((derivedRow_eventHash hyrow).symm.trans hyhash)
    rcases List.mem_append.mp he' with he' | he'
    · obtain ⟨a, b, hab⟩ := List.append_of_mem he'
      refine ⟨a, b ++ [e], by simp [hab], fun e₁ he₁ => ?_⟩
      rw [← hcitedHash]
      exact hnew e₁ (by simp [hab, he₁])
    · obtain rfl := List.mem_singleton.mp he'
      exact ⟨v.events, [], rfl, fun e₁ he₁ => hcitedHash ▸ hnew e₁ he₁⟩
  · rw [← hy₀hash] at hyhash
    rw [← hy₀channel] at hychannel
    rcases mem_ingested heff hx with hrow | ⟨x₀, hx₀, hx₀hash, -, hx₀reply⟩
    · -- The new post resolved its reply among the rows that were there.
      obtain rfl := event_of_derived hnew hrow he' hhash
      rw [derivedRow_replyTo hrow] at hnone
      exact absurd hychannel (replyRow_eq_none hnone hcited hy₀ hyhash)
    · rw [← hx₀hash] at hhash
      rw [← hx₀reply] at hnone
      exact (h e' (hrows.old_event hnew hx₀ he' hhash) x₀ hx₀ hhash hnone cited hcited y₀ hy₀
        hyhash hychannel).snoc

/-! ### What edges show -/

theorem edge_of_some (hshows : ShowsLog K v) {id : ℕ}
    (hid : row.replyTo = some id) (hedge : EdgeValid v e id) : v.edge row = logEdge K v.events e := by
  obtain ⟨-, cited, hcited, htarget, hdead⟩ := hedge
  simp only [View.edge, hid, Option.bind_some, logEdge, hcited]
  cases hrow : v.messages.get? id with
  | some row' =>
    have hmem := Table.get?_eq_some.mp hrow
    obtain ⟨hhash, hchannel⟩ := htarget row' hmem
    simp [hhash, hshows.row _ hmem _ hhash, MessageRow.body, hchannel]
  | none =>
    have hnone := Table.get?_eq_none.mp hrow
    have hlogRow : logRow K v.events cited.2 = none := by
      simp [logRow, hdead fun row' hmem => hnone _ hmem rfl]
    simp [hlogRow]

theorem logEdge_eq_some (hshows : ShowsLog K v) {target : EventHash}
    (h : logEdge K v.events e = some target) : ∃ cited, citedBy e = some cited ∧
      cited.2 = target ∧ ∃ y ∈ v.messages, y.2.eventHash = some target ∧ y.2.channelId = cited.1 := by
  obtain ⟨cited, hcited, h⟩ := Option.bind_eq_some_iff.mp h
  simp only [Option.ite_none_right_eq_some, Option.any_eq_true, decide_eq_true_eq,
    Option.some.injEq] at h
  obtain ⟨⟨row, hrow, hchannel⟩, rfl⟩ := h
  obtain ⟨y, hy, hhash⟩ := hshows.all _ _ hrow
  have hbody := hshows.row y hy _ hhash
  rw [hrow, Option.some.injEq] at hbody
  exact ⟨cited, hcited, rfl, y, hy, hhash, by rw [← hchannel, hbody]; rfl⟩

/-- A row as the log has it lacks an edge only if the message it replies to came no earlier. -/
theorem edge_eq_or (hshows : ShowsLog K v) (hedges : EdgesKept K v) (hgaps : GapsKept K v)
    (he : e ∈ v.events) {x : ℕ × MessageRow} (hx : x ∈ v.messages)
    (hhash : x.2.eventHash = some (e.hash K)) :
    v.edge x.2 = logEdge K v.events e ∨ v.edge x.2 = none ∧
      ∃ target, logEdge K v.events e = some target ∧ NotBefore K v.events e target := by
  cases hreply : x.2.replyTo with
  | some id => exact .inl (edge_of_some hshows hreply (hedges e he x hx hhash id hreply))
  | none =>
    have hedge : v.edge x.2 = none := by simp [View.edge, hreply]
    cases hlog : logEdge K v.events e with
    | none => exact .inl hedge
    | some target =>
      obtain ⟨cited, hcited, rfl, y, hy, hyhash, hychannel⟩ := logEdge_eq_some hshows hlog
      exact .inr ⟨hedge, cited.2, rfl,
        hgaps e he x hx hhash hreply cited hcited y hy hyhash hychannel⟩

/-- Once its missing edges are repaired, a view that shows the log also shows its edges. -/
theorem edge_linked (hlog : LogKept K g v ls) (hshows : ShowsLog K v) (hedges : EdgesKept K v)
    (he : e ∈ v.events) (hposted : isPosted e = true) {x : ℕ × MessageRow}
    (hx : x ∈ v.messages) (hhash : x.2.eventHash = some (e.hash K)) :
    v.edge (v.linked K x.2) = logEdge K v.events e := by
  cases hreply : x.2.replyTo with
  | some id =>
    rw [linked_of_some hreply]
    exact edge_of_some hshows hreply (hedges e he x hx hhash id hreply)
  | none =>
    have hcitedRow : v.citedRow K x.2 = v.replyRow e := by
      rw [View.citedRow, originOf_eq_some hlog.nodup he hposted hhash, Option.bind_some]
    cases hrow : v.replyRow e with
    | some id =>
      have hlinked : (v.linked K x.2).replyTo = some id := by
        simp [View.linked, hreply, hcitedRow, hrow]
      exact edge_of_some hshows hlinked (replyRow_eq_some hrow)
    | none =>
      rw [linked_of_uncited (hcitedRow.trans hrow)]
      simp only [View.edge, hreply, Option.bind_none]
      cases hlogEdge : logEdge K v.events e with
      | none => rfl
      | some target =>
        obtain ⟨cited, hcited, rfl, y, hy, hyhash, hychannel⟩ := logEdge_eq_some hshows hlogEdge
        exact absurd hychannel (replyRow_eq_none hrow hcited hy hyhash)

end Server
