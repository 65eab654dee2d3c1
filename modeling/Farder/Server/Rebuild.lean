import Farder.Server.LogView

/-! # Rebuilding the view from the log

After the rows of all events were deleted, the first pass of the reconciliation derives each
post again, in the order of the log. It never fails, and once the edits are replayed and the
edges repaired the view shows the log. -/
namespace Server

open EventLog EventLog.LogState Guarded

variable {K : Crypto} {g : Genesis} {v v₀ : View} {live db db' : Db} {ls : LogState} {e : Event}
  {row : MessageRow} {done l : List Event} {n : ℕ}

/-- The database after every row of an event was deleted, with anything in its other tables. -/
structure Wiped (live db : Db) : Prop where
  genesis : db.genesis = live.genesis
  events : db.events = live.events
  channels : db.channels = live.channels
  messages : db.messages = live.messages.delete fun x => x.2.eventHash ≠ none

/-- The database after just that. -/
def Db.wiped (db : Db) : Db :=
  { db with messages := db.messages.delete fun x => x.2.eventHash ≠ none }

/-- Whoever edited a post that is not tombstoned is its author, or its author is nobody. -/
def EditedByAuthors (K : Crypto) (v : View) : Prop :=
  ∀ e ∈ v.events, ∀ base, derivedRow K e none = some base →
    e.hash K ∉ storedTombstoneTargets v.events →
    ∀ e' ∈ v.events, ∀ p, e'.core.payload = .messageEditedE2ee p → p.target = e.hash K →
      base.author = e'.core.author ∨ base.author = deletedUserKey

/-- The view while the first pass runs, when it has dealt with the events `done`. -/
structure Rebuilding (K : Crypto) (g : Genesis) (ls : LogState) (v₀ : View) (done : List Event)
    (v : View) : Prop extends LogKept K g v ls, ClassesKept K v, RowsKept K v where
  editors : EditedByAuthors K v
  events : v.events = v₀.events
  derived : ∀ e ∈ done, e.hash K ∉ storedTombstoneTargets v.events →
    ∃ x ∈ v.messages, x.2.eventHash = some (e.hash K)
  known : ∀ x ∈ v.messages, ∀ hash, x.2.eventHash = some hash → ∃ e ∈ done, e.hash K = hash
  bodies : ∀ e ∈ v.events, ∀ x ∈ v.messages, x.2.eventHash = some (e.hash K) →
    derivedRow K e none = some x.2.body
  edges : EdgesKept K v
  legacy : ∀ x, x.2.eventHash = none → (x ∈ v.messages ↔ x ∈ v₀.messages)

/-! ## The first pass -/

theorem Rebuilding.skip (h : Rebuilding K g ls v₀ done v)
    (hdead : e.hash K ∈ storedTombstoneTargets v.events) :
    Rebuilding K g ls v₀ (done ++ [e]) v := by
  refine { h with derived := ?_, known := ?_ }
  · intro e' he' hlive
    rcases List.mem_append.mp he' with he' | he'
    · exact h.derived e' he' hlive
    · obtain rfl := List.mem_singleton.mp he'
      exact absurd hdead hlive
  · intro x hx hash hhash
    obtain ⟨e', he', rfl⟩ := h.known x hx hash hhash
    exact ⟨e', List.mem_append_left _ he', rfl⟩

theorem Rebuilding.insert (h : Rebuilding K g ls v₀ done v) (he : e ∈ v.events)
    (hrow : derivedRow K e (v.replyRow e) = some row)
    (hlive : e.hash K ∉ storedTombstoneTargets v.events)
    (hnew : ∀ x ∈ v.messages, x.2.eventHash ≠ some (e.hash K)) :
    Rebuilding K g ls v₀ (done ++ [e]) { v with messages := v.messages.insert row } := by
  have hbase := derivedRow_reply hrow none
  have hhash := derivedRow_eventHash hrow
  -- The new row is the row of `e` alone.
  have hown {e' : Event} (he' : e' ∈ v.events) (hrow' : row.eventHash = some (e'.hash K)) :
      e' = e :=
    List.inj_on_of_nodup_map h.nodup he' he (Option.some.inj (hrow'.symm.trans hhash))
  have hrows := h.toRowsKept.insert he hbase hhash rfl rfl hnew hlive fun e' he' p hp ht =>
    h.editors e he _ hbase hlive e' he' p hp ht
  refine ⟨⟨h.genesis, h.replay, h.nodup⟩, ⟨h.declared, h.posted⟩, hrows, h.editors, h.events,
    ?_, ?_, ?_, ?_, ?_⟩
  · intro e' he' hlive'
    rcases List.mem_append.mp he' with he' | he'
    · obtain ⟨x, hx, hxhash⟩ := h.derived e' he' hlive'
      exact ⟨x, Table.mem_insert.mpr (.inl hx), hxhash⟩
    · obtain rfl := List.mem_singleton.mp he'
      exact ⟨_, Table.mem_insert.mpr (.inr rfl), hhash⟩
  · intro x hx hash hxhash
    rcases Table.mem_insert.mp hx with hx | rfl
    · obtain ⟨e', he', rfl⟩ := h.known x hx hash hxhash
      exact ⟨e', List.mem_append_left _ he', rfl⟩
    · exact ⟨e, by simp, Option.some.inj (hhash.symm.trans hxhash)⟩
  · intro e' he' x hx hxhash
    rcases Table.mem_insert.mp hx with hx | rfl
    · exact h.bodies e' he' x hx hxhash
    · obtain rfl := hown he' hxhash
      exact hbase
  · intro e' he' x hx hxhash id hid
    rcases Table.mem_insert.mp hx with hx | rfl
    · exact (h.edges e' he' x hx hxhash id hid).insert row
    · obtain rfl := hown he' hxhash
      rw [derivedRow_replyTo hrow] at hid
      exact (replyRow_eq_some hid).insert row
  · intro x hnone
    rw [← h.legacy x hnone, Table.mem_insert]
    refine ⟨fun hx => hx.resolve_right ?_, .inl⟩
    rintro rfl
    simp [hhash] at hnone

theorem deriveMessageRow_ok (hclasses : ClassesKept K db.view) (he : e ∈ db.events)
    (hrow : derivedRow K e (db.view.replyRow e) = some row)
    (hnew : ∀ x ∈ db.messages, x.2.eventHash ≠ some (e.hash K)) :
    ∃ db' id, db.deriveMessageRow K e = .ok (db', id) ∧
      db'.view = { db.view with messages := db.messages.insert row } := by
  have hposted := hclasses.posted e he _ (derivedRow_reply hrow none)
  have hclass : db.requireClass row = .ok () := requireClass_eq_ok.mpr (.inl hposted)
  have hunique : row.eventHash = none ∨
      ∀ x ∈ db.messages.rows, x.2.eventHash ≠ row.eventHash := by
    rw [derivedRow_eventHash hrow]
    exact .inr hnew
  rw [deriveMessageRow_eq, hrow]
  simp only [hclass, Db.insertRow, ensure, hunique, if_true, bind, Except.bind, pure, Except.pure]
  exact ⟨_, _, rfl, rfl⟩

theorem deriveMissing_foldlM {tombstoned : EventHash → Bool}
    (h : Rebuilding K g ls v₀ done db.view)
    (htombstoned : ∀ hash, tombstoned hash = true ↔ hash ∈ storedTombstoneTargets v₀.events)
    (hl : ∀ e ∈ l, e ∈ v₀.events ∧ isPosted e = true)
    (hnodup : ((done ++ l).map fun e => e.hash K).Nodup) :
    ∃ db' n', l.foldlM (Db.deriveMissing K tombstoned) (db, n) = .ok (db', n') ∧
      Rebuilding K g ls v₀ (done ++ l) db'.view := by
  induction l generalizing done db n with
  | nil => exact ⟨db, n, rfl, by simpa using h⟩
  | cons e l ih =>
    obtain ⟨he, hposted⟩ := hl e (by simp)
    have hevents : db.events = v₀.events := h.events
    have hrest : ∀ e' ∈ l, e' ∈ v₀.events ∧ isPosted e' = true := fun e' he' =>
      hl e' (by simp [he'])
    have hassoc : done ++ e :: l = done ++ [e] ++ l := by simp
    rw [hassoc] at hnodup ⊢
    rw [List.foldlM_cons, Db.deriveMissing]
    split_ifs with hdead
    · have hdead := (htombstoned _).mp hdead
      exact ih (h.skip (by rwa [Db.view_events, hevents])) hrest hnodup
    · have hlive : e.hash K ∉ storedTombstoneTargets db.view.events := by
        rwa [Db.view_events, hevents, ← htombstoned]
      have hnew : ∀ x ∈ db.view.messages, x.2.eventHash ≠ some (e.hash K) := by
        intro x hx hhash
        obtain ⟨e', he', heq⟩ := h.known x hx _ hhash
        simp only [List.map_append, List.nodup_append, List.map_cons, List.map_nil] at hnodup
        exact hnodup.1.2.2 _ (List.mem_map_of_mem he') _ (by simp) heq
      obtain ⟨row, hrow⟩ := isPosted_iff.mp hposted
      have he' : e ∈ db.view.events := by rwa [Db.view_events, hevents]
      obtain ⟨db₁, id, hderive, hview⟩ := deriveMessageRow_ok h.toClassesKept he' hrow hnew
      have hstep : Rebuilding K g ls v₀ (done ++ [e]) db₁.view := by
        rw [hview]
        exact h.insert he' hrow hlive hnew
      simp only [hderive, bind, Except.bind, pure, Except.pure]
      exact ih hstep hrest hnodup

/-! ## The passes together -/

/-- The view shows the log, and its edges are valid. -/
structure Shown (K : Crypto) (g : Genesis) (ls : LogState) (v : View) : Prop extends
    LogKept K g v ls, RowsKept K v, ShowsLog K v where
  edges : EdgesKept K v

/-- When the first pass is through, replaying the edits makes the view show the log. -/
theorem Rebuilding.shown (h : Rebuilding K g ls v₀ done v)
    (hdone : ∀ e ∈ v.events, isPosted e = true → e ∈ done) :
    Shown K g ls { v with messages := v.messages.map fun _ row => resealed v.events row } := by
  have hsame := fun row => resealed_same v.events row
  have hrows : RowsKept K
      { v with messages := v.messages.map fun _ row => resealed v.events row } :=
    h.toRowsKept.map (fun _ row => (hsame row).eventHash) (fun _ row => (hsame row).channelId)
      (fun _ row => (hsame row).isE2ee) fun _ row => .inl (hsame row).author
  have hall : AllDerived K v := fun e he hposted hlive => h.derived e (hdone e he hposted) hlive
  have hlog : LogKept K g { v with
      messages := v.messages.map fun _ row => resealed v.events row } ls :=
    ⟨h.genesis, h.replay, h.nodup⟩
  refine ⟨hlog, hrows, showsLog hlog hrows (hall.map fun _ row => (hsame row).eventHash) ?_, ?_⟩
  · intro e he x hx hhash
    obtain ⟨y, hy, rfl⟩ := Table.mem_map.mp hx
    have hhash : y.2.eventHash = some (e.hash K) := (hsame y.2).eventHash ▸ hhash
    exact ⟨_, h.bodies e he y hy hhash, (resealed_body y.2).symm⟩
  · intro e he x hx hhash id hid
    obtain ⟨y, hy, rfl⟩ := Table.mem_map.mp hx
    have hhash : y.2.eventHash = some (e.hash K) := (hsame y.2).eventHash ▸ hhash
    have hid : id ∈ y.2.replyTo := (hsame y.2).replyTo ▸ hid
    exact (h.edges e he y hy hhash id hid).map
      fun _ row => ⟨(hsame row).eventHash, (hsame row).channelId⟩

theorem rebuilding_wiped (hlog : LogKept K g live.view ls) (hclasses : ClassesKept K live.view)
    (hrows : RowsKept K live.view) (heditors : EditedByAuthors K live.view)
    (hw : Wiped live db) : Rebuilding K g ls live.view [] db.view := by
  have hview : db.view = { live.view with
      messages := live.messages.delete fun x => x.2.eventHash ≠ none } := by
    simp only [Db.view, hw.genesis, hw.events, hw.channels, hw.messages]
  have hnone : ∀ x ∈ db.view.messages, x.2.eventHash = none := by
    rw [hview]
    intro x hx
    simpa using (Table.mem_delete.mp hx).2
  have hrows' : RowsKept K db.view := hview ▸ hrows.delete
  have hlog' : LogKept K g db.view ls := hview ▸ ⟨hlog.genesis, hlog.replay, hlog.nodup⟩
  have hclasses' : ClassesKept K db.view := hview ▸ ⟨hclasses.declared, hclasses.posted⟩
  refine ⟨hlog', hclasses', hrows', hview ▸ heditors, hview ▸ rfl, by simp, ?_, ?_, ?_, ?_⟩
  · exact fun x hx hash hhash => absurd (hnone x hx) (by simp [hhash])
  · exact fun e _ x hx hhash => absurd (hnone x hx) (by simp [hhash])
  · exact fun e _ x hx hhash => absurd (hnone x hx) (by simp [hhash])
  · intro x hx
    rw [hview]
    exact ⟨fun h => (Table.mem_delete.mp h).1, fun h => Table.mem_delete.mpr ⟨h, by simp [hx]⟩⟩

theorem linked_resealed_legacy {events : List Event} (h : row.eventHash = none) :
    v.linked K (resealed events row) = row := by
  rw [resealed_eq_self fun e _ p _ ht => absurd ht (by simp [h])]
  refine linked_of_uncited ?_
  have horigin : v.originOf K row = none := List.find?_eq_none.mpr fun e _ => by simp [h]
  simp [View.citedRow, horigin]

/-- Reconciliation of a wiped database: it succeeds, and what it leaves shows the log, with all
edges that do not miss their message. -/
theorem reconcileMessages_wiped (hlog : LogKept K g live.view ls)
    (hclasses : ClassesKept K live.view) (hrows : RowsKept K live.view)
    (heditors : EditedByAuthors K live.view) (hw : Wiped live db) :
    ∃ db' n v, db.reconcileMessages K (some ls) = .ok (db', n) ∧ Shown K g ls v ∧
      v.events = live.events ∧
      db'.view = { v with messages := v.messages.map fun _ row => v.linked K row } ∧
      ∀ x, x.2.eventHash = none → (x ∈ db'.messages ↔ x ∈ live.messages) := by
  have hstart := rebuilding_wiped hlog hclasses hrows heditors hw
  have hevents : db.events = live.events := hw.events
  have hreplay : LogState.replay K g db.events = .ok ls := hstart.replay
  have htombstoned : ∀ hash, isTombstoned db.events (some ls) hash = true ↔
      hash ∈ storedTombstoneTargets live.view.events := by
    intro hash
    rw [isTombstoned_iff hreplay, hevents]
    rfl
  have hmissing : ∀ e ∈ db.events.filter fun e => isPosted e ∧ db.rowOfHash (e.hash K) = none,
      e ∈ live.view.events ∧ isPosted e = true := by
    intro e he
    obtain ⟨he, hposted⟩ := List.mem_filter.mp he
    rw [hevents] at he
    exact ⟨he, (of_decide_eq_true hposted).1⟩
  have hnodup : (db.events.map fun e => e.hash K).Nodup := hstart.nodup
  obtain ⟨db₁, n, hpass, hdone⟩ := deriveMissing_foldlM (n := 0) hstart htombstoned hmissing
    (hnodup.sublist (List.filter_sublist.map _))
  have hevents₁ : db₁.events = live.events := hdone.events
  refine ⟨_, n, _, reconcileMessages_of_pass hpass (hevents₁.trans hevents.symm)
    hdone.toLogKept hdone.toClassesKept hdone.toRowsKept, hdone.shown ?_, hevents₁, ?_, ?_⟩
  · intro e he hposted
    have hfree : db.rowOfHash (e.hash K) = none := by
      refine Table.find?_eq_none.mpr fun x hx => decide_eq_false fun hhash => ?_
      obtain ⟨e', he', -⟩ := hstart.known x hx _ hhash
      simp at he'
    rw [Db.view_events, hevents₁, ← hevents] at he
    exact List.mem_append_right _ (List.mem_filter.mpr ⟨he, by simp [hposted, hfree]⟩)
  · simp only [Db.view, Table.map_map]
    refine congrArg (fun messages => ({ db₁.view with messages } : View))
      (Table.map_congr fun x _ => ?_)
    exact (linked_resealed (v := db₁.view) _).symm
  · intro x hx
    refine Iff.trans ?_ (hdone.legacy x hx)
    constructor
    · intro hmem
      obtain ⟨y, hy, rfl⟩ := Table.mem_map.mp hmem
      have hlegacy : y.2.eventHash = none := by
        have hsame := resealed_same db₁.events y.2
        exact hsame.eventHash ▸ hx
      rw [linked_resealed_legacy hlegacy]
      exact hy
    · intro hmem
      refine Table.mem_map.mpr ⟨x, hmem, ?_⟩
      rw [linked_resealed_legacy hx]

/-! ## What a repaired view shows -/

/-- What the post with a hash replies to, if the log calls for the post. -/
def logEdgeOf (K : Crypto) (events : List Event) (hash : EventHash) : Option EventHash :=
  (logRow K events hash).bind fun _ =>
    (events.find? fun e => e.hash K = hash).bind (logEdge K events)

/-- The hash of the message that the row of a hash points to. -/
def Db.edgeOf (db : Db) (hash : EventHash) : Option EventHash :=
  (db.rowOfHash hash).bind fun x => db.view.edge x.2

theorem ShowsLog.linked (h : ShowsLog K v) :
    ShowsLog K { v with messages := v.messages.map fun _ row => v.linked K row } where
  row := by
    intro x hx hash hhash
    obtain ⟨y, hy, rfl⟩ := Table.mem_map.mp hx
    exact h.row y hy hash hhash
  all := by
    intro hash row hrow
    obtain ⟨x, hx, hhash⟩ := h.all hash row hrow
    exact ⟨_, Table.mem_map_of_mem hx, hhash⟩

theorem edge_map {f : ℕ → MessageRow → MessageRow}
    (hf : ∀ k r, (f k r).eventHash = r.eventHash) (row : MessageRow) :
    ({ v with messages := v.messages.map f } : View).edge row = v.edge row := by
  simp only [View.edge, Table.get?_map]
  congr 1
  funext id
  cases v.messages.get? id with
  | none => rfl
  | some r => exact hf id r

section Linked

variable (h : Shown K g ls v)
  (hview : db.view = { v with messages := v.messages.map fun _ row => v.linked K row })
include h hview

theorem unique_linked : db.messages.UniqueIndex MessageRow.eventHash := by
  have hmessages : db.messages = v.messages.map fun _ row => v.linked K row :=
    congrArg View.messages hview
  rw [hmessages]
  exact h.unique.map fun _ _ => rfl

theorem rowOfHash_linked (hash : EventHash) :
    (db.rowOfHash hash).map (fun x => x.2.body) = logRow K v.events hash := by
  have hshows : ShowsLog K db.view := hview ▸ h.toShowsLog.linked
  have hevents : db.events = v.events := congrArg View.events hview
  rw [hshows.rowOfHash (unique_linked h hview), hevents]

theorem edgeOf_linked (hash : EventHash) : db.edgeOf hash = logEdgeOf K v.events hash := by
  have hlog := rowOfHash_linked h hview hash
  cases hrow : db.rowOfHash hash with
  | none =>
    rw [hrow, Option.map_none] at hlog
    simp [Db.edgeOf, hrow, logEdgeOf, ← hlog]
  | some x =>
    rw [hrow, Option.map_some] at hlog
    obtain ⟨hx, hhash⟩ := (rowOfHash_eq_some (unique_linked h hview)).mp hrow
    have hmessages : db.messages = v.messages.map fun _ row => v.linked K row :=
      congrArg View.messages hview
    rw [hmessages] at hx
    obtain ⟨y, hy, rfl⟩ := Table.mem_map.mp hx
    obtain ⟨e, he, rfl, base, hbase, -⟩ := h.origin y hy hash hhash
    have hedge := edge_linked h.toLogKept h.toShowsLog h.edges he (isPosted_iff.mpr ⟨base, hbase⟩)
      hy hhash
    simp only [Db.edgeOf, hrow, Option.bind_some, logEdgeOf, ← hlog, find?_hash h.nodup he]
    rw [hview]
    exact (edge_map (f := fun _ row => v.linked K row) (fun _ _ => rfl) _).trans hedge

end Linked
end Server
