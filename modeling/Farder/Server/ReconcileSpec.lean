import Farder.Server.Consistency

/-! # What reconciliation computes

On a consistent view the class pass does nothing, the replay of edits rewrites each row by
the whole log, and the last pass gives every row without a reply edge the one it can have. -/
namespace Server

open EventLog EventLog.LogState Guarded

variable {K : Crypto} {g : Genesis} {db db' : Db} {v : View} {ls : LogState} {e : Event}
  {events : List Event} {row : MessageRow} {tombstoned : EventHash → Bool}

theorem reconcileChannelClass_eq_self (h : ∀ p, e.core.payload = .channelCreated p →
    db.view.classOf p.channelId = some p.cls) : db.reconcileChannelClass e = db := by
  unfold Db.reconcileChannelClass
  split
  · rename_i p hp
    obtain ⟨ch, hch, hclass⟩ := Option.bind_eq_some_iff.mp (h p hp)
    have hrow : db.channelRow p.channelId = some ch := hch
    simp [hrow, hclass]
  · rfl

theorem reconcileChannelClasses_eq_self (h : ClassesKept K db.view) :
    db.reconcileChannelClasses = db :=
  foldl_eq_self fun e he => reconcileChannelClass_eq_self (h.declared e he)

/-- The replay of these events meets no row that it would have to refuse. -/
structure Replayable (db : Db) (tombstoned : EventHash → Bool) (events : List Event) : Prop where
  unique : db.messages.UniqueIndex MessageRow.eventHash
  edits : ∀ e ∈ events, ∀ p, e.core.payload = .messageEditedE2ee p →
    ∀ x ∈ db.messages, x.2.eventHash = some p.target → x.2.channelId = p.channelId ∧
      x.2.isE2ee = true ∧ db.resolve x.2.channelId = .e2ee ∧ tombstoned p.target = false

theorem Replayable.reseal (h : Replayable db tombstoned events) (e : Event) :
    Replayable { db with messages := db.messages.map fun _ row => reseal row e } tombstoned
      events where
  unique := h.unique.map fun x _ => (reseal_same x.2 e).eventHash
  edits := by
    intro e' he' p hp x hx
    obtain ⟨y, hy, rfl⟩ := Table.mem_map.mp hx
    simp only [(reseal_same y.2 e).eventHash, (reseal_same y.2 e).channelId,
      (reseal_same y.2 e).isE2ee]
    exact h.edits e' he' p hp y hy

theorem map_reseal_eq_self (h : ∀ p, e.core.payload = .messageEditedE2ee p →
    ∀ x ∈ db.messages, x.2.eventHash = some p.target → x.2.author ≠ e.core.author) :
    { db with messages := db.messages.map fun _ row => reseal row e } = db := by
  rw [Table.map_eq_self]
  exact fun x hx => reseal_of_not_edit fun p hp => h p hp x hx

theorem sealedEditTarget_own {p : MessageEditedE2ee} {x : ℕ × MessageRow} {strict : Bool}
    (hrow : db.rowOfHash p.target = some x) (hchannel : x.2.channelId = p.channelId)
    (hsealed : x.2.isE2ee = true) (hauthor : x.2.author = e.core.author) :
    db.sealedEditTarget p.channelId p.target e.core.author strict = .ok (some x.1) := by
  simp [Db.sealedEditTarget, hrow, hchannel, hsealed, hauthor, ensure, bind, Except.bind, pure,
    Except.pure]

theorem sealedEditTarget_foreign {p : MessageEditedE2ee} {x : ℕ × MessageRow}
    (hrow : db.rowOfHash p.target = some x) (hchannel : x.2.channelId = p.channelId)
    (hsealed : x.2.isE2ee = true) (hauthor : x.2.author ≠ e.core.author) :
    db.sealedEditTarget p.channelId p.target e.core.author false = .ok none := by
  simp [Db.sealedEditTarget, hrow, hchannel, hsealed, hauthor, ensure, bind, Except.bind, pure,
    Except.pure]

theorem updateSealedRow_eq {id editedAt : ℕ} {sealed : List UInt8}
    (hrow : (id, row) ∈ db.messages) (hclass : db.resolve row.channelId = .e2ee)
    (hsealed : row.isE2ee = true) : db.updateSealedRow id sealed editedAt =
      .ok { db with messages := db.messages.modify id fun row =>
              { row with sealed := some sealed, editedAt := some editedAt } } := by
  simp [Db.updateSealedRow, Table.get?_eq_some.mpr hrow, Db.requireE2ee, hclass, hsealed, context,
    ensure, bind, Except.bind, pure, Except.pure]

theorem modify_eq_map_reseal {p : MessageEditedE2ee} {x : ℕ × MessageRow}
    (hp : e.core.payload = .messageEditedE2ee p)
    (hunique : db.messages.UniqueIndex MessageRow.eventHash) (hx : x ∈ db.messages)
    (hhash : x.2.eventHash = some p.target) (hauthor : x.2.author = e.core.author) :
    (db.messages.modify x.1 fun row =>
      { row with sealed := some p.ciphertext, editedAt := some e.core.timestamp }) =
      db.messages.map fun _ row => reseal row e := by
  refine Table.map_congr fun y hy => ?_
  by_cases hkey : y.1 = x.1
  · obtain rfl := Table.eq_of_key_eq hy hx hkey
    simp [reseal, hp, hhash, hauthor]
  · rw [if_neg hkey, reseal_of_not_edit]
    intro q hq ht
    obtain rfl : p = q := EventPayload.messageEditedE2ee.inj (hp.symm.trans hq)
    exact absurd (congrArg Prod.fst (hunique y hy x hx (by simp [ht]) (ht.trans hhash.symm))) hkey

theorem replaySealedEdit_eq (h : Replayable db tombstoned [e]) :
    db.replaySealedEdit tombstoned e =
      .ok { db with messages := db.messages.map fun _ row => reseal row e } := by
  cases hp : e.core.payload with
  | messageEditedE2ee p =>
    have hedits := h.edits e (by simp) p hp
    cases hrow : db.rowOfHash p.target with
    | none =>
      have hnone := Table.find?_eq_none.mp hrow
      rw [map_reseal_eq_self]
      · simp [Db.replaySealedEdit, hp, Db.sealedEditTarget, hrow, pure, Except.pure, bind,
          Except.bind]
      · intro q hq x hx hhash
        obtain rfl : p = q := EventPayload.messageEditedE2ee.inj (hp.symm.trans hq)
        simpa [hhash] using hnone x hx
    | some x =>
      obtain ⟨hx, hhash⟩ := Table.find?_mem hrow
      simp only [decide_eq_true_eq] at hhash
      obtain ⟨hchannel, hsealed, hclass, hlive⟩ := hedits x hx hhash
      by_cases hauthor : x.2.author = e.core.author
      · rw [← modify_eq_map_reseal hp h.unique hx hhash hauthor]
        simp [Db.replaySealedEdit, hp, hlive, sealedEditTarget_own hrow hchannel hsealed hauthor,
          updateSealedRow_eq hx hclass hsealed, bind, Except.bind]
      · rw [map_reseal_eq_self]
        · simp [Db.replaySealedEdit, hp, hlive, pure, Except.pure, bind, Except.bind,
            sealedEditTarget_foreign hrow hchannel hsealed hauthor]
        · intro q hq y hy ht
          obtain rfl : p = q := EventPayload.messageEditedE2ee.inj (hp.symm.trans hq)
          obtain rfl := h.unique y hy x hx (by simp [ht]) (ht.trans hhash.symm)
          exact hauthor
  | _ =>
    rw [map_reseal_eq_self (by simp [hp])]
    simp [Db.replaySealedEdit, hp, pure, Except.pure]

theorem replaySealedEdits_eq (h : Replayable db tombstoned events) :
    events.foldlM (Db.replaySealedEdit tombstoned) db =
      .ok { db with messages := db.messages.map fun _ row => resealed events row } := by
  induction events generalizing db with
  | nil => simp [resealed, Table.map_eq_self, pure, Except.pure]
  | cons e events ih =>
    have hhead : Replayable db tombstoned [e] :=
      ⟨h.unique, fun e' he' => h.edits e' (List.mem_cons.mpr (.inl (List.mem_singleton.mp he')))⟩
    have htail : Replayable db tombstoned events :=
      ⟨h.unique, fun e' he' => h.edits e' (List.mem_cons_of_mem _ he')⟩
    rw [List.foldlM_cons, replaySealedEdit_eq hhead]
    refine (ih (htail.reseal e)).trans ?_
    simp [resealed, Table.map_map]

theorem rowOfHash_eq_some {hash : EventHash} {x : ℕ × MessageRow}
    (hunique : db.messages.UniqueIndex MessageRow.eventHash) :
    db.rowOfHash hash = some x ↔ x ∈ db.messages ∧ x.2.eventHash = some hash := by
  constructor
  · intro h
    obtain ⟨hx, hhash⟩ := Table.find?_mem h
    exact ⟨hx, by simpa using hhash⟩
  · rintro ⟨hx, hhash⟩
    exact hunique.find? hx hhash

/-- Point the row `id` to a message, if there is one to point to. -/
def relink (target : Option ℕ) (id k : ℕ) (row : MessageRow) : MessageRow :=
  if k = id then { row with replyTo := target <|> row.replyTo } else row

theorem relink_same (target : Option ℕ) (id k : ℕ) (row : MessageRow) :
    (relink target id k row).eventHash = row.eventHash ∧
      (relink target id k row).channelId = row.channelId := by
  unfold relink
  split_ifs <;> exact ⟨rfl, rfl⟩

/-- What a reply may point to depends on no column but the hash and the channel. -/
theorem replyRow_map {f : ℕ → MessageRow → MessageRow}
    (hf : ∀ k r, (f k r).eventHash = r.eventHash ∧ (f k r).channelId = r.channelId) (e : Event) :
    ({ v with messages := v.messages.map f } : View).replyRow e = v.replyRow e := by
  simp only [View.replyRow]
  congr 1
  funext cited
  simp only [Table.find?, Table.map, List.find?_map, Option.map_map]
  congr 1
  congr 1
  funext x
  simp [hf]

theorem repairReplyLink_eq (x : Event × ℕ) : db.repairReplyLink x =
    { db with messages := db.messages.map (relink (db.view.replyRow x.1) x.2) } := by
  have hself : db.messages.map (relink none x.2) = db.messages :=
    Table.map_eq_self fun y _ => by simp [relink]
  have hreply : db.view.replyRow x.1 =
      (citedBy x.1).bind fun cited => db.resolveReplyTarget cited.1 (some cited.2) := rfl
  rw [hreply]
  unfold Db.repairReplyLink
  cases citedBy x.1 with
  | none => simp [hself]
  | some cited =>
    simp only [Option.bind_some]
    cases db.resolveReplyTarget cited.1 (some cited.2) with
    | none => simp [hself]
    | some target => rfl

theorem foldl_repairReplyLink (l : List (Event × ℕ)) : l.foldl Db.repairReplyLink db =
    { db with messages := db.messages.map fun k row =>
        l.foldl (fun row x => relink (db.view.replyRow x.1) x.2 k row) row } := by
  induction l generalizing db with
  | nil => simp [Table.map_eq_self]
  | cons x l ih =>
    have hkeep (f : ℕ → MessageRow → MessageRow) (hf : f = relink (db.view.replyRow x.1) x.2)
        (e : Event) : (Db.view { db with messages := db.messages.map f }).replyRow e =
          db.view.replyRow e :=
      replyRow_map (v := db.view) (fun k r => hf ▸ relink_same _ _ k r) e
    rw [List.foldl_cons, repairReplyLink_eq, ih]
    simp only [hkeep _ rfl, Table.map_map, List.foldl_cons]

theorem foldl_relink {target : Event → Option ℕ} {T : Option ℕ} {k : ℕ} (l : List (Event × ℕ))
    (hall : ∀ x ∈ l, x.2 = k → target x.1 = T) (hrow : row.replyTo = none ∨ row.replyTo = T) :
    l.foldl (fun row x => relink (target x.1) x.2 k row) row =
      if ∃ x ∈ l, x.2 = k then { row with replyTo := T } else row := by
  induction l generalizing row with
  | nil => simp
  | cons x l ih =>
    have hall' : ∀ y ∈ l, y.2 = k → target y.1 = T := fun y hy => hall y (by simp [hy])
    rw [List.foldl_cons]
    by_cases hx : x.2 = k
    · have hlink : relink (target x.1) x.2 k row = { row with replyTo := T } := by
        rw [hall x (by simp) hx, relink, if_pos hx.symm]
        rcases hrow with hrow | hrow <;> rw [hrow] <;> cases T <;> rfl
      rw [hlink, ih hall' (.inr rfl)]
      simp [hx]
    · have hlink : relink (target x.1) x.2 k row = row := by
        rw [relink, if_neg fun h => hx h.symm]
      rw [hlink, ih hall' hrow]
      exact if_congr (by simp [hx]) rfl rfl

/-- The posted event that a row comes from. -/
def View.originOf (K : Crypto) (v : View) (row : MessageRow) : Option Event :=
  v.events.find? fun e => isPosted e ∧ row.eventHash = some (e.hash K)

/-- The row that a row's event lets it point to. -/
def View.citedRow (K : Crypto) (v : View) (row : MessageRow) : Option ℕ :=
  (v.originOf K row).bind v.replyRow

/-- A row without a reply edge gets the one that its event lets it have. -/
def View.linked (K : Crypto) (v : View) (row : MessageRow) : MessageRow :=
  { row with replyTo := row.replyTo <|> v.citedRow K row }

theorem linked_of_some {target : ℕ} (h : row.replyTo = some target) : v.linked K row = row := by
  cases row
  simp_all [View.linked]

theorem linked_of_uncited (h : v.citedRow K row = none) : v.linked K row = row := by
  cases row
  simp_all [View.linked]

theorem originOf_eq_some (hnodup : (v.events.map fun e => e.hash K).Nodup) (he : e ∈ v.events)
    (hposted : isPosted e = true) (hhash : row.eventHash = some (e.hash K)) :
    v.originOf K row = some e := by
  cases h : v.originOf K row with
  | none => exact absurd (List.find?_eq_none.mp h e he) (by simp [hposted, hhash])
  | some e' =>
    have hmem := List.mem_of_find?_eq_some h
    have hfound := List.find?_some h
    simp only [decide_eq_true_eq] at hfound
    have hsame : e'.hash K = e.hash K := Option.some.inj (hfound.2.symm.trans hhash)
    exact congrArg some (List.inj_on_of_nodup_map hnodup hmem he hsame)

theorem mem_unlinkedRows {x : Event × ℕ} (hunique : db.messages.UniqueIndex MessageRow.eventHash) :
    x ∈ db.unlinkedRows K ↔ x.1 ∈ db.events ∧ isPosted x.1 = true ∧
      ∃ row, (x.2, row) ∈ db.messages ∧ row.eventHash = some (x.1.hash K) ∧ row.replyTo = none := by
  obtain ⟨e, id⟩ := x
  simp only [Db.unlinkedRows, List.mem_filterMap, List.mem_filter, Option.bind_eq_some_iff,
    rowOfHash_eq_some hunique, Option.ite_none_right_eq_some, Option.some.injEq, Prod.mk.injEq]
  constructor
  · rintro ⟨e', ⟨he, hposted⟩, ⟨k, row⟩, ⟨hrow, hhash⟩, hreply, rfl, rfl⟩
    exact ⟨he, hposted, row, hrow, hhash, hreply⟩
  · rintro ⟨he, hposted, row, hrow, hhash, hreply⟩
    exact ⟨e, ⟨he, hposted⟩, (id, row), ⟨hrow, hhash⟩, hreply, rfl, rfl⟩

theorem repairReplyLinks_eq (hnodup : (db.events.map fun e => e.hash K).Nodup)
    (hunique : db.messages.UniqueIndex MessageRow.eventHash) : db.repairReplyLinks K =
      { db with messages := db.messages.map fun _ row => db.view.linked K row } := by
  rw [Db.repairReplyLinks, foldl_repairReplyLink]
  refine congrArg (fun messages => { db with messages }) (Table.map_congr fun x hx => ?_)
  -- Only pairs of the row's own event concern the row, and there are some if it lacks an edge.
  have hown : ∀ y ∈ db.unlinkedRows K, y.2 = x.1 →
      x.2.replyTo = none ∧ db.view.replyRow y.1 = db.view.citedRow K x.2 := by
    intro y hy hkey
    obtain ⟨he, hposted, row, hrow, hhash, hreply⟩ := (mem_unlinkedRows hunique).mp hy
    obtain rfl := Table.row_eq (hkey ▸ hrow) hx
    refine ⟨hreply, ?_⟩
    rw [View.citedRow, originOf_eq_some (v := db.view) hnodup he hposted hhash, Option.bind_some]
  cases hreply : x.2.replyTo with
  | some target =>
    have hnone : ∀ y ∈ db.unlinkedRows K, y.2 = x.1 → db.view.replyRow y.1 = some target :=
      fun y hy hkey => absurd (hown y hy hkey).1 (by simp [hreply])
    rw [foldl_relink _ hnone (.inr hreply), if_neg]
    · exact (linked_of_some hreply).symm
    · rintro ⟨y, hy, hkey⟩
      simpa [hreply] using (hown y hy hkey).1
  | none =>
    rw [foldl_relink _ (fun y hy hkey => (hown y hy hkey).2) (.inl hreply)]
    split_ifs with hsome
    · simp [View.linked, hreply]
    · cases hcited : db.view.citedRow K x.2 with
      | none => exact (linked_of_uncited hcited).symm
      | some target =>
        obtain ⟨e, horigin, -⟩ := Option.bind_eq_some_iff.mp hcited
        have he := List.mem_of_find?_eq_some horigin
        have hfound := List.find?_some horigin
        simp only [decide_eq_true_eq] at hfound
        exact absurd ⟨(e, x.1), (mem_unlinkedRows hunique).mpr
          ⟨he, hfound.1, x.2, hx, hfound.2, hreply⟩, rfl⟩ hsome

/-! ## The passes together -/

theorem isTombstoned_iff (h : replay K g events = .ok ls) {hash : EventHash} :
    isTombstoned events (some ls) hash = true ↔ hash ∈ storedTombstoneTargets events := by
  simp [isTombstoned, mem_tombstones h]

theorem deriveMissing_tombstoned {l : List Event} {acc : Db × ℕ}
    (h : ∀ e ∈ l, tombstoned (e.hash K) = true) :
    l.foldlM (Db.deriveMissing K tombstoned) acc = .ok acc := by
  induction l with
  | nil => rfl
  | cons e l ih =>
    rw [List.foldlM_cons, Db.deriveMissing, if_pos (h e (by simp))]
    exact ih fun e' he' => h e' (by simp [he'])

theorem sweepTombstoned_eq_self {l : List EventRef} (h : ∀ t ∈ l, db.rowOfHash t = none) :
    l.foldlM Db.sweepTombstoned db = .ok db := by
  induction l with
  | nil => rfl
  | cons t l ih =>
    rw [List.foldlM_cons, Db.sweepTombstoned, h t (by simp)]
    exact ih fun t' ht' => h t' (by simp [ht'])

theorem rowOfHash_tombstoned (h : RowsKept K db.view) {t : EventRef}
    (ht : t ∈ storedTombstoneTargets db.events) : db.rowOfHash t = none := by
  refine Table.find?_eq_none.mpr fun x hx => ?_
  have hne : x.2.eventHash ≠ some t := fun hhash => h.kept x hx t hhash ht
  simpa using hne

theorem replayable (hlog : LogKept K g db.view ls) (hclasses : ClassesKept K db.view)
    (hrows : RowsKept K db.view) :
    Replayable db (isTombstoned db.events (some ls)) db.events where
  unique := hrows.unique
  edits := by
    intro e he p hp x hx hhash
    obtain ⟨e₀, he₀, hhash₀, base, hbase, hchannel, hclass⟩ := hrows.origin x hx _ hhash
    obtain ⟨base', hbase', hch, hcls⟩ := hrows.edits e he p hp e₀ he₀ hhash₀
    obtain rfl : base = base' := Option.some.inj (hbase.symm.trans hbase')
    refine ⟨hchannel.trans hch, hclass.trans hcls, ?_, ?_⟩
    · rw [resolve_eq_e2ee, hchannel, hclasses.posted e₀ he₀ base hbase]
      simp [MessageRow.contentClass, hcls]
    · have hreplay : LogState.replay K g db.events = .ok ls := hlog.replay
      rw [Bool.eq_false_iff, ne_eq, isTombstoned_iff hreplay]
      exact hrows.kept x hx _ hhash

theorem linked_resealed (row : MessageRow) :
    View.linked K { v with messages := v.messages.map fun _ row => resealed events row } row =
      v.linked K row := by
  have hreply := funext <| replyRow_map (v := v) (f := fun _ row => resealed events row)
    fun _ row => ⟨(resealed_same events row).eventHash, (resealed_same events row).channelId⟩
  simp only [View.linked, View.citedRow, View.originOf, hreply]

theorem reconcile_rest (hlog : LogKept K g db.view ls) (hclasses : ClassesKept K db.view)
    (hrows : RowsKept K db.view) :
    ((storedTombstoneTargets db.events).foldlM Db.sweepTombstoned db = .ok db) ∧
      db.events.foldlM (Db.replaySealedEdit (isTombstoned db.events (some ls))) db =
        .ok { db with messages := db.messages.map fun _ row => resealed db.events row } ∧
      Db.repairReplyLinks K { db with
          messages := db.messages.map fun _ row => resealed db.events row } =
        { db with messages := db.messages.map fun _ row =>
            db.view.linked K (resealed db.events row) } := by
  refine ⟨sweepTombstoned_eq_self fun t ht => rowOfHash_tombstoned hrows ht,
    replaySealedEdits_eq (replayable hlog hclasses hrows), ?_⟩
  have hunique : (db.messages.map fun _ row => resealed db.events row).UniqueIndex
      MessageRow.eventHash :=
    hrows.unique.map fun x _ => (resealed_same db.events x.2).eventHash
  let db' : Db := { db with messages := db.messages.map fun _ row => resealed db.events row }
  refine (repairReplyLinks_eq hlog.nodup hunique : db'.repairReplyLinks K = _).trans ?_
  simp only [db', Table.map_map]
  refine congrArg (fun messages => { db with messages }) (Table.map_congr fun x _ => ?_)
  exact linked_resealed (v := db.view) _

/-- After a first pass that went through, the others replay and link the rows. -/
theorem reconcileMessages_of_pass {n : ℕ}
    (hpass : (db.events.filter fun e => isPosted e ∧ db.rowOfHash (e.hash K) = none).foldlM
      (Db.deriveMissing K (isTombstoned db.events (some ls))) (db, 0) = .ok (db', n))
    (hevents : db'.events = db.events) (hlog : LogKept K g db'.view ls)
    (hclasses : ClassesKept K db'.view) (hrows : RowsKept K db'.view) :
    db.reconcileMessages K (some ls) =
      .ok ({ db' with
        messages := db'.messages.map fun _ row =>
          db'.view.linked K (resealed db'.events row) }, n) := by
  obtain ⟨hsweep, hreplay, hrepair⟩ := reconcile_rest hlog hclasses hrows
  have hedits : db'.events.foldlM (Db.replaySealedEdit (isTombstoned db.events (some ls))) db' =
      .ok { db' with messages := db'.messages.map fun _ row => resealed db'.events row } := by
    rw [← hevents]
    exact hreplay
  simp only [Db.reconcileMessages, hpass]
  simp only [bind, Except.bind, hsweep, hedits, hrepair, pure, Except.pure]

/-- Every post that is not tombstoned has a row. -/
def AllDerived (K : Crypto) (v : View) : Prop :=
  ∀ e ∈ v.events, isPosted e = true → e.hash K ∉ storedTombstoneTargets v.events →
    ∃ x ∈ v.messages, x.2.eventHash = some (e.hash K)

theorem reconcileMessages_eq (h : Consistent K g db.view ls) (hall : AllDerived K db.view) :
    db.reconcileMessages K (some ls) =
      .ok ({ db with messages := db.messages.map fun _ row => db.view.linked K row }, 0) := by
  have hmissing : ∀ e ∈ db.events.filter fun e => isPosted e ∧ db.rowOfHash (e.hash K) = none,
      isTombstoned db.events (some ls) (e.hash K) = true := by
    intro e he
    obtain ⟨he, hmiss⟩ := List.mem_filter.mp he
    simp only [decide_eq_true_eq] at hmiss
    have hreplay : LogState.replay K g db.events = .ok ls := h.replay
    rw [isTombstoned_iff hreplay]
    by_contra hlive
    obtain ⟨x, hx, hhash⟩ := hall e he hmiss.1 hlive
    have hfound := (rowOfHash_eq_some h.unique).mpr ⟨hx, hhash⟩
    simp [hmiss.2] at hfound
  rw [reconcileMessages_of_pass (deriveMissing_tombstoned hmissing) rfl h.toLogKept h.toClassesKept
    h.toRowsKept]
  refine congrArg (fun messages => Except.ok (({ db with messages } : Db), 0))
    (Table.map_congr fun x hx => ?_)
  rw [show resealed db.events x.2 = x.2 from h.settled x hx]

end Server
