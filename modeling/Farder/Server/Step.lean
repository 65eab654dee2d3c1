import Farder.Server.View

/-! # What an operation does to the view

One lemma for each operation says all it can do to the log and the message rows; the
invariants of a run are case analyses of these. -/
namespace Server

open EventLog Guarded

variable {K : Crypto} {st st' : ServerState} {db db' : Db} {e : Event} {l : List ℕ} {now : ℕ}

/-- The content class of a channel, `none` if the server cannot tell. -/
def View.classOf (v : View) (channelId : ℕ) : Option ChannelClass :=
  (v.channels.find? fun ch => ch.id = channelId).bind ChannelRow.contentClass

/-- The row that a posted event cites, if the row is there and in the event's channel. -/
def View.replyRow (v : View) (e : Event) : Option ℕ :=
  (citedBy e).bind fun cited =>
    (v.messages.find? fun x => x.2.eventHash = some cited.2 ∧ x.2.channelId = cited.1).map Prod.fst

def derivedRow (K : Crypto) (e : Event) (replyTo : Option ℕ) : Option MessageRow :=
  match e.core.payload with
  | .messagePosted p => some ⟨p.channelId, e.core.author, p.content, e.core.timestamp, none, replyTo,
      some (e.hash K), none, false⟩
  | .messagePostedE2ee p => some ⟨p.channelId, e.core.author, "", e.core.timestamp, none, replyTo,
      some (e.hash K), some p.ciphertext, true⟩
  | _ => none

def MessageRow.contentClass (row : MessageRow) : ChannelClass :=
  if row.isE2ee then .e2ee else .plaintext

/-- What a transaction does to the view: it stores the event, and in addition declares a
channel, or inserts, edits or deletes one row. -/
inductive Ingested (K : Crypto) (v : View) (e : Event) : View → Prop where
  | declared (p : ChannelCreated) (ch : ChannelRow) (hp : e.core.payload = .channelCreated p)
      (hid : ch.id = p.channelId) (hclass : ch.contentClass = some p.cls)
      (hfree : ∀ c ∈ v.channels, c.id ≠ p.channelId)
      (hempty : ∀ x ∈ v.messages, x.2.channelId ≠ p.channelId) :
      Ingested K v e { v with events := v.events ++ [e], channels := v.channels ++ [ch] }
  | posted (row : MessageRow) (hrow : derivedRow K e (v.replyRow e) = some row)
      (hclass : v.classOf row.channelId = some row.contentClass)
      (hnew : ∀ x ∈ v.messages, x.2.eventHash ≠ some (e.hash K)) :
      Ingested K v e { v with events := v.events ++ [e], messages := v.messages.insert row }
  | edited (p : MessageEditedE2ee) (id : ℕ) (row : MessageRow)
      (hp : e.core.payload = .messageEditedE2ee p) (hrow : (id, row) ∈ v.messages)
      (hhash : row.eventHash = some p.target) (hchannel : row.channelId = p.channelId)
      (hsealed : row.isE2ee = true) (hauthor : row.author = e.core.author) :
      Ingested K v e { v with
        events := v.events ++ [e]
        messages := v.messages.modify id fun row =>
          { row with sealed := some p.ciphertext, editedAt := some e.core.timestamp } }
  | deleted (p : MessageDeleted) (id : ℕ) (row : MessageRow)
      (hp : e.core.payload = .messageDeleted p) (hrow : (id, row) ∈ v.messages)
      (hhash : row.eventHash = some p.target) (hchannel : row.channelId = p.channelId) :
      Ingested K v e { v with
        events := v.events ++ [e], messages := v.messages.delete fun x => x.1 = id }
  | stored (hposted : isPosted e = false) (hedit : ∀ p, e.core.payload ≠ .messageEditedE2ee p)
      (hdelete : deletedTarget e = none) (hchannel : ∀ p, e.core.payload ≠ .channelCreated p) :
      Ingested K v e { v with events := v.events ++ [e] }

theorem Ingested.events {v v' : View} (h : Ingested K v e v') : v'.events = v.events ++ [e] := by
  cases h <;> rfl

theorem Ingested.genesis {v v' : View} (h : Ingested K v e v') : v'.genesis = v.genesis := by
  cases h <;> rfl

theorem resolve_eq {id : ℕ} : db.resolve id =
    match db.view.classOf id with
    | some .plaintext => .plaintext
    | some .e2ee => .e2ee
    | none => .unresolvable := rfl

theorem resolve_eq_e2ee {id : ℕ} : db.resolve id = .e2ee ↔ db.view.classOf id = some .e2ee := by
  rw [resolve_eq]
  rcases db.view.classOf id with _ | _ | _ <;> simp

theorem resolve_eq_plaintext {id : ℕ} :
    db.resolve id = .plaintext ↔ db.view.classOf id = some .plaintext := by
  rw [resolve_eq]
  rcases db.view.classOf id with _ | _ | _ <;> simp

theorem requirePlaintextForDerived_eq_ok {id : ℕ} :
    db.requirePlaintextForDerived id = .ok () ↔
      db.view.classOf id = some .plaintext ∨ db.channelRow id = none := by
  rw [← resolve_eq_plaintext]
  simp only [Db.requirePlaintextForDerived, Db.channelRowExists]
  cases hclass : db.resolve id with
  | plaintext => simp
  | e2ee =>
    have : db.channelRow id ≠ none := by
      intro hnone
      simp [Db.resolve, hnone] at hclass
    simp [this]
  | unresolvable => simp

theorem replyRow_posted {p : MessagePosted} (hp : e.core.payload = .messagePosted p) :
    db.resolveReplyTarget p.channelId p.replyTo = db.view.replyRow e := by
  simp only [Db.resolveReplyTarget, View.replyRow, citedBy, hp]
  cases p.replyTo <;> rfl

theorem replyRow_sealed {p : MessagePostedE2ee} (hp : e.core.payload = .messagePostedE2ee p) :
    db.resolveReplyTarget p.channelId p.replyTo = db.view.replyRow e := by
  simp only [Db.resolveReplyTarget, View.replyRow, citedBy, hp]
  cases p.replyTo <;> rfl

/-- The guard of the door that a row goes through. -/
def Db.requireClass (db : Db) (row : MessageRow) : Checked Unit :=
  if row.isE2ee then db.requireE2ee row.channelId else db.requirePlaintextForDerived row.channelId

theorem requireClass_eq_ok {row : MessageRow} : db.requireClass row = .ok () ↔
    db.view.classOf row.channelId = some row.contentClass ∨
      row.isE2ee = false ∧ db.channelRow row.channelId = none := by
  cases hsealed : row.isE2ee with
  | true =>
    simp [Db.requireClass, Db.requireE2ee, MessageRow.contentClass, hsealed, resolve_eq_e2ee]
  | false =>
    simp [Db.requireClass, MessageRow.contentClass, hsealed, requirePlaintextForDerived_eq_ok]

theorem deriveMessageRow_eq : db.deriveMessageRow K e =
    match derivedRow K e (db.view.replyRow e) with
    | none => .ok (db, none)
    | some row => do
      db.requireClass row
      let db' ← db.insertRow row
      return (db', some db.messages.next) := by
  unfold Db.deriveMessageRow
  cases hp : e.core.payload with
  | messagePosted p =>
    simp only [derivedRow, hp, replyRow_posted hp, Db.insertDerivedRow, Db.requireClass, bind_assoc]
    rfl
  | messagePostedE2ee p =>
    simp only [derivedRow, hp, replyRow_sealed hp, Db.insertSealedRow, Db.requireClass, bind_assoc]
    rfl
  | _ => simp only [derivedRow, hp]; rfl

theorem derivedRow_eventHash {replyTo : Option ℕ} {row : MessageRow}
    (h : derivedRow K e replyTo = some row) : row.eventHash = some (e.hash K) := by
  unfold derivedRow at h
  split at h
  · obtain rfl := Option.some.inj h
    rfl
  · obtain rfl := Option.some.inj h
    rfl
  · exact absurd h (by simp)

theorem isPosted_iff {replyTo : Option ℕ} :
    isPosted e = true ↔ ∃ row, derivedRow K e replyTo = some row := by
  cases hp : e.core.payload <;> simp [isPosted, derivedRow, hp]

/-! ## The stages of a transaction -/

theorem view_storeEvent (h : db.storeEvent K e = .ok db') :
    (∀ x ∈ db.events, x.hash K ≠ e.hash K) ∧
      db'.view = { db.view with events := db.events ++ [e] } := by
  simp only [Db.storeEvent, bind_eq_ok, ensure_eq_ok, pure_eq_ok] at h
  obtain ⟨-, hnew, rfl⟩ := h
  exact ⟨hnew, rfl⟩

theorem view_materialize {p : ChannelCreated} (hp : e.core.payload = .channelCreated p)
    (h : db.materializeChannelCreated e = .ok db') :
    (∀ c ∈ db.channels, c.id ≠ p.channelId) ∧
      (∀ x ∈ db.messages, x.2.channelId ≠ p.channelId) ∧
      ∃ ch : ChannelRow, ch.id = p.channelId ∧ ch.contentClass = some p.cls ∧
        db'.view = { db.view with channels := db.channels ++ [ch] } := by
  simp only [Db.materializeChannelCreated, hp, bind_eq_ok, ensure_eq_ok, pure_eq_ok] at h
  obtain ⟨-, -, -, hfree, -, hempty, -, -, rfl⟩ := h
  refine ⟨?_, hempty, _, rfl, rfl, rfl⟩
  simpa [Db.channelRow] using hfree

theorem materialize_other (hp : ∀ p, e.core.payload ≠ .channelCreated p)
    (h : db.materializeChannelCreated e = .ok db') : db' = db := by
  unfold Db.materializeChannelCreated at h
  split at h
  · exact absurd ‹_› (hp _)
  · exact (pure_eq_ok.mp h).symm

theorem view_derive {id : Option ℕ} {row : MessageRow}
    (hrow : derivedRow K e (db.view.replyRow e) = some row)
    (h : db.deriveMessageRow K e = .ok (db', id)) :
    db.requireClass row = .ok () ∧ (∀ x ∈ db.messages, x.2.eventHash ≠ some (e.hash K)) ∧
      db'.view = { db.view with messages := db.messages.insert row } := by
  simp only [deriveMessageRow_eq, hrow, bind_eq_ok, pure_eq_ok, Prod.mk.injEq] at h
  obtain ⟨⟨⟩, hclass, db₁, hinsert, rfl, -⟩ := h
  obtain ⟨hunique, hview⟩ := Db.view_insertRow hinsert
  rw [derivedRow_eventHash hrow] at hunique
  exact ⟨hclass, hunique.resolve_left (by simp), hview⟩

theorem derive_other {id : Option ℕ} (hp : isPosted e = false)
    (h : db.deriveMessageRow K e = .ok (db', id)) : db' = db ∧ id = none := by
  have hnone : derivedRow K e (db.view.replyRow e) = none := by
    refine Option.eq_none_iff_forall_ne_some.mpr fun row hrow => ?_
    simp [isPosted_iff.mpr ⟨row, hrow⟩] at hp
  simp only [deriveMessageRow_eq, hnone, Except.ok.injEq, Prod.mk.injEq] at h
  exact ⟨h.1.symm, h.2.symm⟩

theorem sealedEditTarget_eq_some {channelId id : ℕ} {target : EventRef} {author : PublicKey}
    {strict : Bool} (h : db.sealedEditTarget channelId target author strict = .ok (some id)) :
    ∃ row, db.rowOfHash target = some (id, row) ∧ row.channelId = channelId ∧
      row.isE2ee = true ∧ row.author = author := by
  unfold Db.sealedEditTarget at h
  split at h
  · simp at h
  · rename_i id' row hrow
    simp only [bind_eq_ok, ensure_eq_ok] at h
    obtain ⟨-, hchannel, -, hsealed, h⟩ := h
    by_cases hauthor : row.author = author
    · simp only [hauthor, if_true, pure_eq_ok, Option.some.injEq] at h
      subst h
      exact ⟨row, hrow, hchannel, hsealed, hauthor⟩
    · simp [hauthor] at h

theorem view_applySealedEdit {p : MessageEditedE2ee} (hp : e.core.payload = .messageEditedE2ee p)
    (h : db.applySealedEdit e = .ok db') :
    ∃ id row, (id, row) ∈ db.messages ∧ row.eventHash = some p.target ∧
      row.channelId = p.channelId ∧ row.isE2ee = true ∧ row.author = e.core.author ∧
      db'.view = { db.view with messages := db.messages.modify id fun row =>
                    { row with sealed := some p.ciphertext, editedAt := some e.core.timestamp } } := by
  simp only [Db.applySealedEdit, hp, bind_eq_ok, context_eq_ok] at h
  obtain ⟨target, htarget, id, rfl, hupdate⟩ := h
  obtain ⟨row, hrow, hchannel, hsealed, hauthor⟩ := sealedEditTarget_eq_some htarget
  obtain ⟨hmem, hhash⟩ := Table.find?_mem hrow
  obtain ⟨-, -, -, -, rfl⟩ := Db.view_updateSealedRow hupdate
  exact ⟨id, row, hmem, by simpa using hhash, hchannel, hsealed, hauthor, rfl⟩

theorem applySealedEdit_other (hp : ∀ p, e.core.payload ≠ .messageEditedE2ee p)
    (h : db.applySealedEdit e = .ok db') : db' = db := by
  unfold Db.applySealedEdit at h
  split at h
  · exact absurd ‹_› (hp _)
  · exact (pure_eq_ok.mp h).symm

theorem view_applyTombstone {p : MessageDeleted} (hp : e.core.payload = .messageDeleted p)
    (h : db.applyTombstone e = .ok (db', l)) :
    ∃ id row, (id, row) ∈ db.messages ∧ row.eventHash = some p.target ∧
      row.channelId = p.channelId ∧
      db'.view = { db.view with messages := db.messages.delete fun x => x.1 = id } := by
  simp only [Db.applyTombstone, hp, bind_eq_ok, context_eq_ok, ensure_eq_ok] at h
  obtain ⟨⟨id, row⟩, hrow, -, hchannel, -, -, hdelete⟩ := h
  obtain ⟨hmem, hhash⟩ := Table.find?_mem hrow
  exact ⟨id, row, hmem, by simpa using hhash, hchannel, Db.view_deleteMessage hdelete⟩

theorem applyTombstone_other (hp : ∀ p, e.core.payload ≠ .messageDeleted p)
    (h : db.applyTombstone e = .ok (db', l)) : db' = db := by
  unfold Db.applyTombstone at h
  split at h
  · exact absurd ‹_› (hp _)
  · exact (congrArg Prod.fst (pure_eq_ok.mp h)).symm

theorem classOf_congr {v v' : View} (h : v'.channels = v.channels) (id : ℕ) :
    v'.classOf id = v.classOf id := by
  rw [View.classOf, h, View.classOf]

theorem replyRow_congr {v v' : View} (h : v'.messages = v.messages) (e : Event) :
    v'.replyRow e = v.replyRow e := by
  rw [View.replyRow, h, View.replyRow]

/-- A post passes the guard of its door only into a channel of its own class. -/
theorem classOf_derived {db₁ : Db} {row : MessageRow} {replyTo : Option ℕ}
    (hrow : derivedRow K e replyTo = some row) (hposted : db.checkPosted e = .ok ())
    (hchannels : db₁.channels = db.channels) (hclass : db₁.requireClass row = .ok ()) :
    db.view.classOf row.channelId = some row.contentClass := by
  rw [requireClass_eq_ok, classOf_congr (v := db.view) hchannels] at hclass
  refine hclass.resolve_right fun ⟨hplain, hnone⟩ => ?_
  cases hp : e.core.payload with
  | messagePosted p =>
    simp only [derivedRow, hp, Option.some.injEq] at hrow
    subst hrow
    simp only [Db.checkPosted, hp, bind_eq_ok, ensure_eq_ok] at hposted
    obtain ⟨-, -, hchannel⟩ := hposted
    refine hchannel ?_
    simp only [Db.channelRow, hchannels, List.find?_eq_none, decide_eq_true_eq] at hnone
    simp only [Db.getChannel, List.find?_eq_none, decide_eq_true_eq]
    intro ch hch hid
    exact hnone ch hch hid.1
  | messagePostedE2ee p =>
    simp only [derivedRow, hp, Option.some.injEq] at hrow
    subst hrow
    simp at hplain
  | _ => simp [derivedRow, hp] at hrow

theorem ingested (hposted : db.checkPosted e = .ok ()) (h : db.ingest K e = .ok (db', l)) :
    (∀ x ∈ db.events, x.hash K ≠ e.hash K) ∧ Ingested K db.view e db'.view := by
  simp only [Db.ingest, bind_eq_ok, prefixed_eq_ok] at h
  obtain ⟨db₁, hstore, db₂, hmaterialize, ⟨db₃, id⟩, hderive, db₄, hedit, htombstone⟩ := h
  obtain ⟨hnew, hview₁⟩ := view_storeEvent hstore
  have hmessages₁ : db₁.messages = db.messages := congrArg View.messages hview₁
  have hchannels₁ : db₁.channels = db.channels := congrArg View.channels hview₁
  refine ⟨hnew, ?_⟩
  by_cases hpost : isPosted e = true
  · obtain rfl := materialize_other (fun p hp => by simp [isPosted, hp] at hpost) hmaterialize
    obtain rfl := applySealedEdit_other (fun p hp => by simp [isPosted, hp] at hpost) hedit
    obtain rfl := applyTombstone_other (fun p hp => by simp [isPosted, hp] at hpost) htombstone
    obtain ⟨row, hrow⟩ := isPosted_iff.mp hpost
    obtain ⟨hclass, hfresh, hview₃⟩ := view_derive hrow hderive
    rw [replyRow_congr (v := db.view) hmessages₁] at hrow
    rw [Db.view_redactAttachment, Db.view_attachDerived, hview₃, hview₁, hmessages₁]
    rw [hmessages₁] at hfresh
    exact .posted row hrow (classOf_derived hrow hposted hchannels₁ hclass) hfresh
  · obtain ⟨rfl, rfl⟩ := derive_other (by simpa using hpost) hderive
    have hview₃ : ((db₃.attachDerived e none).redactAttachment e).view =
        (db₃.attachDerived e none).view := Db.view_redactAttachment
    rw [Db.view_attachDerived] at hview₃
    cases hp : e.core.payload with
    | channelCreated p =>
      obtain ⟨hfree, hempty, ch, hid, hclass, hview₂⟩ := view_materialize hp hmaterialize
      obtain rfl := applySealedEdit_other (by simp [hp]) hedit
      obtain rfl := applyTombstone_other (by simp [hp]) htombstone
      rw [hview₃, hview₂, hview₁, hchannels₁]
      rw [hchannels₁] at hfree
      rw [hmessages₁] at hempty
      exact .declared p ch hp hid hclass hfree hempty
    | messageEditedE2ee p =>
      obtain rfl := materialize_other (by simp [hp]) hmaterialize
      obtain ⟨id, row, hrow, hhash, hchannel, hsealed, hauthor, hview₄⟩ :=
        view_applySealedEdit hp hedit
      obtain rfl := applyTombstone_other (by simp [hp]) htombstone
      have hmessages₃ := (congrArg View.messages hview₃).trans hmessages₁
      simp only [Db.view_messages] at hmessages₃
      rw [hview₄, hview₃, hview₁, hmessages₃]
      rw [hmessages₃] at hrow
      exact .edited p id row hp hrow hhash hchannel hsealed hauthor
    | messageDeleted p =>
      obtain rfl := materialize_other (by simp [hp]) hmaterialize
      obtain rfl := applySealedEdit_other (by simp [hp]) hedit
      obtain ⟨id, row, hrow, hhash, hchannel, hview₄⟩ := view_applyTombstone hp htombstone
      have hmessages₃ := (congrArg View.messages hview₃).trans hmessages₁
      simp only [Db.view_messages] at hmessages₃
      rw [hview₄, hview₃, hview₁, hmessages₃]
      rw [hmessages₃] at hrow
      exact .deleted p id row hp hrow hhash hchannel
    | _ =>
      obtain rfl := materialize_other (by simp [hp]) hmaterialize
      obtain rfl := applySealedEdit_other (by simp [hp]) hedit
      obtain rfl := applyTombstone_other (by simp [hp]) htombstone
      rw [hview₃, hview₁]
      exact .stored (by simpa using hpost) (by simp [hp]) (by simp [deletedTarget, hp])
        (by simp [hp])

/-- A submitted event that is accepted is new, extends the authorization state, and changes
the view by one transaction. -/
theorem submitted (h : st.submitEvent K e now = .ok (st', l)) :
    ∃ ls ls', st.logState = some ls ∧ ls.apply K e = .ok ls' ∧ st'.logState = some ls' ∧
      (∀ x ∈ st.db.events, x.hash K ≠ e.hash K) ∧ Ingested K st.db.view e st'.db.view := by
  simp only [ServerState.submitEvent, bind_eq_ok, context_eq_ok, prefixed_eq_ok, pure_eq_ok,
    Prod.mk.injEq] at h
  obtain ⟨ls, hls, -, -, -, -, ls', happly, ⟨⟩, hposted, ⟨db, orphans⟩, hingest, rfl, -⟩ := h
  obtain ⟨hnew, heffect⟩ := ingested hposted hingest
  exact ⟨ls, ls', hls, happly, rfl, hnew, heffect⟩

/-! ## Requests and sweeps -/

theorem view_requestDeleteMessage {member : PublicKey} {id : ℕ} {managesMessages : Bool}
    (h : db.requestDeleteMessage member id managesMessages = .ok (db', l)) :
    db'.view = { db.view with messages := db.messages.delete fun x => x.1 = id } := by
  simp only [Db.requestDeleteMessage, bind_eq_ok] at h
  obtain ⟨row, -, -, -, hdelete⟩ := h
  exact Db.view_deleteMessage hdelete

theorem view_requestEditMessage {member : PublicKey} {id : ℕ} {content : String} {v2 : Bool}
    (h : db.requestEditMessage member id content v2 now = .ok db') :
    ∃ row, (id, row) ∈ db.messages ∧ db.view.classOf row.channelId = some .plaintext ∧
      db'.view = { db.view with messages := db.messages.modify id fun row =>
                    { row with content, editedAt := some now } } := by
  simp only [Db.requestEditMessage, bind_eq_ok] at h
  obtain ⟨-, -, -, -, -, -, -, -, hedit⟩ := h
  obtain ⟨row, hrow, hclass, hview⟩ := Db.view_editMessage hedit
  exact ⟨row, hrow, resolve_eq_plaintext.mp hclass, hview⟩

def ChannelRow.expires (now : ℕ) (row : MessageRow) (ch : ChannelRow) : Bool :=
  match ch.retentionSecs with
  | some secs => Db.isOlderIn ch.id (now - secs) row
  | none => false

/-- Some listed channel's retention has run out for the row. -/
def Db.expires (db : Db) (now : ℕ) (row : MessageRow) : Bool :=
  db.listChannels.any (ChannelRow.expires now row)

theorem view_purgeChannels {channels : List ChannelRow}
    (h : channels.foldlM (Db.purgeChannel now) db = .ok db') :
    db'.view = { db.view with
      messages := db.messages.delete fun x => channels.any (ChannelRow.expires now x.2) } := by
  induction channels generalizing db with
  | nil =>
    obtain rfl : db = db' := by simpa using h
    simp [Table.delete_eq_self, Db.view]
  | cons ch channels ih =>
    rw [List.foldlM_cons, bind_eq_ok] at h
    obtain ⟨db₁, hch, h⟩ := h
    have hview : db₁.view = { db.view with
        messages := db.messages.delete fun x => ch.expires now x.2 } := by
      unfold Db.purgeChannel at hch
      unfold ChannelRow.expires
      split at hch
      · rename_i hnone
        rw [← pure_eq_ok.mp hch]
        simp [hnone, Table.delete_eq_self, Db.view]
      · rename_i secs hsecs
        rw [Db.view_deleteMessagesBefore hch]
        simp [hsecs]
    have hmessages := congrArg View.messages hview
    simp only [Db.view_messages] at hmessages
    rw [ih h, hview, hmessages, Table.delete_delete]
    simp

theorem view_purgeExpiredMessages (h : db.purgeExpiredMessages now = .ok db') :
    db'.view = { db.view with messages := db.messages.delete fun x => db.expires now x.2 } := by
  simp only [Db.purgeExpiredMessages, bind_eq_ok, pure_eq_ok] at h
  obtain ⟨db₁, hpurge, rfl⟩ := h
  rw [Db.view_cleanupAllOrphans, view_purgeChannels hpurge]
  rfl

theorem view_executeDeletion {req : DeletionRequest} (h : db.executeDeletion req = .ok db') :
    db'.view = { db.view with messages := db.messages.map fun _ row =>
      if row.author = req.memberKey then Db.anonymized row else row } := by
  simp only [Db.executeDeletion, bind_eq_ok, pure_eq_ok] at h
  obtain ⟨⟨db₁, orphans⟩, hremove, rfl⟩ := h
  have hview : (orphans.foldl Db.cleanupOrphanedFile db₁).view = db.view := by
    rw [Db.view_foldl fun _ _ => Db.view_cleanupOrphanedFile _]
    exact Db.view_removeAttachmentsForAuthorMessages hremove
  have hmessages : (orphans.foldl Db.cleanupOrphanedFile db₁).messages = db.messages :=
    congrArg View.messages hview
  show ((orphans.foldl Db.cleanupOrphanedFile db₁).anonymizeMessagesByAuthor
    req.memberKey).view = _
  rw [Db.view_anonymize, hview, hmessages]

end Server
