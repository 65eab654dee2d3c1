import Farder.Server.RestartSpec

/-! # The invariant of a run

A server keeps its message view consistent with the log and its attachments with its files.
As long as nothing but a tombstone removes the row of an event, no event misses its row. -/
namespace Server

open EventLog EventLog.LogState Guarded

variable {K : Crypto} {g : Genesis} {v v' : View} {db db' : Db} {ls ls' : LogState} {e : Event}
  {st st' : ServerState} {now : ℕ} {op : Op}

/-! ## Posts keep their rows -/

theorem AllDerived.delete {p : ℕ × MessageRow → Bool} (h : AllDerived K v)
    (hp : ∀ x ∈ v.messages, p x = true → x.2.eventHash = none) :
    AllDerived K { v with messages := v.messages.delete p } := by
  intro e he hposted hlive
  obtain ⟨x, hx, hhash⟩ := h e he hposted hlive
  refine ⟨x, Table.mem_delete.mpr ⟨hx, ?_⟩, hhash⟩
  by_contra hdelete
  simp [hp x hx (by simpa using hdelete)] at hhash

theorem AllDerived.ingested (h : AllDerived K v) (heff : Ingested K v e v') :
    AllDerived K v' := by
  -- An event that was live and posted before keeps its row unless this event tombstones it.
  have hold {e' : Event} (he' : e' ∈ v.events) (hposted : isPosted e' = true)
      (hlive : e'.hash K ∉ storedTombstoneTargets (v.events ++ [e])) :
      ∃ x ∈ v.messages, x.2.eventHash = some (e'.hash K) ∧ deletedTarget e ≠ x.2.eventHash := by
    rw [storedTombstoneTargets_snoc, List.mem_append, not_or, Option.mem_toList] at hlive
    obtain ⟨x, hx, hhash⟩ := h e' he' hposted hlive.1
    exact ⟨x, hx, hhash, hhash ▸ hlive.2⟩
  intro e' he' hposted hlive
  cases heff with
  | declared p ch hp =>
    rcases List.mem_append.mp he' with he' | he'
    · obtain ⟨x, hx, hhash, -⟩ := hold he' hposted hlive
      exact ⟨x, hx, hhash⟩
    · obtain rfl := List.mem_singleton.mp he'
      simp [isPosted, hp] at hposted
  | stored hother =>
    rcases List.mem_append.mp he' with he' | he'
    · obtain ⟨x, hx, hhash, -⟩ := hold he' hposted hlive
      exact ⟨x, hx, hhash⟩
    · obtain rfl := List.mem_singleton.mp he'
      simp [hother] at hposted
  | posted row hrow =>
    rcases List.mem_append.mp he' with he' | he'
    · obtain ⟨x, hx, hhash, -⟩ := hold he' hposted hlive
      exact ⟨x, Table.mem_insert.mpr (.inl hx), hhash⟩
    · obtain rfl := List.mem_singleton.mp he'
      exact ⟨_, Table.mem_insert.mpr (.inr rfl), derivedRow_eventHash hrow⟩
  | edited p id row hp =>
    rcases List.mem_append.mp he' with he' | he'
    · obtain ⟨x, hx, hhash, -⟩ := hold he' hposted hlive
      refine ⟨_, Table.mem_map_of_mem hx, ?_⟩
      split_ifs <;> exact hhash
    · obtain rfl := List.mem_singleton.mp he'
      simp [isPosted, hp] at hposted
  | deleted p id row hp hrow hhash =>
    rcases List.mem_append.mp he' with he' | he'
    · obtain ⟨x, hx, hx', hne⟩ := hold he' hposted hlive
      refine ⟨x, Table.mem_delete.mpr ⟨hx, ?_⟩, hx'⟩
      by_contra hid
      obtain rfl := Table.eq_of_key_eq hx hrow (by simpa using hid)
      exact hne (by simp [deletedTarget, hp, hhash])
    · obtain rfl := List.mem_singleton.mp he'
      simp [isPosted, hp] at hposted

/-! ## The view under each operation -/

/-- The view agrees with the log and misses no row. -/
structure Faithful (K : Crypto) (g : Genesis) (v : View) (ls : LogState) : Prop extends
    Consistent K g v ls where
  derived : AllDerived K v

theorem Faithful.ingested (h : Faithful K g v ls) (happly : ls.apply K e = .ok ls')
    (hnew : ∀ x ∈ v.events, x.hash K ≠ e.hash K) (heff : Ingested K v e v') :
    Faithful K g v' ls' :=
  ⟨h.toConsistent.ingested happly hnew heff, h.derived.ingested heff⟩

theorem Faithful.delete {p : ℕ × MessageRow → Bool} (h : Faithful K g v ls)
    (hp : ∀ x ∈ v.messages, p x = true → x.2.eventHash = none) :
    Faithful K g { v with messages := v.messages.delete p } ls :=
  ⟨h.toConsistent.delete, h.derived.delete hp⟩

theorem Faithful.linked (h : Faithful K g v ls) :
    Faithful K g { v with messages := v.messages.map fun _ row => v.linked K row } ls :=
  ⟨h.toConsistent.linked, h.derived.map fun _ _ => rfl⟩

theorem Faithful.anonymized (h : Faithful K g v ls) (author : PublicKey) :
    Faithful K g { v with messages := v.messages.map fun _ row =>
      if row.author = author then Db.anonymized row else row } ls := by
  refine ⟨h.toConsistent.map ?_ ?_ ?_ ?_ ?_, h.derived.map ?_⟩
  · intro k row
    split_ifs <;> rfl
  · intro k row
    split_ifs <;> rfl
  · intro k row
    split_ifs <;> rfl
  · intro k row
    split_ifs
    · exact .inr rfl
    · exact .inl rfl
  · intro x hx
    split_ifs
    · exact settled_anonymized h.toConsistent hx
    · exact h.settled x hx
  · intro k row
    split_ifs <;> rfl

theorem Faithful.edited (h : Faithful K g v ls) {id : ℕ} {row : MessageRow} {content : String}
    (hrow : (id, row) ∈ v.messages) (hclass : v.classOf row.channelId = some .plaintext) :
    Faithful K g { v with messages := v.messages.modify id fun row =>
      { row with content, editedAt := some now } } ls := by
  refine ⟨h.toConsistent.map ?_ ?_ ?_ ?_ ?_, h.derived.map ?_⟩
  · intro k row
    split_ifs <;> rfl
  · intro k row
    split_ifs <;> rfl
  · intro k row
    split_ifs <;> rfl
  · intro k row
    split_ifs <;> exact .inl rfl
  · intro x hx
    split_ifs with hid
    · obtain rfl := Table.eq_of_key_eq hx hrow hid
      exact settled_edited h.toConsistent hx hclass
    · exact h.settled x hx
  · intro k row
    split_ifs <;> rfl

theorem Faithful.channels {channels : List ChannelRow} (h : Faithful K g v ls)
    (hclasses : ∀ id c, v.classOf id = some c → ({ v with channels } : View).classOf id = some c) :
    Faithful K g { v with channels } ls :=
  ⟨h.toConsistent.channels hclasses, h.derived⟩

theorem classOf_updateRetention (channelId id : ℕ) (secs : Option ℕ) :
    (db.updateRetention channelId secs).view.classOf id = db.view.classOf id := by
  simp only [View.classOf, Db.updateRetention, Db.view_channels, List.find?_map,
    Option.bind_map]
  congr 1
  · congr 1
    funext ch
    simp only [Function.comp_apply]
    split_ifs <;> rfl
  · funext ch
    simp only [Function.comp_apply]
    split_ifs <;> rfl

theorem Faithful.deletions {reqs : List DeletionRequest} (h : Faithful K g db.view ls)
    (hdelete : reqs.foldlM Db.executeDeletion db = .ok db') :
    Faithful K g db'.view ls ∧ db'.events = db.events := by
  refine foldlM_invariant (P := fun db' => Faithful K g db'.view ls ∧ db'.events = db.events)
    hdelete ⟨h, rfl⟩ fun db₁ ⟨h₁, hevents⟩ req _ db₂ hreq => ?_
  have hview := view_executeDeletion hreq
  refine ⟨?_, (congrArg View.events hview).trans hevents⟩
  rw [hview]
  exact h₁.anonymized req.memberKey

/-- Whether the operation leaves nothing for a restart to bring back: a request deletes only
messages that no event derived, a sweep finds only such messages expired, and a member's data is
deleted with every file that its derived messages have attached. -/
def Durable (st : ServerState) (now : ℕ) (op : Op) : Prop :=
  match op with
  | .deleteMessage _ id _ => ∀ row, (id, row) ∈ st.db.messages → row.eventHash = none
  | .purgeExpiredMessages =>
    ∀ x ∈ st.db.messages, st.db.expires now x.2 = true → x.2.eventHash = none
  | .executePendingDeletions => st.db.DeletesUnshared now
  | _ => True

/-- The invariant of a run: what the server holds in memory and in its tables agrees. -/
structure Running (K : Crypto) (g : Genesis) (st : ServerState) (ls : LogState) : Prop extends
    Faithful K g st.db.view ls where
  logState : st.logState = some ls
  links : st.db.LinksKept

/-- What a step of a run does: it keeps the invariant, appends to the log, and removes links
for good. -/
structure Advanced (K : Crypto) (g : Genesis) (st st' : ServerState) : Prop where
  running : ∃ ls, Running K g st' ls
  events : ∀ e ∈ st.db.events, e ∈ st'.db.events
  proceeds : st.db.Proceeds st'.db

theorem Running.onDb (h : Running K g st ls) (hfaithful : Faithful K g db.view ls)
    (hevents : db.events = st.db.events) (hproceeds : st.db.Proceeds db) :
    Advanced K g st { st with db } :=
  ⟨⟨ls, hfaithful, h.logState, hproceeds.links⟩, fun _ he => hevents ▸ he, hproceeds⟩

theorem Running.onFiles (h : Running K g st ls) (hview : db.view = st.db.view)
    (hproceeds : st.db.Proceeds db) : Advanced K g st { st with db } :=
  h.onDb (hview ▸ h.toFaithful) (congrArg View.events hview) hproceeds

theorem Running.submitted {l : List ℕ} (h : Running K g st ls)
    (hsubmit : st.submitEvent K e now = .ok (st', l)) : Advanced K g st st' := by
  obtain ⟨ls₁, ls', hls, happly, hls', hnew, heff⟩ := Server.submitted hsubmit
  obtain rfl := Option.some.inj (h.logState.symm.trans hls)
  simp only [ServerState.submitEvent, bind_eq_ok, pure_eq_ok, Prod.mk.injEq] at hsubmit
  obtain ⟨-, -, -, -, -, -, trial, -, -, -, ⟨db, orphans⟩, hingest, rfl, -⟩ := hsubmit
  have hproceeds := Db.proceeds_ingest h.links hingest
  have hevents : db.view.events = st.db.view.events ++ [e] := heff.events
  refine ⟨⟨ls', h.toFaithful.ingested happly hnew heff, hls', hproceeds.links⟩, ?_, hproceeds⟩
  intro e' he'
  show e' ∈ db.view.events
  rw [hevents]
  exact List.mem_append_left _ he'

theorem proceeds_passes (hl : db.LinksKept) :
    db.Proceeds ((db.relinked K).reconcileAttachments K) := by
  have hlinked : db.Proceeds (db.relinked K) :=
    .of_map (f := fun _ row => db.view.linked K row) hl rfl rfl fun _ _ => rfl
  exact hlinked.trans hl (Db.attaches_reconcileAttachments.proceeds hlinked.links fun _ hm => hm)

theorem Running.restarted (h : Running K g st ls) (hrestart : st.restart K = .ok st') :
    Advanced K g st st' := by
  rw [restart_eq h.toConsistent h.derived, Except.ok.injEq] at hrestart
  subst hrestart
  have hpasses := proceeds_passes (K := K) h.links
  have hswept : ((st.db.relinked K).reconcileAttachments K).Proceeds
      ((st.db.relinked K).reconcileAttachments K).sweepRedactedBytes :=
    .of_same hpasses.links rfl rfl
  refine ⟨⟨ls, ?_, rfl, hswept.links⟩, ?_, hpasses.trans h.links hswept⟩
  · show Faithful K g ((st.db.relinked K).reconcileAttachments K).view ls
    rw [view_passes]
    exact h.toFaithful.linked
  · intro e he
    have hevents : ((st.db.relinked K).reconcileAttachments K).events = st.db.events :=
      congrArg View.events view_passes
    exact hevents ▸ he

theorem Running.step (h : Running K g st ls) (hdurable : Durable st now op)
    (hstep : st.handle K now op = .ok st') : Advanced K g st st' := by
  cases op with
  | submitEvent event =>
    obtain ⟨⟨st₁, orphans⟩, hsubmit, rfl⟩ := map_eq_ok.mp hstep
    exact h.submitted hsubmit
  | deleteMessage member id managesMessages =>
    obtain ⟨db, hdb, rfl⟩ := map_eq_ok.mp hstep
    obtain ⟨⟨db, orphans⟩, hdelete, rfl⟩ := map_eq_ok.mp hdb
    have hview := view_requestDeleteMessage hdelete
    simp only [Db.requestDeleteMessage, bind_eq_ok] at hdelete
    obtain ⟨-, -, -, -, hdelete⟩ := hdelete
    refine h.onDb ?_ (congrArg View.events hview) (Db.proceeds_deleteMessage h.links hdelete)
    rw [hview]
    refine h.toFaithful.delete fun x hx hid => ?_
    obtain rfl : x.1 = id := by simpa using hid
    exact hdurable x.2 hx
  | editMessage member id content speaksV2 =>
    obtain ⟨db, hedit, rfl⟩ := map_eq_ok.mp hstep
    obtain ⟨row, hrow, hclass, hview⟩ := view_requestEditMessage hedit
    simp only [Db.requestEditMessage, bind_eq_ok] at hedit
    obtain ⟨-, -, -, -, -, -, -, -, hedit⟩ := hedit
    refine h.onDb ?_ (congrArg View.events hview) (Db.proceeds_editMessage h.links hedit)
    rw [hview]
    exact h.toFaithful.edited hrow hclass
  | purgeExpiredMessages =>
    obtain ⟨db, hpurge, rfl⟩ := map_eq_ok.mp hstep
    have hview := view_purgeExpiredMessages hpurge
    refine h.onDb ?_ (congrArg View.events hview) (Db.proceeds_purgeExpiredMessages h.links hpurge)
    rw [hview]
    exact h.toFaithful.delete hdurable
  | executePendingDeletions =>
    obtain ⟨db, hdelete, rfl⟩ := map_eq_ok.mp hstep
    obtain ⟨hfaithful, hevents⟩ := h.toFaithful.deletions hdelete
    exact h.onDb hfaithful hevents
      (Db.proceeds_executePendingDeletions h.links hdurable hdelete)
  | cleanupOrphanedFile fileId =>
    obtain ⟨db, hdb, rfl⟩ := map_eq_ok.mp hstep
    obtain rfl := Except.ok.inj hdb
    exact h.onFiles (by simp) (Db.proceeds_cleanupOrphanedFile h.links fileId)
  | upload u =>
    obtain ⟨db, hdb, rfl⟩ := map_eq_ok.mp hstep
    obtain ⟨⟨db, id⟩, hstore, rfl⟩ := map_eq_ok.mp hdb
    exact h.onFiles (Db.view_storeOrReuse hstore) (Db.proceeds_storeOrReuse h.links hstore)
  | createChannel name channelType position =>
    obtain ⟨db, hdb, rfl⟩ := map_eq_ok.mp hstep
    obtain ⟨⟨⟩, -, rfl⟩ := map_eq_ok.mp hdb
    exact h.onDb (h.toFaithful.channels fun id c hc => classOf_append hc) rfl
      (.of_same h.links rfl rfl)
  | updateRetention channelId retentionSecs =>
    obtain ⟨db, hdb, rfl⟩ := map_eq_ok.mp hstep
    obtain rfl := Except.ok.inj hdb
    refine h.onDb (h.toFaithful.channels fun id c hc => ?_) rfl (.of_same h.links rfl rfl)
    exact (classOf_updateRetention channelId id retentionSecs).trans hc
  | requestDeletion member isOwner =>
    obtain ⟨db, hdb, rfl⟩ := map_eq_ok.mp hstep
    simp only [Db.requestDeletion, bind_eq_ok, pure_eq_ok] at hdb
    obtain ⟨-, -, -, -, rfl⟩ := hdb
    exact h.onFiles rfl (.of_same h.links rfl rfl)
  | cancelDeletion member =>
    obtain ⟨db, hdb, rfl⟩ := map_eq_ok.mp hstep
    simp only [Db.cancelDeletion, bind_eq_ok, pure_eq_ok] at hdb
    obtain ⟨-, -, rfl⟩ := hdb
    exact h.onFiles rfl (.of_same h.links rfl rfl)
  | restart => exact h.restarted hstep

/-- A server whose log has just been founded: what it holds was written past the log. -/
structure Established (K : Crypto) (g : Genesis) (st : ServerState) : Prop where
  genesis : st.db.genesis = some g
  logState : st.logState = some (fromGenesis K g)
  events : st.db.events = []
  legacy : ∀ x ∈ st.db.messages, x.2.eventHash = none ∧ x.2.isE2ee = false
  links : st.db.LinksKept

theorem Established.running (h : Established K g st) : Running K g st (fromGenesis K g) := by
  have hevents : st.db.view.events = [] := h.events
  have hlegacy : ∀ x ∈ st.db.view.messages, x.2.eventHash ≠ none → False :=
    fun x hx hne => hne (h.legacy x hx).1
  have hlog : LogKept K g st.db.view (fromGenesis K g) :=
    ⟨h.genesis, by rw [hevents]; rfl, by simp [h.events]⟩
  have hclasses : ClassesKept K st.db.view := ⟨by simp [h.events], by simp [h.events]⟩
  have hrows : RowsKept K st.db.view :=
    ⟨fun x hx y _ hne _ => (hlegacy x hx hne).elim,
      fun x hx t ht => (hlegacy x hx (by simp [ht])).elim, fun x hx _ => (h.legacy x hx).2,
      by simp [h.events], fun x hx t ht => (hlegacy x hx (by simp [ht])).elim, by simp [h.events],
      by simp [h.events]⟩
  have hsettled : Settled st.db.view := by
    intro x _
    simp [h.events, resealed]
  exact ⟨⟨⟨hlog, hclasses, hrows, hsettled⟩, by simp [AllDerived, h.events]⟩, h.logState, h.links⟩

end Server
