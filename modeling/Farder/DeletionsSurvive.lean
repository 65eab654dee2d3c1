import Farder.Server.SampleHost

/-! # Deletions survive a restart

A restart re-derives every post that no tombstone names and that has no row. So a deletion
lasts if it left a tombstone, or took a message that no event stands behind. Requests and
retention sweeps that delete the row of a post leave no tombstone, and the restart brings the
row back; the deletion of a member's data leaves a file that somebody else attached too, and
the restart attaches it again. -/
namespace Server

open EventLog EventLog.LogState Guarded

variable {K : Crypto} {g : Genesis} {st₀ st : ServerState} {tr : History}

def RemovesRow (x : Transition ServerState TimedOp) (hash : EventHash) : Prop :=
  (∃ r ∈ x.pre.db.messages, r.2.eventHash = some hash) ∧
    ∀ r ∈ x.post.db.messages, r.2.eventHash ≠ some hash

instance (x : Transition ServerState TimedOp) (hash : EventHash) : Decidable (RemovesRow x hash) :=
  inferInstanceAs (Decidable (_ ∧ _))

def RemovesLink (x : Transition ServerState TimedOp) (messageId fileId : ℕ) : Prop :=
  x.pre.db.Attached messageId fileId ∧ ¬x.post.db.Attached messageId fileId

/-- A row is left as it is, but for an edge to a row that exists where it had none. -/
def OnlyLinked (db : Db) (row row' : MessageRow) : Prop :=
  row' = row ∨ row.replyTo = none ∧
    ∃ target ∈ db.messages, row' = { row with replyTo := some target.1 }

/-- What a restart of `st`, after the run `tr`, may do: `db₁` is what the message pass leaves. -/
structure RestartKeeps (K : Crypto) (tr : History) (st : ServerState) (ls : Option LogState)
    (db₁ : Db) : Prop where
  removed : ∀ x ∈ tr, ∀ hash, RemovesRow x hash → ∀ r ∈ db₁.messages, r.2.eventHash ≠ some hash
  present : ∀ r ∈ st.db.messages, ∃ row, (r.1, row) ∈ db₁.messages ∧ OnlyLinked db₁ r.2 row
  detached : ∀ x ∈ tr, ∀ m f, RemovesLink x m f → ¬(db₁.reconcileAttachments K).Attached m f
  messages_idem : (db₁.reconcileAttachments K).reconcileMessages K ls =
    .ok (db₁.reconcileAttachments K, 0)
  attachments_idem : (db₁.reconcileAttachments K).reconcileAttachments K =
    db₁.reconcileAttachments K

/-- After the run the passes of a restart succeed and keep every deletion. -/
def DeletionsSurvive (K : Crypto) (tr : History) (st : ServerState) : Prop :=
  ∃ ls db₁ n, buildLogState K st.db = .ok ls ∧
    st.db.reconcileChannelClasses.reconcileMessages K ls = .ok (db₁, n) ∧
    RestartKeeps K tr st ls db₁

/-! ## What is removed in a run -/

theorem removed_tombstoned {x : Transition ServerState TimedOp} {ls ls' : LogState}
    {hash : EventHash} (hpre : Running K g x.pre ls) (hpost : Running K g x.post ls')
    (hevents : ∀ e ∈ x.pre.db.events, e ∈ x.post.db.events) (hremoved : RemovesRow x hash) :
    hash ∈ storedTombstoneTargets x.post.db.events := by
  obtain ⟨⟨r, hr, hhash⟩, hnone⟩ := hremoved
  obtain ⟨e, he, rfl, base, hbase, -⟩ := hpre.origin r hr hash hhash
  by_contra hlive
  obtain ⟨r', hr', hhash'⟩ := hpost.derived e (hevents e he) (isPosted_iff.mpr ⟨base, hbase⟩) hlive
  exact hnone r' hr' hhash'

theorem storedTombstoneTargets_mono {events events' : List Event}
    (h : ∀ e ∈ events, e ∈ events') {hash : EventHash}
    (hmem : hash ∈ storedTombstoneTargets events) : hash ∈ storedTombstoneTargets events' := by
  rw [mem_storedTombstoneTargets] at hmem ⊢
  obtain ⟨e, he, htarget⟩ := hmem
  exact ⟨e, h e he, htarget⟩

structure RunKept (K : Crypto) (g : Genesis) (tr : History) (st : ServerState) : Prop where
  running : ∃ ls, Running K g st ls
  rows : ∀ x ∈ tr, ∀ hash, RemovesRow x hash → hash ∈ storedTombstoneTargets st.db.events
  links : ∀ x ∈ tr, ∀ m f, RemovesLink x m f → st.db.Severed m f

theorem runKept (hst : Established K g st₀) (h : ServerRun K st₀ tr st)
    (hdurable : ∀ x ∈ tr, Durable x.pre x.event.1 x.event.2) : RunKept K g tr st := by
  induction h with
  | nil => exact ⟨⟨_, hst.running⟩, by simp, by simp⟩
  | @snoc t u op tr _ hstep ih =>
    obtain ⟨⟨ls, hrunning⟩, hrows, hlinks⟩ := ih fun x hx => hdurable x (List.mem_append_left _ hx)
    have hnext := hrunning.step (hdurable ⟨t, op, u⟩ (by simp)) hstep
    obtain ⟨ls', hrunning'⟩ := hnext.running
    refine ⟨hnext.running, ?_, ?_⟩
    · intro x hx hash hremoved
      rcases List.mem_append.mp hx with hx | hx
      · exact storedTombstoneTargets_mono hnext.events (hrows x hx hash hremoved)
      · obtain rfl := List.mem_singleton.mp hx
        exact removed_tombstoned hrunning hrunning' hnext.events hremoved
    · intro x hx m f hremoved
      rcases List.mem_append.mp hx with hx | hx
      · exact (hlinks x hx m f hremoved).advances hnext.proceeds.toAdvances
      · obtain rfl := List.mem_singleton.mp hx
        exact hnext.proceeds.severed hrunning.links hremoved.1 hremoved.2

theorem onlyLinked_relinked {db : Db} (row : MessageRow) :
    OnlyLinked (db.relinked K) row (db.view.linked K row) := by
  cases hreply : row.replyTo with
  | some target => exact .inl (linked_of_some hreply)
  | none =>
    cases hcited : db.view.citedRow K row with
    | none => exact .inl (linked_of_uncited hcited)
    | some target =>
      obtain ⟨e, -, hrow⟩ := Option.bind_eq_some_iff.mp hcited
      obtain ⟨cited, -, hfound⟩ := Option.bind_eq_some_iff.mp hrow
      obtain ⟨y, hy, rfl⟩ := Option.map_eq_some_iff.mp hfound
      refine .inr ⟨hreply, (y.1, db.view.linked K y.2), ?_, ?_⟩
      · exact Table.mem_map_of_mem (Table.find?_mem hy).1
      · simp [View.linked, hreply, hcited]

/-- A run whose operations are all durable is followed by a restart that keeps every deletion. -/
theorem deletions_survive (hst : Established K g st₀) (h : ServerRun K st₀ tr st)
    (hdurable : ∀ x ∈ tr, Durable x.pre x.event.1 x.event.2) : DeletionsSurvive K tr st := by
  obtain ⟨⟨ls, hrunning⟩, hrows, hlinks⟩ := runKept hst h hdurable
  have hclasses := reconcileChannelClasses_eq_self hrunning.toClassesKept
  have hpass := reconcileMessages_eq hrunning.toConsistent hrunning.derived
  refine ⟨some ls, st.db.relinked K, 0, buildLogState_eq hrunning.toLogKept, ?_, ?_, ?_, ?_, ?_, ?_⟩
  · rw [hclasses]
    exact hpass
  · intro x hx hash hremoved r hr hhash
    obtain ⟨r₀, hr₀, rfl⟩ := Table.mem_map.mp hr
    exact hrunning.kept r₀ hr₀ hash hhash (hrows x hx hash hremoved)
  · exact fun r hr => ⟨_, Table.mem_map_of_mem hr, onlyLinked_relinked r.2⟩
  · intro x hx m f hremoved
    have hproceeds := proceeds_passes (K := K) hrunning.links
    exact ((hlinks x hx m f hremoved).advances hproceeds.toAdvances).detached
  · exact reconcileMessages_idem hrunning.toConsistent hrunning.derived
  · exact Db.reconcileAttachments_idem

open SampleLog SampleServer

/-- Alice declares a channel and posts to it. -/
def greeting : List Entry :=
  [⟨alice, a0, 1, cert alice a0 none⟩,
   ⟨alice, a0, 1, .channelCreated ⟨e2eeChannelIdFloor, "general", "text", .plaintext, none⟩⟩,
   ⟨alice, a0, 2, .messagePosted ⟨e2eeChannelIdFloor, "hi", none, []⟩⟩]

/-- Alice deletes her post by a tombstone, and the server restarts. -/
def tombstoned : List TimedOp :=
  submits (greeting ++
    [⟨alice, a0, 3, .messageDeleted ⟨e2eeChannelIdFloor, ref alice a0 2, .author⟩⟩])
    ++ [(4, .restart)]

theorem deletions_survive_tombstoned :
    DeletionsSurvive crypto (history tombstoned) (stateAfter tombstoned) := by
  refine deletions_survive established_founded (run_history tombstoned) fun x hx => ?_
  obtain ⟨pre, ⟨now, op⟩, post⟩ := x
  rcases List.mem_append.mp (event_mem_of_history hx) with hop | hop
  · obtain ⟨e, -, heq⟩ := List.mem_map.mp hop
    obtain ⟨rfl, rfl⟩ := Prod.mk.inj heq
    trivial
  · obtain ⟨rfl, rfl⟩ := Prod.mk.inj (List.mem_singleton.mp hop)
    trivial

def deletedByRequest : List TimedOp := submits greeting ++ [(3, .deleteMessage (key alice) 1 false)]

/-- Whether the message pass of a restart gives the event a row. -/
def rederives (st : ServerState) (hash : EventHash) : Bool :=
  match buildLogState crypto st.db with
  | .ok ls =>
    match st.db.reconcileChannelClasses.reconcileMessages crypto ls with
    | .ok (db₁, _) => ∃ r ∈ db₁.messages, r.2.eventHash = some hash
    | .error _ => false
  | .error _ => false

/-- The request leaves no trace in the log: the restart brings Alice's post back. -/
theorem deletion_undone_by_restart :
    Established crypto genesis founded ∧
      ServerRun crypto founded (history deletedByRequest) (stateAfter deletedByRequest) ∧
      ¬DeletionsSurvive crypto (history deletedByRequest) (stateAfter deletedByRequest) := by
  refine ⟨established_founded, run_history deletedByRequest, ?_⟩
  rintro ⟨ls, db₁, n, hls, hpass, hkeeps⟩
  have hremoved : ∃ x ∈ history deletedByRequest, RemovesRow x (ref alice a0 2) := by
    decide +kernel
  have hback : rederives (stateAfter deletedByRequest) (ref alice a0 2) = true := by
    decide +kernel
  obtain ⟨x, hx, hrow⟩ := hremoved
  simp only [rederives, hls, hpass, decide_eq_true_eq] at hback
  obtain ⟨r, hr, hhash⟩ := hback
  exact hkeeps.removed x hx _ hrow r hr hhash

end Server
