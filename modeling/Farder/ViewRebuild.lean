import Farder.Server.Rebuild
import Farder.Server.SampleHost

/-! # Rebuilding the message view from the log

When only submitted events write, the live view carries every message as the log has it. What
the incremental ingest may leave out is a reply edge: an edge is resolved when the reply
arrives, and stays open if the cited message arrives later. A rebuild from the log resolves
it, as the repair of a restart does on the live view. -/
namespace Server

open EventLog EventLog.LogState Guarded

variable {K : Crypto} {g : Genesis} {st₀ st : ServerState} {tr : History} {db : Db}
  {ls : LogState}

def SubmitsOnly (tr : History) : Prop := ∀ x ∈ tr, ∃ e, x.event.2 = .submitEvent e

/-- The rebuilt rows of events are the live ones and what the log calls for, each under one row
id. The edges are those of the repaired live view; they differ from the live ones only where a
reply has no live edge because the message it cites was not accepted before it. -/
structure Rebuilds (K : Crypto) (live rebuilt : Db) : Prop where
  live_unique : live.messages.UniqueIndex MessageRow.eventHash
  unique : rebuilt.messages.UniqueIndex MessageRow.eventHash
  rows : ∀ hash, (rebuilt.rowOfHash hash).map (fun x => x.2.body) =
    (live.rowOfHash hash).map fun x => x.2.body
  log : ∀ hash, (live.rowOfHash hash).map (fun x => x.2.body) = logRow K live.events hash
  tombstoned : ∀ hash ∈ storedTombstoneTargets live.events, rebuilt.rowOfHash hash = none
  legacy : ∀ x, x.2.eventHash = none → (x ∈ rebuilt.messages ↔ x ∈ live.messages)
  repaired : ∀ hash, rebuilt.edgeOf hash = (live.repairReplyLinks K).edgeOf hash
  edges : ∀ e ∈ live.events, live.edgeOf (e.hash K) = rebuilt.edgeOf (e.hash K) ∨
    live.edgeOf (e.hash K) = none ∧
      ∃ target, rebuilt.edgeOf (e.hash K) = some target ∧ NotBefore K live.events e target

/-! ## The live view -/

/-- The invariant of the runs that only submit events. -/
structure Live (K : Crypto) (g : Genesis) (st : ServerState) (ls : LogState) : Prop extends
    Running K g st ls where
  bodies : BodiesKept K st.db.view
  edges : EdgesKept K st.db.view
  gaps : GapsKept K st.db.view

theorem Established.live (h : Established K g st) : Live K g st (fromGenesis K g) :=
  ⟨h.running, by simp [BodiesKept, h.events], by simp [EdgesKept, h.events],
    by simp [GapsKept, h.events]⟩

theorem Live.submitted {st' : ServerState} {e : Event} {now : ℕ} {l : List ℕ}
    (h : Live K g st ls) (hsubmit : st.submitEvent K e now = .ok (st', l)) :
    ∃ ls', Live K g st' ls' := by
  obtain ⟨ls', hrunning⟩ := (h.toRunning.submitted hsubmit).running
  obtain ⟨-, -, -, -, -, hnew, heff⟩ := Server.submitted hsubmit
  exact ⟨ls', hrunning, h.bodies.ingested h.toRowsKept hnew heff,
    h.edges.ingested h.toRowsKept hnew heff, h.gaps.ingested h.toRowsKept hnew heff⟩

theorem live_of_run (hst : Established K g st₀) (h : ServerRun K st₀ tr st)
    (hsubmits : SubmitsOnly tr) : ∃ ls, Live K g st ls := by
  induction h with
  | nil => exact ⟨_, hst.live⟩
  | @snoc t u op tr _ hstep ih =>
    obtain ⟨ls, hlive⟩ := ih fun x hx => hsubmits x (List.mem_append_left _ hx)
    obtain ⟨now, op⟩ := op
    obtain ⟨e, rfl⟩ := hsubmits ⟨t, (now, op), u⟩ (by simp)
    obtain ⟨⟨st', l⟩, hsubmit, rfl⟩ := map_eq_ok.mp hstep
    exact hlive.submitted hsubmit

theorem Live.shown (h : Live K g st ls) : Shown K g ls st.db.view :=
  ⟨h.toLogKept, h.toRowsKept, showsLog h.toLogKept h.toRowsKept h.derived h.bodies, h.edges⟩

theorem Live.editedByAuthors (h : Live K g st ls) : EditedByAuthors K st.db.view := by
  intro e he base hbase hlive e' he' p hp ht
  obtain ⟨x, hx, hhash⟩ := h.derived e he (isPosted_iff.mpr ⟨base, hbase⟩) hlive
  obtain ⟨base', hbase', hbody⟩ := h.bodies e he x hx hhash
  obtain rfl : base = base' := Option.some.inj (hbase.symm.trans hbase')
  have hauthor : x.2.author = base.author := by
    have hsame := (resealed_same st.db.view.events base).author
    rw [← hbody] at hsame
    exact hsame
  rw [← hauthor]
  exact h.authors e' he' p hp x hx (hhash.trans (congrArg some ht.symm))

theorem Live.edgeOf (h : Live K g st ls) {e : Event} (he : e ∈ st.db.events) :
    st.db.edgeOf (e.hash K) = logEdgeOf K st.db.events (e.hash K) ∨
      st.db.edgeOf (e.hash K) = none ∧ ∃ target,
        logEdgeOf K st.db.events (e.hash K) = some target ∧ NotBefore K st.db.events e target := by
  have hshown := h.shown
  have hlog := hshown.toShowsLog.rowOfHash h.unique (e.hash K)
  cases hrow : st.db.rowOfHash (e.hash K) with
  | none =>
    rw [hrow, Option.map_none] at hlog
    exact .inl (by simp [Db.edgeOf, hrow, logEdgeOf, ← hlog])
  | some x =>
    obtain ⟨hx, hhash⟩ := (rowOfHash_eq_some h.unique).mp hrow
    rw [hrow, Option.map_some] at hlog
    have hfind := find?_hash (K := K) h.nodup he
    rw [Db.view_events] at hfind
    simp only [Db.edgeOf, hrow, Option.bind_some, logEdgeOf, ← hlog, hfind]
    exact edge_eq_or hshown.toShowsLog h.edges h.gaps he hx hhash

/-- Deleting the rows of all events and reconciling gives the live view back, with the reply
edges that a repair of the live view would add. -/
theorem view_rebuilt (hst : Established K g st₀) (h : ServerRun K st₀ tr st)
    (hsubmits : SubmitsOnly tr) (hwiped : Wiped st.db db) :
    ∃ db' n, db.reconcileMessages K st.logState = .ok (db', n) ∧ Rebuilds K st.db db' := by
  obtain ⟨ls, hlive⟩ := live_of_run hst h hsubmits
  obtain ⟨db', n, v, hpass, hshown, hevents, hview, hlegacy⟩ :=
    reconcileMessages_wiped hlive.toLogKept hlive.toClassesKept hlive.toRowsKept
      hlive.editedByAuthors hwiped
  have hrows : ∀ hash, (db'.rowOfHash hash).map (fun x => x.2.body) =
      logRow K st.db.events hash := by
    intro hash
    rw [rowOfHash_linked hshown hview, hevents]
  have hedges : ∀ hash, db'.edgeOf hash = logEdgeOf K st.db.events hash := by
    intro hash
    rw [edgeOf_linked hshown hview, hevents]
  have hlog := fun hash => hlive.shown.toShowsLog.rowOfHash hlive.unique hash
  refine ⟨db', n, hlive.logState ▸ hpass, hlive.unique, unique_linked hshown hview, ?_, hlog, ?_,
    hlegacy, ?_, ?_⟩
  · exact fun hash => (hrows hash).trans (hlog hash).symm
  · intro hash hdead
    have hnone := hrows hash
    rwa [logRow, if_pos hdead, Option.map_eq_none_iff] at hnone
  · intro hash
    rw [hedges, edgeOf_linked hlive.shown
      (by rw [repairReplyLinks_eq hlive.nodup hlive.unique]; rfl)]
    rfl
  · intro e he
    rw [hedges]
    exact hlive.edgeOf he

open SampleLog SampleServer

theorem submitsOnly_submits (entries : List Entry) : SubmitsOnly (history (submits entries)) := by
  intro x hx
  obtain ⟨e, -, heq⟩ := List.mem_map.mp (event_mem_of_history hx)
  exact ⟨e, by rw [← heq]⟩

/-- One of Alice's devices replies to a post of the other before that post is accepted. -/
def earlyReply : List TimedOp := submits
  [⟨alice, a0, 1, cert alice a0 none⟩,
   ⟨alice, a0, 1, .channelCreated ⟨e2eeChannelIdFloor, "general", "text", .plaintext, none⟩⟩,
   ⟨alice, a1, 1, cert alice a1 none⟩,
   ⟨alice, a0, 2, .messagePosted ⟨e2eeChannelIdFloor, "yes", some (ref alice a1 1), []⟩⟩,
   ⟨alice, a1, 2, .messagePosted ⟨e2eeChannelIdFloor, "well?", none, []⟩⟩]

theorem view_rebuilt_earlyReply :
    let live := (stateAfter earlyReply).db
    ∃ db' n, live.wiped.reconcileMessages crypto (stateAfter earlyReply).logState = .ok (db', n) ∧
      Rebuilds crypto live db' :=
  view_rebuilt established_founded (run_history earlyReply) (submitsOnly_submits _)
    ⟨rfl, rfl, rfl, rfl⟩

def rebuiltEdge (st : ServerState) (hash : EventHash) : Option EventHash :=
  match st.db.wiped.reconcileMessages crypto st.logState with
  | .ok (db', _) => db'.edgeOf hash
  | .error _ => none

/-- The live view has no edge for the early reply; the rebuild finds the post it cites. -/
theorem rebuild_adds_edge :
    let live := (stateAfter earlyReply).db
    Established crypto genesis founded ∧
      ServerRun crypto founded (history earlyReply) (stateAfter earlyReply) ∧
      SubmitsOnly (history earlyReply) ∧ Wiped live live.wiped ∧
      ∃ db' n, live.wiped.reconcileMessages crypto (stateAfter earlyReply).logState = .ok (db', n) ∧
        (live.rowOfHash (ref alice a0 2)).isSome ∧
        live.edgeOf (ref alice a0 2) = none ∧
        db'.edgeOf (ref alice a0 2) = some (ref alice a1 1) := by
  refine ⟨established_founded, run_history earlyReply, submitsOnly_submits _,
    ⟨rfl, rfl, rfl, rfl⟩, ?_⟩
  have hedge : rebuiltEdge (stateAfter earlyReply) (ref alice a0 2) = some (ref alice a1 1) := by
    decide +kernel
  unfold rebuiltEdge at hedge
  split at hedge
  · rename_i db' n hpass
    exact ⟨db', n, hpass, by decide +kernel, by decide +kernel, hedge⟩
  · simp at hedge

end Server
