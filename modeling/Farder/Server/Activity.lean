import Farder.Server.MediaStream
import Farder.Support.Execution
import Farder.Support.FiniteMap

/-! # Speaking indicators

At every tick the streams of a channel are compared to what they were at the tick before, and the
differences are announced. A client flips a flag at each of them, and takes down the flags of a
track that is disabled and of a session that leaves. -/
namespace Server

open EventLog

abbrev TrackKey := SessionId × TrackKind

structure ActivityTransition where
  sessionId : SessionId
  channelId : ℕ
  kind : TrackKind
  active : Bool
  deriving DecidableEq

def activityTimeoutMs : ℕ := 300

def trackKinds : List TrackKind := [.audio, .video, .screenAudio]

/-- The last frame of the track was forwarded within the timeout. -/
def ServerSession.isActive (session : ServerSession) (kind : TrackKind) (nowMs : ℕ) : Bool :=
  (session.lastFrameMs kind).any fun t => nowMs - t < activityTimeoutMs

/-- A frame of the track has been forwarded. -/
def ServerSession.noted (session : ServerSession) (kind : TrackKind) (nowMs : ℕ) : ServerSession :=
  { session with lastFrameMs := Function.update session.lastFrameMs kind (some nowMs) }

theorem ServerSession.lastFrameMs_noted (session : ServerSession) (kind k : TrackKind) (nowMs : ℕ) :
    (session.noted kind nowMs).lastFrameMs k =
      if k = kind then some nowMs else session.lastFrameMs k :=
  Function.update_apply session.lastFrameMs kind (some nowMs) k

namespace StreamState

variable (st : StreamState)

def enabledTracks : List (TrackKey × ServerSession) :=
  st.sessions.flatMap fun x =>
    (trackKinds.filter (· ∈ x.2.activeTracks)).map fun kind => ((x.1, kind), x.2)

/-- What is found at a track on the walk. -/
def visit (prevActive : FiniteMap TrackKey Bool) (nowMs : ℕ)
    (found : List ActivityTransition × FiniteMap TrackKey Bool) (x : TrackKey × ServerSession) :
    List ActivityTransition × FiniteMap TrackKey Bool :=
  let isActive := x.2.isActive x.1.2 nowMs
  let wasActive := (prevActive.lookup x.1).getD false
  (if wasActive ≠ isActive then found.1 ++ [⟨x.1.1, x.2.channelId, x.1.2, isActive⟩] else found.1,
    found.2.insert x.1 isActive)

def computeActivityTransitions (prevActive : FiniteMap TrackKey Bool) (nowMs : ℕ) :
    List ActivityTransition × FiniteMap TrackKey Bool :=
  st.enabledTracks.foldl (visit prevActive nowMs) ([], ∅)

end StreamState

/-! ## What a walk finds -/

namespace StreamState

variable {st : StreamState} {prevActive : FiniteMap TrackKey Bool} {nowMs : ℕ} {key : TrackKey}
  {session : ServerSession} {t : ActivityTransition} {active : Bool}

theorem mem_enabledTracks : (key, session) ∈ st.enabledTracks ↔
    (key.1, session) ∈ st.sessions ∧ key.2 ∈ session.activeTracks := by
  obtain ⟨sid, kind⟩ := key
  have hkinds : kind ∈ trackKinds := by cases kind <;> decide
  simp only [enabledTracks, List.mem_flatMap, List.mem_map, List.mem_filter, decide_eq_true_eq]
  constructor
  · rintro ⟨x, hx, k, ⟨-, hk⟩, heq⟩
    cases heq
    exact ⟨hx, hk⟩
  · rintro ⟨hx, hk⟩
    exact ⟨(sid, session), hx, kind, ⟨hkinds, hk⟩, rfl⟩

theorem enabledTracks_nodup (hunique : (st.sessions.map Prod.fst).Nodup) :
    (st.enabledTracks.map Prod.fst).Nodup := by
  have hkeys : st.enabledTracks.map Prod.fst = st.sessions.flatMap fun x =>
      (trackKinds.filter (· ∈ x.2.activeTracks)).map fun kind => (x.1, kind) := by
    simp only [enabledTracks, List.map_flatMap, List.map_map]
    rfl
  rw [hkeys, List.nodup_flatMap]
  constructor
  · intro x _
    exact ((by decide : trackKinds.Nodup).filter _).map fun _ _ h => (Prod.mk.inj h).2
  · refine (List.pairwise_map.mp hunique).imp fun hne key hx hy => hne ?_
    obtain ⟨_, -, rfl⟩ := List.mem_map.mp hx
    obtain ⟨_, -, hy⟩ := List.mem_map.mp hy
    exact (Prod.mk.inj hy).1.symm

theorem mem_transitions :
    t ∈ (st.computeActivityTransitions prevActive nowMs).1 ↔
      ∃ x ∈ st.enabledTracks, (prevActive.lookup x.1).getD false ≠ x.2.isActive x.1.2 nowMs ∧
        t = ⟨x.1.1, x.2.channelId, x.1.2, x.2.isActive x.1.2 nowMs⟩ := by
  rw [computeActivityTransitions]
  induction st.enabledTracks using List.reverseRecOn with
  | nil => simp
  | append_singleton l x ih =>
    rw [List.foldl_append, List.foldl_cons, List.foldl_nil, visit]
    dsimp only
    simp only [List.mem_append, List.mem_singleton, or_and_right, exists_or, exists_eq_left, ← ih]
    by_cases hchange : (prevActive.lookup x.1).getD false ≠ x.2.isActive x.1.2 nowMs
    · rw [if_pos hchange]
      simp [hchange]
    · rw [if_neg hchange]
      simp [hchange]

variable (prevActive nowMs key active) in
theorem lookup_newActive (hunique : (st.sessions.map Prod.fst).Nodup) :
    (st.computeActivityTransitions prevActive nowMs).2.lookup key = some active ↔
      ∃ session, (key, session) ∈ st.enabledTracks ∧ session.isActive key.2 nowMs = active := by
  have hnodup := enabledTracks_nodup hunique
  rw [computeActivityTransitions]
  generalize st.enabledTracks = l at hnodup
  induction l using List.reverseRecOn with
  | nil => simp
  | append_singleton l x ih =>
    rw [List.foldl_append, List.foldl_cons, List.foldl_nil, visit]
    dsimp only
    rw [List.map_append, List.nodup_append] at hnodup
    rw [FiniteMap.lookup_insert_eq]
    by_cases hkey : key = x.1
    · subst hkey
      have hother (session : ServerSession) : (x.1, session) ∉ l := fun hmem =>
        hnodup.2.2 x.1 (List.mem_map.mpr ⟨_, hmem, rfl⟩) x.1 (by simp) rfl
      simp only [if_true, Option.some_inj, List.mem_append, hother, false_or, List.mem_singleton]
      constructor
      · intro h
        exact ⟨x.2, rfl, h⟩
      · rintro ⟨session, hx, h⟩
        rw [← hx]
        exact h
    · rw [if_neg hkey]
      refine (ih hnodup.1).trans ?_
      have hne (session : ServerSession) : (key, session) ≠ x := fun h => hkey (by rw [← h])
      simp [hne]

end StreamState

/-! ## What a client is told -/

inductive StreamEvent where
  | streamJoined (sessionId : SessionId)
  | streamLeft (sessionId : SessionId)
  | trackEnabled (sessionId : SessionId) (kind : TrackKind)
  | trackDisabled (sessionId : SessionId) (kind : TrackKind)
  | trackActivityChanged (transition : ActivityTransition)
  deriving DecidableEq

def StreamEvent.reflect (flags : Finset TrackKey) : StreamEvent → Finset TrackKey
  | .trackActivityChanged t =>
    if t.active then insert (t.sessionId, t.kind) flags else flags.erase (t.sessionId, t.kind)
  | .trackDisabled sessionId kind => flags.erase (sessionId, kind)
  | .streamLeft sessionId => flags.filter fun key => key.1 ≠ sessionId
  | _ => flags

/-- The streams of a channel, what they were at the last tick, and the flags of a client. What else
is kept is there for the statements: the session ids that have been drawn, the frames that have been
forwarded, and the tracks that have been disabled since the last tick. -/
structure Watch where
  stream : StreamState
  prevActive : FiniteMap TrackKey Bool
  flags : Finset TrackKey
  now : ℕ
  drawn : Finset SessionId
  forwarded : List (TrackKey × ℕ)
  cut : Finset TrackKey

inductive StreamOp where
  | join (pk : PublicKey) (sessionId : SessionId) (displayName : String)
  | leave (pk : PublicKey)
  | setTrack (pk : PublicKey) (kind : TrackKind) (enabled : Bool)
  | frame (pk : PublicKey) (raw : List UInt8) (admitted : Bool)
  | tick
  deriving DecidableEq

def StreamOp.drawnId : StreamOp → Option SessionId
  | .join _ sessionId _ => some sessionId
  | _ => none

namespace Watch

def start : Watch := ⟨.empty, ∅, ∅, 0, ∅, [], ∅⟩

variable (channelId : ℕ) (w : Watch)

def hear (events : List StreamEvent) : Watch :=
  { w with flags := events.foldl StreamEvent.reflect w.flags }

def tracksOf (pk : PublicKey) (kind : TrackKind) : List TrackKey :=
  (w.stream.sessionsOf pk).map fun sid => (sid, kind)

/-- What an operation does, and what it announces. -/
def next (nowMs : ℕ) : StreamOp → Watch
  | .join pk sessionId displayName =>
    { w with
      now := nowMs
      stream := w.stream.join pk channelId sessionId displayName
      drawn := insert sessionId w.drawn }.hear [.streamJoined sessionId]
  | .leave pk =>
    { w with now := nowMs, stream := w.stream.leave pk }.hear
      ((w.stream.sessionsOf pk).map .streamLeft)
  | .setTrack pk kind true =>
    { w with now := nowMs, stream := w.stream.setTrack pk kind true }.hear
      ((w.stream.sessionsOf pk).map fun sid => .trackEnabled sid kind)
  | .setTrack pk kind false =>
    { w with
      now := nowMs
      stream := w.stream.setTrack pk kind false
      cut := w.cut ∪ (w.tracksOf pk kind).toFinset }.hear
      ((w.stream.sessionsOf pk).map fun sid => .trackDisabled sid kind)
  | .frame pk raw admitted =>
    let x := w.stream.onFrameIngress pk raw nowMs admitted
    { w with
      now := nowMs
      stream := x.1
      forwarded :=
        match x.2, OuterHeader.parse raw with
        | .forward _, some header =>
          ((header.sessionId, header.trackKind), nowMs) :: w.forwarded
        | _, _ => w.forwarded }
  | .tick =>
    let x := w.stream.computeActivityTransitions w.prevActive nowMs
    { w with now := nowMs, prevActive := x.2, cut := ∅ }.hear (x.1.map .trackActivityChanged)

/-- Time goes on, and the random id of a session is a new one. -/
def Enabled (nowMs : ℕ) (op : StreamOp) : Prop :=
  w.now ≤ nowMs ∧ ∀ sessionId ∈ op.drawnId, sessionId ∉ w.drawn

instance (nowMs : ℕ) (op : StreamOp) : Decidable (w.Enabled nowMs op) :=
  inferInstanceAs (Decidable (_ ∧ _))

def Step (w : Watch) (e : ℕ × StreamOp) (w' : Watch) : Prop :=
  w.Enabled e.1 e.2 ∧ w' = w.next channelId e.1 e.2

abbrev Run (tr : List (Transition Watch (ℕ × StreamOp))) (w : Watch) : Prop :=
  Execution (Step channelId) start tr w

end Watch

end Server
