import Farder.Support.Execution
import Farder.Support.Framing

/-! # The main loop of a connection

Each turn of the loop waits for a client frame and for a server event at once, and drops the
wait that loses. A dropped reader takes the bytes that it has got with it: an event that is taken
while a frame has only partly been read tears the frame, and the loop goes on in its middle. -/
namespace FrameLoop

open Framing

def maxFrameSize : ℕ := 16 * 1024 * 1024

/-- A connection: the bytes that the client has written and the network still has, those that
have arrived, the progress of the reader of this turn, the events on the queue, the frames that
were handled and the events that were sent. -/
structure Connection (Event : Type) where
  wire : List UInt8
  incoming : List UInt8
  reader : Reader
  queue : List Event
  handled : List (List UInt8)
  sent : List Event
  closed : Bool
  deriving DecidableEq

inductive Action (Event : Type) where
  /-- The network delivers the next bytes, however many. -/
  | deliver (count : ℕ)
  | ready (event : Event)
  /-- The loop polls its two branches, in either order. -/
  | turn (frameFirst : Bool)
  deriving DecidableEq

variable {Event : Type}

namespace Connection

variable (decodes : List UInt8 → Bool) (c : Connection Event)

/-- A connection on which the client is going to write these frames. -/
def start (payloads : List (List UInt8)) : Connection Event where
  wire := stream payloads
  incoming := []
  reader := .fresh
  queue := []
  handled := []
  sent := []
  closed := false

/-- The request branch has read a frame: a frame that is no client frame closes the connection;
otherwise it is handled, and the next turn starts with a new reader. -/
def handle (payload rest : List UInt8) : Connection Event :=
  if decodes payload then
    { c with reader := .fresh, incoming := rest, handled := c.handled ++ [payload] }
  else { c with incoming := rest, closed := true }

/-- The event branch has won: the event is sent, and the reader of this turn is dropped. -/
def send (event : Event) (queue : List Event) : Connection Event :=
  { c with reader := .fresh, queue, sent := c.sent ++ [event] }

/-- Poll the request branch; `otherwise` is what the turn goes on with while it is pending. -/
def pollFrame (otherwise : Connection Event → Connection Event) : Connection Event :=
  match c.reader.poll maxFrameSize c.incoming with
  | .done payload rest => c.handle decodes payload rest
  | .tooLarge _ => { c with closed := true }
  | .pending reader => otherwise { c with reader, incoming := [] }

/-- Poll the event branch; `otherwise` is what the turn goes on with while there is no event. -/
def pollEvent (otherwise : Connection Event → Connection Event) : Connection Event :=
  match c.queue with
  | event :: queue => c.send event queue
  | [] => otherwise c

/-- One poll of the loop; when both branches are pending, both are kept. -/
def turn (frameFirst : Bool) : Connection Event :=
  if c.closed then c
  else if frameFirst then c.pollFrame decodes fun c => c.pollEvent id
  else c.pollEvent fun c => c.pollFrame decodes id

def act (action : Action Event) : Connection Event :=
  match action with
  | .deliver count =>
    { c with wire := c.wire.drop count, incoming := c.incoming ++ c.wire.take count }
  | .ready event => { c with queue := c.queue ++ [event] }
  | .turn frameFirst => c.turn decodes frameFirst

/-- The bytes that were written and not handled, as far as the loop can still read them. -/
def remaining : List UInt8 := c.reader.consumed ++ c.incoming ++ c.wire

end Connection

def Step (decodes : List UInt8 → Bool) (c : Connection Event) (action : Action Event)
    (c' : Connection Event) : Prop :=
  c' = c.act decodes action

/-- The events that became ready in a run, in that order. -/
def readied (tr : List (Transition (Connection Event) (Action Event))) : List Event :=
  tr.filterMap fun x => match x.event with
    | .ready event => some event
    | _ => none

/-- The loop has handled some of the frames, each once, whole and in order; it has lost no byte
of the others and stands at the start of the next one; and once it has taken every byte, it has
handled all frames. -/
structure Whole (payloads : List (List UInt8)) (c : Connection Event) : Prop where
  opened : c.closed = false
  frames : ∃ rest, payloads = c.handled ++ rest ∧ c.remaining = stream rest
  complete : c.wire = [] → c.incoming = [] → c.handled = payloads

/-- The turn takes an event while a frame has only partly been read: it takes the event first
and the reader has bytes of an earlier poll, or the bytes that the reader takes end within a
frame. -/
def Torn (c : Connection Event) (action : Action Event) : Prop :=
  match action with
  | .turn true => c.closed = false ∧ c.queue ≠ [] ∧ c.reader.consumed ++ c.incoming ≠ [] ∧
      ¬HasFrame (c.reader.consumed ++ c.incoming)
  | .turn false => c.closed = false ∧ c.queue ≠ [] ∧ c.reader.consumed ≠ []
  | _ => False

/-- A client that keeps to the frame size and writes nothing but client frames. -/
structure WellBehaved (decodes : List UInt8 → Bool) (payloads : List (List UInt8)) : Prop where
  size : ∀ p ∈ payloads, p.length ≤ maxFrameSize
  decodes : ∀ p ∈ payloads, decodes p = true

variable {decodes : List UInt8 → Bool} {payloads rest : List (List UInt8)}
  {c c' : Connection Event} {action : Action Event}
  {tr : List (Transition (Connection Event) (Action Event))}

/-! ## Keeping the frames whole -/

theorem maxFrameSize_lt : maxFrameSize < 2 ^ 32 := by decide

theorem rest_eq_nil (hr : c.reader.Waiting) (hsize : ∀ p ∈ rest, p.length ≤ maxFrameSize)
    (hrest : c.remaining = stream rest) (hwire : c.wire = []) (hincoming : c.incoming = []) :
    rest = [] := by
  cases rest with
  | nil => rfl
  | cons p rest =>
    have hmax := hsize p List.mem_cons_self
    simp only [Connection.remaining, hwire, hincoming, List.append_nil, stream_cons] at hrest
    have hpoll : c.reader.consumed ++ [] ++ [] = frame p ++ stream rest := by simpa using hrest
    rcases poll_frame hr hmax maxFrameSize_lt hpoll with ⟨_, hdone, -⟩ | ⟨_, -, hshort⟩
    · rw [poll_nil hr] at hdone
      cases hdone
    · have hlength := congrArg List.length hrest
      simp only [List.append_nil, List.length_append] at hshort hlength
      omega

/-- A connection stays whole as long as it handles nothing and loses nothing. -/
theorem Whole.same (h : Whole payloads c) (hclient : WellBehaved decodes payloads)
    (hr : c'.reader.Waiting) (hclosed : c'.closed = c.closed) (hhandled : c'.handled = c.handled)
    (hremaining : c'.remaining = c.remaining) : Whole payloads c' := by
  obtain ⟨rest, hpayloads, hrest⟩ := h.frames
  rw [← hhandled] at hpayloads
  rw [← hremaining] at hrest
  refine ⟨hclosed.trans h.opened, ⟨rest, hpayloads, hrest⟩, fun hwire hincoming => ?_⟩
  have hsize : ∀ p ∈ rest, p.length ≤ maxFrameSize := fun p hp =>
    hclient.size p (hpayloads ▸ List.mem_append_right _ hp)
  rw [hpayloads, rest_eq_nil hr hsize hrest hwire hincoming, List.append_nil]

/-- A connection that has lost a byte and handled nothing is not whole any more. -/
theorem Whole.lost (h : Whole payloads c) (hhandled : c'.handled = c.handled)
    (hlost : c'.remaining.length < c.remaining.length) : ¬Whole payloads c' := by
  intro h'
  obtain ⟨rest, hpayloads, hrest⟩ := h.frames
  obtain ⟨rest', hpayloads', hrest'⟩ := h'.frames
  rw [hpayloads, hhandled] at hpayloads'
  obtain rfl := List.append_cancel_left hpayloads'
  rw [hrest, hrest'] at hlost
  exact Nat.lt_irrefl _ hlost

/-- What a poll of the reader finds on a whole connection: a whole frame, or too few bytes. -/
theorem Whole.poll (h : Whole payloads c) (hclient : WellBehaved decodes payloads)
    (hr : c.reader.Waiting) :
    (∃ p rest incoming, payloads = c.handled ++ p :: rest ∧
      c.reader.poll maxFrameSize c.incoming = .done p incoming ∧
      c.reader.consumed ++ c.incoming = frame p ++ incoming ∧
      incoming ++ c.wire = stream rest) ∨
    ∃ r, c.reader.poll maxFrameSize c.incoming = .pending r ∧
      (c.reader.consumed ++ c.incoming = [] ∨ ¬HasFrame (c.reader.consumed ++ c.incoming)) := by
  obtain ⟨rest, hpayloads, hrest⟩ := h.frames
  cases rest with
  | nil =>
    have hnil : c.reader.consumed ++ c.incoming = [] := (List.append_eq_nil_iff.mp hrest).1
    have hincoming := (List.append_eq_nil_iff.mp hnil).2
    exact .inr ⟨c.reader, hincoming ▸ poll_nil hr, .inl hnil⟩
  | cons p rest =>
    have hmax : p.length ≤ maxFrameSize := hclient.size p (by simp [hpayloads])
    have hstream : c.reader.consumed ++ c.incoming ++ c.wire = frame p ++ stream rest := hrest
    rcases poll_frame hr hmax maxFrameSize_lt hstream with
      ⟨incoming, hdone, htail⟩ | ⟨r, hpending, hshort⟩
    · refine .inl ⟨p, rest, incoming, hpayloads, hdone, ?_, htail⟩
      rw [← htail, ← List.append_assoc] at hstream
      exact List.append_cancel_right hstream
    · have hlt : p.length < 2 ^ 32 := Nat.lt_of_le_of_lt hmax maxFrameSize_lt
      exact .inr ⟨r, hpending, .inr (not_hasFrame hlt hstream hshort)⟩

theorem Whole.handle {p incoming : List UInt8} (h : Whole payloads c)
    (hclient : WellBehaved decodes payloads) (hpayloads : payloads = c.handled ++ p :: rest)
    (htail : incoming ++ c.wire = stream rest) :
    Whole payloads (c.handle decodes p incoming) := by
  have hdecodes : decodes p = true := hclient.decodes p (by simp [hpayloads])
  have hpayloads' : payloads = (c.handled ++ [p]) ++ rest := by simp [hpayloads]
  rw [Connection.handle, if_pos hdecodes]
  refine ⟨h.opened, ⟨rest, hpayloads', by simpa [Connection.remaining] using htail⟩, ?_⟩
  intro hwire hincoming
  have hsize : ∀ p ∈ rest, p.length ≤ maxFrameSize := fun q hq =>
    hclient.size q (by simp [hpayloads, hq])
  have hrest : rest = [] := by
    refine rest_eq_nil (c := { c with reader := .fresh, incoming }) Reader.waiting_fresh hsize ?_
      hwire hincoming
    simpa [Connection.remaining] using htail
  simp [hpayloads, hrest]

theorem waiting_pollFrame {otherwise : Connection Event → Connection Event}
    (hr : c.reader.Waiting)
    (hother : ∀ c : Connection Event, c.reader.Waiting → (otherwise c).reader.Waiting) :
    (c.pollFrame decodes otherwise).reader.Waiting := by
  unfold Connection.pollFrame
  split
  · unfold Connection.handle
    split_ifs
    · exact Reader.waiting_fresh
    · exact hr
  · exact hr
  · rename_i r hpoll
    exact hother _ (poll_pending hr hpoll).1

theorem waiting_pollEvent {otherwise : Connection Event → Connection Event}
    (hr : c.reader.Waiting)
    (hother : ∀ c : Connection Event, c.reader.Waiting → (otherwise c).reader.Waiting) :
    (c.pollEvent otherwise).reader.Waiting := by
  unfold Connection.pollEvent
  split
  · exact Reader.waiting_fresh
  · exact hother c hr

theorem waiting_act (hr : c.reader.Waiting) : (c.act decodes action).reader.Waiting := by
  cases action with
  | deliver count => exact hr
  | ready event => exact hr
  | turn frameFirst =>
    show (c.turn decodes frameFirst).reader.Waiting
    unfold Connection.turn
    split_ifs
    · exact hr
    · exact waiting_pollFrame hr fun c hr => waiting_pollEvent hr fun _ hr => hr
    · exact waiting_pollEvent hr fun c hr => waiting_pollFrame hr fun _ hr => hr

theorem whole_frameFirst (h : Whole payloads c) (hclient : WellBehaved decodes payloads)
    (hr : c.reader.Waiting) :
    Whole payloads (c.act decodes (.turn true)) ↔ ¬Torn c (.turn true) := by
  have hact : c.act decodes (.turn true) = c.pollFrame decodes fun c => c.pollEvent id := by
    simp [Connection.act, Connection.turn, h.opened]
  rw [hact]
  rcases h.poll hclient hr with ⟨p, rest, incoming, hpayloads, hpoll, hframe, htail⟩ |
    ⟨r, hpoll, hends⟩
  · have hmax : p.length ≤ maxFrameSize := hclient.size p (by simp [hpayloads])
    have hlt : p.length < 2 ^ 32 := Nat.lt_of_le_of_lt hmax maxFrameSize_lt
    simp only [Connection.pollFrame, hpoll]
    refine iff_of_true (h.handle hclient hpayloads htail) ?_
    exact fun ⟨_, _, _, hnone⟩ => hnone ⟨p, incoming, hlt, hframe⟩
  · obtain ⟨hwaiting, hconsumed⟩ := poll_pending hr hpoll
    simp only [Connection.pollFrame, hpoll, Connection.pollEvent]
    cases hqueue : c.queue with
    | nil =>
      refine iff_of_true (h.same hclient hwaiting rfl rfl ?_) (by simp [Torn, hqueue])
      simp [Connection.remaining, hconsumed]
    | cons event queue =>
      rcases hends with hnil | hnone
      · refine iff_of_true (h.same hclient Reader.waiting_fresh rfl rfl ?_) (by simp [Torn, hnil])
        simp [Connection.remaining, Connection.send, hnil]
      · by_cases hnil : c.reader.consumed ++ c.incoming = []
        · refine iff_of_true (h.same hclient Reader.waiting_fresh rfl rfl ?_) ?_
          · simp [Connection.remaining, Connection.send, hnil]
          · simp [Torn, hnil]
        · refine iff_of_false (h.lost rfl ?_) ?_
          · have := List.length_pos_iff.mpr hnil
            simp only [Connection.remaining, Connection.send, Reader.consumed_fresh,
              List.nil_append, List.length_append] at this ⊢
            omega
          · simpa [Torn, h.opened, hqueue, hnone] using hnil

theorem whole_eventFirst (h : Whole payloads c) (hclient : WellBehaved decodes payloads)
    (hr : c.reader.Waiting) :
    Whole payloads (c.act decodes (.turn false)) ↔ ¬Torn c (.turn false) := by
  have hact : c.act decodes (.turn false) = c.pollEvent fun c => c.pollFrame decodes id := by
    simp [Connection.act, Connection.turn, h.opened]
  rw [hact]
  unfold Connection.pollEvent
  cases hqueue : c.queue with
  | nil =>
    refine iff_of_true ?_ (by simp [Torn, hqueue])
    rcases h.poll hclient hr with ⟨p, rest, incoming, hpayloads, hpoll, -, htail⟩ |
      ⟨r, hpoll, -⟩
    · simp only [Connection.pollFrame, hpoll]
      exact h.handle hclient hpayloads htail
    · obtain ⟨hwaiting, hconsumed⟩ := poll_pending hr hpoll
      simp only [Connection.pollFrame, hpoll]
      refine h.same hclient hwaiting rfl rfl ?_
      simp [Connection.remaining, hconsumed]
  | cons event queue =>
    by_cases hnil : c.reader.consumed = []
    · refine iff_of_true (h.same hclient Reader.waiting_fresh rfl rfl ?_) (by simp [Torn, hnil])
      simp [Connection.remaining, Connection.send, hnil]
    · refine iff_of_false (h.lost rfl ?_) (by simp [Torn, h.opened, hqueue, hnil])
      have := List.length_pos_iff.mpr hnil
      simp only [Connection.remaining, Connection.send, Reader.consumed_fresh, List.nil_append,
        List.length_append]
      omega

/-- The step lemma: out of a whole connection exactly the turns that tear a frame lead to one
that is not whole. -/
theorem whole_act (h : Whole payloads c) (hclient : WellBehaved decodes payloads)
    (hr : c.reader.Waiting) : Whole payloads (c.act decodes action) ↔ ¬Torn c action := by
  cases action with
  | deliver count =>
    refine iff_of_true (h.same hclient hr rfl rfl ?_) id
    simp [Connection.act, Connection.remaining]
  | ready event => exact iff_of_true (h.same hclient hr rfl rfl rfl) id
  | turn frameFirst =>
    cases frameFirst with
    | true => exact whole_frameFirst h hclient hr
    | false => exact whole_eventFirst h hclient hr

theorem sent_pollEvent {otherwise : Connection Event → Connection Event}
    (hother : ∀ c : Connection Event,
      (otherwise c).sent ++ (otherwise c).queue = c.sent ++ c.queue) :
    (c.pollEvent otherwise).sent ++ (c.pollEvent otherwise).queue = c.sent ++ c.queue := by
  unfold Connection.pollEvent
  split
  · rename_i event queue hqueue
    simp [Connection.send, hqueue]
  · exact hother c

theorem sent_pollFrame {otherwise : Connection Event → Connection Event}
    (hother : ∀ c : Connection Event,
      (otherwise c).sent ++ (otherwise c).queue = c.sent ++ c.queue) :
    (c.pollFrame decodes otherwise).sent ++ (c.pollFrame decodes otherwise).queue =
      c.sent ++ c.queue := by
  unfold Connection.pollFrame
  split
  · unfold Connection.handle
    split_ifs <;> rfl
  · rfl
  · exact hother _

theorem sent_turn (frameFirst : Bool) : (c.turn decodes frameFirst).sent ++
    (c.turn decodes frameFirst).queue = c.sent ++ c.queue := by
  unfold Connection.turn
  split_ifs
  · rfl
  · exact sent_pollFrame fun _ => sent_pollEvent fun _ => rfl
  · exact sent_pollEvent fun _ => sent_pollFrame fun _ => rfl

theorem sent_eq_readied (h : Execution (Step decodes) (.start payloads) tr c) :
    c.sent ++ c.queue = readied tr := by
  induction h with
  | nil => rfl
  | @snoc t u action tr _ hstep ih =>
    subst hstep
    rw [readied, List.filterMap_append, ← readied, ← ih]
    cases action with
    | deliver count => simp [Connection.act]
    | ready event => simp [Connection.act]
    | turn frameFirst => simpa [Connection.act] using sent_turn frameFirst

theorem whole_start (hclient : WellBehaved decodes payloads) :
    Whole payloads (Connection.start payloads : Connection Event) := by
  refine ⟨rfl, ⟨payloads, rfl, rfl⟩, fun hwire _ => ?_⟩
  exact (rest_eq_nil (c := (Connection.start payloads : Connection Event)) Reader.waiting_fresh
    hclient.size rfl hwire rfl).symm

/-- Every queued event is sent once and in order. The frames are handled each once, whole and in
order, and no byte of them is lost, in exactly the runs that never take an event while a frame
has only partly been read. -/
theorem frames_whole_iff (hclient : WellBehaved decodes payloads)
    (h : Execution (Step decodes) (.start payloads) tr c) :
    c.sent ++ c.queue = readied tr ∧
      ((∀ x ∈ tr, Whole payloads x.post) ↔ ∀ x ∈ tr, ¬Torn x.pre x.event) := by
  refine ⟨sent_eq_readied h, ?_⟩
  refine h.forall_post_iff (I := fun c => c.reader.Waiting) (Whole payloads)
    (fun x => ¬Torn x.pre x.event) Reader.waiting_fresh (whole_start hclient) ?_ ?_
  · rintro c action _ hr rfl
    exact waiting_act hr
  · intro x _ hr hwhole hstep
    rw [show x.post = x.pre.act decodes x.event from hstep]
    exact whole_act hwhole hclient hr

/-! ## A request that is torn -/

/-- The encoded frame of the request `GetServerInfo` with the id 0. -/
def serverInfoFrame : List UInt8 :=
  [0x81, 0xa7, 0x52, 0x65, 0x71, 0x75, 0x65, 0x73, 0x74, 0x92, 0x00, 0xad, 0x47, 0x65, 0x74, 0x53,
    0x65, 0x72, 0x76, 0x65, 0x72, 0x49, 0x6e, 0x66, 0x6f]

/-- A loop whose decoder knows this frame only. -/
def act (c : Connection ℕ) (action : Action ℕ) : Except Unit (Connection ℕ) :=
  .ok (c.act (fun p => p == serverInfoFrame) action)

abbrev runOf (actions : List (Action ℕ)) : List (Transition (Connection ℕ) (Action ℕ)) :=
  Execution.transitions act (.start [serverInfoFrame]) actions

abbrev endOf (actions : List (Action ℕ)) : Connection ℕ :=
  Execution.stateAfter act (.start [serverInfoFrame]) actions

theorem execution_runOf (actions : List (Action ℕ)) :
    Execution (Step fun p => p == serverInfoFrame) (.start [serverInfoFrame]) (runOf actions)
      (endOf actions) := by
  have hstep : Step (fun p => p == serverInfoFrame) =
      fun (c : Connection ℕ) action c' => act c action = .ok c' := by
    funext c action c'
    simp [Step, act, eq_comm]
  rw [hstep]
  exact Execution.of_transitions actions

theorem wellBehaved_serverInfo :
    WellBehaved (fun p => p == serverInfoFrame) [serverInfoFrame] := by
  constructor <;> decide

/-- The event comes once the whole frame has been read. -/
def untorn : List (Action ℕ) :=
  [.deliver 2, .turn true, .deliver 27, .turn false, .ready 7, .turn true]

/-- The event comes when two bytes of the length have been read. -/
def tornLength : List (Action ℕ) :=
  [.deliver 2, .turn true, .ready 7, .turn true, .deliver 27, .turn true]

theorem frames_whole_iff_untorn :
    (endOf untorn).sent ++ (endOf untorn).queue = readied (runOf untorn) ∧
      ((∀ x ∈ runOf untorn, Whole [serverInfoFrame] x.post) ↔
        ∀ x ∈ runOf untorn, ¬Torn x.pre x.event) ∧
      (endOf untorn).handled = [serverInfoFrame] ∧ (endOf untorn).sent = [7] :=
  have h := frames_whole_iff wellBehaved_serverInfo (execution_runOf untorn)
  ⟨h.1, h.2, by decide, by decide⟩

/-- The loop has taken every byte and has handled no frame: it has read the middle of the frame
as the length of a payload that it waits for. -/
theorem frame_torn :
    WellBehaved (fun p => p == serverInfoFrame) [serverInfoFrame] ∧
      ∃ c, Execution (Step fun p => p == serverInfoFrame) (.start [serverInfoFrame])
          (runOf tornLength) c ∧
        c.wire = [] ∧ c.incoming = [] ∧ c.handled = [] ∧ c.sent = [7] ∧
        c.reader = .payload [0x00, 0x19, 0x81, 0xa7] (serverInfoFrame.drop 2) :=
  ⟨wellBehaved_serverInfo, endOf tornLength, execution_runOf tornLength, by decide, by decide,
    by decide, by decide, by decide⟩

end FrameLoop
