import Farder.SampleLog
import Farder.Server.HostRun
import Farder.Server.RunInvariant

/-! # A sample server with members

Alice claims a new server. Bob is invited, and joins the server and its log. -/
namespace SampleHost

open EventLog SampleLog Server

/-- The moment `s` seconds after the beginning. -/
def momentAt (s : ℕ) : Moment :=
  ⟨1000 * s, "welcome", ⟨99⟩, ⟨fun _ => true, fun query text => query = text⟩, true, none⟩

/-- The arguments of a server that is started without any. -/
def blankSetup : Setup := ⟨"token", "blank", 52428800⟩

def start : Host := .firstRun blankSetup

def perform (host : Host) (e : Moment × HostOp) : Host := (host.perform crypto e.1 e.2).1

def transition (host : Host) (e : Moment × HostOp) : Transition Host (Moment × HostOp) :=
  ⟨host, e, perform host e⟩

def hostAfter (ops : List (Moment × HostOp)) : Host := ops.foldl perform start

def path (ops : List (Moment × HostOp)) : List (Transition Host (Moment × HostOp)) :=
  Execution.path perform start ops

theorem run_path (ops : List (Moment × HostOp)) :
    HostRun crypto start (path ops) (hostAfter ops) :=
  Execution.of_path perform ops

def requests (s : ℕ) (l : List (Keypair × Request)) : List (Moment × HostOp) :=
  l.zipIdx.map fun x =>
    (momentAt (s + x.2), .request (key x.1.1) (x.1.1 = alice) x.1.2)

def claimed : List (Moment × HostOp) :=
  [(momentAt 1, .handshake (key alice) "Alice" ⟨none, some "token"⟩ genesis)]

/-- Bob joins the log by an event, next to the handshake. -/
def joined : List (Moment × HostOp) :=
  claimed ++ requests 2 [(alice, .member (.createInvite none none none))] ++
  [(momentAt 3, .handshake (key bob) "Bob" ⟨some "welcome", none⟩ genesis)] ++
  requests 4 ((signed
    [⟨alice, a0, 1, cert alice a0 none⟩,
     ⟨alice, a0, 1, .inviteCreated ⟨"", 5, 100, false⟩⟩,
     ⟨bob, b0, 1, cert bob b0 none⟩,
     ⟨bob, b0, 1, .memberJoined (key bob) (ref alice a0 1)⟩]).map fun e => (bob, .submitEvent e))

end SampleHost

/-! ## A sample server's runs

Alice's server when its log has just been founded, and the runs of lists of operations on it,
which stop at the first operation that is refused. -/
namespace SampleServer

open EventLog SampleLog Server

def founded : ServerState :=
  ⟨{ Db.empty with genesis := some genesis }, some (LogState.fromGenesis crypto genesis)⟩

def handle (st : ServerState) (x : TimedOp) : Guarded.Checked ServerState :=
  st.handle crypto x.1 x.2

def history (ops : List TimedOp) : History := Execution.transitions handle founded ops

def stateAfter (ops : List TimedOp) : ServerState := Execution.stateAfter handle founded ops

/-- The events of a log, each submitted when it was claimed to happen. -/
def submits (entries : List Entry) : List TimedOp :=
  (signed entries).map fun e => (e.core.timestamp, .submitEvent e)

theorem established_founded : Established crypto genesis founded where
  genesis := rfl
  logState := rfl
  events := rfl
  legacy _ hx := absurd hx Table.not_mem_empty
  links :=
    ⟨fun _ ha => absurd ha Table.not_mem_empty, fun _ ha => absurd ha Table.not_mem_empty,
      fun _ hf => absurd hf Table.not_mem_empty⟩

theorem run_history (ops : List TimedOp) :
    ServerRun crypto founded (history ops) (stateAfter ops) :=
  Execution.of_transitions ops

theorem event_mem_of_history {ops : List TimedOp} {x : Transition ServerState TimedOp}
    (hx : x ∈ history ops) : x.event ∈ ops :=
  Execution.event_mem_of_transitions hx

end SampleServer
