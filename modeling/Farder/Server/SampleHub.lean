import Farder.Server.BoardRun
import Farder.Server.Hub
import Farder.Server.SampleHost
import Farder.Support.History

/-! # Sample runs of connections

Alice and Bob are members of a server that has just started. -/
namespace SampleHub

open EventLog SampleLog SampleHost Server

def start : Hub := .start (hostAfter joined)

def advance (hub : Hub) (op : HubOp) : Hub := hub.next crypto op

def hubAfter (ops : List HubOp) : Hub := ops.foldl advance start

def path (ops : List HubOp) : List (Transition Hub HubOp) := Execution.path advance start ops

theorem run_path {ops : List HubOp} (h : ∀ x ∈ path ops, x.pre.Enabled crypto x.event) :
    HubRun crypto start (path ops) (hubAfter ops) :=
  (Execution.of_path advance ops).of_steps fun x hx hstep => ⟨h x hx, hstep.symm⟩

theorem run_append {l l' : List HubOp} (h : ∀ x ∈ path (l ++ l'), x.pre.Enabled crypto x.event) :
    HubRun crypto start (path l ++ Execution.path advance (hubAfter l) l') (hubAfter (l ++ l')) := by
  have hrun := run_path h
  rwa [path, Execution.path_append] at hrun

theorem mem_path {l l' : List HubOp} {op : HubOp} :
    ⟨hubAfter l, op, advance (hubAfter l) op⟩ ∈ path (l ++ op :: l') := by
  rw [path, Execution.path_append]
  exact List.mem_append_right _ List.mem_cons_self

/-- A task carries out so many of its duties. -/
def acts (task n : ℕ) : List HubOp := List.replicate n (.act task)

/-- A member connects, and all of the task's duties are carried out. -/
def connects (task s : ℕ) (member : Keypair) : List HubOp :=
  .connect task (momentAt s) (key member) "member" ⟨none, none⟩ genesis none :: acts task 6

/-- A request, of which so many duties are carried out. -/
def asks (task s : ℕ) (request : SessionRequest) (n : ℕ) : List HubOp :=
  .request task (momentAt s) request :: acts task n

end SampleHub

/-! ## Sample runs of a server with widgets

Alice has claimed the server, and has made a command for giveaways and one for events. -/
namespace SampleBoard

open EventLog SampleLog SampleHost Server

def commanded (community : Community) : Community :=
  (community.createCommand ⟨"giveaway", "giveaway", "giveaway", "giveaway", none, none, none⟩
    ⟨99⟩).createCommand ⟨"event", "event", "event", "event", none, none, none⟩ ⟨99⟩

def start : Board :=
  let host := hostAfter claimed
  ⟨host.withCommunity (commanded host.community), .empty, none, [], []⟩

def perform (b : Board) (e : Moment × BoardOp) : Board := (b.perform crypto e.1 e.2).1

def boardAfter (ops : List (Moment × BoardOp)) : Board := ops.foldl perform start

def path (ops : List (Moment × BoardOp)) : List (Transition Board (Moment × BoardOp)) :=
  Execution.path perform start ops

theorem run_path {ops : List (Moment × BoardOp)}
    (h : ∀ x ∈ path ops, x.pre.Admits x.event.2) :
    BoardRun crypto start (path ops) (boardAfter ops) :=
  (Execution.of_path perform ops).of_steps fun x hx hstep => ⟨h x hx, hstep⟩

/-- A request of Alice on her own server. -/
def asks (s : ℕ) (request : WidgetRequest) : Moment × BoardOp :=
  (momentAt s, .request (key alice) true 0 request)

/-- A command of Alice in the first channel, up to its post. -/
def command (s : ℕ) (kind : String) (post : PendingCommand → BoardOp) : List (Moment × BoardOp) :=
  let admitted : PendingCommand := ⟨key alice, true, 1, none, false⟩
  let found := { admitted with command := some ⟨kind, kind, kind, ⟨99⟩⟩ }
  [(momentAt s, .runCommand (key alice) true 1), (momentAt s, .findCommand admitted kind),
   (momentAt s, .checkModerator found), (momentAt s, post { found with moderator := true })]

/-- A giveaway that ends after a minute, which Alice enters. -/
def raffle : List (Moment × BoardOp) :=
  command 10 "giveaway" (.createGiveaway · ⟨60, "a cake"⟩) ++ [asks 20 (.enterGiveaway 1)]

/-- An event that starts after two minutes. -/
def party : List (Moment × BoardOp) :=
  command 10 "event" (.createEvent · ⟨"party", .relative 120, none, none, none⟩)

end SampleBoard
