import Farder.Server.Entries
import Farder.Support.History

/-! # The maps of connections, one by one

Four of the maps do not know whose connection an entry is of: what a step does to one of them
depends on no other, and a connection that drops its entry drops whatever there is. -/
namespace Server

open EventLog Guarded Permissions

variable {K : Crypto} {hub hub' : Hub} {task newer : ℕ} {op : HubOp} {c : Connection}
  {duty : Duty} {e e' : Entries} {tr : List (Transition Hub HubOp)}
  {x : Transition Hub HubOp} {host : Host}

inductive Registry where
  | voiceConnections
  | relayVoiceHandles
  | subscriptions
  | presences
  deriving DecidableEq

namespace Registry

def Agree (e e' : Entries) : Registry → Prop
  | .voiceConnections => e.voice = e'.voice
  | .relayVoiceHandles => e.handle = e'.handle
  | .subscriptions => e.subscriptions = e'.subscriptions
  | .presences => e.presence = e'.presence

def Cleared (e : Entries) : Registry → Prop
  | .voiceConnections => e.voice = none
  | .relayVoiceHandles => e.handle = none
  | .subscriptions => e.subscriptions = ∅
  | .presences => e.presence = none

/-- Does the duty enter something under the identity, or the handle, of the connection? -/
def writtenBy (c : Connection) : Registry → Duty → Bool
  | .voiceConnections, .bindVoice member _ => c.member = member
  | .relayVoiceHandles, .bindHandle handle _ => c.handle = some handle
  | .subscriptions, .insertSubscriptions member _ => c.member = member
  | _, _ => false

def droppedBy (c : Connection) : Registry → Duty → Bool
  | .voiceConnections, .dropVoice member => c.member = member
  | .relayVoiceHandles, .dropHandle handle => c.handle = some handle
  | .subscriptions, .dropSubscriptions member => c.member = member
  | .presences, .dropPresence member => c.member = member
  | _, _ => false

def writes (c : Connection) (r : Registry) (x : Transition Hub HubOp) : Bool :=
  match x.event with
  | .act task => (x.pre.duties task).head?.any (r.writtenBy c)
  | .request task _ (.updatePresence ..) =>
    r = .presences ∧ x.pre.memberOf task = some c.member
  | _ => false

def drops (c : Connection) (r : Registry) (x : Transition Hub HubOp) : Bool :=
  match x.event with
  | .act task => (x.pre.duties task).head?.any (r.droppedBy c)
  | _ => false

end Registry

def Duty.isSweep : Duty → Bool
  | .revalidate _ => true
  | _ => false

variable {r : Registry}

theorem agree_of_cleared (h : r.Cleared e) (h' : r.Cleared e') : r.Agree e e' := by
  cases r <;> exact Eq.trans h h'.symm

theorem cleared_of_agree (h : r.Cleared e) (hagree : r.Agree e e') : r.Cleared e' := by
  cases r <;> exact hagree.symm.trans h

theorem agree_trans {e'' : Entries} (h : r.Agree e e') (h' : r.Agree e' e'') : r.Agree e e'' := by
  cases r <;> exact Eq.trans h h'

theorem agree_refl : r.Agree e e := by
  cases r <;> rfl

theorem agree_symm (h : r.Agree e e') : r.Agree e' e := by
  cases r <;> exact Eq.symm h

theorem agree_ite {p : Prop} [Decidable p] (h : p → r.Agree e e') :
    r.Agree e (if p then e' else e) := by
  split_ifs with hp
  · exact h hp
  · exact agree_refl

/-- A duty that neither enters nor drops anything in a map, nor sweeps it, leaves it alone. -/
theorem agree_effect (hwrites : r.writtenBy c duty = false) (hdrops : r.droppedBy c duty = false)
    (hsweep : duty.isSweep = false) : r.Agree e (duty.effect hub task c e) := by
  cases duty with
  | register | dropClient => exact agree_ite fun _ => by cases r <;> rfl
  | bindVoice | bindHandle | insertSubscriptions =>
    refine agree_ite fun h => ?_
    cases r <;> first | rfl | exact absurd hwrites (by simp [Registry.writtenBy, h])
  | dropVoice | dropHandle | dropSubscriptions | dropPresence =>
    refine agree_ite fun h => ?_
    cases r <;> first | rfl | exact absurd hdrops (by simp [Registry.droppedBy, h])
  | revalidate => exact absurd hsweep (by simp [Duty.isSweep])
  | _ => exact agree_refl

theorem cleared_of_droppedBy (hdrops : r.droppedBy c duty = true) :
    r.Cleared (duty.effect hub task c e) := by
  unfold Registry.droppedBy at hdrops
  split at hdrops
  · simp [Duty.effect, Registry.Cleared, of_decide_eq_true hdrops]
  · simp [Duty.effect, Registry.Cleared, of_decide_eq_true hdrops]
  · simp [Duty.effect, Registry.Cleared, of_decide_eq_true hdrops]
  · simp [Duty.effect, Registry.Cleared, of_decide_eq_true hdrops]
  · exact absurd hdrops (by simp)

theorem cleared_effect (hwrites : r.writtenBy c duty = false) (h : r.Cleared e) :
    r.Cleared (duty.effect hub task c e) := by
  by_cases hdrops : r.droppedBy c duty = true
  · exact cleared_of_droppedBy hdrops
  by_cases hsweep : duty.isSweep = true
  · cases duty with
    | revalidate owner =>
      cases r with
      | subscriptions =>
        have h : e.subscriptions = ∅ := h
        simp [Duty.effect, Registry.Cleared, h]
      | _ => exact h
    | _ => exact absurd hsweep (by simp [Duty.isSweep])
  · exact cleared_of_agree h (agree_effect hwrites (by simpa using hdrops) (by simpa using hsweep))

theorem agree_of_writtenBy (hwrites : r.writtenBy c duty = true) :
    r.Agree (duty.effect hub task c e) (duty.effect hub task c e') := by
  unfold Registry.writtenBy at hwrites
  split at hwrites
  · simp [Duty.effect, Registry.Agree, of_decide_eq_true hwrites]
  · simp [Duty.effect, Registry.Agree, of_decide_eq_true hwrites]
  · simp [Duty.effect, Registry.Agree, of_decide_eq_true hwrites]
  · exact absurd hwrites (by simp)

theorem effect_congr (h : r.Agree e e') :
    r.Agree (duty.effect hub task c e) (duty.effect hub task c e') := by
  by_cases hwrites : r.writtenBy c duty = true
  · exact agree_of_writtenBy hwrites
  by_cases hdrops : r.droppedBy c duty = true
  · exact agree_of_cleared (cleared_of_droppedBy hdrops) (cleared_of_droppedBy hdrops)
  by_cases hsweep : duty.isSweep = true
  · cases duty with
    | revalidate owner =>
      cases r with
      | subscriptions =>
        have h : e.subscriptions = e'.subscriptions := h
        simp [Duty.effect, Registry.Agree, h]
      | _ => exact h
    | _ => exact absurd hsweep (by simp [Duty.isSweep])
  · rw [Bool.not_eq_true] at hwrites hdrops hsweep
    exact agree_trans (agree_symm (agree_effect hwrites hdrops hsweep))
      (agree_trans h (agree_effect hwrites hdrops hsweep))

/-! ## Steps on entries -/

/-- What a step makes of the entries of a connection. -/
def enact (c : Connection) (x : Transition Hub HubOp) (e : Entries) : Entries :=
  x.event.effect x.pre c e

theorem agree_request {request : SessionRequest} {member : PublicKey}
    (h : r = .presences → ∀ presence limited, request ≠ .updatePresence presence limited) :
    r.Agree e (request.effect hub member e) := by
  unfold SessionRequest.effect
  split
  · cases r <;> rfl
  · next presence limited =>
    refine agree_ite fun _ => ?_
    cases r with
    | presences => exact absurd rfl (h rfl presence limited)
    | _ => rfl
  · exact agree_refl

theorem request_congr {request : SessionRequest} {member : PublicKey} (h : r.Agree e e') :
    r.Agree (request.effect hub member e) (request.effect hub member e') := by
  unfold SessionRequest.effect
  split
  · cases r <;> exact h
  · split_ifs
    · cases r <;> first | rfl | exact h
    · exact h
  · exact h

theorem enact_congr (h : r.Agree e e') : r.Agree (enact c x e) (enact c x e') := by
  unfold enact HubOp.effect
  split
  · cases (x.pre.duties _).head? with
    | none => exact h
    | some duty => exact effect_congr h
  · split
    · split_ifs
      · exact request_congr h
      · exact h
    · exact h
  · exact h

theorem enact_drops (h : r.drops c x = true) : r.Cleared (enact c x e) := by
  unfold Registry.drops at h
  split at h
  · next task hevent =>
    obtain ⟨duty, hduty, hdrops⟩ := any_eq_some.mp h
    simp only [enact, HubOp.effect, hevent, hduty, Option.map_some, Option.getD_some]
    exact cleared_of_droppedBy hdrops
  · exact absurd h (by simp)

theorem agree_asked {moment : Moment} {request : SessionRequest}
    (hevent : x.event = .request task moment request) (hwrites : r.writes c x = false) :
    r.Agree e (enact c x e) := by
  simp only [enact, HubOp.effect, hevent]
  split
  · next asker hasker =>
    refine agree_ite fun hmember => agree_request ?_
    rintro rfl presence limited rfl
    simp [Registry.writes, hevent, Hub.memberOf, hasker, hmember] at hwrites
  · exact agree_refl

theorem enact_cleared (hwrites : r.writes c x = false) (h : r.Cleared e) :
    r.Cleared (enact c x e) := by
  cases hevent : x.event with
  | act task =>
    simp only [enact, HubOp.effect, hevent]
    simp only [Registry.writes, hevent] at hwrites
    cases hduty : (x.pre.duties task).head? with
    | none => exact h
    | some duty =>
      rw [hduty, Option.any_some] at hwrites
      exact cleared_effect hwrites h
  | request => exact cleared_of_agree h (agree_asked hevent hwrites)
  | _ => simpa only [enact, HubOp.effect, hevent] using h

/-- The steps of a task that are not sweeps. -/
def own (task : ℕ) (x : Transition Hub HubOp) : Bool :=
  match x.event with
  | .request asker _ _ => asker = task
  | .act actor => actor = task ∧ ¬(x.pre.duties actor).head?.any Duty.isSweep
  | _ => false

theorem enact_own (hown : own task x = true) (hwrites : r.writes c x = false)
    (hdrops : r.drops c x = false) : r.Agree e (enact c x e) := by
  unfold own at hown
  split at hown
  · next hevent => exact agree_asked hevent hwrites
  · next actor hevent =>
    simp only [enact, HubOp.effect, hevent]
    simp only [Registry.writes, Registry.drops, hevent] at hwrites hdrops
    cases hduty : (x.pre.duties actor).head? with
    | none => exact agree_refl
    | some duty =>
      simp only [hduty, Option.any_some, decide_eq_true_eq, Bool.not_eq_true] at *
      exact agree_effect hwrites hdrops hown.2
  · exact absurd hown (by simp)

/-! ## The entry of the client, and its version -/

theorem duty_slot_congr (hclient : e.client = e'.client) :
    (duty.effect hub task c e).client = (duty.effect hub task c e').client ∧
      (e.version = e'.version →
        (duty.effect hub task c e).version = (duty.effect hub task c e').version) := by
  cases duty with
  | register =>
    simp only [Duty.effect]
    split_ifs
    · exact ⟨rfl, id⟩
    · exact ⟨hclient, id⟩
  | dropClient =>
    simp only [Duty.effect, hclient]
    split_ifs
    · exact ⟨rfl, fun _ => rfl⟩
    · exact ⟨hclient, id⟩
  | bindVoice | bindHandle | insertSubscriptions | dropVoice | dropHandle | dropSubscriptions
  | dropPresence =>
    simp only [Duty.effect]
    split_ifs <;> exact ⟨hclient, id⟩
  | _ => exact ⟨hclient, id⟩

theorem request_slot {request : SessionRequest} {member : PublicKey} :
    (request.effect hub member e).client = e.client ∧
      ((∀ clientVersion, request ≠ .server (.negotiateProtocol clientVersion)) →
        (request.effect hub member e).version = e.version) := by
  unfold SessionRequest.effect
  split
  · next clientVersion => exact ⟨rfl, fun h => absurd rfl (h clientVersion)⟩
  · split_ifs <;> exact ⟨rfl, fun _ => rfl⟩
  · exact ⟨rfl, fun _ => rfl⟩

theorem slot_congr (hclient : e.client = e'.client) :
    (enact c x e).client = (enact c x e').client ∧
      (e.version = e'.version → (enact c x e).version = (enact c x e').version) := by
  unfold enact HubOp.effect
  split
  · cases (x.pre.duties _).head? with
    | none => exact ⟨hclient, id⟩
    | some duty => exact duty_slot_congr hclient
  · split
    · split_ifs
      · refine ⟨request_slot.1.trans (hclient.trans request_slot.1.symm), fun hversion => ?_⟩
        unfold SessionRequest.effect
        split
        · rfl
        · split_ifs <;> exact hversion
        · exact hversion
      · exact ⟨hclient, id⟩
    · exact ⟨hclient, id⟩
  · exact ⟨hclient, id⟩

/-- Does a connection negotiate a version, whichever? -/
def speaks (task : ℕ) (x : Transition Hub HubOp) : Bool :=
  match x.event with
  | .request asker _ (.server (.negotiateProtocol _)) => asker = task
  | _ => false

def dropsClient (task : ℕ) (c : Connection) (x : Transition Hub HubOp) : Bool :=
  match x.event with
  | .act actor => actor = task ∧ (x.pre.duties task).head? = some (.dropClient c.member)
  | _ => false

theorem own_slot (hown : own task x = true) (hnone : x.pre.registrations task = [])
    (hdrops : dropsClient task c x = false ∨ e.client ≠ some task) :
    (enact c x e).client = e.client ∧
      (speaks task x = false → (enact c x e).version = e.version) := by
  unfold own at hown
  split at hown
  · next asker moment request hevent =>
    simp only [enact, HubOp.effect, hevent, speaks]
    obtain rfl := of_decide_eq_true hown
    split
    · split_ifs
      · refine ⟨request_slot.1, fun hspeaks => request_slot.2 ?_⟩
        rintro clientVersion rfl
        exact absurd hspeaks (by simp)
      · exact ⟨rfl, fun _ => rfl⟩
    · exact ⟨rfl, fun _ => rfl⟩
  · next actor hevent =>
    simp only [decide_eq_true_eq] at hown
    obtain ⟨rfl, -⟩ := hown
    simp only [enact, HubOp.effect, hevent]
    cases hhead : (x.pre.duties actor).head? with
    | none => exact ⟨rfl, fun _ => rfl⟩
    | some duty =>
      simp only [Option.map_some, Option.getD_some]
      cases duty with
      | register member =>
        obtain ⟨rest, hduties⟩ := List.head?_eq_some_iff.mp hhead
        simp [Hub.registrations, hduties, Duty.isRegister] at hnone
      | dropClient member =>
        simp only [Duty.effect]
        split_ifs with hclient
        · obtain ⟨rfl, hclient⟩ := hclient
          rcases hdrops with hdrops | hother
          · simp [dropsClient, hevent, hhead] at hdrops
          · exact absurd hclient hother
        · exact ⟨rfl, fun _ => rfl⟩
      | bindVoice | bindHandle | insertSubscriptions | dropVoice | dropHandle
      | dropSubscriptions | dropPresence =>
        simp only [Duty.effect]
        split_ifs <;> exact ⟨rfl, fun _ => rfl⟩
      | _ => exact ⟨rfl, fun _ => rfl⟩
  · exact absurd hown (by simp)

theorem version_none_of_drops (hdrops : dropsClient task c x = true)
    (h : e.version = none) : (enact c x e).version = none := by
  unfold dropsClient at hdrops
  split at hdrops
  · next actor hevent =>
    simp only [decide_eq_true_eq] at hdrops
    obtain ⟨rfl, hhead⟩ := hdrops
    simp only [enact, HubOp.effect, hevent, hhead, Option.map_some, Option.getD_some, Duty.effect]
    split_ifs
    · rfl
    · exact h
  · exact absurd hdrops (by simp)

theorem enact_speaks (h : speaks task x = true) (hmember : x.pre.memberOf task = some c.member) :
    ∃ clientVersion, ∀ e, (enact c x e).version = some clientVersion := by
  unfold speaks at h
  split at h
  · next asker moment clientVersion hevent =>
    obtain rfl := of_decide_eq_true h
    refine ⟨clientVersion, fun e => ?_⟩
    obtain ⟨asker', hc, hmember⟩ := Option.map_eq_some_iff.mp hmember
    simp only [enact, HubOp.effect, hevent, hc, hmember, if_true, SessionRequest.effect]
  · exact absurd h (by simp)

theorem own_of_speaks (hne : newer ≠ task) (h : speaks newer x = true) : own task x = false := by
  unfold speaks at h
  split at h
  · next asker moment clientVersion hevent =>
    obtain rfl := of_decide_eq_true h
    simp [own, hevent, hne]
  · exact absurd h (by simp)

def Duty.handleOf : Duty → Option ℕ
  | .bindHandle handle _ => some handle
  | .dropHandle handle => some handle
  | _ => none

theorem enter_handles {member : PublicKey} {name : String} {handle : Option ℕ} {n : ℕ}
    (hduty : duty ∈ enter task member name handle) (hn : duty.handleOf = some n) :
    handle = some n := by
  unfold enter at hduty
  split at hduty <;> simp only [cleanupSession, List.mem_append, List.mem_cons,
    List.not_mem_nil, or_false] at hduty
  · rcases hduty with (rfl | rfl | rfl | rfl) | rfl <;> simp [Duty.handleOf] at hn
  · rcases hduty with (rfl | rfl | rfl | rfl) | (rfl | rfl | rfl | rfl | rfl | rfl) | rfl <;>
      simp [Duty.handleOf] at hn
  · rcases hduty with (rfl | rfl | rfl | rfl) | rfl | rfl
    all_goals first | exact hn | exact absurd hn (by simp [Duty.handleOf])

theorem teardown_handles {n : ℕ} (hduty : duty ∈ c.teardown) (hn : duty.handleOf = some n) :
    c.handle = some n := by
  simp only [Connection.teardown, cleanupSession, List.mem_cons, List.mem_append, List.mem_map,
    Option.mem_toList, List.not_mem_nil, or_false] at hduty
  rcases hduty with rfl | ⟨_, hmem, rfl⟩ | rfl | rfl | rfl | rfl | rfl | rfl
  case inr.inl => exact hmem.trans hn
  all_goals exact absurd hn (by simp [Duty.handleOf])

theorem answers_handles {pk : PublicKey} {n : ℕ} (h : duty.answers pk)
    (hn : duty.handleOf = some n) : False := by
  cases duty <;> first | exact h.elim | exact absurd hn (by simp [Duty.handleOf])

def Hub.OwnHandles (hub : Hub) : Prop :=
  ∀ task, ∀ duty ∈ hub.duties task, ∀ n, duty.handleOf = some n →
    ∃ member, hub.seatOf task = some (member, some n)

theorem ownHandles_step (h : hub.OwnHandles) (hstep : HubStep K hub op hub') :
    hub'.OwnHandles := by
  intro task duty hduty n hn
  have htask : TaskStep K hub task op _ _ := task_step hstep
  have hkept := fun seat => @seat_step _ _ _ task _ hstep seat
  have h := h task
  unfold Hub.seatOf at *
  generalize hub'.connections task = c' at *
  generalize hub'.duties task = duties' at *
  cases htask with
  | connect => exact ⟨_, by rw [enter_handles hduty hn]; rfl⟩
  | request => exact (answers_handles (handle_answers duty hduty) hn).elim
  | @act first rest hduties =>
    rcases List.mem_append.mp hduty with hduty | hduty
    · obtain ⟨b, -, rfl | ⟨owner, rfl⟩⟩ := carryOut_added hduty <;>
        exact absurd hn (by simp [Duty.handleOf])
    · obtain ⟨member, hmember⟩ := h duty (hduties ▸ List.mem_cons_of_mem _ hduty) n hn
      exact ⟨member, hkept _ hmember⟩
  | continueCommand hduties =>
    rcases List.mem_append.mp hduty with hduty | hduty
    · have hanswers : duty.answers ⟨0⟩ := afterCommand_answers duty hduty
      exact (answers_handles hanswers hn).elim
    · obtain ⟨member, hmember⟩ := h duty (hduties ▸ List.mem_cons_of_mem _ hduty) n hn
      exact ⟨member, hkept _ hmember⟩
  | @fail c => exact ⟨c.member, by rw [← teardown_handles hduty hn]; rfl⟩
  | background => exact absurd hn (by simp [List.mem_singleton.mp hduty, Duty.handleOf])
  | idle => exact h duty hduty n hn

theorem ownHandles_of_run (hrun : HubRun K (.start host) tr hub) : hub.OwnHandles :=
  hrun.invariant (I := Hub.OwnHandles) (fun _ _ h => absurd h List.not_mem_nil)
    fun _ _ _ h hstep => ownHandles_step h hstep

end Server
