import Farder.Client.Desk
import Farder.LogStep
import Farder.Server.ReadRequests
import Farder.Support.Paging

/-! # The server behind the transport

A server that folds what it takes and serves it, to a client among others. Requests and answers
may be lost, and others submit events of their own in between. -/
namespace Client

open EventLog Effects Guarded

/-- What becomes of a submitted event, and of the answer. -/
inductive Fate where
  | dropped
  /-- It is refused before it is judged, by a limit on requests. -/
  | refused (reason : String)
  | unheard
  | heard
  deriving DecidableEq, Repr

def Fate.arrives : Fate → Bool
  | .unheard => true
  | .heard => true
  | _ => false

/-- What happens up to a submission: what others submit, the time that it is then, and the fate of
the submission. -/
structure Happening where
  others : List Event
  now : ℕ
  fate : Fate

structure Submission where
  event : Event
  log : LogState
  now : ℕ
  fate : Fate

/-- `happenings`, `reads` and `writes` are still to come; once they have run out nothing else happens
and everything succeeds. -/
structure Wire where
  log : LogState
  taken : List (Transition LogState Event)
  now : ℕ
  submitted : List Submission
  happenings : List Happening
  reads : List Bool
  writes : List Bool

def Wire.start (K : Crypto) (g : Genesis) : Wire :=
  ⟨LogState.fromGenesis K g, [], 0, [], [], [], []⟩

section Server

variable (K : Crypto)

/-- What the server makes of an event: the caps, the bounce of a stale claim, the fold. -/
def judge (log : LogState) (now : ℕ) (e : Event) : Checked LogState := do
  prefixed "event rejected: " (Server.checkIngestCapsAt e now)
  Server.checkEpochClaim log e.core.payload
  prefixed "event rejected: " (log.apply K e)

/-- The server takes what arrives and passes. -/
def Submission.taken (x : Submission) : Bool :=
  x.fate.arrives && (judge K x.log x.now x.event).isOk

def answerOf (e : Event) (now : ℕ) (judged : Checked LogState) :
    Except TransportError EventAccepted :=
  match judged with
  | .ok _ => .ok ⟨e.hash K, now⟩
  | .error (.rejected reason) => .error (.serverRejected reason)
  | .error (.panicked _) => .error (.transport "connection closed")

def keyPackagesOf (member : Leaf) (events : List Event) : List Event :=
  (events.filter fun e =>
    match e.core.payload with
    | .mlsKeyPackagePublished _ => decide (e.leaf = member)
    | _ => false).take Server.maxFetchEvents

def devicesAuthorizedBy (identity : PublicKey) (events : List Event) : List DeviceId :=
  events.filterMap fun e =>
    match e.core.payload with
    | .deviceAuthorized _ => if e.core.author = identity then some e.core.device else none
    | _ => none

/-- An identity's own authorizations, and the revocations of its devices by anyone. -/
def deviceCertsOf (identity : PublicKey) (events : List Event) : List Event :=
  (events.filter fun e =>
    match e.core.payload with
    | .deviceAuthorized _ => decide (e.core.author = identity)
    | .deviceRevoked device => decide (device ∈ devicesAuthorizedBy identity events)
    | _ => false).take Server.maxFetchEvents

def isControl (e : Event) : Bool := (Server.controlChannel e.core.payload).isSome

/-- A page of a channel's control events. Of all channels' so many are looked at, and the cursor
goes past those. -/
def controlPage (channelId since : ℕ) (events : List Event) : MlsControl :=
  let found := Paging.after isControl since events
  let scanned := found.take Server.maxFetchEvents
  let page := scanned.filter fun x => Server.controlChannel x.1.core.payload = some channelId
  ⟨page.map fun x => some x.1, Paging.nextCursor since scanned,
    Server.maxFetchEvents < found.length⟩

end Server

namespace Wire

variable (K : Crypto) (w : Wire)

def events : List Event := w.taken.map Transition.event

def take (e : Event) : Wire :=
  match judge K w.log w.now e with
  | .ok log => { w with log, taken := w.taken ++ [⟨w.log, e, log⟩] }
  | .error _ => w

def happening : Happening := w.happenings.headD ⟨[], w.now, .heard⟩

/-- The server when the next submission reaches it. -/
def meanwhile : Wire :=
  w.happening.others.foldl (take K)
    { w with now := w.happening.now, happenings := w.happenings.tail }

def meets (e : Event) : Submission := ⟨e, (w.meanwhile K).log, w.happening.now, w.happening.fate⟩

def recorded (e : Event) : Wire :=
  { w.meanwhile K with submitted := w.submitted ++ [w.meets K e] }

def submit (e : Event) : Except TransportError EventAccepted × Wire :=
  let w' := w.recorded K e
  match w.happening.fate with
  | .dropped => (.error (.transport "connection lost"), w')
  | .refused reason => (.error (.serverRejected reason), w')
  | .unheard => (.error (.transport "connection lost"), w'.take K e)
  | .heard => (answerOf K e w.happening.now (judge K w'.log w.happening.now e), w'.take K e)

/-- A request for something that the server serves from its log. -/
def read {α : Type} (serve : List Event → α) : Except TransportError α × Wire :=
  let answer := if w.reads.headD true then .ok (serve w.events)
    else .error (.transport "connection lost")
  (answer, { w with reads := w.reads.tail })

end Wire

def wire (K : Crypto) : Transport Wire where
  now := Wire.now
  submitEvent e w := w.submit K e
  fetchMlsControl channelId since w := w.read (controlPage channelId since)
  fetchKeyPackages member w := w.read fun events => (keyPackagesOf member events).map some
  fetchDeviceCerts identity w := w.read fun events => (deviceCertsOf identity events).map some

/-- The disk of the device, with its own luck. -/
def Wire.write (w : Wire) : Bool × Wire := (w.writes.headD true, { w with writes := w.writes.tail })

/-! ## What a transport keeps -/

section Keeps

variable {σ : Type} {M : OpenMls} {K : Crypto} {actor : Actor}

/-- Whatever is requested, `P` stays true of the other side. -/
structure Transport.Keeps (T : Transport σ) (P : σ → Prop) : Prop where
  submitEvent : ∀ e w, P w → P (T.submitEvent e w).2
  fetchMlsControl : ∀ channelId since w, P w → P (T.fetchMlsControl channelId since w).2
  fetchKeyPackages : ∀ member w, P w → P (T.fetchKeyPackages member w).2
  fetchDeviceCerts : ∀ identity w, P w → P (T.fetchDeviceCerts identity w).2

/-- `P` of the other side of a session. -/
def Over (P : σ → Prop) (s : Session M σ) : Prop := P s.world

variable {T : Transport σ} {P : σ → Prop}

theorem onGroup_over {α : Type} {op : MlsChannelGroup M → Except String α × MlsChannelGroup M}
    {failed : String} : Keeps (Over P) (onGroup (σ := σ) op failed) := fun _ hs => hs

theorem nextEvent_over {serverId : ServerId} {payload : MlsChannelGroup M → EventPayload} :
    Keeps (Over P) (nextEvent K T actor serverId payload) := fun _ hs => hs

theorem authzHead_over {missing : String} : Keeps (Over (M := M) P) (authzHead missing) :=
  Keeps.get.bind fun _ => Keeps.ofOption _ _

theorem submit_over {e : Event} (hT : T.Keeps P) : Keeps (Over (M := M) P) (submit T e) :=
  fun s hs => hT.submitEvent e s.world hs

theorem submitNext_over {e : Event} (hT : T.Keeps P) :
    Keeps (Over (M := M) P) (submitNext K T e) := by
  refine (submit_over hT).bind fun answer => ?_
  rcases answer with err | accepted
  · exact Keeps.fail _
  · exact Keeps.bind (fun _ hs => hs) fun _ => Keeps.pure _

theorem submitCommit_over {rateLimited : Bool} {e : Event} (hT : T.Keeps P) :
    Keeps (Over (M := M) P) (submitCommit K T rateLimited e) := by
  refine (submit_over hT).bind fun answer => ?_
  rcases answer with err | accepted
  · exact Keeps.get.bind fun _ => Keeps.fail _
  · exact Keeps.bind (fun _ hs => hs) fun _ => Keeps.pure _

theorem fetchKeyPackages_over {member : Leaf} (hT : T.Keeps P) :
    Keeps (Over (M := M) P) (fetchKeyPackages T member) :=
  fun s hs => hT.fetchKeyPackages member s.world hs

theorem addMember_over {ctx : CommitContext} {member : Leaf} (hT : T.Keeps P) :
    Keeps (Over (M := M) P) (addMember K T actor ctx member) := by
  refine (fetchKeyPackages_over hT).bind fun _ => (Keeps.ofExcept _).bind fun _ =>
    onGroup_over.bind fun _ => (Keeps.ofOption _ _).bind fun _ => Keeps.get.bind fun _ => ?_
  refine authzHead_over.bind fun _ => nextEvent_over.bind fun _ =>
    (submitCommit_over hT).bind fun _ => ?_
  exact (nextEvent_over.bind fun _ => submitNext_over hT).bind fun _ =>
    Keeps.get.bind fun _ => Keeps.pure _

theorem resolveDeviceCert_over {identity : PublicKey} {device : DeviceId}
    (hfetch : ∀ identity w, P w → P (T.fetchDeviceCerts identity w).2) :
    Keeps (Over (M := M) P) (resolveDeviceCert K T identity device) := by
  have hfetch : Keeps (Over (M := M) P) (fetchDeviceCerts T identity) :=
    fun s hs => hfetch identity s.world hs
  exact hfetch.bind fun _ => (Keeps.ofExcept _).bind fun _ =>
    Keeps.get.bind fun _ => Keeps.pure _

theorem buildCertResolver_over (hfetch : ∀ identity w, P w → P (T.fetchDeviceCerts identity w).2)
    (members : List Leaf) : Keeps (Over (M := M) P) (buildCertResolver K T members) := by
  induction members with
  | nil => exact Keeps.pure _
  | cons member rest ih =>
    exact (resolveDeviceCert_over hfetch).bind fun _ => ih.bind fun _ => Keeps.pure _

end Keeps

/-! ## The log of the server -/

variable {K : Crypto} {w : Wire} {g : Genesis} {e : Event}

def Wire.Folds (K : Crypto) (g : Genesis) (w : Wire) : Prop := LogState.Run K g w.taken w.log

theorem judge_eq_ok {log log' : LogState} {now : ℕ} : judge K log now e = .ok log' ↔
    Server.checkIngestCapsAt e now = .ok () ∧ Server.checkEpochClaim log e.core.payload = .ok () ∧
      log.apply K e = .ok log' := by
  simp only [judge, bind_eq_ok, prefixed_eq_ok]
  constructor
  · rintro ⟨⟨⟩, hcaps, ⟨⟩, hclaim, happly⟩
    exact ⟨hcaps, hclaim, happly⟩
  · rintro ⟨hcaps, hclaim, happly⟩
    exact ⟨(), hcaps, (), hclaim, happly⟩

namespace Wire

theorem take_of_ok {log : LogState} (h : judge K w.log w.now e = .ok log) :
    w.take K e = { w with log, taken := w.taken ++ [⟨w.log, e, log⟩] } := by
  rw [take, h]

theorem take_of_error {err : Failure} (h : judge K w.log w.now e = .error err) :
    w.take K e = w := by
  rw [take, h]

theorem take_grows : w.taken <+: (w.take K e).taken := by
  rcases hjudged : judge K w.log w.now e with err | log
  · rw [take_of_error hjudged]
  · rw [take_of_ok hjudged]
    exact List.prefix_append _ _

theorem take_submitted : (w.take K e).submitted = w.submitted := by
  unfold take
  split <;> rfl

theorem foldl_take {P : Wire → Prop} (hP : ∀ w e, P w → P (w.take K e)) (events : List Event)
    (h : P w) : P (events.foldl (take K) w) := by
  induction events generalizing w with
  | nil => exact h
  | cons e events ih => exact ih (hP w e h)

theorem meanwhile_grows : w.taken <+: (w.meanwhile K).taken :=
  foldl_take (P := fun w' => w.taken <+: w'.taken) (fun _ _ h => h.trans take_grows)
    w.happening.others (List.prefix_refl _)

theorem meanwhile_now : (w.meanwhile K).now = w.happening.now :=
  foldl_take (P := fun w' => w'.now = w.happening.now) (fun w e h => by
    unfold take
    split <;> exact h) w.happening.others rfl

theorem submit_world : (w.submit K e).2 =
    if w.happening.fate.arrives then (w.recorded K e).take K e else w.recorded K e := by
  unfold submit
  cases w.happening.fate <;> rfl

theorem submit_submitted : (w.submit K e).2.submitted = w.submitted ++ [w.meets K e] := by
  rw [submit_world]
  split_ifs
  · exact take_submitted
  · rfl

theorem submit_grows : w.taken <+: (w.submit K e).2.taken := by
  rw [submit_world]
  split_ifs
  · exact meanwhile_grows.trans (take_grows (w := w.recorded K e))
  · exact meanwhile_grows

theorem submit_taken (h : (w.meets K e).taken K = true) : e ∈ (w.submit K e).2.events := by
  simp only [Submission.taken, meets, Bool.and_eq_true] at h
  obtain ⟨harrives, hjudged⟩ := h
  rw [submit_world, if_pos harrives]
  rcases hlog : judge K (w.meanwhile K).log w.happening.now e with err | log
  · simp [hlog, Except.isOk, Except.toBool] at hjudged
  · rw [take_of_ok (by simpa only [recorded, meanwhile_now] using hlog)]
    simp [events]

/-- A submission whose acceptance is heard has been taken, and the answer names its event. -/
theorem submit_ok {accepted : EventAccepted} (h : (w.submit K e).1 = .ok accepted) :
    accepted.eventHash = e.hash K ∧ (w.meets K e).taken K = true ∧
      (w.meets K e).fate = .heard := by
  unfold submit at h
  simp only [Submission.taken, meets]
  cases hfate : w.happening.fate with
  | heard =>
    simp only [hfate, recorded] at h
    rcases hjudged : judge K (w.meanwhile K).log w.happening.now e with (_ | _) | log
    · simp [hjudged, answerOf] at h
    · simp [hjudged, answerOf] at h
    · simp only [hjudged, answerOf, Except.ok.injEq] at h
      simp [← h, Fate.arrives, Except.isOk, Except.toBool]
  | _ => simp [hfate] at h

theorem submit_error {err : TransportError} (h : (w.submit K e).1 = .error err) :
    ¬((w.meets K e).taken K = true ∧ (w.meets K e).fate = .heard) := by
  rintro ⟨htaken, hfate⟩
  simp only [Submission.taken, meets, Bool.and_eq_true] at htaken hfate
  simp only [submit, hfate, recorded] at h
  rcases hjudged : judge K (w.meanwhile K).log w.happening.now e with err' | log
  · simp [hjudged, Except.isOk, Except.toBool] at htaken
  · simp [hjudged, answerOf] at h

/-- If nothing else happens, an event that passes is taken at once, and the answer is heard. -/
theorem submit_calm {log : LogState} (hcalm : w.happenings = [])
    (hjudged : judge K w.log w.now e = .ok log) :
    (w.submit K e).1 = .ok ⟨e.hash K, w.now⟩ ∧ (w.submit K e).2.log = log ∧
      (w.submit K e).2.writes = w.writes := by
  have hhappening : w.happening = ⟨[], w.now, .heard⟩ := by rw [happening, hcalm]; rfl
  have hrecorded : (w.recorded K e).log = w.log ∧ (w.recorded K e).now = w.now ∧
      (w.recorded K e).writes = w.writes := by
    simp [recorded, meanwhile, hhappening]
  have hjudged' : judge K (w.recorded K e).log (w.recorded K e).now e = .ok log := by
    rw [hrecorded.1, hrecorded.2.1]
    exact hjudged
  simp only [submit, hhappening, take_of_ok hjudged', hrecorded.1, hjudged, answerOf]
  exact ⟨trivial, trivial, hrecorded.2.2⟩

theorem keeps_wire {P : Wire → Prop} (hsubmit : ∀ e w, P w → P (w.submit K e).2)
    (hread : ∀ w reads, P w → P { w with reads }) : (wire K).Keeps P where
  submitEvent := hsubmit
  fetchMlsControl _ _ w h := hread w w.reads.tail h
  fetchKeyPackages _ w h := hread w w.reads.tail h
  fetchDeviceCerts _ w h := hread w w.reads.tail h

theorem keeps_taken (taken : List (Transition LogState Event)) :
    (wire K).Keeps fun w => taken <+: w.taken :=
  keeps_wire (fun _ _ h => h.trans submit_grows) fun _ _ h => h

/-- What is submitted and taken is in the log. -/
def Logged (K : Crypto) (w : Wire) : Prop :=
  ∀ x ∈ w.submitted, x.taken K = true → x.event ∈ w.events

theorem submit_logged (h : w.Logged K) : (w.submit K e).2.Logged K := by
  intro x hx htaken
  rw [submit_submitted, List.mem_append, List.mem_singleton] at hx
  rcases hx with hx | rfl
  · exact (submit_grows.map Transition.event).subset (h x hx htaken)
  · exact submit_taken htaken

theorem keeps_logged : (wire K).Keeps (Logged K) :=
  keeps_wire (fun _ _ => submit_logged) fun _ _ h => h

end Wire
end Client
