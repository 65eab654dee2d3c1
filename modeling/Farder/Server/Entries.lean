import Farder.Server.HubWiring
import Farder.Server.Versions

/-! # What a connection has in the shared maps

Six maps are keyed by the identity of a connection, or by its handle. Each step writes them in
its own way, whatever they hold. -/
namespace Server

open EventLog Guarded Permissions

/-- What the maps hold under the identity of a connection, and under its handle. -/
@[ext] structure Entries where
  client : Option ℕ
  version : Option ℕ
  subscriptions : Finset (ℕ × PublicKey)
  presence : Option Presence
  voice : Option VoiceSink
  handle : Option PublicKey
  deriving DecidableEq

def Hub.entriesOf (hub : Hub) (c : Connection) : Entries where
  client := hub.clients.lookup c.member
  version := hub.host.clientProtocol.lookup c.member
  subscriptions := hub.subscriptions.filter fun x => x.2 = c.member
  presence := hub.presences.lookup c.member
  voice := hub.voiceConnections.lookup c.member
  handle := c.handle.bind hub.relayVoiceHandles.lookup

/-- What a duty of a task makes of the entries of a connection. -/
def Duty.effect (hub : Hub) (task : ℕ) (c : Connection) (e : Entries) : Duty → Entries
  | .register member => if c.member = member then { e with client := some task } else e
  | .bindVoice member sink => if c.member = member then { e with voice := some sink } else e
  | .bindHandle handle member =>
    if c.handle = some handle then { e with handle := some member } else e
  | .revalidate owner =>
    { e with subscriptions := e.subscriptions.filter fun x =>
        hub.visible x.2 (owner = some x.2) x.1 }
  | .insertSubscriptions member channelIds =>
    if c.member = member then
      { e with subscriptions := (channelIds.map fun id => (id, member)).toFinset }
    else e
  | .dropVoice member => if c.member = member then { e with voice := none } else e
  | .dropHandle handle => if c.handle = some handle then { e with handle := none } else e
  | .dropClient member =>
    if c.member = member ∧ e.client = some task then { e with client := none, version := none }
    else e
  | .dropSubscriptions member =>
    if c.member = member then { e with subscriptions := ∅ } else e
  | .dropPresence member => if c.member = member then { e with presence := none } else e
  | _ => e

def Hub.acceptsPresence (hub : Hub) (member : PublicKey) (presence : Option Presence)
    (limited : Bool) : Bool :=
  hub.host.contentBlockReason member = none ∧ ¬(limited ∨ presence.any Hub.presenceTooLong)

def SessionRequest.effect (hub : Hub) (member : PublicKey) (e : Entries) :
    SessionRequest → Entries
  | .server (.negotiateProtocol clientVersion) => { e with version := some clientVersion }
  | .updatePresence presence limited =>
    if hub.acceptsPresence member presence limited then { e with presence } else e
  | _ => e

def HubOp.effect (hub : Hub) (c : Connection) (e : Entries) : HubOp → Entries
  | .act task => ((hub.duties task).head?.map (Duty.effect hub task c e)).getD e
  | .request task _ asked =>
    match hub.connections task with
    | some asker => if c.member = asker.member then asked.effect hub c.member e else e
    | none => e
  | _ => e

variable {K : Crypto} {hub hub' : Hub} {task : ℕ} {member : PublicKey} {isOwner : Bool}
  {moment : Moment} {op : HubOp} {c : Connection}

theorem subscriptions_insert {s : Finset (ℕ × PublicKey)} {pk : PublicKey}
    {channelIds : List ℕ} :
    ((s.filter fun x => x.2 ≠ member) ∪ (channelIds.map fun id => (id, member)).toFinset).filter
        (fun x => x.2 = pk) =
      if pk = member then (channelIds.map fun id => (id, member)).toFinset
      else s.filter fun x => x.2 = pk := by
  ext ⟨id, other⟩
  split_ifs with hpk
  · subst hpk
    simp only [Finset.mem_filter, Finset.mem_union, List.mem_toFinset, List.mem_map,
      Prod.mk.injEq]
    constructor
    · rintro ⟨⟨-, hne⟩ | hmem, heq⟩
      · exact absurd heq hne
      · exact hmem
    · rintro ⟨id', hid', rfl, rfl⟩
      exact ⟨.inr ⟨_, hid', rfl, rfl⟩, rfl⟩
  · simp only [Finset.mem_filter, Finset.mem_union, List.mem_toFinset, List.mem_map,
      Prod.mk.injEq]
    constructor
    · rintro ⟨⟨hmem, -⟩ | ⟨_, -, -, rfl⟩, rfl⟩
      · exact ⟨hmem, rfl⟩
      · exact absurd rfl hpk
    · rintro ⟨hmem, rfl⟩
      exact ⟨.inl ⟨hmem, hpk⟩, rfl⟩

theorem subscriptions_drop {s : Finset (ℕ × PublicKey)} {pk : PublicKey} :
    (s.filter fun x => x.2 ≠ member).filter (fun x => x.2 = pk) =
      if pk = member then ∅ else s.filter fun x => x.2 = pk := by
  simpa using @subscriptions_insert member s pk []

theorem carryOut_effect {duty : Duty} : (hub.carryOut task duty).1.entriesOf c =
    duty.effect hub task c (hub.entriesOf c) := by
  cases duty with
  | register member =>
    simp only [Hub.carryOut, Duty.effect, Hub.entriesOf, FiniteMap.lookup_insert_eq]
    split_ifs <;> rfl
  | bindVoice member sink =>
    simp only [Hub.carryOut, Duty.effect, Hub.entriesOf, FiniteMap.lookup_insert_eq]
    split_ifs <;> rfl
  | bindHandle handle member =>
    simp only [Hub.carryOut, Duty.effect, Hub.entriesOf]
    cases hhandle : c.handle with
    | none => simp
    | some other =>
      simp only [Option.bind_some, FiniteMap.lookup_insert_eq, Option.some.injEq]
      split_ifs <;> rfl
  | revalidate owner =>
    simp only [Hub.carryOut, Duty.effect, Hub.entriesOf, Hub.revalidate, Finset.filter_filter,
      and_comm]
  | insertSubscriptions member channelIds =>
    simp only [Hub.carryOut, Duty.effect, Hub.entriesOf, subscriptions_insert]
    split_ifs <;> rfl
  | dropVoice member =>
    simp only [Hub.carryOut, Duty.effect, Hub.entriesOf, FiniteMap.lookup_erase_eq]
    split_ifs <;> rfl
  | dropHandle handle =>
    simp only [Hub.carryOut, Duty.effect, Hub.entriesOf]
    cases hhandle : c.handle with
    | none => simp
    | some other =>
      simp only [Option.bind_some, FiniteMap.lookup_erase_eq, Option.some.injEq]
      split_ifs <;> rfl
  | dropClient member =>
    simp only [Hub.carryOut, Duty.effect, Hub.entriesOf, Hub.dropClient]
    by_cases hmember : c.member = member
    · subst hmember
      simp only [true_and]
      split_ifs
      · simp only [FiniteMap.lookup_erase_eq, if_true]
      · rfl
    · simp only [hmember, false_and, if_false]
      split_ifs
      · simp only [FiniteMap.lookup_erase_eq, if_neg hmember]
      · rfl
  | dropSubscriptions member =>
    simp only [Hub.carryOut, Duty.effect, Hub.entriesOf, subscriptions_drop]
    split_ifs <;> rfl
  | dropPresence member =>
    simp only [Hub.carryOut, Duty.effect, Hub.entriesOf, FiniteMap.lookup_erase_eq]
    split_ifs <;> rfl
  | _ => rfl

theorem entriesOf_congr {host : Host} (h : hub.host.KeepsProtocol host) :
    Hub.entriesOf { hub with host } c = hub.entriesOf c := by
  unfold Hub.entriesOf
  rw [h]

theorem setPresence_entries {presence : Option Presence} :
    (hub.setPresence member presence).entriesOf c =
      if c.member = member then { hub.entriesOf c with presence } else hub.entriesOf c := by
  cases presence with
  | some presence =>
    simp only [Hub.setPresence, Hub.entriesOf, FiniteMap.lookup_insert_eq]
    split_ifs <;> rfl
  | none =>
    simp only [Hub.setPresence, Hub.entriesOf, FiniteMap.lookup_erase_eq]
    split_ifs <;> rfl

theorem handle_effect {request : SessionRequest} :
    (hub.handle K member isOwner moment request).1.entriesOf c =
      if c.member = member then request.effect hub c.member (hub.entriesOf c)
      else hub.entriesOf c := by
  cases request with
  | server request =>
    by_cases hnegotiates : ∃ clientVersion, request = .negotiateProtocol clientVersion
    · obtain ⟨clientVersion, rfl⟩ := hnegotiates
      have hversion : (hub.host.negotiateProtocol member clientVersion).1.clientProtocol.lookup
          c.member = if c.member = member then some clientVersion
            else hub.host.clientProtocol.lookup c.member := FiniteMap.lookup_insert_eq ..
      have hentries : (hub.handle K member isOwner moment
          (.server (.negotiateProtocol clientVersion))).1.entriesOf c =
            { hub.entriesOf c with
              version := (hub.host.negotiateProtocol member clientVersion).1.clientProtocol.lookup
                c.member } := rfl
      rw [hentries, hversion]
      split_ifs <;> rfl
    · have hkept : hub.host.KeepsProtocol
          (hub.host.perform K moment (.request member isOwner request)).1 :=
        perform_protocol fun _ _ clientVersion heq =>
          hnegotiates ⟨clientVersion, (HostOp.request.inj heq).2.2⟩
      have heffect : SessionRequest.effect hub c.member (hub.entriesOf c) (.server request) =
          hub.entriesOf c := by
        unfold SessionRequest.effect
        split
        · next clientVersion heq =>
          exact absurd ⟨clientVersion, SessionRequest.server.inj heq⟩ hnegotiates
        · next heq => exact absurd heq (by simp)
        · rfl
      rw [heffect, ite_self]
      exact entriesOf_congr hkept
  | updatePresence presence limited =>
    simp only [Hub.handle]
    split
    · next reason hgate =>
      split_ifs with hmember
      · simp [SessionRequest.effect, Hub.acceptsPresence, hmember, hgate]
      · rfl
    · next hgate =>
      simp only [Hub.handleStream, SessionRequest.effect]
      by_cases hlimited : limited = true ∨ presence.any Hub.presenceTooLong = true
      · rw [if_pos hlimited]
        split_ifs with hmember haccepted
        · exact absurd haccepted (by simp [Hub.acceptsPresence, hlimited])
        · rfl
        · rfl
      · rw [if_neg hlimited]
        have haccepts : c.member = member →
            hub.acceptsPresence c.member presence limited = true := by
          rintro rfl
          simp [Hub.acceptsPresence, hgate, hlimited]
        rw [setPresence_entries]
        split_ifs with hmember hrefused
        · rfl
        · exact absurd (haccepts hmember) hrefused
        · rfl
  | _ =>
    simp only [Hub.handle, SessionRequest.effect, ite_self]
    split <;> rfl

theorem effect_step (hstep : HubStep K hub op hub') :
    hub'.entriesOf c = op.effect hub c (hub.entriesOf c) := by
  obtain ⟨henabled, rfl⟩ := hstep
  cases op with
  | connect new moment member displayName credentials genesis handle =>
    exact @entriesOf_congr hub c (hub.host.handshake K member moment displayName credentials
      genesis).1 handshake_sessions.protocol
  | request asker moment request =>
    obtain ⟨c', hc', -⟩ := enabled_request henabled
    simp only [Hub.next, HubOp.effect, hc']
    exact handle_effect
  | act actor =>
    obtain ⟨duty, rest, hduties, -⟩ := enabled_act henabled
    simp only [Hub.next, HubOp.effect, hduties]
    exact carryOut_effect
  | continueCommand actor moment outcome =>
    obtain ⟨command, rest, hduties⟩ := enabled_continueCommand henabled
    have hkept : hub.host.KeepsProtocol
        (hub.host.perform K moment (.continueCommand command outcome)).1 :=
      perform_protocol (by simp)
    simp only [Hub.next, hduties]
    exact entriesOf_congr hkept
  | fail failing =>
    simp only [Hub.next]
    split <;> rfl
  | datagram source raw nowMs admitted =>
    simp only [Hub.next, Hub.processInboundVoiceFrame]
    split
    · rfl
    · split <;> rfl
  | other moment op =>
    refine entriesOf_congr (perform_protocol fun _ _ _ heq => ?_)
    subst heq
    exact henabled.elim
  | _ => rfl

end Server
