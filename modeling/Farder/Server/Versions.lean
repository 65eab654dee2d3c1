import Farder.Server.HostFrame
import Farder.Server.Hub

/-! # Recorded versions

Of all that the server does, only a negotiation records the version of a client. -/
namespace Server

open EventLog Guarded Permissions

variable {K : Crypto} {host host' : Host} {member : PublicKey} {isOwner : Bool} {moment : Moment}

open Host

/-- What is kept of connections: the versions of clients, and the commands under way. -/
def Host.sessions (host : Host) : FiniteMap PublicKey ℕ × List RunningCommand :=
  (host.clientProtocol, host.running)

def Host.KeepsSessions (host host' : Host) : Prop := host'.sessions = host.sessions

def Host.KeepsProtocol (host host' : Host) : Prop := host'.clientProtocol = host.clientProtocol

theorem Host.KeepsSessions.protocol (h : host.KeepsSessions host') : host.KeepsProtocol host' :=
  congrArg Prod.fst h

theorem Host.KeepsSessions.running (h : host.KeepsSessions host') : host'.running = host.running :=
  congrArg Prod.snd h

theorem keepsSessions_frame : Host.PlainFrame Host.KeepsSessions where
  refl _ := rfl
  trans _ _ _ h h' := Eq.trans h' h
  expireTimeout _ _ _ := rfl
  withDb _ _ _ := rfl
  pinned _ _ := rfl

theorem messageEffect_sessions {request : MessageRequest}
    (h : MessageEffect host member isOwner moment request host') : host.KeepsSessions host' := by
  by_cases hcreates : request.createsChannel = false
  · exact keepsSessions_frame.messageEffect hcreates h
  · cases h with
    | openDm =>
      unfold openDmChannel
      split_ifs <;> rfl
    | createThread => rfl
    | refused => rfl
    | expired => rfl
    | _ => exact absurd rfl hcreates

theorem dispatch_sessions {request : Request}
    (hsession : request.isOfSession = false) :
    host.KeepsSessions (host.dispatch K member isOwner moment request).1 := by
  cases request with
  | channel request =>
    have heffect := @channelRequest_effect host member isOwner request
    simp only [dispatch]
    generalize (host.handleChannelRequest member isOwner request).1 = host' at heffect
    cases heffect <;> rfl
  | role request =>
    have heffect := @roleRequest_effect host member isOwner request
    simp only [dispatch]
    generalize (host.handleRoleRequest member isOwner request).1 = host' at heffect
    cases heffect <;> rfl
  | member request =>
    have heffect := @memberRequest_effect host member isOwner moment request
    simp only [dispatch]
    generalize (host.handleMemberRequest member isOwner moment request).1 = host' at heffect
    cases heffect <;> rfl
  | message request => exact messageEffect_sessions (messageRequest_effect request)
  | submitEvent event =>
    simp only [dispatch, Host.submitEvent]
    split
    · rfl
    · unfold KeepsSessions sessions declareChannel
      split <;> rfl
  | _ => exact keepsSessions_frame.dispatch (by rfl) (by rfl) hsession

theorem handshake_sessions {displayName : String} {credentials : Credentials} {genesis : Genesis} :
    host.KeepsSessions (host.handshake K member moment displayName credentials genesis).1 := by
  have hregister : ∀ (host host' : Host) now, host.register member displayName now = .ok host' →
      host.KeepsSessions host' := by
    intro host host' now h
    simp only [Host.register, bind_eq_ok] at h
    obtain ⟨registered, -, h⟩ := h
    split at h
    · obtain ⟨community, -, rfl⟩ := map_eq_ok.mp h
      rfl
    · obtain rfl := pure_eq_ok.mp h
      rfl
  have hclaim : ∀ host : Host, host.KeepsSessions (host.claim K member genesis) := by
    intro host
    unfold Host.claim
    split <;> rfl
  unfold handshake
  split
  · rfl
  · refine commit_effect (P := host.KeepsSessions) rfl fun host' h => ?_
    unfold Host.authenticateNewMember at h
    split at h
    · simp only [bind_eq_ok, pure_eq_ok] at h
      obtain ⟨token, -, ⟨⟩, -, registered, hregistered, rfl⟩ := h
      have hkept : host.KeepsSessions registered := hregister _ _ _ hregistered
      exact Eq.trans (hclaim _) hkept
    · simp only [bind_eq_ok] at h
      obtain ⟨community, -, hregistered⟩ := h
      have hkept : (host.withCommunity community).KeepsSessions host' :=
        hregister _ _ _ hregistered
      exact hkept
    · simp only [bind_eq_ok, pure_eq_ok] at h
      obtain ⟨⟨⟩, -, registered, hregistered, rfl⟩ := h
      exact Eq.trans (hclaim _) (hregister _ _ _ hregistered)

theorem executeDeletions_sessions {reqs : List DeletionRequest} :
    host.KeepsSessions (host.executeDeletions reqs) := by
  induction reqs generalizing host with
  | nil => rfl
  | cons req reqs ih =>
    unfold executeDeletions
    split
    · exact ih
    · rfl

/-- The operations that write what is kept of connections. -/
def HostOp.isOfSession : HostOp → Bool
  | .request _ _ asked => asked.isOfSession
  | .continueCommand .. => true
  | _ => false

theorem perform_sessions {op : HostOp} (hsession : op.isOfSession = false) :
    host.KeepsSessions (host.perform K moment op).1 := by
  cases op with
  | request member isOwner request =>
    have hdispatch : host.KeepsSessions (host.dispatch K member isOwner moment request).1 :=
      dispatch_sessions hsession
    simp only [perform, handleRequest]
    split_ifs
    · split
      · rfl
      · exact hdispatch
    · exact hdispatch
  | handshake => exact handshake_sessions
  | executePendingDeletions => exact executeDeletions_sessions
  | continueCommand => exact absurd hsession (by simp [HostOp.isOfSession])
  | _ => exact keepsSessions_frame.perform (by simp) (by simp) (by simp) (by simp)

theorem runCommand_protocol {channelId : ℕ} {trigger : String} :
    host.KeepsProtocol (host.runCommand member isOwner moment channelId trigger).1 := by
  unfold runCommand
  split_ifs
  · refine commit_effect (P := host.KeepsProtocol) rfl fun host' h => ?_
    simp only [bind_eq_ok, pure_eq_ok] at h
    obtain ⟨⟨⟩, -, rfl⟩ := h
    rfl
  · rfl

theorem perform_protocol {op : HostOp}
    (hnegotiates : ∀ member isOwner clientVersion,
      op ≠ .request member isOwner (.negotiateProtocol clientVersion)) :
    host.KeepsProtocol (host.perform K moment op).1 := by
  by_cases hsession : op.isOfSession = false
  · exact (perform_sessions hsession).protocol
  · cases op with
    | request member isOwner request =>
      cases request with
      | runCommand channelId trigger =>
        simp only [perform, handleRequest]
        split_ifs
        · split
          · rfl
          · exact runCommand_protocol
        · exact runCommand_protocol
      | negotiateProtocol => exact absurd rfl (hnegotiates _ _ _)
      | _ => exact (hsession rfl).elim
    | continueCommand command outcome =>
      exact continueCommand_rule (P := host.KeepsProtocol) (fun _ => rfl) fun _ _ _ _ _ => rfl
    | _ => exact (hsession rfl).elim

theorem handleStream_host {hub : Hub} {request : SessionRequest} :
    (hub.handleStream member isOwner request).1.host = hub.host := by
  cases request with
  | updatePresence presence limited =>
    simp only [Hub.handleStream]
    split_ifs <;> rfl
  | _ => rfl

end Server
