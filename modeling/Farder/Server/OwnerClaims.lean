import Farder.Server.ChannelRows
import Farder.Server.Reconcile

/-! # How a server gets its owner

A handshake registers a new member under the lock of the database; only then does it clear the
setup token, and then make the member the owner, each under another lock. Whatever else happens
to the server can come in between. A restart finds the owner among the members. -/
namespace Server

open EventLog Guarded Permissions

/-- What a handshake still has to do after it has released the database. -/
inductive Errand where
  | clearToken (member : PublicKey)
  | setOwner (member : PublicKey)
  deriving DecidableEq

def Errand.member : Errand → PublicKey
  | .clearToken member => member
  | .setOwner member => member

/-- A server, and the errands of the handshakes in progress. -/
structure Reception where
  host : Host
  errands : List Errand

/-- The steps of handshakes, every other operation, and a restart with the token that it would
generate. -/
inductive OwnerOp where
  | other (moment : Moment) (op : HostOp)
  | enrol (moment : Moment) (member : PublicKey) (displayName : String)
      (credentials : Credentials)
  | clearToken (member : PublicKey)
  | setOwner (member : PublicKey) (genesis : Genesis)
  | restart (setup : Setup)

namespace Host

variable (K : Crypto) (host : Host) (member : PublicKey) (moment : Moment)

/-- `auth::authenticate_new_member`, and whether the first member claims the server by it. -/
def admitNewMember (displayName : String) (credentials : Credentials) : Checked (Host × Bool) :=
  match credentials.setupToken, credentials.inviteCode with
  | some provided, _ => do
    let token ← context host.setupToken "server already has an owner"
    ensure (provided = token) "invalid setup token"
    let registered ← host.register member displayName moment.now
    return (registered, false)
  | none, some code => do
    let community ← prefixed "invalid invite: " (host.community.useInvite code moment.now)
    let registered ← (host.withCommunity community).register member displayName moment.now
    return (registered, false)
  | none, none => do
    ensure (host.community.members.keys = ∅) "no invite code or setup token provided"
    let registered ← host.register member displayName moment.now
    return (registered, true)

/-- What is left to do for a member that was admitted. -/
def errandsOf (credentials : Credentials) (claimed : Bool) : List Errand :=
  if credentials.setupToken.isSome then [.clearToken member]
  else if claimed then [.setOwner member]
  else []

/-- The rows that a restart looks for the owner in. -/
def Eligible (row : MemberRow) : Prop := row.banned = false ∧ row.revoked = false

instance (row : MemberRow) : Decidable (Eligible row) := inferInstanceAs (Decidable (_ ∧ _))

def JoinedFirst (pk : PublicKey) : Prop :=
  ∃ row, host.community.getMember pk = some row ∧ Eligible row ∧
    ∀ other row', host.community.getMember other = some row' → Eligible row' →
      row.joinedAt ≤ row'.joinedAt

/-- What the query of a restart can find; among several that joined first it may find any. -/
def Finds : Option PublicKey → Prop
  | some pk => host.JoinedFirst pk
  | none => ∀ pk row, host.community.getMember pk = some row → ¬Eligible row

end Host

variable {K : Crypto}

/-- The restart of a server, with what it finds and the state of the log that it rebuilds. -/
inductive Restarted (K : Crypto) (host : Host) (setup : Setup) : Host → Prop
  | firstRun {server : ServerState} (hempty : host.community.members = ∅)
      (hroom : host.db.nextChannel + (Template.named setup.template).channelCount ≤ 2 ^ 63)
      (hserver : (host.setUp setup).server.restart K = .ok server) :
      Restarted K host setup { host.setUp setup with server }
  | found {server : ServerState} {owner : Option PublicKey} (hmembers : host.community.members ≠ ∅)
      (howner : host.Finds owner) (hserver : host.server.restart K = .ok server) :
      Restarted K host setup
        { host with
          server, owner
          setupToken := none
          clientProtocol := ∅
          maxFileSize := setup.maxFileSize
          running := [] }

inductive OwnerStep (K : Crypto) (s : Reception) : OwnerOp → Reception → Prop
  | other {moment : Moment} {op : HostOp}
      (hop : ∀ member name credentials genesis, op ≠ .handshake member name credentials genesis) :
      OwnerStep K s (.other moment op) { s with host := (s.host.perform K moment op).1 }
  | known {moment : Moment} {member : PublicKey} {displayName : String} {credentials : Credentials}
      (hmember : s.host.community.getMember member ≠ none) :
      OwnerStep K s (.enrol moment member displayName credentials) s
  | refused {moment : Moment} {member : PublicKey} {displayName : String}
      {credentials : Credentials} {failure : Failure}
      (hmember : s.host.community.getMember member = none)
      (hadmission : s.host.admitNewMember member moment displayName credentials = .error failure) :
      OwnerStep K s (.enrol moment member displayName credentials) s
  | admitted {moment : Moment} {member : PublicKey} {displayName : String}
      {credentials : Credentials} {host : Host} {claimed : Bool}
      (hmember : s.host.community.getMember member = none)
      (hadmission : s.host.admitNewMember member moment displayName credentials =
        .ok (host, claimed)) :
      OwnerStep K s (.enrol moment member displayName credentials)
        ⟨host, s.errands ++ Host.errandsOf member credentials claimed⟩
  | cleared {member : PublicKey} (herrand : .clearToken member ∈ s.errands)
      (htoken : s.host.setupToken ≠ none) :
      OwnerStep K s (.clearToken member) ⟨{ s.host with setupToken := none },
        s.errands.erase (.clearToken member) ++ [.setOwner member]⟩
  | spent {member : PublicKey} (herrand : .clearToken member ∈ s.errands)
      (htoken : s.host.setupToken = none) :
      OwnerStep K s (.clearToken member) { s with errands := s.errands.erase (.clearToken member) }
  | claimed {member : PublicKey} {genesis : Genesis} (herrand : .setOwner member ∈ s.errands) :
      OwnerStep K s (.setOwner member genesis)
        ⟨s.host.claim K member genesis, s.errands.erase (.setOwner member)⟩
  | restarted {setup : Setup} {host : Host} (hrestart : Restarted K s.host setup host) :
      OwnerStep K s (.restart setup) ⟨host, []⟩

abbrev OwnerRun (K : Crypto) := Execution (OwnerStep K)

namespace Reception

/-- An errand is run once; what a restart finds is not given by the state. -/
def Enabled (s : Reception) : OwnerOp → Prop
  | .other _ (.handshake ..) => False
  | .clearToken member => .clearToken member ∈ s.errands
  | .setOwner member _ => .setOwner member ∈ s.errands
  | .restart _ => False
  | _ => True

instance (s : Reception) (e : OwnerOp) : Decidable (s.Enabled e) := by
  unfold Enabled
  split <;> infer_instance

/-- What a step leaves. -/
def apply (K : Crypto) (s : Reception) : OwnerOp → Reception
  | .other moment op => { s with host := (s.host.perform K moment op).1 }
  | .enrol moment member displayName credentials =>
    match s.host.community.getMember member,
        s.host.admitNewMember member moment displayName credentials with
    | none, .ok (host, claimed) => ⟨host, s.errands ++ Host.errandsOf member credentials claimed⟩
    | _, _ => s
  | .clearToken member =>
    match s.host.setupToken with
    | some _ => ⟨{ s.host with setupToken := none },
        s.errands.erase (.clearToken member) ++ [.setOwner member]⟩
    | none => { s with errands := s.errands.erase (.clearToken member) }
  | .setOwner member genesis =>
    ⟨s.host.claim K member genesis, s.errands.erase (.setOwner member)⟩
  | .restart _ => s

theorem step_apply {s : Reception} {e : OwnerOp} (h : s.Enabled e) :
    OwnerStep K s e (s.apply K e) := by
  cases e with
  | other moment op =>
    refine .other fun member name credentials genesis heq => ?_
    subst heq
    exact h
  | enrol moment member displayName credentials =>
    cases hmember : s.host.community.getMember member with
    | some row =>
      simp only [apply, hmember]
      exact .known (by simp [hmember])
    | none =>
      cases hadmission : s.host.admitNewMember member moment displayName credentials with
      | error failure =>
        simp only [apply, hmember, hadmission]
        exact .refused hmember hadmission
      | ok x =>
        simp only [apply, hmember, hadmission]
        exact .admitted hmember hadmission
  | clearToken member =>
    unfold apply
    cases htoken : s.host.setupToken with
    | some token => exact .cleared h (by simp [htoken])
    | none => exact .spent h htoken
  | setOwner member genesis => exact .claimed h
  | restart => exact h.elim

theorem run_path {s : Reception} {ops : List OwnerOp}
    (h : ∀ x ∈ Execution.path (apply K) s ops, x.pre.Enabled x.event) :
    OwnerRun K s (Execution.path (apply K) s ops) (ops.foldl (apply K) s) :=
  (Execution.of_path (apply K) ops).of_steps fun x hx hstep => hstep ▸ step_apply (h x hx)

end Reception

/-! ## The phases of a handshake are those of the whole -/

variable {host host' : Host} {member : PublicKey} {moment : Moment} {displayName : String}
  {credentials : Credentials} {genesis : Genesis}

def Host.runErrands (K : Crypto) (genesis : Genesis) (host : Host) : List Errand → Host
  | [] => host
  | .clearToken member :: _ => { host with setupToken := none }.claim K member genesis
  | .setOwner member :: _ => host.claim K member genesis

theorem authenticateNewMember_eq :
    host.authenticateNewMember K member moment displayName credentials genesis =
      (fun x => x.1.runErrands K genesis (Host.errandsOf member credentials x.2)) <$>
        host.admitNewMember member moment displayName credentials := by
  obtain ⟨inviteCode, setupToken⟩ := credentials
  unfold Host.authenticateNewMember Host.admitNewMember
  cases setupToken with
  | some provided =>
    simp only [map_eq_pure_bind, bind_assoc, pure_bind]
    rfl
  | none =>
    cases inviteCode with
    | some code =>
      simp only [map_eq_pure_bind, bind_assoc, pure_bind]
      exact bind_congr fun community => (bind_pure _).symm
    | none =>
      simp only [map_eq_pure_bind, bind_assoc, pure_bind]
      rfl

end Server
