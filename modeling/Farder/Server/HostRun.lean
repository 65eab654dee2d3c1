import Farder.Server.HandleRequest
import Farder.Server.Templates

/-! # Runs of a server

What can happen to a server: requests on connections that were authenticated at any time
before, handshakes, uploads and downloads, and the periodic sweeps, in any order. -/
namespace Server

open EventLog Guarded Permissions

structure Credentials where
  inviteCode : Option String
  setupToken : Option String

/-- What happens to a server, each at its own moment. The name of a new member is made from its
key, and the genesis is the one that a first owner would found. -/
inductive HostOp where
  | request (member : PublicKey) (isOwner : Bool) (request : Request)
  | handshake (member : PublicKey) (displayName : String) (credentials : Credentials)
      (genesis : Genesis)
  | upload (member : PublicKey) (isOwner : Bool) (channelId : ℕ) (upload : Upload)
  | download (member : PublicKey) (isOwner : Bool) (fileId : ℕ)
  | purgeExpiredMessages
  | executePendingDeletions
  | cleanupOrphanedFile (fileId : ℕ)
  /-- The next step of a command, with what it has parsed or fetched by then. -/
  | continueCommand (command : RunningCommand) (outcome : Except String CommandOutcome)

namespace Host

variable (K : Crypto) (host : Host) (member : PublicKey) (isOwner : Bool) (moment : Moment)

def register (displayName : String) (now : ℕ) : Checked Host := do
  let registered ← host.community.registerMember member displayName false now
  match registered.everyone with
  | some (roleId, _) => host.withCommunity <$> registered.assignRole member roleId
  | none => return host.withCommunity registered

/-- The member becomes the owner, and founds the log if there is none. -/
def claim (genesis : Genesis) : Host :=
  let founded := { genesis with owner := member }
  match host.db.genesis with
  | some _ => { host with owner := some member }
  | none =>
    { host with
      owner := some member
      server := { db := { host.db with genesis := some founded }
                  logState := some (LogState.fromGenesis K founded) } }

def authenticateExistingMember (row : MemberRow) : Checked Unit := do
  ensure (row.banned = false) "member is banned"
  ensure (row.revoked = false) "member is revoked"

/-- A member without a row is enrolled by a setup token, by an invite, or as the first one. -/
def authenticateNewMember (displayName : String) (credentials : Credentials) (genesis : Genesis) :
    Checked Host :=
  match credentials.setupToken, credentials.inviteCode with
  | some provided, _ => do
    let token ← context host.setupToken "server already has an owner"
    ensure (provided = token) "invalid setup token"
    let registered ← host.register member displayName moment.now
    return { registered with setupToken := none }.claim K member genesis
  | none, some code => do
    let community ← prefixed "invalid invite: " (host.community.useInvite code moment.now)
    (host.withCommunity community).register member displayName moment.now
  | none, none => do
    ensure (host.community.members.keys = ∅) "no invite code or setup token provided"
    let registered ← host.register member displayName moment.now
    return registered.claim K member genesis

def handshake (displayName : String) (credentials : Credentials) (genesis : Genesis) :
    Host × Checked Answer :=
  match host.community.getMember member with
  | some row => (host, authenticateExistingMember row >>= fun _ => .ok (.of .ok []))
  | none =>
    host.commit (host.authenticateNewMember K member moment displayName credentials genesis)
      fun _ => return .of .ok []

/-! ## Files and sweeps -/

/-- A hash that is known is enough, and nothing is read from the stream then. -/
def storeUpload (upload : Upload) : Checked Host :=
  if (host.db.fileByHash upload.declaredHash).isSome then return host
  else do
    ensure (upload.fileSize ≤ upload.bytes.length) "stream closed before all bytes received"
    (fun stored => host.withDb stored.1) <$> host.db.storeOrReuseFromTempFile K member
      upload.originalName (upload.bytes.take upload.fileSize) upload.declaredHash upload.mimeType
      upload.fileSize upload.media moment.now

def upload (channelId : ℕ) (upload : Upload) : Host × Checked Answer :=
  host.commit
    (do
      ensure (upload.fileSize ≤ host.maxFileSize) s!"file too large (max {host.maxFileSize} bytes)"
      ensure (lengthBetween upload.originalName 1 255) "invalid file name"
      host.requirePerm member isOwner channelId sendMessages "SEND_MESSAGES"
      ensure moment.admitted "upload rate limit exceeded — please slow down"
      host.storeUpload K member moment upload)
    fun _ => return .of .other []

/-- An auxiliary stream is for members of the log only, as a request is. -/
def auxiliary (handle : Host × Checked Answer) : Host × Checked Answer :=
  match host.contentBlockReason member with
  | some reason => (host, .error (.rejected s!"auxiliary stream denied: {reason}"))
  | none => handle

/-- The deletion of members' data takes their rows too. -/
def executeDeletions (host : Host) : List DeletionRequest → Host
  | [] => host
  | req :: rest =>
    match host.db.executeDeletion req with
    | .ok db =>
      executeDeletions ((host.withDb db).withCommunity
        (host.community.removeMember req.memberKey)) rest
    | .error _ => host

def sweep (swept : Checked Db) : Host :=
  match swept with
  | .ok db => host.withDb db
  | .error _ => host

/-- What an operation leaves, and what it is answered with. -/
def perform (op : HostOp) : Host × Checked Answer :=
  match op with
  | .request member isOwner request => host.handleRequest K member isOwner moment request
  | .handshake member displayName credentials genesis =>
    host.handshake K member moment displayName credentials genesis
  | .upload member isOwner channelId upload =>
    host.auxiliary member (host.upload K member isOwner moment channelId upload)
  | .download member isOwner fileId =>
    host.auxiliary member (host, host.download member isOwner fileId)
  | .purgeExpiredMessages => (host.sweep (host.db.purgeExpiredMessages moment.now), .ok (.ok []))
  | .executePendingDeletions =>
    (host.executeDeletions (host.db.expiredDeletionRequests moment.now), .ok (.ok []))
  | .cleanupOrphanedFile fileId =>
    (host.withDb (host.db.cleanupOrphanedFile fileId), .ok (.ok []))
  | .continueCommand command outcome =>
    let continued := host.continueCommand moment command outcome
    (continued.1, CommandStep.told <$> continued.2)

end Host

/-- An operation that is answered without an error. -/
def Host.Accepts (K : Crypto) (host : Host) (e : Moment × HostOp) : Prop :=
  ∃ answer, (host.perform K e.1 e.2).2 = .ok answer

instance {K : Crypto} {host : Host} (e : Moment × HostOp) : Decidable (host.Accepts K e) :=
  match h : (host.perform K e.1 e.2).2 with
  | .ok answer => isTrue ⟨answer, h⟩
  | .error failure => isFalse fun ⟨answer, hanswer⟩ => by simp [h] at hanswer

theorem Host.perform_of_accepts {K : Crypto} {host : Host} {member : PublicKey} {isOwner : Bool}
    {moment : Moment} {request : Request}
    (h : host.Accepts K (moment, .request member isOwner request)) :
    host.perform K moment (.request member isOwner request) =
      host.dispatch K member isOwner moment request := by
  obtain ⟨a, ha⟩ := h
  simp only [Host.perform, Host.handleRequest] at ha ⊢
  split_ifs at ha ⊢
  · split at ha
    · exact absurd ha (by simp)
    · rfl
  · rfl

/-- One operation at its moment. -/
def HostStep (K : Crypto) (host : Host) (e : Moment × HostOp) (host' : Host) : Prop :=
  (host.perform K e.1 e.2).1 = host'

abbrev HostRun (K : Crypto) := Execution (HostStep K)

end Server
