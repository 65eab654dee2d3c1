import Farder.Server.Permissions
import Farder.Server.Requests

/-! # The community of a server

The tables of members, roles, categories and overrides, the participants of direct messages,
and what else of a channel, beside the columns that messages depend on. -/
namespace Server

open EventLog Guarded Permissions

structure MemberRow where
  displayName : String
  joinedAt : ℕ
  banned : Bool
  revoked : Bool
  banReason : Option String
  timeoutUntil : Option ℕ
  timeoutReason : Option String
  isBot : Bool
  deriving DecidableEq, Repr

structure RoleRow where
  name : String
  permissions : Bits
  color : Option String
  position : ℕ
  builtin : Bool
  hoist : Bool
  deriving DecidableEq, Repr

structure CategoryRow where
  name : String
  position : ℕ
  deleted : Bool
  deriving DecidableEq, Repr

structure ChannelInfo where
  categoryId : Option ℕ
  topic : Option String
  nsfw : Bool
  slowModeSecs : ℕ
  threadParentMessageId : Option ℕ
  deriving DecidableEq, Repr

def ChannelInfo.empty : ChannelInfo := ⟨none, none, false, 0, none⟩

structure InviteRow where
  createdBy : PublicKey
  maxUses : Option ℕ
  useCount : ℕ
  expiresAt : Option ℕ
  targetChannel : Option ℕ
  deriving DecidableEq, Repr

structure CommandRow where
  name : String
  trigger : String
  kind : String
  publicKey : PublicKey
  deriving DecidableEq, Repr

structure Community where
  members : FiniteMap PublicKey MemberRow
  roles : Table RoleRow
  /-- Each role of a member once. -/
  memberRoles : List (PublicKey × ℕ)
  categories : Table CategoryRow
  channelInfo : ℕ → ChannelInfo
  channelOverrides : FiniteMap (ℕ × ℕ) Override
  categoryOverrides : FiniteMap (ℕ × ℕ) Override
  dmParticipants : List (ℕ × PublicKey)
  blockedUsers : List (PublicKey × PublicKey)
  invites : FiniteMap String InviteRow
  /-- The kind of each bot. -/
  bots : FiniteMap PublicKey String
  commands : Table CommandRow
  pinned : Finset ℕ

def foreignKeyFailed : String := "FOREIGN KEY constraint failed"
def everyoneRole : String := "@everyone"
def systemBotKind : String := "system"

namespace Community

def empty : Community where
  members := ∅
  roles := .empty
  memberRoles := []
  categories := .empty
  channelInfo := fun _ => .empty
  channelOverrides := ∅
  categoryOverrides := ∅
  dmParticipants := []
  blockedUsers := []
  invites := ∅
  bots := ∅
  commands := .empty
  pinned := ∅

variable (c : Community) (pk : PublicKey)

def getMember : Option MemberRow := c.members.lookup pk

def registerMember (displayName : String) (isBot : Bool) (now : ℕ) : Checked Community := do
  ensure (c.getMember pk = none) "UNIQUE constraint failed: members.public_key"
  return { c with
    members := c.members.insert pk ⟨displayName, now, false, false, none, none, none, isBot⟩ }

def updateMember (f : MemberRow → MemberRow) : Community :=
  { c with members := FiniteMap.adjust c.members pk f }

def banMember (reason : Option String) : Community :=
  c.updateMember pk fun m => { m with banned := true, banReason := reason }

def unbanMember : Community :=
  c.updateMember pk fun m => { m with banned := false, banReason := none }

def setTimeout (untilMs : ℕ) (reason : Option String) : Community :=
  c.updateMember pk fun m => { m with timeoutUntil := some untilMs, timeoutReason := reason }

def clearTimeout : Community :=
  c.updateMember pk fun m => { m with timeoutUntil := none, timeoutReason := none }

/-- The timeout that is in force, and its reason. -/
def isTimedOut (nowMs : ℕ) : Option (ℕ × Option String) :=
  (c.getMember pk).bind fun m => m.timeoutUntil.bind fun untilMs =>
    if nowMs < untilMs then some (untilMs, m.timeoutReason) else none

/-- `is_timed_out` clears a timeout that it finds expired. -/
def expireTimeout (nowMs : ℕ) : Community :=
  match (c.getMember pk).bind MemberRow.timeoutUntil with
  | some untilMs => if nowMs < untilMs then c else c.clearTimeout pk
  | none => c

def removeMemberRow : Checked Community := do
  ensure (∀ x ∈ c.memberRoles, x.1 ≠ pk) foreignKeyFailed
  return { c with members := c.members.erase pk }

/-- Delete the row together with the member's roles. -/
def removeMember : Community :=
  { c with
    memberRoles := c.memberRoles.filter fun x => x.1 ≠ pk
    members := c.members.erase pk }

def createRole (name : String) (permissions : Bits) (color : Option String) (position : ℕ)
    (builtin hoist : Bool) : Community :=
  { c with roles := c.roles.insert ⟨name, permissions, color, position, builtin, hoist⟩ }

def getRole (id : ℕ) : Option RoleRow := c.roles.get? id

def updateRole (id : ℕ) (name : Option String) (permissions : Option Bits)
    (color : Option (Option String)) (position : Option ℕ) (hoist : Option Bool) : Community :=
  { c with roles := c.roles.modify id fun r =>
      { r with
        name := name.getD r.name
        permissions := permissions.getD r.permissions
        color := color.getD r.color
        position := position.getD r.position
        hoist := hoist.getD r.hoist } }

def deleteRole (id : ℕ) : Checked Community := do
  let role ← context (c.getRole id) "Query returned no rows"
  ensure (role.builtin = false) "cannot delete a builtin role"
  return { c with
    memberRoles := c.memberRoles.filter fun x => x.2 ≠ id
    channelOverrides := FiniteMap.retain c.channelOverrides fun k _ => k.2 ≠ id
    categoryOverrides := FiniteMap.retain c.categoryOverrides fun k _ => k.2 ≠ id
    roles := c.roles.delete fun x => x.1 = id }

def assignRole (roleId : ℕ) : Checked Community := do
  ensure (c.getMember pk ≠ none ∧ c.getRole roleId ≠ none) foreignKeyFailed
  return { c with
    memberRoles := if (pk, roleId) ∈ c.memberRoles then c.memberRoles
      else c.memberRoles ++ [(pk, roleId)] }

def unassignRole (roleId : ℕ) : Community :=
  { c with memberRoles := c.memberRoles.filter fun x => x ≠ (pk, roleId) }

def getMemberRoleIds : List ℕ := (c.memberRoles.filter fun x => x.1 = pk).map Prod.snd

def memberRoleRows : List RoleRow := (c.getMemberRoleIds pk).filterMap c.getRole

def getHighestRolePosition : ℕ := ((c.memberRoleRows pk).map RoleRow.position).foldl max 0

def getMemberRolePermissions : List Bits := (c.memberRoleRows pk).map RoleRow.permissions

/-- The role that every new member is given, if the server has it. -/
def everyone : Option (ℕ × RoleRow) :=
  c.roles.find? fun x => x.2.name = everyoneRole ∧ x.2.builtin = true

def everyonePermissions : Bits := (c.everyone.map fun x => x.2.permissions).getD 0

/-! ## Categories, channels and overrides -/

def getCategory (id : ℕ) : Option CategoryRow :=
  (c.categories.get? id).filter fun row => row.deleted = false

def createCategory (name : String) (position : ℕ) : Community :=
  { c with categories := c.categories.insert ⟨name, position, false⟩ }

def updateCategory (id : ℕ) (name : Option String) (position : Option ℕ) : Community :=
  { c with categories := c.categories.modify id fun row =>
      { row with name := name.getD row.name, position := position.getD row.position } }

def updateChannelInfo (id : ℕ) (f : ChannelInfo → ChannelInfo) : Community :=
  { c with channelInfo := Function.update c.channelInfo id (f (c.channelInfo id)) }

def leaveCategory (id : ℕ) (info : ChannelInfo) : ChannelInfo :=
  if info.categoryId = some id then { info with categoryId := none } else info

def deleteCategory (id : ℕ) : Community :=
  { c with
    categories := c.categories.modify id fun row => { row with deleted := true }
    channelInfo := fun channelId => leaveCategory id (c.channelInfo channelId)
    categoryOverrides := FiniteMap.retain c.categoryOverrides fun k _ => k.1 ≠ id }

def setChannelOverride (channelId roleId : ℕ) (allow deny : Bits) : Community :=
  { c with channelOverrides := c.channelOverrides.insert (channelId, roleId) ⟨allow, deny⟩ }

def setCategoryOverride (categoryId roleId : ℕ) (allow deny : Bits) : Community :=
  { c with categoryOverrides := c.categoryOverrides.insert (categoryId, roleId) ⟨allow, deny⟩ }

def getChannelOverridesForRoles (channelId : ℕ) (roleIds : List ℕ) : List Override :=
  roleIds.filterMap fun r => c.channelOverrides.lookup (channelId, r)

def getCategoryOverridesForRoles (categoryId : ℕ) (roleIds : List ℕ) : List Override :=
  roleIds.filterMap fun r => c.categoryOverrides.lookup (categoryId, r)

/-! ## Direct messages, blocks and invites -/

def isDmParticipant (channelId : ℕ) : Bool := (channelId, pk) ∈ c.dmParticipants

def dmPartner (channelId : ℕ) : Option PublicKey :=
  (c.dmParticipants.find? fun x => x.1 = channelId ∧ x.2 ≠ pk).map Prod.snd

def isBlocked (a b : PublicKey) : Bool :=
  (a, b) ∈ c.blockedUsers ∨ (b, a) ∈ c.blockedUsers

def blockUser (blocked : PublicKey) : Community :=
  { c with blockedUsers :=
      if (pk, blocked) ∈ c.blockedUsers then c.blockedUsers
      else c.blockedUsers ++ [(pk, blocked)] }

def unblockUser (blocked : PublicKey) : Community :=
  { c with blockedUsers := c.blockedUsers.filter fun x => x ≠ (pk, blocked) }

def validateInvite (code : String) (now : ℕ) : Checked InviteRow := do
  let invite ← context (c.invites.lookup code) "invite not found"
  ensureIfSome invite.expiresAt (fun expiresAt => now < expiresAt) "invite has expired"
  ensureIfSome invite.maxUses (fun max => invite.useCount < max)
    "invite has reached its maximum uses"
  return invite

def useInvite (code : String) (now : ℕ) : Checked Community := do
  let _ ← c.validateInvite code now
  return { c with invites := FiniteMap.adjust c.invites code fun i =>
            { i with useCount := i.useCount + 1 } }

/-- A sum of 64-bit words; where it does not fit, the checked addition panics. -/
def addSecs (now secs : ℕ) : Checked ℕ :=
  expect (if now + secs < 2 ^ 64 then some (now + secs) else none) "attempt to add with overflow"

/-- `code` is the random code that is drawn for the invite. -/
def createInvite (code : String) (maxUses expiresInSecs targetChannel : Option ℕ) (now : ℕ) :
    Checked Community := do
  let expiresAt ← expiresInSecs.mapM (addSecs now)
  ensure (c.invites.lookup code = none) "UNIQUE constraint failed: invites.code"
  return { c with invites := c.invites.insert code ⟨pk, maxUses, 0, expiresAt, targetChannel⟩ }

def isSystemIdentity : Bool := c.bots.lookup pk = some systemBotKind

end Community
end Server
