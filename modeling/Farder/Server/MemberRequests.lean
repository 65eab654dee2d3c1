import Farder.Server.CommunityRequests

/-! # Requests about members

Removals, bans and timeouts, invites, blocks, the deletion of a member's own data, and the
bots and commands of a server. Names and texts come trimmed, as the handlers trim them. -/
namespace Server

open EventLog Guarded Permissions

/-- The full-text index: which queries it can read, and whether one finds a text. -/
structure Fts where
  valid : String → Bool
  finds : String → String → Bool

/-- What the surroundings of a request give to it: the time, what it draws at random, how the search
of the database reads a query, whether the limiter of its kind lets it through, and the widget of
the message that it deletes, if that is open. -/
structure Moment where
  nowMs : ℕ
  code : String
  botKey : PublicKey
  fts : Fts
  admitted : Bool
  openWidget : Option WidgetRef

def Moment.now (moment : Moment) : ℕ := moment.nowMs / 1000

/-- A signed profile: its bytes by their number and hash, what they say if they can be read, and
what is wrong with its avatar. -/
structure Profile where
  size : ℕ
  hash : String
  decodes : Bool
  publicKey : PublicKey
  verified : Bool
  displayName : String
  status : Option String
  avatarError : Option String

inductive BotSettings where
  | cryptoTicker (coinId : String)
  | customApi (sourceUrl valuePath : String)

structure CommandSettings where
  name : String
  trigger : String
  description : String
  kind : String
  bodyText : Option String
  urlTemplate : Option String
  valuePath : Option String

inductive MemberRequest where
  | kickMember (memberKey : PublicKey)
  | banMember (memberKey : PublicKey) (reason : Option String)
  | unbanMember (memberKey : PublicKey)
  | timeoutMember (memberKey : PublicKey) (untilMs : ℕ) (reason : Option String)
  | removeTimeout (memberKey : PublicKey)
  | createInvite (maxUses expiresInSecs targetChannel : Option ℕ)
  | requestDeletion
  | cancelDeletion
  | blockUser (targetKey : PublicKey)
  | unblockUser (targetKey : PublicKey)
  | updateProfile (profile : Profile)
  | addBot (label : String) (settings : BotSettings)
  | removeBot (botPublicKey : PublicKey)
  | addCommand (settings : CommandSettings)
  | deleteCommand (id : ℕ)

def maxProfileBytes : ℕ := 2621440

def maxTimeoutMs : ℕ := 28 * 24 * 60 * 60 * 1000

def isWebUrl (url : String) : Bool := url.startsWith "http://" ∨ url.startsWith "https://"

def lengthBetween (s : String) (low high : ℕ) : Bool :=
  low ≤ s.utf8ByteSize ∧ s.utf8ByteSize ≤ high

def BotSettings.kind : BotSettings → String
  | .cryptoTicker _ => "crypto_ticker"
  | .customApi _ _ => "custom_api"

def BotSettings.check (label : String) : BotSettings → Checked Unit
  | .cryptoTicker coinId => do
    ensure (lengthBetween coinId 1 64 ∧ coinId.all fun c => c.isLower || c.isDigit || c = '-')
      "invalid coin id (use a CoinGecko id: lowercase letters, digits, hyphens)"
    ensure (lengthBetween label 1 64) "bot label must be 1-64 characters"
  | .customApi sourceUrl valuePath => do
    ensure (lengthBetween label 1 64) "bot name must be 1-64 characters"
    ensure (isWebUrl sourceUrl ∧ sourceUrl.utf8ByteSize ≤ 2048)
      "source url must be http(s) and <= 2048 chars"
    ensure (lengthBetween valuePath 1 256) "value path required (<=256 chars)"

def CommandSettings.checkKind (settings : CommandSettings) : Checked Unit :=
  if settings.kind = "text" then
    ensure (settings.bodyText.getD "" ≠ "") "text command needs body text"
  else if settings.kind = "api" then do
    ensure (isWebUrl (settings.urlTemplate.getD "") ∧
        (settings.urlTemplate.getD "").utf8ByteSize ≤ 2048)
      "api command needs an http(s) url template (<=2048)"
    ensure (settings.valuePath.getD "" ≠ "") "api command needs a value path"
  else
    ensure (settings.kind ∈ ["poll", "giveaway", "event", "reminder"])
      "kind must be 'text', 'api', 'poll', 'giveaway', 'event' or 'reminder'"

def CommandSettings.check (settings : CommandSettings) : Checked Unit := do
  ensure (lengthBetween settings.name 1 48) "command name must be 1-48 chars"
  ensure (lengthBetween settings.trigger 1 32 ∧
      settings.trigger.all fun c => c.isAlphanum || c = '_' || c = '-')
    "trigger must be 1-32 chars of a-z 0-9 _ -"
  ensure (settings.description.utf8ByteSize ≤ 160) "description too long"

namespace Community

variable (c : Community)

def findByTrigger (trigger : String) : Option (ℕ × CommandRow) :=
  c.commands.find? fun x => x.2.trigger = trigger

def createCommand (settings : CommandSettings) (key : PublicKey) : Community :=
  { c with commands :=
      c.commands.insert ⟨settings.name, settings.trigger, settings.kind, key⟩ }

def registerBot (key : PublicKey) (kind : String) : Checked Community := do
  ensure (c.bots.lookup key = none) "UNIQUE constraint failed: bots.public_key"
  return { c with bots := c.bots.insert key kind }

def removeBot (key : PublicKey) : Community := { c with bots := c.bots.erase key }

def setMemberProfile (pk : PublicKey) (displayName : String) : Community :=
  c.updateMember pk fun m => { m with displayName }

end Community

namespace Host

variable (host : Host) (member : PublicKey) (isOwner : Bool) (moment : Moment)

/-! ## Removal, bans and timeouts -/

/-- The system identity holds no role that would protect it. -/
def requireRemovable (target : PublicKey) : Checked Unit :=
  ensure (host.community.isSystemIdentity target = false) "that identity can't be removed"

def requireMemberBelow (target : PublicKey) (perm : Bits) (permName : String) : Checked Unit := do
  host.requireBasePerm member isOwner perm permName
  host.requireMemberHierarchy member isOwner target

def kickMember (memberKey : PublicKey) : Host × Checked Answer :=
  host.commit
    (do
      host.requireMemberBelow member isOwner memberKey kickMembers "KICK_MEMBERS"
      host.requireRemovable memberKey
      return host.withCommunity (host.community.removeMember memberKey))
    fun _ => return .ok [⟨.members [memberKey], .youWereKicked⟩, toAll (.memberLeft memberKey),
      audit member (some memberKey) "kick"]

def banMember (memberKey : PublicKey) (reason : Option String) : Host × Checked Answer :=
  host.commit
    (do
      host.requireMemberBelow member isOwner memberKey banMembers "BAN_MEMBERS"
      host.requireRemovable memberKey
      return host.withCommunity (host.community.banMember memberKey reason))
    fun _ => return .ok [⟨.members [memberKey], .youWereBanned reason⟩,
      toAll (.memberBanned memberKey reason), audit member (some memberKey) "ban"]

def unbanMember (memberKey : PublicKey) : Host × Checked Answer :=
  host.commit
    (do
      host.requireBasePerm member isOwner banMembers "BAN_MEMBERS"
      return host.withCommunity (host.community.unbanMember memberKey))
    fun _ => return .ok [toAll (.memberUnbanned memberKey), audit member (some memberKey) "unban"]

def timeoutMember (memberKey : PublicKey) (untilMs : ℕ) (reason : Option String) :
    Host × Checked Answer :=
  host.commit
    (do
      host.requireMemberBelow member isOwner memberKey timeoutMembers "TIMEOUT_MEMBERS"
      ensure (moment.nowMs < untilMs ∧ untilMs ≤ moment.nowMs + maxTimeoutMs)
        "timeout duration out of range (must be in the future, max 28 days)"
      return host.withCommunity (host.community.setTimeout memberKey untilMs reason))
    fun _ => return .ok [toAll (.memberTimeoutChanged memberKey (some untilMs) reason),
      audit member (some memberKey) "timeout"]

def removeTimeout (memberKey : PublicKey) : Host × Checked Answer :=
  host.commit
    (do
      host.requireMemberBelow member isOwner memberKey timeoutMembers "TIMEOUT_MEMBERS"
      return host.withCommunity (host.community.clearTimeout memberKey))
    fun _ => return .ok [toAll (.memberTimeoutChanged memberKey none none),
      audit member (some memberKey) "untimeout"]

/-! ## A member's own affairs -/

def createInvite (maxUses expiresInSecs targetChannel : Option ℕ) : Host × Checked Answer :=
  host.commit
    (do
      host.requireBasePerm member isOwner createInvites "CREATE_INVITES"
      host.withCommunity <$> host.community.createInvite member moment.code maxUses expiresInSecs
        targetChannel moment.now)
    fun _ => return .of (.inviteCreated moment.code) []

def requestDeletion : Host × Checked Answer :=
  host.commit (host.withDb <$> host.db.requestDeletion member isOwner moment.now)
    fun _ => return .ok [toAll (.deletionRequested member)]

def cancelDeletion : Host × Checked Answer :=
  host.commit (host.withDb <$> host.db.cancelDeletion member)
    fun _ => return .ok [toAll (.deletionCancelled member)]

def blockUser (targetKey : PublicKey) : Host × Checked Answer :=
  host.commit (return host.withCommunity (host.community.blockUser member targetKey))
    fun _ => return .ok []

def unblockUser (targetKey : PublicKey) : Host × Checked Answer :=
  host.commit (return host.withCommunity (host.community.unblockUser member targetKey))
    fun _ => return .ok []

def updateProfile (profile : Profile) : Host × Checked Answer :=
  host.commit
    (do
      ensure (profile.size ≤ maxProfileBytes) "profile too large (max 2.5 MB)"
      ensure (profile.decodes = true) "malformed profile"
      ensure (profile.publicKey = member)
        "profile public key does not match authenticated member"
      ensure (profile.verified = true) "profile signature invalid"
      ensure (profile.displayName.length ≤ 128) "display name too long (max 128 characters)"
      ensureIfSome profile.status (fun status => status.length ≤ 128)
        "status too long (max 128 characters)"
      ensure (profile.avatarError = none) ("avatar rejected: " ++ profile.avatarError.getD "")
      return host.withCommunity (host.community.setMemberProfile member profile.displayName))
    fun _ => return .ok [toAll (.memberProfileUpdated member (some profile.hash))]

/-! ## Bots and commands -/

def addBot (label : String) (settings : BotSettings) : Host × Checked Answer :=
  host.commit
    (do
      host.requireBasePerm member isOwner manageServer "MANAGE_SERVER"
      settings.check label
      let community ← host.community.registerMember moment.botKey label true moment.now
      host.withCommunity <$> community.registerBot moment.botKey settings.kind)
    fun _ => return .ok [toAll (.memberJoined moment.botKey label)]

/-- Any key may be named, not only a bot's. The row of the bot is gone before the deletion of
the member's row may fail. -/
def removeBot (botPublicKey : PublicKey) : Host × Checked Answer :=
  let deleted : Checked Host := do
    host.requireBasePerm member isOwner manageServer "MANAGE_SERVER"
    host.requireRemovable botPublicKey
    return host.withCommunity (host.community.removeBot botPublicKey)
  match deleted with
  | .error failure => (host, .error failure)
  | .ok host =>
    host.commit (host.withCommunity <$> host.community.removeMemberRow botPublicKey)
      fun _ => return .ok [toAll (.memberLeft botPublicKey)]

def addCommand (settings : CommandSettings) : Host × Checked Answer :=
  host.commit
    (do
      host.requireBasePerm member isOwner manageServer "MANAGE_SERVER"
      settings.check
      ensure (host.community.findByTrigger settings.trigger = none)
        "a command with that trigger already exists"
      settings.checkKind
      return host.withCommunity (host.community.createCommand settings moment.botKey))
    fun _ => return .ok []

def deleteCommand (id : ℕ) : Host × Checked Answer :=
  host.commit
    (do
      host.requireBasePerm member isOwner manageServer "MANAGE_SERVER"
      return host.withCommunity { host.community with
        commands := host.community.commands.delete fun x => x.1 = id })
    fun _ => return .ok []

def handleMemberRequest (request : MemberRequest) : Host × Checked Answer :=
  match request with
  | .kickMember memberKey => host.kickMember member isOwner memberKey
  | .banMember memberKey reason => host.banMember member isOwner memberKey reason
  | .unbanMember memberKey => host.unbanMember member isOwner memberKey
  | .timeoutMember memberKey untilMs reason =>
    host.timeoutMember member isOwner moment memberKey untilMs reason
  | .removeTimeout memberKey => host.removeTimeout member isOwner memberKey
  | .createInvite maxUses expiresInSecs targetChannel =>
    host.createInvite member isOwner moment maxUses expiresInSecs targetChannel
  | .requestDeletion => host.requestDeletion member isOwner moment
  | .cancelDeletion => host.cancelDeletion member
  | .blockUser targetKey => host.blockUser member targetKey
  | .unblockUser targetKey => host.unblockUser member targetKey
  | .updateProfile profile => host.updateProfile member profile
  | .addBot label settings => host.addBot member isOwner moment label settings
  | .removeBot botPublicKey => host.removeBot member isOwner botPublicKey
  | .addCommand settings => host.addCommand member isOwner moment settings
  | .deleteCommand id => host.deleteCommand member isOwner id

end Host

variable {host : Host} {member : PublicKey} {isOwner : Bool} {moment : Moment}

inductive MemberEffect (host : Host) (member : PublicKey) (isOwner : Bool) (moment : Moment) :
    MemberRequest → Host → Prop
  | refused (request : MemberRequest) : MemberEffect host member isOwner moment request host
  | kickMember {memberKey : PublicKey}
      (hbelow : host.requireMemberBelow member isOwner memberKey kickMembers "KICK_MEMBERS" = .ok ())
      (hremovable : host.community.isSystemIdentity memberKey = false) :
      MemberEffect host member isOwner moment (.kickMember memberKey)
        (host.withCommunity (host.community.removeMember memberKey))
  | banMember {memberKey : PublicKey} {reason : Option String}
      (hbelow : host.requireMemberBelow member isOwner memberKey banMembers "BAN_MEMBERS" = .ok ())
      (hremovable : host.community.isSystemIdentity memberKey = false) :
      MemberEffect host member isOwner moment (.banMember memberKey reason)
        (host.withCommunity (host.community.banMember memberKey reason))
  | unbanMember {memberKey : PublicKey}
      (hperm : has (host.resolveBasePerms member isOwner) banMembers = true) :
      MemberEffect host member isOwner moment (.unbanMember memberKey)
        (host.withCommunity (host.community.unbanMember memberKey))
  | timeoutMember {memberKey : PublicKey} {untilMs : ℕ} {reason : Option String}
      (hbelow : host.requireMemberBelow member isOwner memberKey timeoutMembers "TIMEOUT_MEMBERS" =
        .ok ())
      (hrange : moment.nowMs < untilMs ∧ untilMs ≤ moment.nowMs + maxTimeoutMs) :
      MemberEffect host member isOwner moment (.timeoutMember memberKey untilMs reason)
        (host.withCommunity (host.community.setTimeout memberKey untilMs reason))
  | removeTimeout {memberKey : PublicKey}
      (hbelow : host.requireMemberBelow member isOwner memberKey timeoutMembers "TIMEOUT_MEMBERS" =
        .ok ()) :
      MemberEffect host member isOwner moment (.removeTimeout memberKey)
        (host.withCommunity (host.community.clearTimeout memberKey))
  | createInvite {maxUses expiresInSecs targetChannel : Option ℕ} {community : Community}
      (hperm : has (host.resolveBasePerms member isOwner) createInvites = true)
      (hinvite : host.community.createInvite member moment.code maxUses expiresInSecs
        targetChannel moment.now = .ok community) :
      MemberEffect host member isOwner moment (.createInvite maxUses expiresInSecs targetChannel)
        (host.withCommunity community)
  | requestDeletion {db : Db}
      (hrequest : host.db.requestDeletion member isOwner moment.now = .ok db) :
      MemberEffect host member isOwner moment .requestDeletion (host.withDb db)
  | cancelDeletion {db : Db} (hcancel : host.db.cancelDeletion member = .ok db) :
      MemberEffect host member isOwner moment .cancelDeletion (host.withDb db)
  | blockUser {targetKey : PublicKey} :
      MemberEffect host member isOwner moment (.blockUser targetKey)
        (host.withCommunity (host.community.blockUser member targetKey))
  | unblockUser {targetKey : PublicKey} :
      MemberEffect host member isOwner moment (.unblockUser targetKey)
        (host.withCommunity (host.community.unblockUser member targetKey))
  | updateProfile {profile : Profile} :
      MemberEffect host member isOwner moment (.updateProfile profile)
        (host.withCommunity (host.community.setMemberProfile member profile.displayName))
  | addBot {label : String} {settings : BotSettings} {registered community : Community}
      (hperm : has (host.resolveBasePerms member isOwner) manageServer = true)
      (hregister : host.community.registerMember moment.botKey label true moment.now =
        .ok registered)
      (hbot : registered.registerBot moment.botKey settings.kind = .ok community) :
      MemberEffect host member isOwner moment (.addBot label settings)
        (host.withCommunity community)
  | removeBotRow {botPublicKey : PublicKey}
      (hperm : has (host.resolveBasePerms member isOwner) manageServer = true)
      (hremovable : host.community.isSystemIdentity botPublicKey = false) :
      MemberEffect host member isOwner moment (.removeBot botPublicKey)
        (host.withCommunity (host.community.removeBot botPublicKey))
  | removeBot {botPublicKey : PublicKey} {community : Community}
      (hperm : has (host.resolveBasePerms member isOwner) manageServer = true)
      (hremovable : host.community.isSystemIdentity botPublicKey = false)
      (hremove : (host.community.removeBot botPublicKey).removeMemberRow botPublicKey =
        .ok community) :
      MemberEffect host member isOwner moment (.removeBot botPublicKey)
        (host.withCommunity community)
  | addCommand {settings : CommandSettings}
      (hperm : has (host.resolveBasePerms member isOwner) manageServer = true) :
      MemberEffect host member isOwner moment (.addCommand settings)
        (host.withCommunity (host.community.createCommand settings moment.botKey))
  | deleteCommand {id : ℕ} (hperm : has (host.resolveBasePerms member isOwner) manageServer = true) :
      MemberEffect host member isOwner moment (.deleteCommand id)
        (host.withCommunity { host.community with
          commands := host.community.commands.delete fun x => x.1 = id })

/-- A request that acts on another member needs a permission and a higher role. -/
theorem requireMemberBelow_eq_ok {target : PublicKey} {perm : Bits} {permName : String}
    {u : Unit} : host.requireMemberBelow member isOwner target perm permName = .ok u ↔
      has (host.resolveBasePerms member isOwner) perm = true ∧
        (isOwner = true ∨ host.community.getHighestRolePosition target <
          host.community.getHighestRolePosition member) := by
  simp only [Host.requireMemberBelow, bind_eq_ok, requireBasePerm_eq_ok,
    Host.requireMemberHierarchy, ensure_eq_ok, exists_and_left, exists_const]

theorem requireRemovable_eq_ok {target : PublicKey} {u : Unit} :
    host.requireRemovable target = .ok u ↔ host.community.isSystemIdentity target = false :=
  ensure_eq_ok

theorem memberRequest_effect (request : MemberRequest) :
    MemberEffect host member isOwner moment request
      (host.handleMemberRequest member isOwner moment request).1 := by
  cases request with
  | kickMember memberKey =>
    refine Host.commit_effect (.refused _) fun host' h => ?_
    simp only [bind_eq_ok, requireRemovable_eq_ok, pure_eq_ok] at h
    obtain ⟨⟨⟩, hbelow, ⟨⟩, hremovable, rfl⟩ := h
    exact .kickMember hbelow hremovable
  | banMember memberKey reason =>
    refine Host.commit_effect (.refused _) fun host' h => ?_
    simp only [bind_eq_ok, requireRemovable_eq_ok, pure_eq_ok] at h
    obtain ⟨⟨⟩, hbelow, ⟨⟩, hremovable, rfl⟩ := h
    exact .banMember hbelow hremovable
  | unbanMember memberKey =>
    refine Host.commit_effect (.refused _) fun host' h => ?_
    simp only [bind_eq_ok, requireBasePerm_eq_ok, pure_eq_ok] at h
    obtain ⟨⟨⟩, hperm, rfl⟩ := h
    exact .unbanMember hperm
  | timeoutMember memberKey untilMs reason =>
    refine Host.commit_effect (.refused _) fun host' h => ?_
    simp only [bind_eq_ok, ensure_eq_ok, pure_eq_ok] at h
    obtain ⟨⟨⟩, hbelow, ⟨⟩, hrange, rfl⟩ := h
    exact .timeoutMember hbelow hrange
  | removeTimeout memberKey =>
    refine Host.commit_effect (.refused _) fun host' h => ?_
    simp only [bind_eq_ok, pure_eq_ok] at h
    obtain ⟨⟨⟩, hbelow, rfl⟩ := h
    exact .removeTimeout hbelow
  | createInvite maxUses expiresInSecs targetChannel =>
    refine Host.commit_effect (.refused _) fun host' h => ?_
    simp only [bind_eq_ok, requireBasePerm_eq_ok, map_eq_ok] at h
    obtain ⟨⟨⟩, hperm, community, hinvite, rfl⟩ := h
    exact .createInvite hperm hinvite
  | requestDeletion =>
    refine Host.commit_effect (.refused _) fun host' h => ?_
    obtain ⟨db, hrequest, rfl⟩ := map_eq_ok.mp h
    exact .requestDeletion hrequest
  | cancelDeletion =>
    refine Host.commit_effect (.refused _) fun host' h => ?_
    obtain ⟨db, hcancel, rfl⟩ := map_eq_ok.mp h
    exact .cancelDeletion hcancel
  | blockUser targetKey =>
    refine Host.commit_effect (.refused _) fun host' h => ?_
    obtain rfl := pure_eq_ok.mp h
    exact .blockUser
  | unblockUser targetKey =>
    refine Host.commit_effect (.refused _) fun host' h => ?_
    obtain rfl := pure_eq_ok.mp h
    exact .unblockUser
  | updateProfile profile =>
    refine Host.commit_effect (.refused _) fun host' h => ?_
    simp only [bind_eq_ok, pure_eq_ok] at h
    obtain ⟨⟨⟩, -, ⟨⟩, -, ⟨⟩, -, ⟨⟩, -, ⟨⟩, -, ⟨⟩, -, ⟨⟩, -, rfl⟩ := h
    exact .updateProfile
  | addBot label settings =>
    refine Host.commit_effect (.refused _) fun host' h => ?_
    simp only [bind_eq_ok, requireBasePerm_eq_ok, map_eq_ok] at h
    obtain ⟨⟨⟩, hperm, ⟨⟩, -, registered, hregister, community, hbot, rfl⟩ := h
    exact .addBot hperm hregister hbot
  | removeBot botPublicKey =>
    simp only [Host.handleMemberRequest, Host.removeBot]
    split
    · exact .refused _
    · next host' h =>
      simp only [bind_eq_ok, requireBasePerm_eq_ok, requireRemovable_eq_ok, pure_eq_ok] at h
      obtain ⟨⟨⟩, hperm, ⟨⟩, hremovable, rfl⟩ := h
      refine Host.commit_effect (.removeBotRow hperm hremovable) fun host' h => ?_
      obtain ⟨community, hremove, rfl⟩ := map_eq_ok.mp h
      exact .removeBot hperm hremovable hremove
  | addCommand settings =>
    refine Host.commit_effect (.refused _) fun host' h => ?_
    simp only [bind_eq_ok, requireBasePerm_eq_ok, pure_eq_ok] at h
    obtain ⟨⟨⟩, hperm, ⟨⟩, -, ⟨⟩, -, ⟨⟩, -, rfl⟩ := h
    exact .addCommand hperm
  | deleteCommand id =>
    refine Host.commit_effect (.refused _) fun host' h => ?_
    simp only [bind_eq_ok, requireBasePerm_eq_ok, pure_eq_ok] at h
    obtain ⟨⟨⟩, hperm, rfl⟩ := h
    exact .deleteCommand hperm

end Server
