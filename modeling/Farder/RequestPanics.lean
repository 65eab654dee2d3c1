import Farder.Server.ChannelRows
import Farder.Server.SampleHost

/-! # Management requests and panics

Handlers read a row back after they have written it and unwrap it. A handler that has looked
for the row before finds it again; one that has not finds the rows that it has made itself. -/
namespace Server

open EventLog Guarded Permissions

variable {K : Crypto} {host : Host} {member : PublicKey} {isOwner : Bool} {moment : Moment}

def Request.isManagement : Request → Bool
  | .channel (.createChannel ..) => true
  | .channel (.updateChannel ..) => true
  | .channel (.deleteChannel _) => true
  | .channel (.createCategory ..) => true
  | .channel (.updateCategory ..) => true
  | .channel (.deleteCategory _) => true
  | .role (.createRole ..) => true
  | .role (.updateRole ..) => true
  | .role (.deleteRole _) => true
  | .role (.assignRole ..) => true
  | .message (.createThread ..) => true
  | .message (.editMessage ..) => true
  | .message (.openDm _) => true
  | .member (.createInvite ..) => true
  | .member (.timeoutMember ..) => true
  | _ => false

/-- A permitted request that updates a channel or a category without a live row, or makes an
invite that expires after the last moment a 64-bit word can hold. -/
def Host.Stumbles (host : Host) (member : PublicKey) (isOwner : Bool) (moment : Moment) :
    Request → Prop
  | .channel (.updateChannel channelId patch) =>
    host.requirePerm member isOwner channelId manageChannel "MANAGE_CHANNEL" = .ok () ∧
      host.requireCategory (if host.db.channelRowExists channelId then patch.categoryId.getD none
        else none) = .ok () ∧ host.db.getChannel channelId = none
  | .channel (.updateCategory categoryId _ _) =>
    has (host.resolveBasePerms member isOwner) manageServer = true ∧
      host.community.getCategory categoryId = none
  | .member (.createInvite _ expiresInSecs _) =>
    has (host.resolveBasePerms member isOwner) createInvites = true ∧
      ∃ secs ∈ expiresInSecs, 2 ^ 64 ≤ moment.now + secs
  | _ => False

/-! ## Rows that are read back -/

theorem getCategory_createCategory {c : Community} {name : String} {position : ℕ} :
    (c.createCategory name position).getCategory c.categories.next ≠ none := by
  have hrow : (c.categories.insert ⟨name, position, false⟩).get? c.categories.next =
      some ⟨name, position, false⟩ := Table.get?_eq_some.mpr (by simp)
  simp [Community.getCategory, Community.createCategory, hrow]

theorem getCategory_updateCategory {c : Community} {id : ℕ} {name : Option String}
    {position : Option ℕ} :
    (c.updateCategory id name position).getCategory id = none ↔ c.getCategory id = none := by
  simp only [Community.getCategory, Community.updateCategory, Table.modify, Table.get?_map,
    if_true]
  cases c.categories.get? id <;> simp

/-! ## Checks never panic -/

@[simp] theorem panics_requireBasePerm {perm : Bits} {permName : String} :
    ¬Panics (host.requireBasePerm member isOwner perm permName) :=
  panics_ensure _ _

@[simp] theorem panics_requirePerm {channelId : ℕ} {perm : Bits} {permName : String} :
    ¬Panics (host.requirePerm member isOwner channelId perm permName) :=
  panics_ensure _ _

@[simp] theorem panics_requireCategory {categoryId : Option ℕ} :
    ¬Panics (host.requireCategory categoryId) :=
  panics_ensureIfSome _ _ _

@[simp] theorem panics_requireRowId {db : Db} : ¬Panics db.requireRowId := panics_ensure _ _

@[simp] theorem panics_requireRoleHierarchy {position : ℕ} :
    ¬Panics (host.requireRoleHierarchy member isOwner position) :=
  panics_ensure _ _

@[simp] theorem panics_requireRoleBelow {roleId : ℕ} :
    ¬Panics (host.requireRoleBelow member isOwner roleId) := by
  simp [Host.requireRoleBelow]

@[simp] theorem panics_requireMemberBelow {target : PublicKey} {perm : Bits} {permName : String} :
    ¬Panics (host.requireMemberBelow member isOwner target perm permName) := by
  simp [Host.requireMemberBelow, Host.requireMemberHierarchy]

@[simp] theorem panics_requirePlaintextChannel {channelId : ℕ} :
    ¬Panics (host.requirePlaintextChannel member channelId) :=
  panics_ensure _ _

@[simp] theorem panics_buildMemberInfo {pk : PublicKey} {nowMs : ℕ} :
    ¬Panics (host.buildMemberInfo pk nowMs) := by
  simp [Host.buildMemberInfo]

@[simp] theorem panics_deleteRole {c : Community} {id : ℕ} : ¬Panics (c.deleteRole id) := by
  simp [Community.deleteRole]

@[simp] theorem panics_assignRole {c : Community} {pk : PublicKey} {roleId : ℕ} :
    ¬Panics (c.assignRole pk roleId) := by
  simp [Community.assignRole]

theorem panics_requestEditMessage {db : Db} {messageId : ℕ} {newContent : String}
    {speaksV2 : Bool} {now : ℕ} :
    ¬Panics (db.requestEditMessage member messageId newContent speaksV2 now) := by
  simp [Db.requestEditMessage, Db.editMessage, Db.requirePlaintext]

/-- The only sum of a management request: the moment at which an invite expires. -/
theorem panics_createInvite {c : Community} {code : String}
    {maxUses expiresInSecs targetChannel : Option ℕ} {now : ℕ} :
    Panics (c.createInvite member code maxUses expiresInSecs targetChannel now) ↔
      ∃ secs ∈ expiresInSecs, 2 ^ 64 ≤ now + secs := by
  cases expiresInSecs with
  | none => simp [Community.createInvite]
  | some secs =>
    simp [Community.createInvite, Community.addSecs]

theorem edited_row {db db' : Db} {messageId : ℕ} {newContent : String} {speaksV2 : Bool} {now : ℕ}
    (h : db.requestEditMessage member messageId newContent speaksV2 now = .ok db') :
    db'.messages.get? messageId ≠ none := by
  simp only [Db.requestEditMessage, Db.editMessage, bind_eq_ok, context_eq_ok, pure_eq_ok] at h
  obtain ⟨⟨⟩, -, row, hrow, ⟨⟩, -, ⟨⟩, -, row', -, ⟨⟩, -, rfl⟩ := h
  simp [Db.reindex, Table.modify, Table.get?_map, hrow]

theorem channelRequest_panics (request : ChannelRequest) :
    Panics (host.handleChannelRequest member isOwner request).2 ↔
      host.Stumbles member isOwner moment (.channel request) := by
  cases request with
  | createChannel name channelType categoryId position =>
    simp only [Host.handleChannelRequest, Host.createChannel, Host.panics_commit, panics_bind,
      panics_requireBasePerm, panics_requireCategory, panics_requireRowId, panics_pure,
      panics_expect, and_false, exists_false, or_false, false_or, Host.Stumbles, iff_false,
      not_exists, not_and]
    intro host' h
    simp only [bind_eq_ok, pure_eq_ok] at h
    obtain ⟨⟨⟩, -, ⟨⟩, -, ⟨⟩, -, rfl⟩ := h
    exact getChannel_insertChannel
  | updateChannel channelId patch =>
    simp only [Host.handleChannelRequest, Host.updateChannel, Host.panics_commit, panics_bind,
      panics_requirePerm, panics_requireCategory, panics_pure, panics_expect, and_false,
      exists_false, or_false, false_or, Host.Stumbles, bind_eq_ok, pure_eq_ok]
    constructor
    · rintro ⟨host', ⟨⟨⟩, hperm, ⟨⟩, hcategory, rfl⟩, hgone⟩
      exact ⟨hperm, hcategory, getChannel_patchChannel.mp hgone⟩
    · rintro ⟨hperm, hcategory, hgone⟩
      exact ⟨_, ⟨(), hperm, (), hcategory, rfl⟩, getChannel_patchChannel.mpr hgone⟩
  | deleteChannel channelId =>
    simp [Host.handleChannelRequest, Host.deleteChannel, Host.panics_commit, Host.Stumbles]
  | createCategory name position =>
    simp only [Host.handleChannelRequest, Host.createCategory, Host.panics_commit, panics_bind,
      panics_requireBasePerm, panics_pure, panics_expect, and_false, exists_false, or_false,
      Host.Stumbles, iff_false, not_exists, not_and, false_or]
    intro host' h
    simp only [bind_eq_ok, pure_eq_ok] at h
    obtain ⟨⟨⟩, -, rfl⟩ := h
    exact getCategory_createCategory
  | updateCategory categoryId name position =>
    simp only [Host.handleChannelRequest, Host.updateCategory, Host.panics_commit, panics_bind,
      panics_requireBasePerm, panics_pure, panics_expect, and_false, exists_false, or_false,
      false_or, Host.Stumbles, bind_eq_ok, pure_eq_ok, requireBasePerm_eq_ok]
    constructor
    · rintro ⟨host', ⟨⟨⟩, hperm, rfl⟩, hgone⟩
      exact ⟨hperm, getCategory_updateCategory.mp hgone⟩
    · rintro ⟨hperm, hgone⟩
      exact ⟨_, ⟨(), hperm, rfl⟩, getCategory_updateCategory.mpr hgone⟩
  | deleteCategory categoryId =>
    simp [Host.handleChannelRequest, Host.deleteCategory, Host.panics_commit, Host.Stumbles]
  | setChannelOverride channelId roleId allow deny =>
    simp [Host.handleChannelRequest, Host.setChannelOverride, Host.panics_commit, Host.Stumbles]
  | setCategoryOverride categoryId roleId allow deny =>
    simp [Host.handleChannelRequest, Host.setCategoryOverride, Host.panics_commit,
      Host.Stumbles]

theorem roleRequest_never_panics (request : RoleRequest) :
    ¬Panics (host.handleRoleRequest member isOwner request).2 := by
  cases request with
  | createRole name permissions color position hoist =>
    simp only [Host.handleRoleRequest, Host.createRole, Host.panics_commit, panics_bind,
      panics_requireBasePerm, panics_requireRoleHierarchy, panics_pure, panics_expect, and_false,
      exists_false, or_false, false_or, not_exists, not_and]
    intro host' h
    simp only [bind_eq_ok, pure_eq_ok] at h
    obtain ⟨⟨⟩, -, ⟨⟩, -, rfl⟩ := h
    exact getRole_createRole
  | updateRole roleId patch =>
    have hforAll : ¬Panics (forAll patch.position.toList
        (host.requireRoleHierarchy member isOwner)) :=
      not_panics_forAll fun _ _ => panics_requireRoleHierarchy
    simp only [Host.handleRoleRequest, Host.updateRole, Host.panics_commit, panics_bind,
      panics_requireRoleBelow, hforAll, panics_pure, panics_expect, and_false, exists_false,
      or_false, false_or, not_exists, not_and]
    intro host' h
    simp only [bind_eq_ok, pure_eq_ok] at h
    obtain ⟨role, hbelow, ⟨⟩, -, rfl⟩ := h
    rw [requireRoleBelow_eq_ok] at hbelow
    intro hgone
    simp [getRole_updateRole.mp hgone] at hbelow
  | deleteRole roleId =>
    simp [Host.handleRoleRequest, Host.deleteRole, Host.panics_commit]
  | assignRole memberKey roleId =>
    simp [Host.handleRoleRequest, Host.assignRole, Host.panics_commit]
  | removeRole memberKey roleId =>
    simp [Host.handleRoleRequest, Host.removeRole, Host.panics_commit]

theorem createThread_never_panics {messageId : ℕ} {name : Option String} :
    ¬Panics (host.createThread member isOwner messageId name).2 := by
  simp only [Host.createThread, Host.panics_commit, panics_bind, panics_context,
    panics_requirePerm, panics_requirePlaintextChannel, panics_ensure, panics_requireRowId,
    panics_pure, panics_expect, and_false, exists_false, or_false, false_or, not_exists, not_and]
  intro host' h
  simp only [bind_eq_ok, pure_eq_ok] at h
  obtain ⟨row, -, ⟨⟩, -, ⟨⟩, -, parent, -, ⟨⟩, -, ⟨⟩, -, ⟨⟩, -, rfl⟩ := h
  exact getChannel_insertChannel

theorem editMessage_never_panics {messageId : ℕ} {newContent : String} :
    ¬Panics (host.editMessage member moment messageId newContent).2 := by
  simp only [Host.editMessage, Host.panics_commit, panics_map, panics_requestEditMessage,
    panics_bind, panics_pure, panics_expect, and_false, exists_false, or_false, false_or,
    not_exists, not_and]
  intro host' h
  obtain ⟨db, hedit, rfl⟩ := map_eq_ok.mp h
  exact edited_row hedit

theorem dispatch_panics {request : Request} (h : request.isManagement = true) :
    Panics (host.dispatch K member isOwner moment request).2 ↔
      host.Stumbles member isOwner moment request := by
  match request with
  | .channel request => exact channelRequest_panics request
  | .role request => exact iff_of_false (roleRequest_never_panics request) (by simp [Host.Stumbles])
  | .message (.createThread ..) => exact iff_of_false createThread_never_panics id
  | .message (.editMessage ..) => exact iff_of_false editMessage_never_panics id
  | .message (.openDm targetKey) =>
    simp [Host.dispatch, Host.handleMessageRequest, Host.openDm, Host.panics_commit,
      Host.Stumbles]
  | .member (.createInvite ..) =>
    simp [Host.dispatch, Host.handleMemberRequest, Host.createInvite, Host.panics_commit,
      Host.Stumbles, panics_createInvite]
  | .member (.timeoutMember ..) =>
    simp [Host.dispatch, Host.handleMemberRequest, Host.timeoutMember, Host.panics_commit,
      Host.Stumbles]

theorem requiresMembership_of_isManagement {request : Request}
    (h : request.isManagement = true) : request.requiresMembership = true := by
  cases request with
  | submitEvent _ => simp [Request.isManagement] at h
  | negotiateProtocol _ => simp [Request.isManagement] at h
  | bootstrap => simp [Request.isManagement] at h
  | _ => rfl

/-- A management request returns a response or an error, if and only if it does not pass the
gate and its permission check to read back a row that is not live, or to compute a moment that
does not fit. -/
theorem management_request_returns_iff {request : Request} (h : request.isManagement = true) :
    ¬Panics (host.handleRequest K member isOwner moment request).2 ↔
      (host.contentBlockReason member = none → ¬host.Stumbles member isOwner moment request) := by
  cases hgate : host.contentBlockReason member with
  | some reason =>
    rw [Host.handleRequest_of_blocked (requiresMembership_of_isManagement h) hgate]
    exact iff_of_true (panics_rejected reason) nofun
  | none =>
    rw [Host.handleRequest_of_open hgate, dispatch_panics h]
    exact ⟨fun hsafe _ => hsafe, fun hsafe => hsafe rfl⟩

open SampleLog SampleHost

def emptyPatch : ChannelPatch := ⟨none, none, none, none, none, none, none⟩

/-- The owner creates a category. -/
theorem management_request_returns_iff_createCategory :
    let host := hostAfter joined
    ¬Panics (host.handleRequest crypto (key alice) true (momentAt 9)
        (.channel (.createCategory "News" none))).2 ↔
      (host.contentBlockReason (key alice) = none → ¬host.Stumbles (key alice) true (momentAt 9)
        (.channel (.createCategory "News" none))) :=
  management_request_returns_iff rfl

/-- The owner names a channel that never existed, or one that has been deleted. -/
theorem updateChannel_panics :
    let deleted := joined ++ requests 8 [(alice, .channel (.deleteChannel 1))]
    HostRun crypto start (path joined) (hostAfter joined) ∧
      HostRun crypto start (path deleted) (hostAfter deleted) ∧
      Panics ((hostAfter joined).handleRequest crypto (key alice) true (momentAt 9)
        (.channel (.updateChannel 7 emptyPatch))).2 ∧
      Panics ((hostAfter deleted).handleRequest crypto (key alice) true (momentAt 9)
        (.channel (.updateChannel 1 emptyPatch))).2 :=
  ⟨run_path _, run_path _, by decide +kernel, by decide +kernel⟩

end Server
