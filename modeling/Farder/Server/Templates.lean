import Farder.Server.MessageRequests

/-! # The first run of a server

A server whose database has no members is set up with one of the templates that it is built with:
roles, and channels in categories. -/
namespace Server

open EventLog Guarded Permissions

structure TemplateRole where
  name : String
  permissions : Bits
  color : Option String
  position : ℕ
  deriving DecidableEq, Repr

structure TemplateChannel where
  name : String
  channelType : String
  deriving DecidableEq, Repr

structure TemplateCategory where
  name : String
  channels : List TemplateChannel
  deriving DecidableEq, Repr

structure Template where
  roles : List TemplateRole
  categories : List TemplateCategory
  deriving DecidableEq, Repr

namespace Template

def blank : Template := ⟨[], [⟨"General", [⟨"general", "text"⟩]⟩]⟩

def friendGroup : Template :=
  ⟨[], [⟨"General", [⟨"general", "text"⟩, ⟨"media", "text"⟩]⟩]⟩

/-- The roles of the larger templates. The first has all bits but the last one. -/
def staff (second secondColor third : String) : List TemplateRole :=
  [⟨"Admin", 16383, some "#FF0000", 3⟩, ⟨second, 2191, some secondColor, 2⟩,
    ⟨third, 8199, none, 1⟩]

def gamingCommunity : Template where
  roles := staff "Moderator" "#00FF00" "Member"
  categories :=
    [⟨"General", [⟨"welcome", "announcement"⟩, ⟨"chat", "text"⟩]⟩,
     ⟨"Gaming", [⟨"looking-for-group", "text"⟩, ⟨"game-night", "text"⟩]⟩,
     ⟨"Staff Only", [⟨"mod-chat", "text"⟩]⟩]

def organization : Template where
  roles := staff "Manager" "#0066FF" "Member"
  categories :=
    [⟨"General", [⟨"announcements", "announcement"⟩, ⟨"general", "text"⟩]⟩,
     ⟨"Projects", [⟨"project-updates", "text"⟩, ⟨"ideas", "text"⟩]⟩]

def publicCommunity : Template where
  roles := staff "Moderator" "#00FF00" "Verified"
  categories :=
    [⟨"Information", [⟨"rules", "announcement"⟩, ⟨"introductions", "text"⟩]⟩,
     ⟨"Community", [⟨"general", "text"⟩, ⟨"off-topic", "text"⟩]⟩]

/-- The built-in templates, each under the name that an argument gives it by. -/
def builtin : List (String × Template) :=
  [("blank", blank), ("friend-group", friendGroup), ("gaming-community", gamingCommunity),
    ("organization", organization), ("public-community", publicCommunity)]

/-- The template of an argument; without one of its name, the blank one. -/
def named (name : String) : Template :=
  ((builtin.find? fun x => x.1 = name).map Prod.snd).getD blank

def channelCount (template : Template) : ℕ :=
  (template.categories.flatMap fun category => category.channels).length

theorem named_mem (name : String) : named name ∈ builtin.map Prod.snd := by
  unfold named
  cases hfound : builtin.find? fun x => x.1 = name with
  | none => exact List.mem_cons_self
  | some x => exact List.mem_map_of_mem (List.mem_of_find?_eq_some hfound)

end Template

/-- What a server is started with. -/
structure Setup where
  setupToken : String
  template : String
  maxFileSize : ℕ

namespace Host

def createTemplateRole (host : Host) (role : TemplateRole) : Host :=
  host.withCommunity
    (host.community.createRole role.name role.permissions role.color role.position false false)

def createTemplateChannel (categoryId : ℕ) (host : Host) (channel : TemplateChannel × ℕ) : Host :=
  host.insertChannel channel.1.name
    (if channel.1.channelType = "announcement" then .announcement else .text) channel.2
    { ChannelInfo.empty with categoryId := some categoryId }

def createTemplateCategory (host : Host) (category : TemplateCategory × ℕ) : Host :=
  category.1.channels.zipIdx.foldl (createTemplateChannel host.community.categories.next)
    (host.withCommunity (host.community.createCategory category.1.name category.2))

def applyTemplate (host : Host) (template : Template) : Host :=
  template.categories.zipIdx.foldl createTemplateCategory
    (template.roles.foldl createTemplateRole host)

/-- A start on a database without members: the role of all members, and a template. -/
def setUp (host : Host) (setup : Setup) : Host :=
  let everyone := host.community.createRole everyoneRole defaultEveryone none 0 true false
  { host with
    community := everyone
    owner := none
    setupToken := some setup.setupToken
    clientProtocol := ∅
    maxFileSize := setup.maxFileSize
    running := [] }.applyTemplate (.named setup.template)

/-- A new server. -/
def firstRun (setup : Setup) : Host :=
  setUp ⟨⟨.empty, none⟩, .empty, none, none, ∅, 0, []⟩ setup

theorem applyTemplate_rule {P : Host → Prop} {host : Host} {template : Template} (h : P host)
    (hrole : ∀ host role, P host → P (createTemplateRole host role))
    (hcategory : ∀ (host : Host) name position, P host →
      P (host.withCommunity (host.community.createCategory name position)))
    (hchannel : ∀ host name channelType position info, P host →
      P (insertChannel host name channelType position info)) :
    P (host.applyTemplate template) := by
  refine List.foldlRecOn _ _ (List.foldlRecOn _ _ h fun host h role _ => hrole host role h)
    fun host h category _ => ?_
  exact List.foldlRecOn _ _ (hcategory host _ _ h) fun host h channel _ =>
    hchannel host _ _ _ _ h

/-- What neither channels nor the tables of the community bear on, a template leaves alone. -/
theorem setUp_frame {α : Type} {host : Host} {setup : Setup} (f : Host → α)
    (hcommunity : ∀ host community, f (withCommunity host community) = f host)
    (hchannel : ∀ host name channelType position info,
      f (insertChannel host name channelType position info) = f host) :
    f (host.setUp setup) = f { host with
      owner := none
      setupToken := some setup.setupToken
      clientProtocol := ∅
      maxFileSize := setup.maxFileSize
      running := [] } := by
  refine applyTemplate_rule (P := fun host' => f host' = _) ?_
    (fun host _ h => (hcommunity host _).trans h) (fun host _ _ h => (hcommunity host _).trans h)
    fun host _ _ _ _ h => (hchannel host _ _ _ _).trans h
  exact hcommunity { host with
    owner := none
    setupToken := some setup.setupToken
    clientProtocol := ∅
    maxFileSize := setup.maxFileSize
    running := [] } _

theorem firstRun_db (setup : Setup) : ∃ channels nextChannel,
    (firstRun setup).db = { Db.empty with channels, nextChannel } := by
  refine applyTemplate_rule (P := fun host => ∃ channels nextChannel,
    host.db = { Db.empty with channels, nextChannel }) ⟨_, _, rfl⟩ (fun _ _ => id)
    (fun _ _ _ => id) fun host name channelType position info h => ?_
  obtain ⟨channels, nextChannel, hdb⟩ := h
  refine ⟨channels ++ [⟨nextChannel, name, channelType, position, none, false, some .plaintext⟩],
    nextChannel + 1, ?_⟩
  show host.db.createChannel name channelType position = _
  rw [hdb]
  rfl

@[simp] theorem setUp_owner {host : Host} {setup : Setup} : (host.setUp setup).owner = none :=
  setUp_frame Host.owner (fun _ _ => rfl) fun _ _ _ _ _ => rfl

@[simp] theorem setUp_setupToken {host : Host} {setup : Setup} :
    (host.setUp setup).setupToken = some setup.setupToken :=
  setUp_frame Host.setupToken (fun _ _ => rfl) fun _ _ _ _ _ => rfl

@[simp] theorem setUp_genesis {host : Host} {setup : Setup} :
    (host.setUp setup).db.genesis = host.db.genesis :=
  setUp_frame (fun host => host.db.genesis) (fun _ _ => rfl) fun _ _ _ _ _ => rfl

end Host
end Server
