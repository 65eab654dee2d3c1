import Farder.Server.ChannelRows
import Farder.Server.Places
import Farder.Server.SampleHost

/-! # Threads, deleted channels, and who sees them

A thread takes over the category of its parent channel when it is created, but has overrides of
its own; a deleted channel is in no category. Where each role is allowed no more and denied no
less in the thread than in the parent, the thread gives nobody more; and a deletion gives nobody
more who got from its roles nothing that only the category took away. -/
namespace Permissions

variable {ctx ctx' : ResolutionContext} {i : ℕ}

/-- The first override allows no more than the second, and denies no less. -/
def Narrower (o o' : Option Override) : Prop :=
  ∀ i, ((∃ a ∈ o, a.allow.getLsbD i = true) → ∃ a ∈ o', a.allow.getLsbD i = true) ∧
    ((∃ a ∈ o', a.deny.getLsbD i = true) → ∃ a ∈ o, a.deny.getLsbD i = true)

theorem Narrower.refl (o : Option Override) : Narrower o o := fun _ => ⟨id, id⟩

theorem allowed_of_narrower {roleIds : List ℕ} {f f' : ℕ → Option Override}
    (h : ∀ r ∈ roleIds, Narrower (f r) (f' r)) (hallowed : Allowed (roleIds.filterMap f) i) :
    Allowed (roleIds.filterMap f') i := by
  rw [allowed_filterMap] at hallowed ⊢
  obtain ⟨r, hr, hallow⟩ := hallowed
  exact ⟨r, hr, (h r hr i).1 hallow⟩

theorem spared_of_narrower {roleIds : List ℕ} {f f' : ℕ → Option Override}
    (h : ∀ r ∈ roleIds, Narrower (f r) (f' r)) (hspared : Spared (roleIds.filterMap f) i) :
    Spared (roleIds.filterMap f') i := by
  rw [spared_filterMap] at hspared ⊢
  intro r hr o ho
  refine Bool.eq_false_iff.mpr fun hdeny => ?_
  obtain ⟨a, ha, hdeny⟩ := (h r hr i).2 ⟨o, ho, hdeny⟩
  simp [hspared r hr a ha] at hdeny

theorem gives_of_narrower (hbase : ctx.base = ctx'.base)
    (hcategory : ctx.categoryOverrides = ctx'.categoryOverrides)
    (hallowed : ∀ i, Allowed ctx.channelOverrides i → Allowed ctx'.channelOverrides i)
    (hspared : ∀ i, Spared ctx.channelOverrides i → Spared ctx'.channelOverrides i)
    (h : ctx.Gives i) : ctx'.Gives i := by
  simp only [ResolutionContext.Gives, ResolutionContext.Inherits, hbase, hcategory] at h ⊢
  rcases h with hallow | ⟨hspare, hinherits⟩ | hadmin
  · exact .inl (hallowed i hallow)
  · exact .inr (.inl ⟨hspared i hspare, hinherits⟩)
  · exact .inr (.inr hadmin)

theorem gives_without_category (hnone : ctx'.categoryOverrides = [])
    (hbase : ctx'.base = ctx.base) (hchannel : ctx'.channelOverrides = ctx.channelOverrides) :
    ctx'.Gives i ↔ Allowed ctx.channelOverrides i ∨
      Spared ctx.channelOverrides i ∧ ctx.base.getLsbD i = true ∨
        i = 12 ∧ ctx.base.getLsbD i = true := by
  simp [ResolutionContext.Gives, ResolutionContext.Inherits, hnone, hbase, hchannel, Allowed,
    Spared]

/-- What the category takes from the roles is not given back by the channel. -/
def ResolutionContext.DeniedAnyway (ctx : ResolutionContext) : Prop :=
  ctx.isOwner = true ∨ ctx.Gives 12 ∨ ∀ i, allPermissions.getLsbD i = true →
    ctx.base.getLsbD i = true → Spared ctx.channelOverrides i →
      Allowed ctx.channelOverrides i ∨ ctx.Inherits i

/-- One set of bits gives no permission that another does not. -/
def GivesWithin (inner outer : Bits) : Prop :=
  ∀ i, allPermissions.getLsbD i = true → inner.getLsbD i = true → outer.getLsbD i = true

theorem within_without_category_iff (howner : ctx'.isOwner = ctx.isOwner)
    (hnone : ctx'.categoryOverrides = []) (hbase : ctx'.base = ctx.base)
    (hchannel : ctx'.channelOverrides = ctx.channelOverrides) :
    GivesWithin (resolve ctx') (resolve ctx) ↔ ctx.DeniedAnyway := by
  have hgives := fun i => @gives_without_category ctx ctx' i hnone hbase hchannel
  constructor
  · intro hwithin
    by_cases hadmin : ctx.isOwner = true ∨ ctx.Gives 12
    · exact hadmin.imp_right .inl
    · refine .inr (.inr fun i hi hbit hspared => ?_)
      have hgiven := hwithin i hi ((resolve_bit_iff hi).mpr
        (.inr (.inr ((hgives i).mpr (.inr (.inl ⟨hspared, hbit⟩))))))
      rw [resolve_bit_iff hi, ← or_assoc, or_iff_right hadmin] at hgiven
      rcases hgiven with hallow | ⟨-, hinherits⟩ | ⟨rfl, hbit⟩
      · exact .inl hallow
      · exact .inr hinherits
      · exact absurd (.inr (.inr (.inr ⟨rfl, hbit⟩))) hadmin
  · intro hdenied i hi hinner
    rw [resolve_bit_iff hi] at hinner ⊢
    rcases hdenied with hown | hadmin | hdenied
    · exact .inl hown
    · exact .inr (.inl hadmin)
    · have hkept : ∀ i, allPermissions.getLsbD i = true → ctx'.Gives i → ctx.Gives i := by
        intro i hi hgiven
        rcases (hgives i).mp hgiven with hallow | ⟨hspared, hbit⟩ | hadmin
        · exact .inl hallow
        · exact (hdenied i hi hbit hspared).imp_right fun hinherits => .inl ⟨hspared, hinherits⟩
        · exact .inr (.inr hadmin)
      exact hinner.imp (fun hown => howner ▸ hown)
        (Or.imp (hkept 12 (by decide)) (hkept i hi))

end Permissions

namespace Server

open EventLog Guarded Permissions

/-- An operation that writes no override of the parent or the thread by which a role would be
allowed more or denied less in the thread, deletes neither, and moves neither to a category. -/
def HostOp.KeepsThread (host : Host) (parent thread : ℕ) : HostOp → Prop
  | .request _ _ (.channel (.setChannelOverride id roleId allow deny)) =>
    (id = parent →
      Narrower (host.channelOverride (.channel thread) roleId) (some ⟨allow, deny⟩)) ∧
    (id = thread →
      Narrower (some ⟨allow, deny⟩) (host.channelOverride (.channel parent) roleId))
  | .request _ _ (.channel (.deleteChannel id)) => id ≠ parent ∧ id ≠ thread
  | .request _ _ (.channel (.updateChannel id patch)) =>
    id = parent ∨ id = thread → patch.categoryId = none
  | _ => True

variable {K : Crypto} {host host' : Host} {member : PublicKey} {isOwner : Bool} {moment : Moment}
  {parent thread channelId : ℕ}

open Host

theorem within_of_narrower
    (hcategory : host.categoryAt (.channel thread) = host.categoryAt (.channel parent))
    (hnarrower : ∀ r ∈ host.community.getMemberRoleIds member,
      Narrower (host.channelOverride (.channel thread) r)
        (host.channelOverride (.channel parent) r)) :
    GivesWithin (host.resolveMemberPerms member isOwner thread)
      (host.resolveMemberPerms member isOwner parent) := by
  have hgives : ∀ i, (host.contextOf member isOwner (.channel thread)).Gives i →
      (host.contextOf member isOwner (.channel parent)).Gives i := by
    intro i
    refine gives_of_narrower rfl ?_ (fun i => ?_) fun i => ?_
    · have hsame : host.categoryOverride (.channel thread) =
          host.categoryOverride (.channel parent) := by
        funext r
        rw [categoryOverride, hcategory, categoryOverride]
      rw [categoryOverrides_of, categoryOverrides_of, hsame]
    · rw [channelOverrides_of, channelOverrides_of]
      exact allowed_of_narrower hnarrower
    · rw [channelOverrides_of, channelOverrides_of]
      exact spared_of_narrower hnarrower
  intro i hi hinner
  have hbits := fun place => @resolve_bit_iff (host.contextOf member isOwner place) i hi
  refine (hbits (.channel parent)).mpr ?_
  rcases (hbits (.channel thread)).mp hinner with howner | hadmin | hgiven
  · exact .inl howner
  · exact .inr (.inl (hgives 12 hadmin))
  · exact .inr (.inr (hgives i hgiven))

theorem getChannel_softDeleteChannel :
    (host.db.softDeleteChannel channelId).getChannel channelId = none := by
  simp only [Db.softDeleteChannel, Db.getChannel, List.find?_eq_none, List.mem_map]
  rintro _ ⟨ch, -, rfl⟩
  split_ifs with hid <;> simp [hid]

/-- A deletion takes the channel out of its category, and changes nothing else that counts. -/
theorem deleted_within_iff :
    GivesWithin ((host.withDb (host.db.softDeleteChannel channelId)).resolveMemberPerms member
        isOwner channelId) (host.resolveMemberPerms member isOwner channelId) ↔
      (host.channelContext member isOwner channelId).DeniedAnyway := by
  refine within_without_category_iff rfl ?_ rfl rfl
  have hgone : (host.withDb (host.db.softDeleteChannel channelId)).db.getChannel channelId = none :=
    getChannel_softDeleteChannel
  simp only [channelContext, hgone, Option.bind_none, Option.map_none, Option.getD_none]

/-! ## What keeps a thread within its parent -/

/-- Both are there, in the same category, and no role is allowed more or denied less in the
thread. -/
structure Host.ThreadWithin (host : Host) (parent thread : ℕ) : Prop where
  bounded : host.db.IdsBounded
  hasParent : host.db.getChannel parent ≠ none
  hasThread : host.db.getChannel thread ≠ none
  category : (host.community.channelInfo thread).categoryId =
    (host.community.channelInfo parent).categoryId
  overrides : ∀ r, Narrower (host.channelOverride (.channel thread) r)
    (host.channelOverride (.channel parent) r)

/-- No channel is written, and no override. -/
structure Host.KeepsPlaces (host host' : Host) : Prop where
  channels : host'.db.channels = host.db.channels
  nextChannel : host'.db.nextChannel = host.db.nextChannel
  info : host'.community.channelInfo = host.community.channelInfo
  overrides : host'.community.channelOverrides = host.community.channelOverrides

theorem mem_ids_of_getChannel {db : Db} {id : ℕ} (h : db.getChannel id ≠ none) :
    id ∈ db.channelIds := by
  obtain ⟨ch, hch⟩ := Option.ne_none_iff_exists'.mp h
  have hid := List.find?_some hch
  simp only [decide_eq_true_eq] at hid
  exact List.mem_map.mpr ⟨ch, List.mem_of_find?_eq_some hch, hid.1⟩

theorem getChannel_insertChannel_kept {id : ℕ} {name : String} {channelType : ChannelType}
    {position : ℕ} {info : ChannelInfo} (h : host.db.getChannel id ≠ none) :
    (host.insertChannel name channelType position info).db.getChannel id ≠ none := by
  obtain ⟨ch, hch⟩ := Option.ne_none_iff_exists'.mp h
  have hkept : (host.insertChannel name channelType position info).db.getChannel id = some ch := by
    simp only [Host.insertChannel, Db.createChannel, Db.getChannel, List.find?_append]
    exact Option.or_eq_some_iff.mpr (.inl hch)
  rw [hkept]
  exact Option.some_ne_none ch

theorem bounded_insertChannel {name : String} {channelType : ChannelType} {position : ℕ}
    {info : ChannelInfo} (h : host.db.IdsBounded) (hroom : host.db.HasRowId) :
    (host.insertChannel name channelType position info).db.IdsBounded := by
  have hids : (host.insertChannel name channelType position info).db.channelIds =
      host.db.channelIds ++ [host.db.nextChannel] := List.map_append
  exact h.created hroom hids rfl

theorem ne_next_of_getChannel {db : Db} {id : ℕ} (h : db.IdsBounded) (hroom : db.HasRowId)
    (hthere : db.getChannel id ≠ none) : id ≠ db.nextChannel := by
  rintro rfl
  exact h.next_notMem hroom (mem_ids_of_getChannel hthere)

namespace Host.ThreadWithin

theorem within (h : host.ThreadWithin parent thread) :
    GivesWithin (host.resolveMemberPerms member isOwner thread)
      (host.resolveMemberPerms member isOwner parent) := by
  refine within_of_narrower ?_ fun r _ => h.overrides r
  obtain ⟨ch, hch⟩ := Option.ne_none_iff_exists'.mp h.hasParent
  obtain ⟨ch', hch'⟩ := Option.ne_none_iff_exists'.mp h.hasThread
  simp only [categoryAt, hch, hch', Option.bind_some, h.category]

theorem places (h : host.ThreadWithin parent thread) (hkept : host.KeepsPlaces host') :
    host'.ThreadWithin parent thread := by
  obtain ⟨hchannels, hnext, hinfo, hoverrides⟩ := hkept
  constructor
  · rw [Db.IdsBounded, Db.channelIds, hchannels, hnext]
    exact h.bounded
  · rw [Db.getChannel, hchannels]
    exact h.hasParent
  · rw [Db.getChannel, hchannels]
    exact h.hasThread
  · rw [hinfo]
    exact h.category
  · simp only [channelOverride, hoverrides]
    exact h.overrides

theorem insertChannel (h : host.ThreadWithin parent thread) (name : String)
    (channelType : ChannelType) (position : ℕ) (info : ChannelInfo)
    (hroom : host.db.HasRowId) :
    (host.insertChannel name channelType position info).ThreadWithin parent thread := by
  have hinfo : ∀ id, host.db.getChannel id ≠ none →
      (host.insertChannel name channelType position info).community.channelInfo id =
        host.community.channelInfo id := by
    intro id hid
    have hne := ne_next_of_getChannel h.bounded hroom hid
    simp only [Host.insertChannel, Community.updateChannelInfo, Function.update_of_ne hne]
  refine ⟨bounded_insertChannel h.bounded hroom, getChannel_insertChannel_kept h.hasParent,
    getChannel_insertChannel_kept h.hasThread, ?_, h.overrides⟩
  rw [hinfo _ h.hasParent, hinfo _ h.hasThread]
  exact h.category

theorem declareChannel (h : host.ThreadWithin parent thread) {id : ℕ} {row : ChannelRow}
    {info : ChannelInfo → ChannelInfo} (hfree : id ∉ host.db.channelIds) (hid : row.id = id)
    (htable : host'.db.catalogue =
      (host.db.channels ++ [row], host.db.nextAfter id, host.db.genesis))
    (hcommunity : host'.community = host.community.updateChannelInfo id info) :
    host'.ThreadWithin parent thread := by
  have hrows : host'.db.channels = host.db.channels ++ [row] := congrArg Prod.fst htable
  have hnext : host'.db.nextChannel = host.db.nextAfter id :=
    congrArg (fun c => c.2.1) htable
  have hfound : ∀ k, host.db.getChannel k ≠ none → host'.db.getChannel k ≠ none := by
    intro k hk
    obtain ⟨ch, hch⟩ := Option.ne_none_iff_exists'.mp hk
    have hkept : host'.db.getChannel k = some ch := by
      rw [Db.getChannel, hrows, List.find?_append]
      exact Option.or_eq_some_iff.mpr (.inl hch)
    rw [hkept]
    exact Option.some_ne_none ch
  have hinfo : ∀ k, host.db.getChannel k ≠ none →
      host'.community.channelInfo k = host.community.channelInfo k := by
    intro k hk
    have hne : k ≠ id := fun heq => hfree (heq ▸ mem_ids_of_getChannel hk)
    rw [hcommunity]
    exact Function.update_of_ne hne _ _
  have hids : host'.db.channelIds = host.db.channelIds ++ [id] := by
    rw [Db.channelIds, hrows, List.map_append, List.map_singleton, hid]
    rfl
  refine ⟨h.bounded.declared hids hnext, hfound _ h.hasParent, hfound _ h.hasThread, ?_, ?_⟩
  · rw [hinfo _ h.hasParent, hinfo _ h.hasThread]
    exact h.category
  · simp only [channelOverride, hcommunity]
    exact h.overrides

theorem patchChannel (h : host.ThreadWithin parent thread) {id : ℕ} {patch : ChannelPatch}
    (hkeeps : id = parent ∨ id = thread → patch.categoryId = none) :
    (host.patchChannel id patch).ThreadWithin parent thread := by
  have hids : (host.patchChannel id patch).db.channelIds = host.db.channelIds := by
    simp only [Host.patchChannel, Db.updateChannel, Db.channelIds, List.map_map]
    refine List.map_congr_left fun ch _ => ?_
    simp only [Function.comp_apply]
    split_ifs <;> rfl
  have hcategory : ∀ k, k = parent ∨ k = thread →
      ((host.patchChannel id patch).community.channelInfo k).categoryId =
        (host.community.channelInfo k).categoryId := by
    intro k hk
    simp only [Host.patchChannel, Community.updateChannelInfo, Function.update_apply]
    split_ifs with hid
    · subst hid
      simp only [ChannelPatch.applyInfo, hkeeps hk, Option.getD_none]
    · rfl
  refine ⟨?_, mt getChannel_patchChannel.mp h.hasParent,
    mt getChannel_patchChannel.mp h.hasThread, ?_, h.overrides⟩
  · rw [Db.IdsBounded, hids]
    exact h.bounded
  · rw [hcategory _ (.inl rfl), hcategory _ (.inr rfl)]
    exact h.category

theorem softDeleteChannel (h : host.ThreadWithin parent thread) {id : ℕ} (hparent : id ≠ parent)
    (hthread : id ≠ thread) :
    (host.withDb (host.db.softDeleteChannel id)).ThreadWithin parent thread := by
  have hids : (host.db.softDeleteChannel id).channelIds = host.db.channelIds := by
    simp only [Db.softDeleteChannel, Db.channelIds, List.map_map]
    refine List.map_congr_left fun ch _ => ?_
    simp only [Function.comp_apply]
    split_ifs <;> rfl
  have hfound : ∀ k, k ≠ id → host.db.getChannel k ≠ none →
      (host.db.softDeleteChannel id).getChannel k ≠ none := by
    intro k hk
    refine mt fun hnone => ?_
    simp only [Db.softDeleteChannel, Db.getChannel, List.find?_eq_none, List.mem_map,
      forall_exists_index, and_imp, forall_apply_eq_imp_iff₂] at hnone ⊢
    intro ch hch
    have hnone := hnone ch hch
    split_ifs at hnone with hid
    · simp [hid, Ne.symm hk]
    · exact hnone
  refine ⟨?_, hfound _ hparent.symm h.hasParent, hfound _ hthread.symm h.hasThread, h.category,
    h.overrides⟩
  show ∀ k ∈ (host.db.softDeleteChannel id).channelIds, _
  rw [hids]
  exact h.bounded

theorem deleteCategory (h : host.ThreadWithin parent thread) {id : ℕ} :
    (host.withCommunity (host.community.deleteCategory id)).ThreadWithin parent thread := by
  refine ⟨h.bounded, h.hasParent, h.hasThread, ?_, h.overrides⟩
  simp only [Host.withCommunity, Community.deleteCategory, Community.leaveCategory]
  rw [h.category]
  split_ifs
  · rfl
  · exact h.category

theorem setChannelOverride (h : host.ThreadWithin parent thread) (hne : thread ≠ parent)
    {id roleId : ℕ} {allow deny : Bits}
    (hparent : id = parent →
      Narrower (host.channelOverride (.channel thread) roleId) (some ⟨allow, deny⟩))
    (hthread : id = thread →
      Narrower (some ⟨allow, deny⟩) (host.channelOverride (.channel parent) roleId)) :
    (host.withCommunity (host.community.setChannelOverride id roleId allow deny)).ThreadWithin
      parent thread := by
  refine ⟨h.bounded, h.hasParent, h.hasThread, h.category, fun r => ?_⟩
  have hwritten : ∀ k, (host.withCommunity (host.community.setChannelOverride id roleId allow
      deny)).channelOverride (.channel k) r =
        if k = id ∧ r = roleId then some ⟨allow, deny⟩
        else host.channelOverride (.channel k) r := by
    intro k
    simp only [channelOverride, Host.withCommunity, Community.setChannelOverride,
      FiniteMap.lookup_insert_eq, Prod.mk.injEq]
  rw [hwritten, hwritten]
  by_cases hr : r = roleId
  · subst hr
    by_cases hp : id = parent
    · subst hp
      simpa [hne] using hparent rfl
    · by_cases ht : id = thread
      · subst ht
        simpa [Ne.symm hne] using hthread rfl
      · simpa [Ne.symm hp, Ne.symm ht] using h.overrides r
  · simpa [hr] using h.overrides r

theorem deleteRole (h : host.ThreadWithin parent thread) {id : ℕ} {community : Community}
    (hdelete : host.community.deleteRole id = .ok community) :
    (host.withCommunity community).ThreadWithin parent thread := by
  simp only [Community.deleteRole, bind_eq_ok, pure_eq_ok] at hdelete
  obtain ⟨role, -, ⟨⟩, -, rfl⟩ := hdelete
  refine ⟨h.bounded, h.hasParent, h.hasThread, h.category, fun r => ?_⟩
  have hkept : ∀ k, (FiniteMap.retain host.community.channelOverrides fun k _ => k.2 ≠ id).lookup
      (k, r) = if r = id then none else host.channelOverride (.channel k) r := by
    intro k
    refine Option.ext fun o => ?_
    rw [FiniteMap.lookup_retain_eq_some]
    split_ifs with hr <;> simp [hr, channelOverride]
  simp only [Host.withCommunity, channelOverride] at hkept ⊢
  rw [hkept, hkept]
  split_ifs
  · exact .refl none
  · exact h.overrides r

end Host.ThreadWithin

theorem keepsPlaces_frame : Host.MessageFrame Host.KeepsPlaces where
  refl _ := ⟨rfl, rfl, rfl, rfl⟩
  trans _ _ _ h h' :=
    ⟨h'.channels.trans h.channels, h'.nextChannel.trans h.nextChannel, h'.info.trans h.info,
      h'.overrides.trans h.overrides⟩
  expireTimeout host pk nowMs := by
    refine ⟨rfl, rfl, ?_, ?_⟩ <;>
      rcases expireTimeout_eq host.community pk nowMs with h | h <;>
        simp only [Host.expireTimeout, Host.withCommunity, h] <;> rfl
  withDb _ _ h := ⟨Db.channels_eq h, Db.nextChannel_eq h, rfl, rfl⟩
  pinned _ _ := ⟨rfl, rfl, rfl, rfl⟩
  running _ _ := ⟨rfl, rfl, rfl, rfl⟩
  clientProtocol _ _ := ⟨rfl, rfl, rfl, rfl⟩

theorem threadWithin_frame :
    Host.Frame fun host host' =>
      host.ThreadWithin parent thread → host'.ThreadWithin parent thread where
  refl _ := id
  trans _ _ _ h h' := h' ∘ h
  expireTimeout host pk nowMs h := h.places (keepsPlaces_frame.expireTimeout host pk nowMs)
  withDb host db htable h := h.places (keepsPlaces_frame.withDb host db htable)
  pinned host pinned h := h.places (keepsPlaces_frame.pinned host pinned)
  running host running h := h.places (keepsPlaces_frame.running host running)
  clientProtocol host protocols h := h.places (keepsPlaces_frame.clientProtocol host protocols)
  insertChannel _ name channelType position info hroom h :=
    h.insertChannel name channelType position info hroom
  dmParticipants _ _ h := h.places ⟨rfl, rfl, rfl, rfl⟩

theorem memberEffect_places {request : MemberRequest}
    (h : MemberEffect host member isOwner moment request host') : host.KeepsPlaces host' := by
  have htable := memberEffect_table h
  refine ⟨Db.channels_eq htable, Db.nextChannel_eq htable, ?_, ?_⟩
  all_goals
    cases h with
    | createInvite hperm hinvite =>
      simp only [Community.createInvite, bind_eq_ok, pure_eq_ok] at hinvite
      obtain ⟨expiresAt, -, ⟨⟩, -, rfl⟩ := hinvite
      rfl
    | addBot hperm hregister hbot =>
      simp only [Community.registerMember, Community.registerBot, bind_eq_ok, pure_eq_ok]
        at hregister hbot
      obtain ⟨⟨⟩, -, rfl⟩ := hregister
      obtain ⟨⟨⟩, -, rfl⟩ := hbot
      rfl
    | removeBot hperm hremovable hremove =>
      simp only [Community.removeMemberRow, bind_eq_ok, pure_eq_ok] at hremove
      obtain ⟨⟨⟩, -, rfl⟩ := hremove
      rfl
    | _ => rfl

theorem updateChannel_rejected {id : ℕ} {patch : ChannelPatch}
    (hthere : host.db.getChannel id ≠ none)
    (h : ∀ a, (host.updateChannel member isOwner id patch).2 ≠ .ok a) :
    (host.updateChannel member isOwner id patch).1 = host := by
  refine commit_rejected (fun host' hwrite => ?_) h
  simp only [bind_eq_ok, pure_eq_ok] at hwrite
  obtain ⟨⟨⟩, -, ⟨⟩, -, rfl⟩ := hwrite
  have hkept : (host.patchChannel id patch).db.getChannel id ≠ none :=
    mt getChannel_patchChannel.mp hthere
  obtain ⟨ch, hch⟩ := Option.ne_none_iff_exists'.mp hkept
  simp [hch, expect]

theorem channelEffect_threadWithin {request : ChannelRequest} (hne : thread ≠ parent)
    (h : host.ThreadWithin parent thread)
    (hkeeps : HostOp.KeepsThread host parent thread (.request member isOwner (.channel request)))
    (heffect : ChannelEffect host member isOwner request host') :
    host'.ThreadWithin parent thread := by
  cases heffect with
  | createChannel _ _ hroom => exact h.insertChannel _ _ _ _ hroom
  | updateChannel => exact h.patchChannel hkeeps
  | deleteChannel => exact h.softDeleteChannel hkeeps.1 hkeeps.2
  | deleteCategory => exact h.deleteCategory
  | setChannelOverride => exact h.setChannelOverride hne hkeeps.1 hkeeps.2
  | _ => exact h.places ⟨rfl, rfl, rfl, rfl⟩

theorem channelRequest_threadWithin {request : ChannelRequest} (hne : thread ≠ parent)
    (h : host.ThreadWithin parent thread)
    (hkeeps : (∃ a, (host.handleChannelRequest member isOwner request).2 = .ok a) →
      HostOp.KeepsThread host parent thread (.request member isOwner (.channel request))) :
    (host.handleChannelRequest member isOwner request).1.ThreadWithin parent thread := by
  by_cases haccepts : ∃ a, (host.handleChannelRequest member isOwner request).2 = .ok a
  · exact channelEffect_threadWithin hne h (hkeeps haccepts) (channelRequest_effect request)
  · rw [not_exists] at haccepts
    have hkept : (host.handleChannelRequest member isOwner request).1 = host →
        (host.handleChannelRequest member isOwner request).1.ThreadWithin parent thread :=
      fun hsame => hsame.symm ▸ h
    cases request with
    | updateChannel id patch =>
      by_cases hid : id = parent ∨ id = thread
      · refine hkept (updateChannel_rejected ?_ haccepts)
        rcases hid with rfl | rfl
        · exact h.hasParent
        · exact h.hasThread
      · have hkeeps : HostOp.KeepsThread host parent thread
            (.request member isOwner (.channel (.updateChannel id patch))) :=
          fun heq => absurd heq hid
        exact channelEffect_threadWithin hne h hkeeps (channelRequest_effect _)
    | deleteChannel => exact hkept (commit_rejected (fun _ _ => ⟨_, rfl⟩) haccepts)
    | setChannelOverride => exact hkept (commit_rejected (fun _ _ => ⟨_, rfl⟩) haccepts)
    | _ => exact channelEffect_threadWithin hne h (by exact trivial) (channelRequest_effect _)

theorem roleEffect_threadWithin {request : RoleRequest} (h : host.ThreadWithin parent thread)
    (heffect : RoleEffect host member isOwner request host') :
    host'.ThreadWithin parent thread := by
  cases heffect with
  | deleteRole role hbelow hdelete => exact h.deleteRole hdelete
  | assignRole role hbelow hassign =>
    simp only [Community.assignRole, bind_eq_ok, pure_eq_ok] at hassign
    obtain ⟨⟨⟩, -, rfl⟩ := hassign
    exact h.places ⟨rfl, rfl, rfl, rfl⟩
  | _ => exact h.places ⟨rfl, rfl, rfl, rfl⟩

theorem submitEvent_community {event : Event} {a : Answer}
    (h : (host.submitEvent K moment event).2 = .ok a) :
    (host.submitEvent K moment event).1.community = (host.declareChannel event).community := by
  unfold submitEvent at h ⊢
  split at h
  · exact absurd h (by simp)
  · rfl

theorem submitEvent_threadWithin {event : Event} (h : host.ThreadWithin parent thread) :
    (host.submitEvent K moment event).1.ThreadWithin parent thread := by
  by_cases hok : ∃ a, (host.submitEvent K moment event).2 = .ok a
  · obtain ⟨db, orphans, hingest, hdb⟩ := submitEvent_ingested hok.choose_spec
    have hcommunity := submitEvent_community hok.choose_spec
    rcases Db.catalogue_ingest hingest with
      ⟨p, row, hp, -, hfree, hid, htable⟩ | ⟨hother, htable⟩
    · rw [channelRow_eq_none] at hfree
      have hdeclared : (host.submitEvent K moment event).1.community =
          host.community.updateChannelInfo p.channelId fun _ => .empty := by
        rw [hcommunity, declareChannel, hp]
        rfl
      exact h.declareChannel hfree hid (hdb ▸ htable) hdeclared
    · have htable := hdb ▸ htable
      refine h.places ⟨Db.channels_eq htable, Db.nextChannel_eq htable, ?_, ?_⟩ <;>
      · rw [hcommunity, declareChannel]
        split
        · next p hp => exact absurd hp (hother p)
        · rfl
  · rw [submitEvent_refused hok]
    exact h

theorem dispatch_threadWithin {request : Request} (hne : thread ≠ parent)
    (h : host.ThreadWithin parent thread)
    (hkeeps : (∃ a, (host.dispatch K member isOwner moment request).2 = .ok a) →
      HostOp.KeepsThread host parent thread (.request member isOwner request)) :
    (host.dispatch K member isOwner moment request).1.ThreadWithin parent thread := by
  cases request with
  | channel request => exact channelRequest_threadWithin hne h hkeeps
  | role request => exact roleEffect_threadWithin h (roleRequest_effect request)
  | member request => exact h.places (memberEffect_places (memberRequest_effect request))
  | message request => exact threadWithin_frame.messageEffect (messageRequest_effect request) h
  | submitEvent event => exact submitEvent_threadWithin h
  | _ => exact threadWithin_frame.dispatch (by rfl) h

theorem claim_places {genesis : Genesis} :
    host.KeepsPlaces (host.claim K member genesis) := by
  unfold Host.claim
  split <;> exact ⟨rfl, rfl, rfl, rfl⟩

theorem register_places {displayName : String} {now : ℕ}
    (h : host.register member displayName now = .ok host') : host.KeepsPlaces host' := by
  simp only [Host.register, bind_eq_ok, Community.registerMember, pure_eq_ok] at h
  obtain ⟨registered, ⟨⟨⟩, -, rfl⟩, h⟩ := h
  split at h
  · simp only [map_eq_ok, Community.assignRole, bind_eq_ok, pure_eq_ok] at h
    obtain ⟨community, ⟨⟨⟩, -, rfl⟩, rfl⟩ := h
    exact ⟨rfl, rfl, rfl, rfl⟩
  · obtain rfl := pure_eq_ok.mp h
    exact ⟨rfl, rfl, rfl, rfl⟩

theorem authenticateNewMember_places {displayName : String} {credentials : Credentials}
    {genesis : Genesis}
    (h : host.authenticateNewMember K member moment displayName credentials genesis = .ok host') :
    host.KeepsPlaces host' := by
  have htrans := keepsPlaces_frame.trans
  unfold Host.authenticateNewMember at h
  split at h
  · simp only [bind_eq_ok, pure_eq_ok] at h
    obtain ⟨token, -, ⟨⟩, -, registered, hregister, rfl⟩ := h
    refine htrans _ _ _ (register_places hregister) (htrans _ _ _ ?_ claim_places)
    exact ⟨rfl, rfl, rfl, rfl⟩
  · simp only [bind_eq_ok, prefixed_eq_ok, Community.useInvite, pure_eq_ok] at h
    obtain ⟨community, hinvite, hregister⟩ := h
    refine htrans _ _ _ ?_ (register_places hregister)
    obtain ⟨invite, -, rfl⟩ := hinvite
    exact ⟨rfl, rfl, rfl, rfl⟩
  · simp only [bind_eq_ok, pure_eq_ok] at h
    obtain ⟨⟨⟩, -, registered, hregister, rfl⟩ := h
    exact htrans _ _ _ (register_places hregister) claim_places

theorem executeDeletions_places {reqs : List DeletionRequest} :
    host.KeepsPlaces (host.executeDeletions reqs) := by
  induction reqs generalizing host with
  | nil => exact keepsPlaces_frame.refl host
  | cons req reqs ih =>
    unfold executeDeletions
    split
    · next db hexecute =>
      refine keepsPlaces_frame.trans _ _ _ ?_ ih
      have htable := Db.catalogue_executeDeletion hexecute
      exact ⟨Db.channels_eq htable, Db.nextChannel_eq htable, rfl, rfl⟩
    · exact keepsPlaces_frame.refl host

theorem perform_threadWithin {e : Moment × HostOp} (hne : thread ≠ parent)
    (h : host.ThreadWithin parent thread)
    (hkeeps : host.Accepts K e → HostOp.KeepsThread host parent thread e.2) :
    (host.perform K e.1 e.2).1.ThreadWithin parent thread := by
  obtain ⟨moment, op⟩ := e
  cases op with
  | request member isOwner request =>
    have hdispatch := @dispatch_threadWithin K host member isOwner moment parent thread request
      hne h
    simp only [Accepts, perform, handleRequest] at hkeeps ⊢
    split_ifs at hkeeps ⊢
    · split at hkeeps
      · exact h
      · exact hdispatch hkeeps
    · exact hdispatch hkeeps
  | handshake member displayName credentials genesis =>
    simp only [perform, handshake]
    split
    · exact h
    · exact h.places (commit_effect (P := host.KeepsPlaces) (keepsPlaces_frame.refl host)
        fun host' hok => authenticateNewMember_places hok)
  | executePendingDeletions => exact h.places executeDeletions_places
  | _ =>
    exact h.places (keepsPlaces_frame.perform (by simp) (by simp) (by simp))

theorem createThread_accepted {messageId : ℕ} {name : Option String} {row : MessageRow} {a : Answer}
    (hrow : host.db.messages.get? messageId = some row)
    (h : (host.createThread member isOwner messageId name).2 = .ok a) :
    host.db.getChannel row.channelId ≠ none ∧ host.db.HasRowId ∧
      (host.createThread member isOwner messageId name).1 =
        host.insertChannel (threadName name row.content) .thread 0
          { ChannelInfo.empty with
            categoryId := (host.community.channelInfo row.channelId).categoryId
            threadParentMessageId := some messageId } := by
  have hwrite : _ = Except.ok (host.createThread member isOwner messageId name).1 :=
    commit_answered h
  generalize (host.createThread member isOwner messageId name).1 = host' at hwrite ⊢
  simp only [bind_eq_ok, context_eq_ok, hrow, Option.some.injEq, Db.requireRowId, ensure_eq_ok,
    pure_eq_ok] at hwrite
  obtain ⟨_, rfl, ⟨⟩, -, ⟨⟩, -, channel, hparent, ⟨⟩, -, ⟨⟩, -, ⟨⟩, hroom, rfl⟩ := hwrite
  exact ⟨by simp [hparent], hroom, rfl⟩

theorem threadWithin_of_createThread {messageId : ℕ} {name : Option String} {row : MessageRow}
    {a : Answer} (hbounded : host.db.IdsBounded)
    (hrow : host.db.messages.get? messageId = some row)
    (h : (host.createThread member isOwner messageId name).2 = .ok a)
    (hnarrower : ∀ r, Narrower (host.channelOverride (.channel host.db.nextChannel) r)
      (host.channelOverride (.channel row.channelId) r)) :
    host.db.nextChannel ≠ row.channelId ∧
      (host.createThread member isOwner messageId name).1.ThreadWithin row.channelId
        host.db.nextChannel := by
  obtain ⟨hparent, hroom, hcreated⟩ := createThread_accepted hrow h
  have hne := ne_next_of_getChannel hbounded hroom hparent
  rw [hcreated]
  refine ⟨hne.symm, bounded_insertChannel hbounded hroom, getChannel_insertChannel_kept hparent,
    getChannel_insertChannel, ?_, hnarrower⟩
  simp only [Host.insertChannel, Community.updateChannelInfo, Function.update_self,
    Function.update_of_ne hne]

theorem deleteChannel_accepted {a : Answer}
    (h : (host.deleteChannel member isOwner channelId).2 = .ok a) :
    (host.deleteChannel member isOwner channelId).1 =
      host.withDb (host.db.softDeleteChannel channelId) := by
  have hwrite : _ = Except.ok (host.deleteChannel member isOwner channelId).1 :=
    commit_answered h
  generalize (host.deleteChannel member isOwner channelId).1 = host' at hwrite ⊢
  simp only [bind_eq_ok, pure_eq_ok] at hwrite
  obtain ⟨⟨⟩, -, rfl⟩ := hwrite
  rfl

variable {setup : Setup} {tr tr' : List (Transition Host (Moment × HostOp))}

theorem threadWithin_of_run (hne : thread ≠ parent) (h : host.ThreadWithin parent thread)
    (hrun : HostRun K host tr host')
    (hkeeps : ∀ x ∈ tr, x.pre.Accepts K x.event → x.event.2.KeepsThread x.pre parent thread) :
    host'.ThreadWithin parent thread := by
  have hall := hrun.kept (Q := fun host => host.ThreadWithin parent thread) h
    fun x hx hstep hpre => hstep ▸ perform_threadWithin hne hpre (hkeeps x hx)
  exact hrun.good_end (Q := fun host => host.ThreadWithin parent thread) h
    fun x hx => (hall x hx).2

/-- A thread that is created with no role allowed more or denied less than in its parent gives no
member more than its parent does, as long as nothing accepted changes that; and a deletion gives
a member no more exactly if what the category took away is denied anyway. -/
theorem thread_and_deletion_access (hrun : HostRun K (.firstRun setup) tr host)
    (actor : PublicKey) (actorIsOwner : Bool) (moment : Moment) :
    (∀ messageId name row host',
      host.Accepts K
        (moment, .request actor actorIsOwner (.message (.createThread messageId name))) →
      host.db.messages.get? messageId = some row →
      (∀ r, Narrower (host.channelOverride (.channel host.db.nextChannel) r)
        (host.channelOverride (.channel row.channelId) r)) →
      HostRun K (host.perform K moment
        (.request actor actorIsOwner (.message (.createThread messageId name)))).1 tr' host' →
      (∀ x ∈ tr', x.pre.Accepts K x.event →
        x.event.2.KeepsThread x.pre row.channelId host.db.nextChannel) →
      ∀ member isOwner, GivesWithin (host'.resolveMemberPerms member isOwner host.db.nextChannel)
        (host'.resolveMemberPerms member isOwner row.channelId)) ∧
    (∀ channelId,
      host.Accepts K (moment, .request actor actorIsOwner (.channel (.deleteChannel channelId))) →
      ∀ member isOwner,
        (GivesWithin
          ((host.perform K moment (.request actor actorIsOwner
            (.channel (.deleteChannel channelId)))).1.resolveMemberPerms member isOwner channelId)
          (host.resolveMemberPerms member isOwner channelId) ↔
        (host.channelContext member isOwner channelId).DeniedAnyway)) := by
  constructor
  · intro messageId name row host' haccepts hrow hnarrower hrun' hkeeps member isOwner
    have hperform := perform_of_accepts haccepts
    obtain ⟨a, ha⟩ := haccepts
    rw [hperform] at hrun' ha
    obtain ⟨hne, hwithin⟩ :=
      threadWithin_of_createThread (nextIsFresh_of_run hrun).1 hrow ha hnarrower
    exact (threadWithin_of_run hne hwithin hrun' hkeeps).within
  · intro channelId haccepts member isOwner
    have hperform := perform_of_accepts haccepts
    obtain ⟨a, ha⟩ := haccepts
    rw [hperform] at ha ⊢
    have hdeleted := deleteChannel_accepted ha
    exact hdeleted ▸ deleted_within_iff

/-! ## Bob sees what is denied to him -/

open SampleLog SampleHost

def written : List (Moment × HostOp) :=
  joined ++ requests 9 [(bob, .message (.sendMessage 1 "hello" none []))]

def openThread : Keypair × Request := (alice, .message (.createThread 1 none))

def denyInChannel : Keypair × Request := (alice, .channel (.setChannelOverride 1 1 0 viewChannel))

def denyInCategory : Keypair × Request := (alice, .channel (.setCategoryOverride 1 1 0 viewChannel))

def deleteFirst : Keypair × Request := (alice, .channel (.deleteChannel 1))

theorem thread_and_deletion_access_of_bob :
    GivesWithin
        ((hostAfter (written ++ requests 10 [openThread, denyInCategory])).resolveMemberPerms
          (key bob) false 2)
        ((hostAfter (written ++ requests 10 [openThread, denyInCategory])).resolveMemberPerms
          (key bob) false 1) ∧
      (GivesWithin
          ((hostAfter (written ++ requests 10 [deleteFirst])).resolveMemberPerms (key bob) false 1)
          ((hostAfter written).resolveMemberPerms (key bob) false 1) ↔
        ((hostAfter written).channelContext (key bob) false 1).DeniedAnyway) := by
  have haccess := fun tr' => @thread_and_deletion_access crypto _ blankSetup (path written) tr'
    (run_path written) (key alice) true (momentAt 10)
  have hempty : (hostAfter written).community.channelOverrides = ∅ := by decide +kernel
  have hrow : ∃ row, (hostAfter written).db.messages.get? 1 = some row ∧ row.channelId = 1 := by
    decide +kernel
  obtain ⟨row, hrow, hchannel⟩ := hrow
  have hnext : (hostAfter written).db.nextChannel = 2 := by decide +kernel
  have hlater : HostRun crypto _ _ _ := Execution.of_path SampleHost.perform
    (s := SampleHost.perform (hostAfter written)
      (momentAt 10, .request (key alice) true openThread.2))
    (requests 11 [denyInCategory])
  refine ⟨?_, (haccess []).2 1 (by decide +kernel) (key bob) false⟩
  have hthread := (haccess _).1 1 none row _ (by decide +kernel) hrow
    (fun r => by
      simpa only [channelOverride, hempty, Finmap.lookup_empty] using Narrower.refl none) hlater
    (fun x hx _ => by obtain rfl := List.mem_singleton.mp hx; trivial) (key bob) false
  rw [hnext, hchannel] at hthread
  rw [hostAfter, List.foldl_append]
  exact hthread

/-- What is denied to all in the channel is not denied in the thread, and what is denied to all
in the category is not denied in the deleted channel. -/
theorem thread_and_deletion_widen :
    (HostRun crypto start (path (written ++ requests 10 [openThread, denyInChannel]))
        (hostAfter (written ++ requests 10 [openThread, denyInChannel])) ∧
      (∀ x ∈ path (written ++ requests 10 [openThread, denyInChannel]),
        x.pre.Accepts crypto x.event) ∧
      (hostAfter (written ++ requests 10 [openThread, denyInChannel])).community.channelInfo 2 =
        { ChannelInfo.empty with categoryId := some 1, threadParentMessageId := some 1 } ∧
      has ((hostAfter (written ++ requests 10 [openThread, denyInChannel])).resolveMemberPerms
        (key bob) false 2) viewChannel = true ∧
      has ((hostAfter (written ++ requests 10 [openThread, denyInChannel])).resolveMemberPerms
        (key bob) false 1) viewChannel = false) ∧
    (HostRun crypto start (path (written ++ requests 10 [denyInCategory, deleteFirst]))
        (hostAfter (written ++ requests 10 [denyInCategory, deleteFirst])) ∧
      (∀ x ∈ path (written ++ requests 10 [denyInCategory, deleteFirst]),
        x.pre.Accepts crypto x.event) ∧
      has ((hostAfter (written ++ requests 10 [denyInCategory])).resolveMemberPerms
        (key bob) false 1) viewChannel = false ∧
      has ((hostAfter (written ++ requests 10 [denyInCategory, deleteFirst])).resolveMemberPerms
        (key bob) false 1) viewChannel = true) := by
  exact ⟨⟨run_path _, by decide +kernel, by decide +kernel, by decide +kernel, by decide +kernel⟩,
    run_path _, by decide +kernel, by decide +kernel, by decide +kernel⟩

end Server
