import Farder.Server.OwnerClaims
import Farder.Server.SampleHost

/-! # One owner, once

A server has one owner, the one of its genesis, as long as no handshake claims it while another
identity is about to own it or does, and a restart finds the founder as the member that joined
first. The setup token then admits one identity. -/
namespace Server

open EventLog Guarded Permissions

variable {K : Crypto} {host host' : Host} {member : PublicKey} {isOwner : Bool} {moment : Moment}

/-! ## A restart keeps the genesis -/

namespace Db

variable {db db' : Db}

/-- The ids of all channels, the next one, and the genesis. -/
def outline (db : Db) : List ℕ × ℕ × Option Genesis := (db.channelIds, db.nextChannel, db.genesis)

theorem outline_of_catalogue (h : db'.catalogue = db.catalogue) : db'.outline = db.outline := by
  simp only [outline, channelIds, channels_eq h, nextChannel_eq h, genesis_eq h]

theorem outline_reconcileChannelClass {e : Event} :
    (db.reconcileChannelClass e).outline = db.outline := by
  unfold reconcileChannelClass
  split
  · split
    · rfl
    · split_ifs
      · rfl
      · simp only [outline, channelIds, List.map_map, Prod.mk.injEq, and_true]
        refine List.map_congr_left fun ch _ => ?_
        simp only [Function.comp_apply]
        split_ifs <;> rfl
  · rfl

theorem outline_reconcileChannelClasses : db.reconcileChannelClasses.outline = db.outline :=
  foldl_frame outline (fun _ _ => outline_reconcileChannelClass) _ _

theorem catalogue_reconcileMessages {logState : Option LogState} {n : ℕ}
    (h : db.reconcileMessages K logState = .ok (db', n)) : db'.catalogue = db.catalogue := by
  simp only [reconcileMessages, bind_eq_ok, pure_eq_ok, Prod.mk.injEq] at h
  obtain ⟨⟨db₁, repaired⟩, hderive, db₂, hsweep, db₃, hedit, rfl, -⟩ := h
  have hderived : db₁.catalogue = db.catalogue := by
    refine catalogue_foldlM Prod.fst (fun acc e acc' h => ?_) hderive
    unfold deriveMissing at h
    split_ifs at h
    · rw [pure_eq_ok.mp h]
    · simp only [bind_eq_ok, pure_eq_ok] at h
      obtain ⟨⟨db', id⟩, hrow, rfl⟩ := h
      exact catalogue_deriveMessageRow hrow
  have hswept : db₂.catalogue = db₁.catalogue := by
    refine catalogue_foldlM id (fun db target db' h => ?_) hsweep
    unfold sweepTombstoned at h
    split at h
    · rw [pure_eq_ok.mp h]
    · simp only [bind_eq_ok, pure_eq_ok] at h
      obtain ⟨⟨db', l⟩, hdelete, rfl⟩ := h
      exact catalogue_deleteMessage hdelete
  have hedited : db₃.catalogue = db₂.catalogue := by
    refine catalogue_foldlM id (fun db e db' h => ?_) hedit
    unfold replaySealedEdit at h
    split at h
    · split_ifs at h
      · rw [pure_eq_ok.mp h]
      · simp only [bind_eq_ok] at h
        obtain ⟨target, -, h⟩ := h
        split at h
        · rw [pure_eq_ok.mp h]
        · exact catalogue_updateSealedRow h
    · rw [pure_eq_ok.mp h]
  have hlinked : (db₃.repairReplyLinks K).catalogue = db₃.catalogue := by
    refine catalogue_foldl (fun db x => ?_) _
    unfold repairReplyLink
    split
    · rfl
    · split <;> rfl
  rw [hlinked, hedited, hswept, hderived]

theorem catalogue_reconcileAttachments : (db.reconcileAttachments K).catalogue = db.catalogue := by
  unfold reconcileAttachments
  split
  · rfl
  · refine catalogue_foldl (fun db x => ?_) _
    exact catalogue_foldl (fun _ _ => catalogue_deriveAttachment ..) _

end Db

theorem restart_outline {st st' : ServerState} (h : st.restart K = .ok st') :
    st'.db.outline = st.db.outline := by
  unfold ServerState.restart at h
  split at h
  · obtain rfl := pure_eq_ok.mp h
    rfl
  · simp only [bind_eq_ok, pure_eq_ok] at h
    obtain ⟨logState, -, ⟨db, n⟩, hmessages, rfl⟩ := h
    have hcatalogue : ((db.reconcileAttachments K).sweepRedactedBytes).catalogue =
        st.db.reconcileChannelClasses.catalogue :=
      Db.catalogue_reconcileAttachments.trans (Db.catalogue_reconcileMessages hmessages)
    exact (Db.outline_of_catalogue hcatalogue).trans Db.outline_reconcileChannelClasses

theorem restart_genesis {st st' : ServerState} (h : st.restart K = .ok st') :
    st'.db.genesis = st.db.genesis :=
  congrArg (fun outline => outline.2.2) (restart_outline h)

/-! ## Only handshakes and restarts make owners -/

/-- The owner, the token and the genesis stay. -/
structure Host.KeepsClaim (host host' : Host) : Prop where
  owner : host'.owner = host.owner
  setupToken : host'.setupToken = host.setupToken
  genesis : host'.db.genesis = host.db.genesis

namespace Host.KeepsClaim

theorem refl : host.KeepsClaim host := ⟨rfl, rfl, rfl⟩

theorem trans {host'' : Host} (h : host.KeepsClaim host') (h' : host'.KeepsClaim host'') :
    host.KeepsClaim host'' :=
  ⟨h'.owner.trans h.owner, h'.setupToken.trans h.setupToken, h'.genesis.trans h.genesis⟩

theorem withCommunity {community : Community} :
    host.KeepsClaim (host.withCommunity community) := ⟨rfl, rfl, rfl⟩

end Host.KeepsClaim

open Host

theorem keepsClaim_frame : Host.Frame Host.KeepsClaim where
  refl _ := .refl
  trans _ _ _ h h' := h.trans h'
  expireTimeout _ _ _ := .withCommunity
  withDb _ _ h := ⟨rfl, rfl, Db.genesis_eq h⟩
  pinned _ _ := .withCommunity
  running _ _ := ⟨rfl, rfl, rfl⟩
  clientProtocol _ _ := ⟨rfl, rfl, rfl⟩
  insertChannel _ _ _ _ _ _ := ⟨rfl, rfl, rfl⟩
  dmParticipants _ _ := .withCommunity

theorem submitEvent_claim {event : Event} :
    host.KeepsClaim (host.submitEvent K moment event).1 := by
  by_cases hok : ∃ a, (host.submitEvent K moment event).2 = .ok a
  · obtain ⟨db, orphans, hingest, hdb⟩ := submitEvent_ingested hok.choose_spec
    have hgenesis : db.genesis = host.db.genesis := by
      rcases Db.catalogue_ingest hingest with ⟨p, row, -, -, -, -, hcatalogue⟩ | ⟨-, hcatalogue⟩
      · exact congrArg (fun c => c.2.2) hcatalogue
      · exact Db.genesis_eq hcatalogue
    refine ⟨?_, ?_, hdb ▸ hgenesis⟩ <;>
    · unfold Host.submitEvent
      split
      · rfl
      · unfold declareChannel
        split <;> rfl
  · rw [submitEvent_refused hok]
    exact .refl

theorem executeDeletions_claim {reqs : List DeletionRequest} :
    host.KeepsClaim (host.executeDeletions reqs) := by
  induction reqs generalizing host with
  | nil => exact .refl
  | cons req reqs ih =>
    unfold executeDeletions
    split
    · next db hexecute =>
      refine .trans ?_ ih
      exact ⟨rfl, rfl, Db.genesis_eq (Db.catalogue_executeDeletion hexecute)⟩
    · exact .refl

theorem dispatch_claim {request : Request} :
    host.KeepsClaim (host.dispatch K member isOwner moment request).1 := by
  cases request with
  | channel request =>
    have heffect := @channelRequest_effect host member isOwner request
    simp only [dispatch]
    generalize (host.handleChannelRequest member isOwner request).1 = host' at heffect
    cases heffect <;> exact ⟨rfl, rfl, rfl⟩
  | role request =>
    have heffect := @roleRequest_effect host member isOwner request
    simp only [dispatch]
    generalize (host.handleRoleRequest member isOwner request).1 = host' at heffect
    cases heffect <;> exact ⟨rfl, rfl, rfl⟩
  | member request =>
    have heffect := @memberRequest_effect host member isOwner moment request
    simp only [dispatch]
    generalize (host.handleMemberRequest member isOwner moment request).1 = host' at heffect
    have hgenesis := Db.genesis_eq (memberEffect_table heffect)
    cases heffect <;> exact ⟨rfl, rfl, hgenesis⟩
  | message request => exact keepsClaim_frame.messageEffect (messageRequest_effect request)
  | submitEvent event => exact submitEvent_claim
  | _ => exact keepsClaim_frame.dispatch (by rfl)

theorem perform_claim {op : HostOp}
    (hop : ∀ member name credentials genesis, op ≠ .handshake member name credentials genesis) :
    host.KeepsClaim (host.perform K moment op).1 := by
  cases op with
  | request member isOwner request =>
    simp only [perform, handleRequest]
    split_ifs
    · split
      · exact .refl
      · exact dispatch_claim
    · exact dispatch_claim
  | handshake => exact absurd rfl (hop _ _ _ _)
  | executePendingDeletions => exact executeDeletions_claim
  | _ => exact keepsClaim_frame.perform (by simp) (by simp) (by simp)

/-! ## What keeps the owner -/

/-- A handshake that is to make its member the owner: of a new member with the setup token, or
of the first one. -/
def Host.TakesClaim (host : Host) (member : PublicKey) (credentials : Credentials) : Prop :=
  host.community.getMember member = none ∧
    match credentials.setupToken, credentials.inviteCode with
    | some provided, _ => host.setupToken = some provided
    | none, some _ => False
    | none, none => host.community.members.keys = ∅

def Host.JoinedBefore (host : Host) (pk : PublicKey) : Prop :=
  ∃ row, host.community.getMember pk = some row ∧ Eligible row ∧
    ∀ other row', other ≠ pk → host.community.getMember other = some row' → Eligible row' →
      row.joinedAt < row'.joinedAt

/-- The identity is about to own the server, or has founded it. -/
def Reception.ClaimedBy (s : Reception) (pk : PublicKey) : Prop :=
  (∃ e ∈ s.errands, e.member = pk) ∨ ∃ g, s.host.db.genesis = some g ∧ g.owner = pk

/-- No handshake claims the server next to another identity, and a restart finds the founder
first, or a server that nobody has claimed and no member. -/
def OwnerOp.KeepsOwner (s : Reception) : OwnerOp → Prop
  | .enrol _ member _ credentials =>
    s.host.TakesClaim member credentials → ∀ pk, s.ClaimedBy pk → pk = member
  | .restart _ =>
    match s.host.db.genesis with
    | none => s.errands = [] ∧ s.host.community.members = ∅
    | some g => s.host.JoinedBefore g.owner ∧ ∀ e ∈ s.errands, e.member = g.owner
  | _ => True

/-- One identity claims the server, the owner is the founder, and a token that is gone has been
taken by a claim. -/
structure Reception.OneClaim (s : Reception) : Prop where
  same : ∀ pk pk', s.ClaimedBy pk → s.ClaimedBy pk' → pk = pk'
  founded : ∀ owner, s.host.owner = some owner →
    ∃ g, s.host.db.genesis = some g ∧ g.owner = owner
  taken : ∀ pk, .clearToken pk ∈ s.errands → s.host.setupToken = none →
    (∃ pk', .setOwner pk' ∈ s.errands) ∨ s.host.db.genesis ≠ none

/-- What a step keeps: the owner, and who claims the server. -/
structure Reception.Keeps (s s' : Reception) : Prop where
  oneClaim : s'.OneClaim
  owner : ∀ owner, s.host.owner = some owner → s'.host.owner = some owner
  claimedBy : ∀ pk, s.ClaimedBy pk → s'.ClaimedBy pk

variable {s s' : Reception} {displayName : String} {credentials : Credentials}

theorem register_claim {now : ℕ} (h : host.register member displayName now = .ok host') :
    host.KeepsClaim host' := by
  simp only [Host.register, bind_eq_ok] at h
  obtain ⟨registered, -, h⟩ := h
  split at h
  · obtain ⟨community, -, rfl⟩ := map_eq_ok.mp h
    exact .withCommunity
  · obtain rfl := pure_eq_ok.mp h
    exact .withCommunity

/-- An admission writes the members, and leaves an errand only for what takes the claim. -/
theorem admitNewMember_claim {claimed : Bool} (hmember : host.community.getMember member = none)
    (h : host.admitNewMember member moment displayName credentials = .ok (host', claimed)) :
    host.KeepsClaim host' ∧
      (errandsOf member credentials claimed = [] ∨
        host.TakesClaim member credentials ∧
          (errandsOf member credentials claimed = [.setOwner member] ∨
            errandsOf member credentials claimed = [.clearToken member] ∧
              host.setupToken ≠ none)) := by
  obtain ⟨inviteCode, setupToken⟩ := credentials
  unfold admitNewMember at h
  cases setupToken with
  | some provided =>
    simp only [bind_eq_ok, context_eq_ok, ensure_eq_ok, pure_eq_ok, Prod.mk.injEq] at h
    obtain ⟨token, htoken, ⟨⟩, rfl, registered, hregister, rfl, rfl⟩ := h
    exact ⟨register_claim hregister, .inr ⟨⟨hmember, htoken⟩, .inr ⟨rfl, by simp [htoken]⟩⟩⟩
  | none =>
    cases inviteCode with
    | some code =>
      simp only [bind_eq_ok, pure_eq_ok, Prod.mk.injEq] at h
      obtain ⟨community, -, registered, hregister, rfl, rfl⟩ := h
      exact ⟨.trans .withCommunity (register_claim hregister), .inl rfl⟩
    | none =>
      simp only [bind_eq_ok, ensure_eq_ok, pure_eq_ok, Prod.mk.injEq] at h
      obtain ⟨⟨⟩, hempty, registered, hregister, rfl, rfl⟩ := h
      exact ⟨register_claim hregister, .inr ⟨⟨hmember, hempty⟩, .inl rfl⟩⟩

namespace Reception.OneClaim

theorem keeps (h : s.OneClaim) (hclaim : s.host.KeepsClaim s'.host)
    (herrands : s'.errands = s.errands) : s.Keeps s' := by
  have hclaimed : ∀ pk, s'.ClaimedBy pk ↔ s.ClaimedBy pk := by
    intro pk
    rw [ClaimedBy, ClaimedBy, herrands, hclaim.genesis]
  refine ⟨⟨fun pk pk' hpk hpk' => ?_, ?_, ?_⟩, ?_, fun pk => (hclaimed pk).mpr⟩
  · exact h.same pk pk' ((hclaimed pk).mp hpk) ((hclaimed pk').mp hpk')
  · rw [hclaim.owner, hclaim.genesis]
    exact h.founded
  · rw [herrands, hclaim.setupToken, hclaim.genesis]
    exact h.taken
  · rw [hclaim.owner]
    exact fun _ => id

theorem admitted (h : s.OneClaim) (hclaim : s.host.KeepsClaim host) {e : Errand}
    (hmember : e.member = member) (halone : ∀ pk, s.ClaimedBy pk → pk = member)
    (htoken : ∀ pk, e = .clearToken pk → s.host.setupToken ≠ none) :
    s.Keeps ⟨host, s.errands ++ [e]⟩ := by
  have hclaimed : ∀ pk, (⟨host, s.errands ++ [e]⟩ : Reception).ClaimedBy pk →
      pk = member := by
    rintro pk (⟨e', he', rfl⟩ | ⟨g, hg, rfl⟩)
    · rcases List.mem_append.mp he' with he' | he'
      · exact halone _ (.inl ⟨e', he', rfl⟩)
      · rw [List.mem_singleton.mp he', hmember]
    · exact halone _ (.inr ⟨g, hclaim.genesis ▸ hg, rfl⟩)
  refine ⟨⟨fun pk pk' hpk hpk' => (hclaimed pk hpk).trans (hclaimed pk' hpk').symm, ?_, ?_⟩,
    fun owner => hclaim.owner ▸ id, ?_⟩
  · simp only [hclaim.owner, hclaim.genesis]
    exact h.founded
  · simp only [hclaim.setupToken, hclaim.genesis, List.mem_append, List.mem_singleton]
    intro pk he hnone
    rcases he with he | he
    · exact (h.taken pk he hnone).imp_left fun ⟨pk', hpk'⟩ => ⟨pk', .inl hpk'⟩
    · exact absurd hnone (htoken pk he.symm)
  · rintro pk (⟨e', he', hpk⟩ | ⟨g, hg, hpk⟩)
    · exact .inl ⟨e', List.mem_append_left _ he', hpk⟩
    · exact .inr ⟨g, hclaim.genesis.trans hg, hpk⟩

theorem cleared (h : s.OneClaim) (herrand : .clearToken member ∈ s.errands) :
    s.Keeps ⟨{ s.host with setupToken := none },
      s.errands.erase (.clearToken member) ++ [.setOwner member]⟩ := by
  have hclaimed : ∀ pk, (⟨{ s.host with setupToken := none },
      s.errands.erase (.clearToken member) ++ [.setOwner member]⟩ : Reception).ClaimedBy pk →
        s.ClaimedBy pk := by
    rintro pk (⟨e, he, rfl⟩ | hg)
    · rcases List.mem_append.mp he with he | he
      · exact .inl ⟨e, List.mem_of_mem_erase he, rfl⟩
      · rw [List.mem_singleton.mp he]
        exact .inl ⟨_, herrand, rfl⟩
    · exact .inr hg
  refine ⟨⟨fun pk pk' hpk hpk' => h.same pk pk' (hclaimed pk hpk) (hclaimed pk' hpk'), h.founded,
    fun _ _ _ => .inl ⟨member, by simp⟩⟩, fun _ => id, ?_⟩
  rintro pk (⟨e, he, rfl⟩ | hg)
  · by_cases hsame : e = .clearToken member
    · exact .inl ⟨.setOwner member, by simp, by rw [hsame]; rfl⟩
    · exact .inl ⟨e, List.mem_append_left _ ((List.mem_erase_of_ne hsame).mpr he), rfl⟩
  · exact .inr hg

theorem spent (h : s.OneClaim) (herrand : .clearToken member ∈ s.errands)
    (htoken : s.host.setupToken = none) :
    s.Keeps { s with errands := s.errands.erase (.clearToken member) } := by
  have hkept : ∀ pk, .setOwner pk ∈ s.errands →
      .setOwner pk ∈ s.errands.erase (.clearToken member) :=
    fun pk he => (List.mem_erase_of_ne (by simp)).mpr he
  have hclaimed : ∀ pk, Reception.ClaimedBy
      { s with errands := s.errands.erase (.clearToken member) } pk → s.ClaimedBy pk :=
    fun pk hpk => hpk.imp_left fun ⟨e, he, hmember⟩ => ⟨e, List.mem_of_mem_erase he, hmember⟩
  refine ⟨⟨fun pk pk' hpk hpk' => h.same pk pk' (hclaimed pk hpk) (hclaimed pk' hpk'), h.founded,
    fun pk he hnone => ?_⟩, fun _ => id, ?_⟩
  · exact (h.taken pk (List.mem_of_mem_erase he) hnone).imp_left
      fun ⟨pk', hpk'⟩ => ⟨pk', hkept pk' hpk'⟩
  · rintro pk (⟨e, he, rfl⟩ | hg)
    · by_cases hsame : e = .clearToken member
      · subst hsame
        -- Whoever took the token is the same identity.
        rcases h.taken member herrand htoken with ⟨pk', hpk'⟩ | hg
        · have hpk : pk' = member := h.same _ _ (.inl ⟨_, hpk', rfl⟩) (.inl ⟨_, herrand, rfl⟩)
          exact .inl ⟨_, hkept pk' hpk', hpk⟩
        · obtain ⟨g, hg⟩ := Option.ne_none_iff_exists'.mp hg
          exact .inr ⟨g, hg, h.same _ _ (.inr ⟨g, hg, rfl⟩) (.inl ⟨_, herrand, rfl⟩)⟩
      · exact .inl ⟨e, (List.mem_erase_of_ne hsame).mpr he, rfl⟩
    · exact .inr hg

theorem claimed {genesis : Genesis} (h : s.OneClaim) (herrand : .setOwner member ∈ s.errands) :
    s.Keeps ⟨s.host.claim K member genesis, s.errands.erase (.setOwner member)⟩ := by
  have hmine : s.ClaimedBy member := .inl ⟨_, herrand, rfl⟩
  -- The genesis names the member, whether it was there or not.
  obtain ⟨g, hg, hfounder⟩ : ∃ g, (s.host.claim K member genesis).db.genesis = some g ∧
      g.owner = member := by
    unfold Host.claim
    split
    · next g hg => exact ⟨g, hg, h.same _ _ (.inr ⟨g, hg, rfl⟩) hmine⟩
    · exact ⟨_, rfl, rfl⟩
  have howner : (s.host.claim K member genesis).owner = some member := by
    unfold Host.claim
    split <;> rfl
  have hclaimed : ∀ pk, (⟨s.host.claim K member genesis,
      s.errands.erase (.setOwner member)⟩ : Reception).ClaimedBy pk → pk = member := by
    rintro pk (⟨e, he, rfl⟩ | ⟨g', hg', rfl⟩)
    · exact h.same _ _ (.inl ⟨e, List.mem_of_mem_erase he, rfl⟩) hmine
    · rw [← Option.some.inj (hg.symm.trans hg'), hfounder]
  refine ⟨⟨fun pk pk' hpk hpk' => (hclaimed pk hpk).trans (hclaimed pk' hpk').symm, ?_,
    fun _ _ _ => .inr (by simp [hg])⟩, ?_, fun pk hpk => .inr ⟨g, hg, ?_⟩⟩
  · intro owner h'
    exact ⟨g, hg, hfounder.trans (Option.some.inj (howner.symm.trans h'))⟩
  · intro owner h'
    obtain ⟨g', hg', rfl⟩ := h.founded owner h'
    exact howner.trans (congrArg some (h.same _ _ hmine (.inr ⟨g', hg', rfl⟩)))
  · rw [hfounder]
    exact h.same _ _ hmine hpk

theorem finds_joinedBefore {pk : PublicKey} {found : Option PublicKey}
    (hfirst : host.JoinedBefore pk) (hfinds : host.Finds found) : found = some pk := by
  obtain ⟨row, hrow, heligible, hbefore⟩ := hfirst
  cases found with
  | none => exact absurd heligible (hfinds pk row hrow)
  | some other =>
    obtain ⟨row', hrow', heligible', hfirst'⟩ := hfinds
    by_contra hne
    have hlt := hbefore other row' (fun heq => hne (congrArg some heq)) hrow' heligible'
    exact absurd (hfirst' pk row hrow heligible) (Nat.not_le.mpr hlt)

theorem restarted {setup : Setup} (h : s.OneClaim)
    (hkeeps : OwnerOp.KeepsOwner s (.restart setup))
    (hrestart : Restarted K s.host setup host) : s.Keeps ⟨host, []⟩ := by
  cases hg : s.host.db.genesis with
  | none =>
    simp only [OwnerOp.KeepsOwner, hg] at hkeeps
    obtain ⟨herrands, hempty⟩ := hkeeps
    have hnobody : ∀ pk, ¬s.ClaimedBy pk := by
      rintro pk (⟨e, he, -⟩ | ⟨g, hg', -⟩)
      · exact List.not_mem_nil (herrands ▸ he)
      · simp [hg] at hg'
    cases hrestart with
    | found hmembers => exact absurd hempty hmembers
    | firstRun _ _ hserver =>
      have hnone : _ = none := ((restart_genesis hserver).trans setUp_genesis).trans hg
      refine ⟨⟨fun pk pk' hpk => ?_, by simp, by simp⟩,
        fun owner howner => ?_, fun pk hpk => absurd hpk (hnobody pk)⟩
      · rcases hpk with ⟨e, he, -⟩ | ⟨g, hg', -⟩
        · exact absurd he List.not_mem_nil
        · exact absurd (hg'.symm.trans hnone) (by simp)
      · obtain ⟨g, hg', -⟩ := h.founded owner howner
        simp [hg] at hg'
  | some g =>
    simp only [OwnerOp.KeepsOwner, hg] at hkeeps
    obtain ⟨hfirst, herrands⟩ := hkeeps
    cases hrestart with
    | firstRun hempty =>
      obtain ⟨row, hrow, -⟩ := hfirst
      simp [Community.getMember, hempty] at hrow
    | @found server owner _ howner hserver =>
      obtain rfl := finds_joinedBefore hfirst howner
      have hgenesis : server.db.genesis = some g := (restart_genesis hserver).trans hg
      have hclaimed : ∀ pk, (⟨{ s.host with
            server
            owner := some g.owner
            setupToken := none
            clientProtocol := ∅
            maxFileSize := setup.maxFileSize
            running := [] }, []⟩ : Reception).ClaimedBy pk → pk = g.owner := by
        rintro pk (⟨e, he, -⟩ | ⟨g', hg', rfl⟩)
        · exact absurd he List.not_mem_nil
        · rw [Option.some.inj (hgenesis.symm.trans hg')]
      refine ⟨⟨fun pk pk' hpk hpk' => (hclaimed pk hpk).trans (hclaimed pk' hpk').symm, ?_,
        by simp⟩, ?_, fun pk hpk => .inr ⟨g, hgenesis, ?_⟩⟩
      · rintro owner ⟨⟩
        exact ⟨g, hgenesis, rfl⟩
      · intro owner howner'
        obtain ⟨g', hg', rfl⟩ := h.founded owner howner'
        rw [Option.some.inj (hg.symm.trans hg')]
      · exact h.same _ _ (.inr ⟨g, hg, rfl⟩) hpk

theorem step {e : OwnerOp} (h : s.OneClaim) (hkeeps : e.KeepsOwner s)
    (hstep : OwnerStep K s e s') : s.Keeps s' := by
  cases hstep with
  | other hop => exact h.keeps (perform_claim hop) rfl
  | known => exact h.keeps .refl rfl
  | refused => exact h.keeps .refl rfl
  | admitted hmember hadmission =>
    obtain ⟨hclaim, herrands⟩ := admitNewMember_claim hmember hadmission
    rcases herrands with hnone | ⟨htakes, hsets | ⟨hclears, htoken⟩⟩
    · exact h.keeps hclaim (by rw [hnone, List.append_nil])
    · rw [hsets]
      exact h.admitted hclaim rfl (hkeeps htakes) nofun
    · rw [hclears]
      exact h.admitted hclaim rfl (hkeeps htakes) fun _ _ => htoken
  | cleared herrand => exact h.cleared herrand
  | spent herrand htoken => exact h.spent herrand htoken
  | claimed herrand => exact h.claimed herrand
  | restarted hrestart => exact h.restarted hkeeps hrestart

end Reception.OneClaim

/-- A handshake with a setup token has enrolled the member. -/
def AdmitsByToken (x : Transition Reception OwnerOp) (pk : PublicKey) : Prop :=
  (∃ moment name credentials, x.event = .enrol moment pk name credentials ∧
    credentials.setupToken ≠ none) ∧
  x.pre.host.community.getMember pk = none ∧ x.post.host.community.getMember pk ≠ none

theorem claimedBy_of_admits {x : Transition Reception OwnerOp} {pk : PublicKey}
    (hstep : OwnerStep K x.pre x.event x.post) (hadmits : AdmitsByToken x pk) :
    x.post.ClaimedBy pk := by
  obtain ⟨pre, event, post⟩ := x
  obtain ⟨⟨moment, name, credentials, hevent, htoken⟩, hnew, hrow⟩ := hadmits
  simp only at hstep hevent hnew hrow ⊢
  subst hevent
  cases hstep with
  | known hmember => exact absurd hnew hmember
  | refused => exact absurd hnew hrow
  | admitted hmember hadmission =>
    refine .inl ⟨.clearToken pk, List.mem_append_right _ ?_, rfl⟩
    rw [errandsOf, if_pos (Option.isSome_iff_ne_none.mpr htoken)]
    exact List.mem_singleton_self _

/-- In a run in which no handshake claims the server next to another identity, and every restart
finds the founder first, an owner stays the owner, and is the one that the genesis names; and all
that the setup token admits is one identity. -/
theorem one_owner {setup : Setup} {tr : List (Transition Reception OwnerOp)}
    (hrun : OwnerRun K ⟨.firstRun setup, []⟩ tr s)
    (hkeeps : ∀ x ∈ tr, x.event.KeepsOwner x.pre) :
    (∀ x ∈ tr, ∀ owner, x.pre.host.owner = some owner → x.post.host.owner = some owner) ∧
    (∀ owner, s.host.owner = some owner → ∃ g, s.host.db.genesis = some g ∧ g.owner = owner) ∧
    (∀ x ∈ tr, ∀ y ∈ tr, ∀ pk pk', AdmitsByToken x pk → AdmitsByToken y pk' → pk = pk') := by
  have hstart : Reception.OneClaim ⟨.firstRun setup, []⟩ := by
    refine ⟨fun pk pk' hpk => ?_, by simp [Host.firstRun], by simp⟩
    rcases hpk with ⟨e, he, -⟩ | ⟨g, hg, -⟩
    · exact absurd he List.not_mem_nil
    · exact absurd hg (by simp [Host.firstRun, Db.empty])
  have hone := hrun.kept (Q := Reception.OneClaim) hstart
    fun x hx hstep hpre => (hpre.step (hkeeps x hx) hstep).oneClaim
  have hend : s.OneClaim := hrun.good_end (Q := Reception.OneClaim) hstart
    fun x hx => (hone x hx).2
  have hclaims : ∀ x ∈ tr, ∀ pk, AdmitsByToken x pk → s.ClaimedBy pk := by
    intro x hx pk hadmits
    obtain ⟨a, b, rfl⟩ := List.append_of_mem hx
    obtain ⟨-, hstep, hlater⟩ := hrun.split_at
    have hall := hlater.kept (Q := fun s => s.ClaimedBy pk) (claimedBy_of_admits hstep hadmits)
      fun y hy hstep hpre =>
        ((hone y (by simp [hy])).1.step (hkeeps y (by simp [hy])) hstep).claimedBy pk hpre
    exact hlater.good_end (Q := fun s => s.ClaimedBy pk) (claimedBy_of_admits hstep hadmits)
      fun y hy => (hall y hy).2
  refine ⟨fun x hx owner howner => ?_, hend.founded, fun x hx y hy pk pk' hpk hpk' => ?_⟩
  · exact ((hone x hx).1.step (hkeeps x hx) (hrun.step_of_mem hx)).owner owner howner
  · exact hend.same pk pk' (hclaims x hx pk hpk) (hclaims y hy pk' hpk')

/-! ## The token outlives the first claim -/

open SampleLog SampleHost

def admission (s : ℕ) (member : Keypair) (setupToken : Option String) : OwnerOp :=
  .enrol (momentAt s) (key member) "member" ⟨none, setupToken⟩

def claimedByToken : List OwnerOp :=
  [admission 1 alice (some "token"), .clearToken (key alice), .setOwner (key alice) genesis]

/-- Alice claims it as the first member; then Bob connects with the token. -/
def claimedTwice : List OwnerOp :=
  [admission 1 alice none, .setOwner (key alice) genesis, admission 2 bob (some "token"),
   .clearToken (key bob), .setOwner (key bob) genesis]

/-- Alice and Bob connect with the token at the same time. -/
def admittedTwice : List OwnerOp :=
  [admission 1 alice (some "token"), admission 1 bob (some "token"), .clearToken (key alice),
   .clearToken (key bob), .setOwner (key alice) genesis]

def receptionAfter (ops : List OwnerOp) : Reception :=
  ops.foldl (Reception.apply crypto) ⟨start, []⟩

def claims (ops : List OwnerOp) : List (Transition Reception OwnerOp) :=
  Execution.path (Reception.apply crypto) ⟨start, []⟩ ops

theorem one_owner_of_token :
    (∀ x ∈ claims claimedByToken, ∀ owner, x.pre.host.owner = some owner →
        x.post.host.owner = some owner) ∧
      (∀ owner, (receptionAfter claimedByToken).host.owner = some owner →
        ∃ g, (receptionAfter claimedByToken).host.db.genesis = some g ∧ g.owner = owner) ∧
      (∀ x ∈ claims claimedByToken, ∀ y ∈ claims claimedByToken, ∀ pk pk',
        AdmitsByToken x pk → AdmitsByToken y pk' → pk = pk') := by
  have hrun : OwnerRun crypto ⟨.firstRun blankSetup, []⟩ (claims claimedByToken)
      (receptionAfter claimedByToken) := Reception.run_path (by decide +kernel)
  refine one_owner hrun fun x hx => ?_
  simp only [claims, claimedByToken, Execution.path, List.mem_cons, List.not_mem_nil, or_false]
    at hx
  rcases hx with rfl | rfl | rfl
  · rintro - pk (⟨e, he, -⟩ | ⟨g, hg, -⟩)
    · exact absurd he List.not_mem_nil
    · exact absurd hg (by simp [start, Host.firstRun, Db.empty])
  · trivial
  · trivial

/-- The token makes Bob the owner of the server that Alice has founded; and where two connect
with it at once, it admits both. -/
theorem owner_twice :
    (OwnerRun crypto ⟨start, []⟩ (claims claimedTwice) (receptionAfter claimedTwice) ∧
      (receptionAfter (claimedTwice.take 2)).host.owner = some (key alice) ∧
      (receptionAfter claimedTwice).host.owner = some (key bob) ∧
      (receptionAfter claimedTwice).host.db.genesis.map Genesis.owner = some (key alice)) ∧
    (OwnerRun crypto ⟨start, []⟩ (claims admittedTwice) (receptionAfter admittedTwice) ∧
      (∃ x ∈ claims admittedTwice, AdmitsByToken x (key alice)) ∧
      ∃ x ∈ claims admittedTwice, AdmitsByToken x (key bob)) := by
  refine ⟨⟨Reception.run_path (by decide +kernel), by decide +kernel, by decide +kernel,
      by decide +kernel⟩,
    Reception.run_path (by decide +kernel), ⟨_, List.mem_cons_self, ?_⟩,
    ⟨_, List.mem_cons_of_mem _ List.mem_cons_self, ?_⟩⟩
  · exact ⟨⟨_, _, _, rfl, by simp⟩, by decide +kernel, by decide +kernel⟩
  · exact ⟨⟨_, _, _, rfl, by simp⟩, by decide +kernel, by decide +kernel⟩

end Server
