import Farder.Client.Voice
import Farder.SampleLog
import Farder.Server.MediaRows

/-! # Mute and deafen, here and there

A deafening mutes the client without a word to the server, and puts the mute choice aside each time
it is repeated. So the flags, the server and the peers agree in some runs only. -/
namespace Voice

open EventLog Server

/-! ## What peers hear -/

variable {told : PeerStatus} {sid : SessionId} {d : Duty} {l : List Duty} {v : Bool × Bool}

/-- The session that a duty tells of. -/
def about : Duty → Option SessionId
  | .announce ⟨_, .streamJoined _ _ _ sessionId⟩ => some sessionId
  | .announce ⟨_, .streamStateChanged _ sessionId _ _⟩ => some sessionId
  | .announce ⟨_, .streamLeft _ sessionId⟩ => some sessionId
  | _ => none

theorem hear_other (h : about d ≠ some sid) : hear told d sid = told sid := by
  unfold hear
  split
  · exact Function.update_of_ne (fun heq => h (congrArg some heq.symm)) _ _
  · exact Function.update_of_ne (fun heq => h (congrArg some heq.symm)) _ _
  · exact Function.update_of_ne (fun heq => h (congrArg some heq.symm)) _ _
  · rfl

theorem foldl_hear_other (h : ∀ d ∈ l, about d ≠ some sid) : l.foldl hear told sid = told sid := by
  induction l generalizing told with
  | nil => rfl
  | cons d l ih =>
    rw [List.foldl_cons, ih fun d hd => h d (List.mem_cons_of_mem _ hd),
      hear_other (h d (List.mem_cons_self))]

theorem foldl_hear_same (hex : ∃ d ∈ l, about d = some sid)
    (h : ∀ d ∈ l, about d = some sid → ∀ told, hear told d sid = some v) :
    l.foldl hear told sid = some v := by
  induction l generalizing told with
  | nil => simp at hex
  | cons d l ih =>
    rw [List.foldl_cons]
    by_cases hlater : ∃ d ∈ l, about d = some sid
    · exact ih hlater fun d hd => h d (List.mem_cons_of_mem _ hd)
    · push Not at hlater
      obtain ⟨d', hd', habout⟩ := hex
      rcases List.mem_cons.mp hd' with rfl | hd'
      · rw [foldl_hear_other hlater, h d' (List.mem_cons_self) habout]
      · exact absurd habout (hlater d' hd')

namespace Scene

variable {own : PublicKey} {isOwner : Bool} {s : Scene}

/-- The session of a call is where it should be. -/
structure Sound (own : PublicKey) (s : Scene) : Prop where
  media : s.hub.media.Sound s.drawn
  call : ∀ call ∈ s.client.active,
    s.hub.media.Placed own call.channelId call.mySessionId ∧ call.mySessionId ∈ s.drawn
  again : s.again = true → s.client.deafened = true

/-- What the server records of a session, and what peers know of it. -/
def seen (s : Scene) (channelId : ℕ) (sid : SessionId) : (Bool × Bool) × Option (Bool × Bool) :=
  (s.hub.media.recorded channelId sid, s.told sid)

structure Consistent (s : Scene) : Prop where
  implied : s.client.deafened = true → s.client.muted = true
  shown : s.client.state.muted = s.client.muted ∧ s.client.state.deafened = s.client.deafened
  agrees : ∀ call ∈ s.client.active, s.seen call.channelId call.mySessionId =
    ((s.client.muted, s.client.deafened), some (s.client.muted, s.client.deafened))

/-- The state is consistent after the step, and an undeafening restores the choice. -/
def Meets (x : Transition Scene VoiceOp) : Prop :=
  x.post.Consistent ∧ (x.event = .setDeafen false → x.pre.client.deafened = true →
    x.post.client.muted = x.pre.choice)

/-- Out of a call only the one who is neither muted nor deafened joins; whoever is deafened is not
unmuted; in a call only the muted are deafened, and only those who were so before are undeafened;
and whoever has been deafened again was muted before. -/
def Cond (x : Transition Scene VoiceOp) : Prop :=
  match x.event with
  | .join _ _ => x.pre.client.active = none →
      x.pre.client.muted = false ∧ x.pre.client.deafened = false
  | .leave => True
  | .setMute muted => x.pre.client.deafened = true → muted = true
  | .setDeafen true => x.pre.client.active ≠ none → x.pre.client.muted = true
  | .setDeafen false => (x.pre.client.active ≠ none → x.pre.choice = x.pre.client.muted) ∧
      (x.pre.again = true → x.pre.choice = true)
  | .other _ _ _ => True

def Good (s : Scene) : Prop :=
  s.Consistent ∧ s.client.preDeafenMuted = (s.again || s.choice)

variable {member : PublicKey} {request : SessionRequest} {c : ℕ} {g : ℕ × SessionId → Duty}

theorem notices_other (hplaced : s.hub.media.Placed own c sid) (hne : member ≠ own)
    (hg : ∀ x, about (g x) = some x.2 ∨ about (g x) = none) :
    ((.respond :: (s.hub.media.sessionsOf member).map g).foldl hear told) sid = told sid := by
  refine foldl_hear_other fun d hd => ?_
  rcases List.mem_cons.mp hd with rfl | hd
  · exact nofun
  · obtain ⟨x, hx, rfl⟩ := List.mem_map.mp hd
    rcases hg x with habout | habout
    · rw [habout]
      exact fun heq => hne (hplaced.of_mem_sessionsOf hx (Option.some.inj heq)).2
    · rw [habout]
      exact nofun

theorem notices_own (hplaced : s.hub.media.Placed own c sid) (hg : ∀ x, about (g x) = some x.2)
    (hv : ∀ told, hear told (g (c, sid)) sid = some v) :
    ((.respond :: (s.hub.media.sessionsOf own).map g).foldl hear told) sid = some v := by
  refine foldl_hear_same ⟨g (c, sid), ?_, hg _⟩ fun d hd habout told => ?_
  · exact List.mem_cons_of_mem _ (List.mem_map_of_mem hplaced.mem_sessionsOf)
  · rcases List.mem_cons.mp hd with rfl | hd
    · cases habout
    · obtain ⟨x, hx, rfl⟩ := List.mem_map.mp hd
      rw [hg x] at habout
      rw [(hplaced.of_mem_sessionsOf hx (Option.some.inj habout)).1]
      exact hv told

theorem handle_presence (s : Scene) (member : PublicKey) (isOwner : Bool)
    (presence : Option Presence) (limited : Bool) :
    (s.hub.handleStream member isOwner (.updatePresence presence limited)).1.media = s.hub.media ∧
      ∀ d ∈ (s.hub.handleStream member isOwner (.updatePresence presence limited)).2,
        about d = none := by
  by_cases hrefused : limited = true ∨ presence.any Hub.presenceTooLong = true
  · have heq : s.hub.handleStream member isOwner (.updatePresence presence limited) =
        (s.hub, [.respond]) := if_pos hrefused
    rw [heq]
    exact ⟨rfl, by simp [about]⟩
  · have heq : s.hub.handleStream member isOwner (.updatePresence presence limited) =
        (s.hub.setPresence member presence,
          [.respond, .announce ⟨.all, .memberPresenceUpdated member presence⟩]) := if_neg hrefused
    rw [heq]
    exact ⟨rfl, by simp [about]⟩

theorem request_sound (h : s.hub.media.Sound s.drawn) :
    (s.request member isOwner request).hub.media.Sound (s.request member isOwner request).drawn := by
  have hold {media : MediaStateMap} (hmedia : media.Sound s.drawn) :
      media.Sound (s.drawn ∪ drawnId request) := hmedia.mono Finset.subset_union_left
  cases request with
  | server request => exact hold h
  | subscribe channelIds => exact hold h
  | updatePresence presence limited =>
    have hsame := (s.handle_presence member isOwner presence limited).1
    exact hold (hsame ▸ h)
  | joinStream channelId sessionId => exact h.join
  | leaveStream => exact hold (h.update StreamState.touches_leave)
  | setTrack kind enabled => exact hold (h.update StreamState.touches_setTrack)
  | setDeafen deafened => exact hold (h.update StreamState.touches_setDeafen)
  | setMute muted => exact hold (h.update StreamState.touches_setMute)

theorem request_other (hmedia : s.hub.media.Sound s.drawn)
    (hplaced : s.hub.media.Placed own c sid) (hsid : sid ∈ s.drawn) (hne : member ≠ own)
    (hfresh : Disjoint (drawnId request) s.drawn) :
    (s.request member isOwner request).hub.media.Placed own c sid ∧
      (s.request member isOwner request).seen c sid = s.seen c sid := by
  have hupdated {f : StreamState → StreamState} (hf : StreamState.Touches member f) :
      (s.hub.media.update f).Placed own c sid ∧
        (s.hub.media.update f).recorded c sid = s.hub.media.recorded c sid :=
    ⟨hplaced.update hf (.inl hne.symm),
      MediaStateMap.recorded_update_other hplaced hmedia.keys hf hne.symm⟩
  cases request with
  | server request => exact ⟨hplaced, rfl⟩
  | subscribe channelIds => exact ⟨hplaced, rfl⟩
  | updatePresence presence limited =>
    obtain ⟨hsame, hduties⟩ := s.handle_presence member isOwner presence limited
    refine ⟨?_, Prod.ext ?_ (foldl_hear_other fun d hd => by rw [hduties d hd]; exact nofun)⟩
    · exact hsame ▸ hplaced
    · exact congrArg (MediaStateMap.recorded · c sid) hsame
  | joinStream channelId sessionId =>
    have hnew : sessionId ≠ sid := fun heq =>
      Finset.disjoint_left.mp hfresh (Finset.mem_singleton_self sessionId) (heq ▸ hsid)
    refine ⟨hplaced.join_other hmedia.keys hnew, Prod.ext ?_ ?_⟩
    · exact MediaStateMap.recorded_join_other hplaced hmedia.keys
    · exact Function.update_of_ne hnew.symm _ _
  | leaveStream =>
    obtain ⟨hplaced', hrecorded⟩ := hupdated StreamState.touches_leave
    exact ⟨hplaced', Prod.ext hrecorded (notices_other hplaced hne fun _ => .inl rfl)⟩
  | setTrack kind enabled =>
    obtain ⟨hplaced', hrecorded⟩ := hupdated StreamState.touches_setTrack
    exact ⟨hplaced', Prod.ext hrecorded (notices_other hplaced hne fun _ => .inr rfl)⟩
  | setDeafen deafened =>
    obtain ⟨hplaced', hrecorded⟩ := hupdated StreamState.touches_setDeafen
    exact ⟨hplaced', Prod.ext hrecorded (notices_other hplaced hne fun _ => .inl rfl)⟩
  | setMute muted =>
    obtain ⟨hplaced', hrecorded⟩ := hupdated StreamState.touches_setMute
    exact ⟨hplaced', Prod.ext hrecorded (notices_other hplaced hne fun _ => .inl rfl)⟩

theorem request_setTrack (isOwner : Bool) (kind : TrackKind) (enabled : Bool) (hmedia : s.hub.media.Sound s.drawn)
    (hplaced : s.hub.media.Placed own c sid) :
    (s.request own isOwner (.setTrack kind enabled)).hub.media.Placed own c sid ∧
      (s.request own isOwner (.setTrack kind enabled)).seen c sid = s.seen c sid := by
  refine ⟨hplaced.update StreamState.touches_setTrack (.inr fun st y hy => ?_), Prod.ext ?_ ?_⟩
  · exact StreamState.mem_setTrack.mpr ⟨y, hy, rfl, rfl⟩
  · have hchannel := MediaStateMap.channel_update (f := fun st => st.setTrack own kind enabled)
      hmedia.keys hplaced
    show MediaStateMap.recorded (s.hub.media.update fun st => st.setTrack own kind enabled) c sid =
      s.hub.media.recorded c sid
    rw [MediaStateMap.recorded, MediaStateMap.recorded, hchannel]
    rfl
  · refine foldl_hear_other fun d hd => ?_
    rcases List.mem_cons.mp hd with rfl | hd
    · exact (Option.some_ne_none sid).symm
    · obtain ⟨x, -, rfl⟩ := List.mem_map.mp hd
      exact (Option.some_ne_none sid).symm

theorem request_setMute {muted : Bool} (hmedia : s.hub.media.Sound s.drawn)
    (hplaced : s.hub.media.Placed own c sid) :
    (s.request own isOwner (.setMute muted)).hub.media.Placed own c sid ∧
      (s.request own isOwner (.setMute muted)).seen c sid =
        ((muted, (s.hub.media.recorded c sid).2), some (muted, (s.hub.media.recorded c sid).2)) := by
  refine ⟨hplaced.update StreamState.touches_setMute (.inr fun st y hy => ⟨y, hy, rfl, rfl⟩),
    Prod.ext ?_ ?_⟩
  · exact MediaStateMap.recorded_setMute hplaced hmedia.keys
  · exact notices_own hplaced (fun _ => rfl) fun told => Function.update_self ..

theorem request_setDeafen {deafened : Bool} (hmedia : s.hub.media.Sound s.drawn)
    (hplaced : s.hub.media.Placed own c sid) :
    (s.request own isOwner (.setDeafen deafened)).hub.media.Placed own c sid ∧
      (s.request own isOwner (.setDeafen deafened)).seen c sid =
        (((s.hub.media.recorded c sid).1, deafened),
          some ((s.hub.media.recorded c sid).1, deafened)) := by
  refine ⟨hplaced.update StreamState.touches_setDeafen (.inr fun st y hy => ⟨y, hy, rfl, rfl⟩),
    Prod.ext ?_ ?_⟩
  · exact MediaStateMap.recorded_setDeafen hplaced hmedia.keys
  · exact notices_own hplaced (fun _ => rfl) fun told => Function.update_self ..

theorem request_joinStream (isOwner : Bool) (c : ℕ) (hmedia : s.hub.media.Sound s.drawn) (hfresh : sid ∉ s.drawn) :
    (s.request own isOwner (.joinStream c sid)).hub.media.Placed own c sid ∧
      (s.request own isOwner (.joinStream c sid)).seen c sid =
        ((false, false), some (false, false)) := by
  refine ⟨MediaStateMap.placed_join hmedia hfresh, Prod.ext ?_ ?_⟩
  · exact MediaStateMap.recorded_join hmedia hfresh
  · exact Function.update_self ..

variable {op : VoiceOp} {sid' : SessionId}

theorem inCall_eq (h : s.client.active ≠ none) :
    s.inCall own isOwner request = s.request own isOwner request :=
  if_pos (Option.isSome_iff_ne_none.mpr h)

theorem inCall_eq_self (h : s.client.active = none) : s.inCall own isOwner request = s :=
  if_neg (by simp [h])

theorem inCall_media (h : s.hub.media.Sound s.drawn) :
    (s.inCall own isOwner request).hub.media.Sound (s.inCall own isOwner request).drawn := by
  by_cases hcall : s.client.active = none
  · rw [inCall_eq_self hcall]
    exact h
  · rw [inCall_eq hcall]
    exact request_sound h

theorem leave_media (h : s.hub.media.Sound s.drawn) :
    (s.leave own isOwner).hub.media.Sound (s.leave own isOwner).drawn :=
  inCall_media (inCall_media h)

theorem Sound.leave (h : s.Sound own) : (s.leave own isOwner).Sound own where
  media := leave_media h.media
  call call hcall := by cases hcall
  again hagain := by cases hagain

theorem good_leave : (s.leave own isOwner).Good :=
  ⟨⟨fun h => h, ⟨rfl, rfl⟩, fun call hcall => by cases hcall⟩, rfl⟩

/-- The controller when a call starts: as it is, or as it is left. -/
def leaving (own : PublicKey) (isOwner : Bool) (s : Scene) : Scene :=
  if s.client.active.isSome then s.leave own isOwner else s

theorem Sound.leaving (isOwner : Bool) (h : s.Sound own) : (s.leaving own isOwner).Sound own := by
  unfold Scene.leaving
  by_cases hcall : s.client.active.isSome = true
  · rw [if_pos hcall]
    exact h.leave
  · rw [if_neg hcall]
    exact h

theorem leaving_drawn (own : PublicKey) (isOwner : Bool) (s : Scene) : (s.leaving own isOwner).drawn = s.drawn := by
  have hrequest {s : Scene} {request : SessionRequest} (hnone : drawnId request = ∅) :
      (s.inCall own isOwner request).drawn = s.drawn := by
    by_cases hcall : s.client.active = none
    · rw [inCall_eq_self hcall]
    · rw [inCall_eq hcall]
      show s.drawn ∪ drawnId request = s.drawn
      rw [hnone, Finset.union_empty]
  unfold Scene.leaving
  by_cases hcall : s.client.active.isSome = true
  · rw [if_pos hcall]
    exact (hrequest rfl).trans (hrequest rfl)
  · rw [if_neg hcall]

theorem join_seen (h : s.Sound own) (hfresh : sid ∉ s.drawn) :
    (s.next own isOwner (.join c sid)).hub.media.Placed own c sid ∧
      (s.next own isOwner (.join c sid)).seen c sid = ((false, false), some (false, false)) := by
  rw [← leaving_drawn own isOwner] at hfresh
  have hmedia := (h.leaving isOwner).media
  obtain ⟨hplaced, hseen⟩ := request_joinStream isOwner c hmedia hfresh
  obtain ⟨hplaced', hseen'⟩ := request_setTrack isOwner .audio true (request_sound hmedia) hplaced
  exact ⟨hplaced', hseen'.trans hseen⟩

theorem inCall_call {call : ActiveCall} (h : s.Sound own) (hcall : call ∈ s.client.active)
    (hkept : s.hub.media.Placed own call.channelId call.mySessionId →
      (s.request own isOwner request).hub.media.Placed own call.channelId call.mySessionId) :
    (s.inCall own isOwner request).hub.media.Placed own call.channelId call.mySessionId ∧
      call.mySessionId ∈ (s.inCall own isOwner request).drawn := by
  obtain ⟨hplaced, hdrawn⟩ := h.call call hcall
  rw [inCall_eq (Option.ne_none_iff_exists'.mpr ⟨call, hcall⟩)]
  exact ⟨hkept hplaced, Finset.mem_union_left _ hdrawn⟩

theorem Sound.next (h : s.Sound own) (henabled : s.Enabled own op) :
    (s.next own isOwner op).Sound own := by
  cases op with
  | join channelId sessionId =>
    refine ⟨request_sound (request_sound (h.leaving isOwner).media), ?_, ?_⟩
    · rintro call ⟨rfl⟩
      exact ⟨(join_seen h henabled).1, Finset.mem_union_left _
        (Finset.mem_union_right _ (Finset.mem_singleton_self sessionId))⟩
    · exact (h.leaving isOwner).again
  | leave => exact h.leave
  | setMute muted =>
    refine ⟨inCall_media h.media, fun call hcall => ?_, fun hagain => h.again ?_⟩
    · exact inCall_call h hcall fun hplaced => (request_setMute h.media hplaced).1
    · by_cases hnone : s.client.active = none
      · rwa [Scene.next, inCall_eq_self hnone] at hagain
      · rwa [Scene.next, inCall_eq hnone] at hagain
  | setDeafen deafened =>
    refine ⟨inCall_media h.media, fun call hcall => ?_, fun hagain => ?_⟩
    · have hactive : call ∈ s.client.active := by
        cases deafened <;> exact hcall
      exact inCall_call h hactive fun hplaced => (request_setDeafen h.media hplaced).1
    · have hboth : deafened = true ∧ s.client.deafened = true := of_decide_eq_true hagain
      show (s.client.setDeafen deafened).deafened = true
      rw [hboth.1]
      rfl
  | other member isOwner request =>
    refine ⟨request_sound h.media, fun call hcall => ?_, h.again⟩
    obtain ⟨hplaced, hdrawn⟩ := h.call call hcall
    exact ⟨(request_other h.media hplaced hdrawn henabled.1 henabled.2).1,
      Finset.mem_union_left _ hdrawn⟩

/-! ## What a step does to the agreement -/

/-- The operation as a step. -/
def taken (own : PublicKey) (isOwner : Bool) (s : Scene) (op : VoiceOp) :
    Transition Scene VoiceOp := ⟨s, op, s.next own isOwner op⟩

/-- The step keeps the agreement if it meets the condition, and only then. -/
def Judged (x : Transition Scene VoiceOp) : Prop :=
  (Meets x ↔ Cond x) ∧ (Meets x → x.post.Good)

theorem Good.leaving (own : PublicKey) (isOwner : Bool) (h : s.Good) : (s.leaving own isOwner).Good := by
  unfold Scene.leaving
  by_cases hcall : s.client.active.isSome = true
  · rw [if_pos hcall]
    exact good_leave
  · rw [if_neg hcall]
    exact h

theorem judged_join (hsound : s.Sound own) (hgood : s.Good) (hfresh : sid ∉ s.drawn) :
    Judged (taken own isOwner s (.join c sid)) := by
  obtain ⟨hleft, hchoice⟩ := hgood.leaving own isOwner
  have hseen : (s.next own isOwner (.join c sid)).seen c sid = ((false, false), some (false, false)) :=
    (join_seen hsound hfresh).2
  have hiff : Meets (taken own isOwner s (.join c sid)) ↔
      (s.leaving own isOwner).client.muted = false ∧
        (s.leaving own isOwner).client.deafened = false := by
    constructor
    · rintro ⟨hpost, -⟩
      have hagrees := (hpost.agrees _ rfl).symm.trans hseen
      exact Prod.mk.inj (Prod.mk.inj hagrees).1
    · rintro ⟨hmuted, hdeafened⟩
      refine ⟨⟨hleft.implied, hleft.shown, ?_⟩, nofun⟩
      rintro call ⟨rfl⟩
      refine hseen.trans ?_
      show _ = (((s.leaving own isOwner).client.muted, (s.leaving own isOwner).client.deafened),
        some ((s.leaving own isOwner).client.muted, (s.leaving own isOwner).client.deafened))
      rw [hmuted, hdeafened]
  refine ⟨hiff.trans ?_, fun hmeets => ⟨hmeets.1, hchoice⟩⟩
  show _ ↔ (s.client.active = none → s.client.muted = false ∧ s.client.deafened = false)
  by_cases hcall : s.client.active = none
  · rw [Scene.leaving, if_neg (by simp [hcall])]
    exact ⟨fun h _ => h, fun h => h hcall⟩
  · rw [Scene.leaving, if_pos (Option.isSome_iff_ne_none.mpr hcall)]
    exact iff_of_true ⟨rfl, rfl⟩ fun hnone => absurd hnone hcall

/-- What a client is seen as after it has told the server something in a call. -/
theorem seen_told {call : ActiveCall} {t : Scene} (hsound : s.Sound own)
    (hcall : call ∈ s.client.active) (hhub : t.hub = (s.inCall own isOwner request).hub)
    (htold : t.told = (s.inCall own isOwner request).told)
    (hseen : s.hub.media.Placed own call.channelId call.mySessionId →
      (s.request own isOwner request).seen call.channelId call.mySessionId = (v, some v)) :
    t.seen call.channelId call.mySessionId = (v, some v) := by
  rw [inCall_eq (Option.ne_none_iff_exists'.mpr ⟨call, hcall⟩)] at hhub htold
  rw [seen, hhub, htold]
  exact hseen (hsound.call call hcall).1

theorem inCall_ghosts : (s.inCall own isOwner request).again = s.again ∧
    (s.inCall own isOwner request).choice = s.choice := by
  by_cases hcall : s.client.active = none
  · rw [inCall_eq_self hcall]
    exact ⟨rfl, rfl⟩
  · rw [inCall_eq hcall]
    exact ⟨rfl, rfl⟩

theorem judged_setMute {muted : Bool} (hsound : s.Sound own) (hgood : s.Good) :
    Judged (taken own isOwner s (.setMute muted)) := by
  obtain ⟨hpre, hchoice⟩ := hgood
  have hiff : Meets (taken own isOwner s (.setMute muted)) ↔
      (s.client.deafened = true → muted = true) := by
    constructor
    · exact fun hmeets => hmeets.1.implied
    · intro himplied
      refine ⟨⟨himplied, ⟨rfl, hpre.shown.2⟩, fun call hcall => ?_⟩, nofun⟩
      have hrecorded := (Prod.mk.inj (hpre.agrees call hcall)).1
      refine seen_told hsound hcall rfl rfl fun hplaced => ?_
      rw [(request_setMute hsound.media hplaced).2, hrecorded]
      rfl
  refine ⟨hiff, fun hmeets => ⟨hmeets.1, ?_⟩⟩
  show s.client.preDeafenMuted = ((s.inCall own isOwner (.setMute muted)).again ||
    (s.inCall own isOwner (.setMute muted)).choice)
  rw [inCall_ghosts.1, inCall_ghosts.2, hchoice]

theorem judged_deafen (hsound : s.Sound own) (hgood : s.Good) :
    Judged (taken own isOwner s (.setDeafen true)) := by
  obtain ⟨hpre, hchoice⟩ := hgood
  have hseen {call : ActiveCall} (hcall : call ∈ s.client.active) :
      (s.next own isOwner (.setDeafen true)).seen call.channelId call.mySessionId =
        ((s.client.muted, true), some (s.client.muted, true)) := by
    have hrecorded := (Prod.mk.inj (hpre.agrees call hcall)).1
    refine seen_told hsound hcall rfl rfl fun hplaced => ?_
    rw [(request_setDeafen hsound.media hplaced).2, hrecorded]
  have hiff : Meets (taken own isOwner s (.setDeafen true)) ↔
      (s.client.active ≠ none → s.client.muted = true) := by
    constructor
    · intro hmeets hactive
      obtain ⟨call, hcall⟩ := Option.ne_none_iff_exists'.mp hactive
      have hagrees := (hmeets.1.agrees call hcall).symm.trans (hseen hcall)
      exact (Prod.mk.inj (Prod.mk.inj hagrees).1).1.symm
    · intro hmuted
      refine ⟨⟨fun _ => rfl, ⟨rfl, rfl⟩, fun call hcall => ?_⟩, nofun⟩
      refine (hseen hcall).trans ?_
      rw [hmuted (Option.ne_none_iff_exists'.mpr ⟨call, hcall⟩)]
      rfl
  refine ⟨hiff, fun hmeets => ⟨hmeets.1, ?_⟩⟩
  show s.client.muted = (decide (true = true ∧ s.client.deafened = true) ||
    if true = true ∧ s.client.deafened = false then s.client.muted else s.choice)
  cases hdeafened : s.client.deafened with
  | true => simpa using hpre.implied hdeafened
  | false => simp

theorem judged_undeafen (hsound : s.Sound own) (hgood : s.Good) :
    Judged (taken own isOwner s (.setDeafen false)) := by
  obtain ⟨hpre, hchoice⟩ := hgood
  have hseen {call : ActiveCall} (hcall : call ∈ s.client.active) :
      (s.next own isOwner (.setDeafen false)).seen call.channelId call.mySessionId =
        ((s.client.muted, false), some (s.client.muted, false)) := by
    have hrecorded := (Prod.mk.inj (hpre.agrees call hcall)).1
    refine seen_told hsound hcall rfl rfl fun hplaced => ?_
    rw [(request_setDeafen hsound.media hplaced).2, hrecorded]
  have hmuted : (s.next own isOwner (.setDeafen false)).client.muted = (s.again || s.choice) :=
    hchoice
  have hsame (hagain : s.again = true → s.choice = true) : (s.again || s.choice) = s.choice := by
    cases h : s.again with
    | true => rw [hagain h, Bool.or_self]
    | false => exact Bool.false_or _
  have hiff : Meets (taken own isOwner s (.setDeafen false)) ↔
      (s.client.active ≠ none → s.choice = s.client.muted) ∧ (s.again = true → s.choice = true) := by
    constructor
    · intro hmeets
      have hagain : s.again = true → s.choice = true := fun hagain => by
        have hrestored := hmeets.2 rfl (hsound.again hagain)
        exact hrestored.symm.trans (hmuted.trans (by rw [hagain, Bool.true_or]))
      refine ⟨fun hactive => ?_, hagain⟩
      obtain ⟨call, hcall⟩ := Option.ne_none_iff_exists'.mp hactive
      have hagrees := (hmeets.1.agrees call hcall).symm.trans (hseen hcall)
      rw [← hsame hagain, ← hmuted]
      exact (Prod.mk.inj (Prod.mk.inj hagrees).1).1
    · rintro ⟨hcalled, hagain⟩
      refine ⟨⟨fun h => (nomatch h), ⟨rfl, rfl⟩, fun call hcall => ?_⟩, fun _ _ => ?_⟩
      · refine (hseen hcall).trans ?_
        rw [← hcalled (Option.ne_none_iff_exists'.mpr ⟨call, hcall⟩), ← hsame hagain, ← hmuted]
        rfl
      · exact hmuted.trans (hsame hagain)
  refine ⟨hiff, fun hmeets => ⟨hmeets.1, ?_⟩⟩
  show s.client.preDeafenMuted = (decide (false = true ∧ s.client.deafened = true) ||
    if false = true ∧ s.client.deafened = false then s.client.muted else s.choice)
  rw [hchoice, hsame (hiff.mp hmeets).2]
  simp

theorem judged_other {member : PublicKey} {b : Bool} (hsound : s.Sound own) (hgood : s.Good)
    (hne : member ≠ own) (hfresh : Disjoint (drawnId request) s.drawn) :
    Judged (taken own isOwner s (.other member b request)) := by
  have hpost : (s.request member b request).Consistent := by
    refine ⟨hgood.1.implied, hgood.1.shown, fun call hcall => ?_⟩
    obtain ⟨hplaced, hdrawn⟩ := hsound.call call hcall
    exact (request_other hsound.media hplaced hdrawn hne hfresh).2.trans (hgood.1.agrees call hcall)
  exact ⟨iff_of_true ⟨hpost, nofun⟩ trivial, fun _ => ⟨hpost, hgood.2⟩⟩

theorem judged {x : Transition Scene VoiceOp} (hsound : x.pre.Sound own) (hgood : x.pre.Good)
    (hstep : Step own isOwner x.pre x.event x.post) : Judged x := by
  obtain ⟨s, op, t⟩ := x
  obtain ⟨henabled, ht⟩ := hstep
  have hx : (⟨s, op, t⟩ : Transition Scene VoiceOp) = taken own isOwner s op := by
    rw [taken, ← ht]
  rw [hx]
  cases op with
  | join channelId sessionId => exact judged_join hsound hgood henabled
  | leave => exact ⟨iff_of_true ⟨good_leave.1, nofun⟩ trivial, fun _ => good_leave⟩
  | setMute muted => exact judged_setMute hsound hgood
  | setDeafen deafened =>
    cases deafened with
    | true => exact judged_deafen hsound hgood
    | false => exact judged_undeafen hsound hgood
  | other member b request => exact judged_other hsound hgood henabled.1 henabled.2

theorem sound_start (host : Host) : (start host).Sound own where
  media := ⟨List.nodup_nil, fun _ hx => (nomatch hx), fun _ hx => (nomatch hx),
    fun _ hx => (nomatch hx)⟩
  call call hcall := by cases hcall
  again hagain := by cases hagain

theorem good_start (host : Host) : (start host).Good :=
  ⟨⟨fun h => h, ⟨rfl, rfl⟩, fun call hcall => by cases hcall⟩, rfl⟩

/-- All along a run the flags, what is shown, the server and the peers agree, whoever is deafened is
muted, and an undeafening restores the mute choice, exactly if all steps meet the condition. -/
theorem mute_deafen {host : Host} {tr : List (Transition Scene VoiceOp)}
    (hrun : Run own isOwner host tr s) : (∀ x ∈ tr, Meets x) ↔ ∀ x ∈ tr, Cond x :=
  hrun.forall_iff Good Meets Cond (sound_start host) (good_start host)
    (fun _ _ _ hsound hstep => hstep.2 ▸ hsound.next hstep.1)
    fun _ _ hsound hgood hstep => judged hsound hgood hstep

/-! ## Somebody who deafens twice -/

def bob : PublicKey := SampleLog.key SampleLog.bob

def bobs : Scene := start (.firstRun ⟨"token", "blank", 0⟩)

def perform (s : Scene) (op : VoiceOp) : Scene := s.next bob false op

theorem run_perform {ops : List VoiceOp}
    (h : ∀ x ∈ Execution.path perform bobs ops, x.pre.Enabled bob x.event) :
    Run bob false (.firstRun ⟨"token", "blank", 0⟩) (Execution.path perform bobs ops) (ops.foldl perform bobs) :=
  (Execution.of_path perform ops).of_steps fun x hx hstep => ⟨h x hx, hstep.symm⟩

def mutedCall : List VoiceOp :=
  [.join 1 [7], .setMute true, .setDeafen true, .setDeafen true, .setDeafen false, .leave]

theorem mute_deafen_of_call :
    (∀ x ∈ Execution.path perform bobs mutedCall, Meets x) ↔
      ∀ x ∈ Execution.path perform bobs mutedCall, Cond x :=
  mute_deafen (run_perform (by simp [mutedCall, Execution.path, Enabled, bobs, start]))

/-- Deafened and deafened again, out of a call. -/
def twice : List VoiceOp := [.setDeafen true, .setDeafen true, .setDeafen false]

/-- After the second deafening Bob stays muted, who never muted himself. -/
theorem deafened_twice :
    ¬∀ (own : PublicKey) (isOwner : Bool) (host : Host) (tr : List (Transition Scene VoiceOp))
      (s : Scene), Run own isOwner host tr s → ∀ x ∈ tr, Meets x := by
  intro h
  have hlast : ⟨(twice.take 2).foldl perform bobs, .setDeafen false, twice.foldl perform bobs⟩ ∈
      Execution.path perform bobs twice := by
    simp [twice, Execution.path]
  have hmeets := h bob false _ _ _
    (run_perform (by simp [twice, Execution.path, Enabled])) _ hlast
  exact absurd (hmeets.2 rfl rfl) (by decide +kernel)

end Scene

end Voice
