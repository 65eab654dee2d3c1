import Farder.SampleLog
import Farder.Server.Activity
import Farder.Server.MediaRows

/-! # Who is shown as speaking

A client is told of differences only. Its flags are right after every tick as long as no track is
disabled and enabled again in between while it is active at both ticks. -/
namespace Server

open EventLog

/-! ## What events do to the flags -/

variable {flags : Finset TrackKey} {key : TrackKey} {sid : SessionId} {kind : TrackKind}

theorem mem_reflect_trackDisabled :
    key ∈ StreamEvent.reflect flags (.trackDisabled sid kind) ↔ key ≠ (sid, kind) ∧ key ∈ flags :=
  Finset.mem_erase

theorem mem_reflect_streamLeft :
    key ∈ StreamEvent.reflect flags (.streamLeft sid) ↔ key ∈ flags ∧ key.1 ≠ sid := by
  simp [StreamEvent.reflect]

theorem mem_reflect_changed {t : ActivityTransition} :
    key ∈ StreamEvent.reflect flags (.trackActivityChanged t) ↔
      if key = (t.sessionId, t.kind) then t.active = true else key ∈ flags := by
  obtain ⟨sid, channelId, kind, active⟩ := t
  cases active with
  | true =>
    show key ∈ insert (sid, kind) flags ↔ _
    by_cases hkey : key = (sid, kind)
    · simp [hkey]
    · simp [hkey]
  | false =>
    show key ∈ flags.erase (sid, kind) ↔ _
    by_cases hkey : key = (sid, kind)
    · simp [hkey]
    · simp [hkey]

theorem mem_foldl_left {l : List SessionId} :
    key ∈ (l.map StreamEvent.streamLeft).foldl StreamEvent.reflect flags ↔
      key ∈ flags ∧ key.1 ∉ l := by
  induction l generalizing flags with
  | nil => simp
  | cons sid l ih =>
    rw [List.map_cons, List.foldl_cons, ih, mem_reflect_streamLeft, List.mem_cons, not_or, and_assoc]

theorem mem_foldl_disabled {l : List SessionId} :
    key ∈ (l.map fun sid => StreamEvent.trackDisabled sid kind).foldl StreamEvent.reflect flags ↔
      key ∈ flags ∧ key ∉ l.map fun sid => (sid, kind) := by
  induction l generalizing flags with
  | nil => simp
  | cons sid l ih =>
    rw [List.map_cons, List.foldl_cons, ih, mem_reflect_trackDisabled, List.map_cons,
      List.mem_cons, not_or]
    tauto

theorem foldl_enabled {l : List SessionId} :
    (l.map fun sid => StreamEvent.trackEnabled sid kind).foldl StreamEvent.reflect flags = flags := by
  induction l with
  | nil => rfl
  | cons sid l ih => exact ih

theorem mem_foldl_other {l : List ActivityTransition}
    (h : ∀ t ∈ l, (t.sessionId, t.kind) ≠ key) :
    key ∈ (l.map StreamEvent.trackActivityChanged).foldl StreamEvent.reflect flags ↔
      key ∈ flags := by
  induction l generalizing flags with
  | nil => rfl
  | cons t l ih =>
    rw [List.map_cons, List.foldl_cons, ih fun t ht => h t (List.mem_cons_of_mem _ ht)]
    rw [mem_reflect_changed, if_neg (h t (List.mem_cons_self)).symm]

theorem mem_foldl_changed {l : List ActivityTransition} {active : Bool}
    (hex : ∃ t ∈ l, (t.sessionId, t.kind) = key)
    (h : ∀ t ∈ l, (t.sessionId, t.kind) = key → t.active = active) :
    key ∈ (l.map StreamEvent.trackActivityChanged).foldl StreamEvent.reflect flags ↔
      active = true := by
  induction l generalizing flags with
  | nil => simp at hex
  | cons t l ih =>
    rw [List.map_cons, List.foldl_cons]
    by_cases hlater : ∃ t ∈ l, (t.sessionId, t.kind) = key
    · exact ih hlater fun t ht => h t (List.mem_cons_of_mem _ ht)
    · push Not at hlater
      have hkey : (t.sessionId, t.kind) = key := by
        obtain ⟨u, hu, hkey⟩ := hex
        rcases List.mem_cons.mp hu with rfl | hu
        · exact hkey
        · exact absurd hkey (hlater u hu)
      rw [mem_foldl_other hlater, mem_reflect_changed, if_pos hkey.symm,
        h t (List.mem_cons_self) hkey]

namespace StreamState

variable {st : StreamState} {prevActive : FiniteMap TrackKey Bool} {nowMs : ℕ}
  {session : ServerSession}

def flagsAfter (st : StreamState) (prevActive : FiniteMap TrackKey Bool) (nowMs : ℕ)
    (flags : Finset TrackKey) : Finset TrackKey :=
  ((st.computeActivityTransitions prevActive nowMs).1.map .trackActivityChanged).foldl
    StreamEvent.reflect flags

theorem enabledTracks_unique {session' : ServerSession} (hunique : (st.sessions.map Prod.fst).Nodup)
    (h : (key, session) ∈ st.enabledTracks) (h' : (key, session') ∈ st.enabledTracks) :
    session = session' :=
  (Prod.mk.inj (List.inj_on_of_nodup_map (enabledTracks_nodup hunique) h h' rfl)).2

theorem mem_flagsAfter_of_enabled (hunique : (st.sessions.map Prod.fst).Nodup)
    (h : (key, session) ∈ st.enabledTracks) : key ∈ st.flagsAfter prevActive nowMs flags ↔
      if (prevActive.lookup key).getD false = session.isActive key.2 nowMs then key ∈ flags
      else session.isActive key.2 nowMs = true := by
  have hsame {session' : ServerSession} (h' : (key, session') ∈ st.enabledTracks) :
      session' = session :=
    enabledTracks_unique hunique h' h
  by_cases hchange : (prevActive.lookup key).getD false = session.isActive key.2 nowMs
  · rw [if_pos hchange]
    refine mem_foldl_other fun t ht hkey => ?_
    obtain ⟨⟨key', session'⟩, hx, hne, rfl⟩ := mem_transitions.mp ht
    obtain rfl : key' = key := hkey
    rw [hsame hx] at hne
    exact hne hchange
  · rw [if_neg hchange]
    refine mem_foldl_changed ⟨_, mem_transitions.mpr ⟨(key, session), h, hchange, rfl⟩, rfl⟩ ?_
    intro t ht hkey
    obtain ⟨⟨key', session'⟩, hx, -, rfl⟩ := mem_transitions.mp ht
    obtain rfl : key' = key := hkey
    rw [hsame hx]

theorem mem_flagsAfter_of_not_enabled (h : ∀ session, (key, session) ∉ st.enabledTracks) :
    key ∈ st.flagsAfter prevActive nowMs flags ↔ key ∈ flags := by
  refine mem_foldl_other fun t ht hkey => ?_
  obtain ⟨⟨key', session'⟩, hx, -, rfl⟩ := mem_transitions.mp ht
  obtain rfl : key' = key := hkey
  exact h session' hx

/-! ## What requests do to the sessions -/

variable {pk : PublicKey} {x : SessionId × ServerSession} {raw : List UInt8} {admitted : Bool}

variable (st pk raw nowMs admitted) in
theorem onFrameIngress_cases :
    (∃ reason, st.onFrameIngress pk raw nowMs admitted = (st, .drop reason)) ∨
    ∃ header session recipients, OuterHeader.parse raw = some header ∧
      (header.sessionId, session) ∈ st.sessions ∧ header.trackKind ∈ session.activeTracks ∧
      st.onFrameIngress pk raw nowMs admitted =
        (st.modify (fun x => x.1 = header.sessionId) (·.noted header.trackKind nowMs),
          .forward recipients) := by
  unfold onFrameIngress
  cases hparse : OuterHeader.parse raw with
  | none => exact .inl ⟨_, rfl⟩
  | some header =>
    dsimp only
    cases hsession : st.session header.sessionId with
    | none => exact .inl ⟨_, rfl⟩
    | some session =>
      dsimp only
      by_cases hpk : session.connectionPk ≠ pk
      · exact .inl ⟨_, if_pos hpk⟩
      · rw [if_neg hpk]
        by_cases htrack : header.trackKind ∉ session.activeTracks
        · exact .inl ⟨_, if_pos htrack⟩
        · rw [if_neg htrack]
          by_cases hbucket : admitted = false
          · exact .inl ⟨_, if_pos hbucket⟩
          · rw [if_neg hbucket]
            obtain ⟨x, hx, hsession⟩ := Option.map_eq_some_iff.mp hsession
            have hid := List.find?_some hx
            simp only [decide_eq_true_eq] at hid
            refine .inr ⟨header, session, _, rfl, ?_, not_not.mp htrack, rfl⟩
            rw [← hid, ← hsession]
            exact List.mem_of_find?_eq_some hx

end StreamState

namespace Watch

variable {w : Watch} {channelId nowMs : ℕ} {op : StreamOp}

def IsEnabled (w : Watch) (key : TrackKey) : Prop :=
  ∃ session, (key, session) ∈ w.stream.enabledTracks

/-- A frame of the enabled track was forwarded within the timeout. -/
def Speaking (w : Watch) (key : TrackKey) : Prop :=
  w.IsEnabled key ∧ ∃ t, (key, t) ∈ w.forwarded ∧ w.now < t + activityTimeoutMs

def IsLive (w : Watch) (sid : SessionId) : Prop := ∃ x ∈ w.stream.sessions, x.1 = sid

/-- Ids are drawn once, the time of the last frame of a track is that of the last one forwarded,
and only enabled tracks are shown as speaking. -/
structure Sound (w : Watch) : Prop where
  unique : (w.stream.sessions.map Prod.fst).Nodup
  live : ∀ x ∈ w.stream.sessions, x.1 ∈ w.drawn
  snapshot : ∀ key active, w.prevActive.lookup key = some active → key.1 ∈ w.drawn
  noted : ∀ x ∈ w.stream.sessions, ∀ kind t, x.2.lastFrameMs kind = some t →
    ((x.1, kind), t) ∈ w.forwarded
  latest : ∀ x ∈ w.stream.sessions, ∀ kind t, ((x.1, kind), t) ∈ w.forwarded →
    ∃ t', x.2.lastFrameMs kind = some t' ∧ t ≤ t'
  past : ∀ y ∈ w.forwarded, y.1.1 ∈ w.drawn ∧ y.2 ≤ w.now
  shown : ∀ key ∈ w.flags, w.IsEnabled key

/-- The flags are those of the last tick, less what has left and what has been disabled since. -/
def Shows (w : Watch) : Prop :=
  ∀ key, key ∈ w.flags ↔
    w.prevActive.lookup key = some true ∧ w.IsLive key.1 ∧ key ∉ w.cut

/-- No track that has been disabled since the last tick is enabled, and was active then as it is
now. -/
def Undisturbed (w : Watch) (nowMs : ℕ) : Prop :=
  ∀ key session, (key, session) ∈ w.stream.enabledTracks →
    w.prevActive.lookup key = some true → session.isActive key.2 nowMs = true → key ∉ w.cut

variable {w' : Watch}

theorem isEnabled_iff {key : TrackKey} : w.IsEnabled key ↔
    ∃ session, (key.1, session) ∈ w.stream.sessions ∧ key.2 ∈ session.activeTracks := by
  simp only [IsEnabled, StreamState.mem_enabledTracks]

theorem Sound.of_sessions (h : w.Sound) (hdrawn : w'.drawn = w.drawn)
    (hforwarded : w'.forwarded = w.forwarded) (hnow : w.now ≤ w'.now)
    (hsnapshot : ∀ key active, w'.prevActive.lookup key = some active → key.1 ∈ w.drawn)
    (hunique : (w'.stream.sessions.map Prod.fst).Nodup)
    (hsessions : ∀ x ∈ w'.stream.sessions, ∃ y ∈ w.stream.sessions,
      y.1 = x.1 ∧ y.2.lastFrameMs = x.2.lastFrameMs)
    (hshown : ∀ key ∈ w'.flags, w'.IsEnabled key) : w'.Sound where
  unique := hunique
  live x hx := by
    obtain ⟨y, hy, hid, -⟩ := hsessions x hx
    rw [← hid, hdrawn]
    exact h.live y hy
  snapshot key active hkey := hdrawn ▸ hsnapshot key active hkey
  noted x hx kind t ht := by
    obtain ⟨y, hy, hid, hlast⟩ := hsessions x hx
    rw [← hid, hforwarded]
    exact h.noted y hy kind t (hlast ▸ ht)
  latest x hx kind t ht := by
    obtain ⟨y, hy, hid, hlast⟩ := hsessions x hx
    rw [← hid, hforwarded] at ht
    rw [← hlast]
    exact h.latest y hy kind t ht
  past y hy := by
    rw [hforwarded] at hy
    obtain ⟨hdrawnY, hle⟩ := h.past y hy
    exact ⟨hdrawn ▸ hdrawnY, hle.trans hnow⟩
  shown := hshown

theorem Sound.join {pk : PublicKey} {sid : SessionId} {displayName : String} (h : w.Sound)
    (henabled : w.Enabled nowMs (.join pk sid displayName)) :
    (w.next channelId nowMs (.join pk sid displayName)).Sound := by
  obtain ⟨hnow, hfresh⟩ := henabled
  have hnew : sid ∉ w.drawn := hfresh sid rfl
  have hcases {x : SessionId × ServerSession}
      (hx : x ∈ (w.stream.join pk channelId sid displayName).sessions) :
      x ∈ w.stream.sessions ∨ x = (sid, ⟨pk, channelId, pk, displayName, ∅, fun _ => none⟩) := by
    simpa [StreamState.join] using hx
  constructor
  · show ((w.stream.sessions ++ [_]).map Prod.fst).Nodup
    rw [List.map_append, List.nodup_append]
    refine ⟨h.unique, by simp, fun a ha b hb hab => hnew ?_⟩
    obtain ⟨x, hx, rfl⟩ := List.mem_map.mp ha
    obtain rfl : b = sid := by simpa using hb
    exact hab ▸ h.live x hx
  · intro x hx
    rcases hcases hx with hx | rfl
    · exact Finset.mem_insert_of_mem (h.live x hx)
    · exact Finset.mem_insert_self _ _
  · exact fun key active hkey => Finset.mem_insert_of_mem (h.snapshot key active hkey)
  · intro x hx kind t ht
    rcases hcases hx with hx | rfl
    · exact h.noted x hx kind t ht
    · cases ht
  · intro x hx kind t ht
    rcases hcases hx with hx | rfl
    · exact h.latest x hx kind t ht
    · exact absurd (h.past _ ht).1 hnew
  · intro y hy
    obtain ⟨hdrawn, hle⟩ := h.past y hy
    exact ⟨Finset.mem_insert_of_mem hdrawn, hle.trans hnow⟩
  · intro key hkey
    obtain ⟨session, hsession, htrack⟩ := isEnabled_iff.mp (h.shown key hkey)
    exact isEnabled_iff.mpr ⟨session, List.mem_append_left _ hsession, htrack⟩

theorem Sound.leave {pk : PublicKey} (h : w.Sound) (hnow : w.now ≤ nowMs) :
    (w.next channelId nowMs (.leave pk)).Sound := by
  refine h.of_sessions rfl rfl hnow h.snapshot ?_ ?_ ?_
  · exact h.unique.sublist (List.filter_sublist.map _)
  · exact fun x hx => ⟨x, List.mem_of_mem_filter hx, rfl, rfl⟩
  · intro key hkey
    obtain ⟨hflag, hleft⟩ := mem_foldl_left.mp hkey
    obtain ⟨session, hsession, htrack⟩ := isEnabled_iff.mp (h.shown key hflag)
    refine isEnabled_iff.mpr ⟨session, List.mem_filter.mpr ⟨hsession, ?_⟩, htrack⟩
    refine decide_eq_true fun hpk => hleft (List.mem_map.mpr ⟨_, List.mem_filter.mpr ⟨hsession, ?_⟩,
      rfl⟩)
    exact decide_eq_true hpk

theorem Sound.setTrack {pk : PublicKey} {kind : TrackKind} {enabled : Bool} (h : w.Sound)
    (hnow : w.now ≤ nowMs) : (w.next channelId nowMs (.setTrack pk kind enabled)).Sound := by
  have hsessions : ∀ x ∈ (w.stream.setTrack pk kind enabled).sessions,
      ∃ y ∈ w.stream.sessions, y.1 = x.1 ∧ y.2.lastFrameMs = x.2.lastFrameMs := by
    intro x hx
    obtain ⟨y, hy, rfl⟩ := StreamState.mem_modify.mp hx
    refine ⟨y, hy, rfl, ?_⟩
    dsimp only
    by_cases hpk : y.2.connectionPk = pk
    · rw [if_pos hpk]
    · rw [if_neg hpk]
  have hunique : ((w.stream.setTrack pk kind enabled).sessions.map Prod.fst).Nodup := by
    rw [StreamState.setTrack, StreamState.ids_modify]
    exact h.unique
  have htracks {key : TrackKey} (hex : w.IsEnabled key)
      (hkept : enabled = true ∨ key ∉ w.tracksOf pk kind) : ∃ session,
      (key.1, session) ∈ (w.stream.setTrack pk kind enabled).sessions ∧
        key.2 ∈ session.activeTracks := by
    obtain ⟨session, hsession, htrack⟩ := isEnabled_iff.mp hex
    refine ⟨_, StreamState.mem_modify.mpr ⟨_, hsession, rfl⟩, ?_⟩
    by_cases hpk : session.connectionPk = pk
    · rw [if_pos hpk]
      cases enabled with
      | true => exact Finset.mem_insert_of_mem htrack
      | false =>
        have hne : key ∉ w.tracksOf pk kind := hkept.resolve_left Bool.false_ne_true
        refine Finset.mem_erase.mpr ⟨fun hkind => hne ?_, htrack⟩
        refine List.mem_map.mpr ⟨key.1, List.mem_map.mpr ⟨_, List.mem_filter.mpr ⟨hsession, ?_⟩,
          rfl⟩, by rw [← hkind]⟩
        exact decide_eq_true hpk
    · rw [if_neg hpk]
      exact htrack
  cases enabled with
  | true =>
    refine h.of_sessions rfl rfl hnow h.snapshot hunique hsessions fun key hkey => ?_
    have hflags : ((w.stream.sessionsOf pk).map fun sid => StreamEvent.trackEnabled sid kind).foldl
        StreamEvent.reflect w.flags = w.flags := foldl_enabled
    exact isEnabled_iff.mpr (htracks (h.shown key (hflags ▸ hkey)) (.inl rfl))
  | false =>
    refine h.of_sessions rfl rfl hnow h.snapshot hunique hsessions fun key hkey => ?_
    obtain ⟨hflag, hcut⟩ := mem_foldl_disabled.mp hkey
    exact isEnabled_iff.mpr (htracks (h.shown key hflag) (.inr hcut))

theorem frame_cases (w : Watch) (channelId nowMs : ℕ) (pk : PublicKey) (raw : List UInt8) (admitted : Bool) :
    w.next channelId nowMs (.frame pk raw admitted) = { w with now := nowMs } ∨
    ∃ header : OuterHeader, w.next channelId nowMs (.frame pk raw admitted) =
      { w with
        now := nowMs
        stream := w.stream.modify (fun x => x.1 = header.sessionId) (·.noted header.trackKind nowMs)
        forwarded := ((header.sessionId, header.trackKind), nowMs) :: w.forwarded } ∧
      ∃ x ∈ w.stream.sessions, x.1 = header.sessionId := by
  rcases w.stream.onFrameIngress_cases nowMs pk raw admitted with
    ⟨reason, hdrop⟩ | ⟨header, session, recipients, hparse, hsession, -, hforward⟩
  · left
    rw [Watch.next, hdrop]
  · right
    refine ⟨header, ?_, _, hsession, rfl⟩
    rw [Watch.next, hforward, hparse]

theorem Sound.frame {pk : PublicKey} {raw : List UInt8} {admitted : Bool} (h : w.Sound)
    (hnow : w.now ≤ nowMs) : (w.next channelId nowMs (.frame pk raw admitted)).Sound := by
  rcases w.frame_cases channelId nowMs pk raw admitted with hdropped | ⟨header, hnoted, hlive⟩
  · rw [hdropped]
    exact h.of_sessions rfl rfl hnow h.snapshot h.unique (fun x hx => ⟨x, hx, rfl, rfl⟩) h.shown
  rw [hnoted]
  constructor
  · show ((StreamState.modify _ _ _).sessions.map Prod.fst).Nodup
    rw [StreamState.ids_modify]
    exact h.unique
  · intro x hx
    obtain ⟨y, hy, rfl⟩ := StreamState.mem_modify.mp hx
    exact h.live y hy
  · exact h.snapshot
  · intro x hx kind t ht
    obtain ⟨y, hy, rfl⟩ := StreamState.mem_modify.mp hx
    dsimp only at ht ⊢
    by_cases hid : y.1 = header.sessionId
    · rw [if_pos hid, ServerSession.lastFrameMs_noted] at ht
      by_cases hkind : kind = header.trackKind
      · rw [if_pos hkind, Option.some_inj] at ht
        rw [hid, hkind, ht]
        exact List.mem_cons_self
      · rw [if_neg hkind] at ht
        exact List.mem_cons_of_mem _ (h.noted y hy kind t ht)
    · rw [if_neg hid] at ht
      exact List.mem_cons_of_mem _ (h.noted y hy kind t ht)
  · intro x hx kind t ht
    obtain ⟨y, hy, rfl⟩ := StreamState.mem_modify.mp hx
    dsimp only at ht ⊢
    have hle : t ≤ nowMs := by
      rcases List.mem_cons.mp ht with heq | ht
      · exact (Prod.mk.inj heq).2.le
      · exact (h.past _ ht).2.trans hnow
    by_cases hkey : (y.1, kind) = (header.sessionId, header.trackKind)
    · obtain ⟨hid, hkind⟩ := Prod.mk.inj hkey
      rw [if_pos hid, ServerSession.lastFrameMs_noted, if_pos hkind]
      exact ⟨nowMs, rfl, hle⟩
    · have hold : ((y.1, kind), t) ∈ w.forwarded :=
        (List.mem_cons.mp ht).resolve_left fun heq => hkey (Prod.mk.inj heq).1
      by_cases hid : y.1 = header.sessionId
      · have hkind : kind ≠ header.trackKind := fun hkind => hkey (by rw [hid, hkind])
        rw [if_pos hid, ServerSession.lastFrameMs_noted, if_neg hkind]
        exact h.latest y hy kind t hold
      · rw [if_neg hid]
        exact h.latest y hy kind t hold
  · intro y hy
    rcases List.mem_cons.mp hy with rfl | hy
    · obtain ⟨x, hx, hid⟩ := hlive
      exact ⟨hid ▸ h.live x hx, Nat.le_refl nowMs⟩
    · exact ⟨(h.past y hy).1, (h.past y hy).2.trans hnow⟩
  · intro key hkey
    obtain ⟨session, hsession, htrack⟩ := isEnabled_iff.mp (h.shown key hkey)
    refine isEnabled_iff.mpr ⟨_, StreamState.mem_modify.mpr ⟨_, hsession, rfl⟩, ?_⟩
    by_cases hid : key.1 = header.sessionId
    · rw [if_pos hid]
      exact htrack
    · rw [if_neg hid]
      exact htrack

theorem Sound.tick (h : w.Sound) (hnow : w.now ≤ nowMs) :
    (w.next channelId nowMs .tick).Sound := by
  refine h.of_sessions rfl rfl hnow ?_ h.unique (fun x hx => ⟨x, hx, rfl, rfl⟩) ?_
  · intro key active hkey
    obtain ⟨session, hsession, -⟩ := (StreamState.lookup_newActive _ _ _ _ h.unique).mp hkey
    exact h.live _ (StreamState.mem_enabledTracks.mp hsession).1
  · intro key hkey
    by_cases hex : w.IsEnabled key
    · exact hex
    · exact h.shown key ((StreamState.mem_flagsAfter_of_not_enabled (not_exists.mp hex)).mp hkey)

theorem Sound.next (h : w.Sound) (henabled : w.Enabled nowMs op) :
    (w.next channelId nowMs op).Sound := by
  cases op with
  | join pk sid displayName => exact h.join henabled
  | leave pk => exact h.leave henabled.1
  | setTrack pk kind enabled => exact h.setTrack henabled.1
  | frame pk raw admitted => exact h.frame henabled.1
  | tick => exact h.tick henabled.1

theorem isLive_modify {sid : SessionId} {p : SessionId × ServerSession → Prop} [DecidablePred p]
    {f : ServerSession → ServerSession} :
    (∃ x ∈ (w.stream.modify p f).sessions, x.1 = sid) ↔ w.IsLive sid := by
  have hids : sid ∈ (w.stream.modify p f).sessions.map Prod.fst ↔
      sid ∈ w.stream.sessions.map Prod.fst := by rw [StreamState.ids_modify]
  rwa [List.mem_map, List.mem_map] at hids

theorem isLive_leave {sid : SessionId} {pk : PublicKey} (h : w.Sound) :
    (∃ x ∈ (w.stream.leave pk).sessions, x.1 = sid) ↔
      w.IsLive sid ∧ sid ∉ w.stream.sessionsOf pk := by
  constructor
  · rintro ⟨x, hx, rfl⟩
    obtain ⟨hmem, hpk⟩ := List.mem_filter.mp hx
    refine ⟨⟨x, hmem, rfl⟩, fun hleft => ?_⟩
    obtain ⟨y, hy, hid⟩ := List.mem_map.mp hleft
    obtain ⟨hy, hpk'⟩ := List.mem_filter.mp hy
    rw [← List.inj_on_of_nodup_map h.unique hy hmem hid] at hpk
    exact of_decide_eq_true hpk (of_decide_eq_true hpk')
  · rintro ⟨⟨x, hx, rfl⟩, hstays⟩
    refine ⟨x, List.mem_filter.mpr ⟨hx, decide_eq_true fun hpk => hstays ?_⟩, rfl⟩
    exact List.mem_map.mpr ⟨x, List.mem_filter.mpr ⟨hx, decide_eq_true hpk⟩, rfl⟩

theorem Shows.next (h : w.Shows) (hsound : w.Sound) (henabled : w.Enabled nowMs op)
    (hop : op ≠ .tick) : (w.next channelId nowMs op).Shows := by
  cases op with
  | join pk sid displayName =>
    intro key
    refine (h key).trans (and_congr_right fun hprev => and_congr_left' ?_)
    have hne : key.1 ≠ sid := fun heq =>
      henabled.2 sid rfl (heq ▸ hsound.snapshot key true hprev)
    show (∃ x ∈ w.stream.sessions, x.1 = key.1) ↔ ∃ x ∈ w.stream.sessions ++ [_], x.1 = key.1
    simp [hne.symm]
  | leave pk =>
    intro key
    refine mem_foldl_left.trans ?_
    have hlive : (w.next channelId nowMs (.leave pk)).IsLive key.1 ↔
        w.IsLive key.1 ∧ key.1 ∉ w.stream.sessionsOf pk := isLive_leave hsound
    show (key ∈ w.flags ∧ _) ↔ w.prevActive.lookup key = some true ∧ _ ∧ key ∉ w.cut
    rw [h key, hlive]
    tauto
  | setTrack pk kind enabled =>
    have hlive (key : TrackKey) :
        (∃ x ∈ (w.stream.setTrack pk kind enabled).sessions, x.1 = key.1) ↔ w.IsLive key.1 :=
      isLive_modify
    cases enabled with
    | true =>
      intro key
      show key ∈ List.foldl _ _ _ ↔ w.prevActive.lookup key = some true ∧
        (∃ x ∈ (w.stream.setTrack pk kind true).sessions, x.1 = key.1) ∧ key ∉ w.cut
      rw [foldl_enabled, hlive]
      exact h key
    | false =>
      intro key
      refine mem_foldl_disabled.trans ?_
      show (key ∈ w.flags ∧ key ∉ w.tracksOf pk kind) ↔ w.prevActive.lookup key = some true ∧
        (∃ x ∈ (w.stream.setTrack pk kind false).sessions, x.1 = key.1) ∧
          key ∉ w.cut ∪ (w.tracksOf pk kind).toFinset
      rw [hlive, h key, Finset.mem_union, List.mem_toFinset, not_or]
      tauto
  | frame pk raw admitted =>
    rcases w.frame_cases channelId nowMs pk raw admitted with hdropped | ⟨header, hnoted, -⟩
    · rw [hdropped]
      exact h
    · rw [hnoted]
      intro key
      exact (h key).trans (and_congr_right fun _ => and_congr_left' isLive_modify.symm)
  | tick => exact absurd rfl hop

/-- Whether a frame was forwarded within the timeout can be told from the session. -/
theorem speaking_tick (hsound : w.Sound) {key : TrackKey} :
    (w.next channelId nowMs .tick).Speaking key ↔
      ∃ session, (key, session) ∈ w.stream.enabledTracks ∧ session.isActive key.2 nowMs = true := by
  have hrecent {session : ServerSession} (h : (key, session) ∈ w.stream.enabledTracks) :
      (∃ t, (key, t) ∈ w.forwarded ∧ nowMs < t + activityTimeoutMs) ↔
        session.isActive key.2 nowMs = true := by
    have hsession := (StreamState.mem_enabledTracks.mp h).1
    have hpos : 0 < activityTimeoutMs := by decide
    rw [ServerSession.isActive, Option.any_eq_true]
    constructor
    · rintro ⟨t, ht, hlt⟩
      obtain ⟨t', ht', hle⟩ := hsound.latest _ hsession key.2 t ht
      refine ⟨t', ht', decide_eq_true ?_⟩
      omega
    · rintro ⟨t, ht, hlt⟩
      refine ⟨t, hsound.noted _ hsession key.2 t ht, ?_⟩
      have hlt := of_decide_eq_true hlt
      omega
  constructor
  · rintro ⟨⟨session, hsession⟩, hforwarded⟩
    exact ⟨session, hsession, (hrecent hsession).mp hforwarded⟩
  · rintro ⟨session, hsession, hactive⟩
    exact ⟨⟨session, hsession⟩, (hrecent hsession).mpr hactive⟩

theorem shows_tick (hsound : w.Sound) :
    (w.next channelId nowMs .tick).Shows ↔ ∀ key, key ∈ (w.next channelId nowMs .tick).flags ↔
      (w.next channelId nowMs .tick).Speaking key := by
  refine forall_congr' fun key => iff_congr Iff.rfl ?_
  rw [speaking_tick hsound]
  have hlookup := StreamState.lookup_newActive w.prevActive nowMs key true hsound.unique
  constructor
  · rintro ⟨hactive, -⟩
    exact hlookup.mp hactive
  · rintro ⟨session, hsession, hactive⟩
    exact ⟨hlookup.mpr ⟨session, hsession, hactive⟩,
      ⟨_, (StreamState.mem_enabledTracks.mp hsession).1, rfl⟩, Finset.notMem_empty key⟩

/-- The tick puts the flags right exactly if no track has been disabled and enabled again under
it. -/
theorem tick_iff (h : w.Shows) (hsound : w.Sound) :
    (∀ key, key ∈ (w.next channelId nowMs .tick).flags ↔
      (w.next channelId nowMs .tick).Speaking key) ↔ w.Undisturbed nowMs := by
  have hflags (key : TrackKey) : key ∈ (w.next channelId nowMs .tick).flags ↔
      key ∈ w.stream.flagsAfter w.prevActive nowMs w.flags := Iff.rfl
  constructor
  · intro hright key session hsession hwas hactive hcut
    have hflag := (hright key).mpr ((speaking_tick hsound).mpr ⟨session, hsession, hactive⟩)
    rw [hflags, StreamState.mem_flagsAfter_of_enabled hsound.unique hsession, hwas, hactive,
      if_pos (by rfl), h key] at hflag
    exact hflag.2.2 hcut
  · intro hundisturbed key
    rw [hflags, speaking_tick hsound]
    by_cases hex : w.IsEnabled key
    · obtain ⟨session, hsession⟩ := hex
      have hspeaking : (∃ session', (key, session') ∈ w.stream.enabledTracks ∧
          session'.isActive key.2 nowMs = true) ↔ session.isActive key.2 nowMs = true := by
        constructor
        · rintro ⟨session', hsession', hactive⟩
          rwa [StreamState.enabledTracks_unique hsound.unique hsession' hsession] at hactive
        · exact fun hactive => ⟨session, hsession, hactive⟩
      rw [hspeaking, StreamState.mem_flagsAfter_of_enabled hsound.unique hsession]
      by_cases hsame : (w.prevActive.lookup key).getD false = session.isActive key.2 nowMs
      · rw [if_pos hsame]
        constructor
        · intro hflag
          rw [((h key).mp hflag).1] at hsame
          exact hsame.symm
        · intro hactive
          have hwas : w.prevActive.lookup key = some true := by
            rw [hactive] at hsame
            cases hprev : w.prevActive.lookup key with
            | none => rw [hprev] at hsame; cases hsame
            | some was => rw [hprev] at hsame; exact congrArg some hsame
          exact (h key).mpr ⟨hwas, ⟨_, (StreamState.mem_enabledTracks.mp hsession).1, rfl⟩,
            hundisturbed key session hsession hwas hactive⟩
      · rw [if_neg hsame]
    · have hnone := not_exists.mp hex
      rw [StreamState.mem_flagsAfter_of_not_enabled hnone]
      exact iff_of_false (fun hflag => hex (hsound.shown key hflag)) fun ⟨session, hsession, _⟩ =>
        hnone session hsession

theorem sound_start : start.Sound where
  unique := List.nodup_nil
  live x hx := by cases hx
  snapshot key active hkey := by cases hkey
  noted x hx := by cases hx
  latest x hx := by cases hx
  past y hy := by cases hy
  shown key hkey := by cases hkey

theorem shows_start : start.Shows := fun key =>
  iff_of_false (Finset.notMem_empty key) fun h => by cases h.1

/-- After every tick of a run exactly the tracks of live sessions are shown as speaking that are
enabled and had a frame forwarded within the timeout, as long as at every tick no track is active
that was so at the tick before and has been disabled and enabled again in between. -/
theorem speaking_indicators {tr : List (Transition Watch (ℕ × StreamOp))}
    (hrun : Run channelId tr w) :
    (∀ x ∈ tr, x.event.2 = .tick → ∀ key, key ∈ x.post.flags ↔ x.post.Speaking key) ↔
      ∀ x ∈ tr, x.event.2 = .tick → x.pre.Undisturbed x.event.1 := by
  have hsound : ∀ s e t, Sound s → Step channelId s e t → Sound t := by
    rintro s e _ hs ⟨henabled, rfl⟩
    exact hs.next henabled
  have hother {x : Transition Watch (ℕ × StreamOp)} (hs : x.pre.Sound) (hshows : x.pre.Shows)
      (hstep : Step channelId x.pre x.event x.post) (hop : x.event.2 ≠ .tick) : x.post.Shows := by
    rw [hstep.2]
    exact hshows.next hs hstep.1 hop
  have htick {x : Transition Watch (ℕ × StreamOp)} (hstep : Step channelId x.pre x.event x.post)
      (hop : x.event.2 = .tick) : x.post = x.pre.next channelId x.event.1 .tick := by
    rw [hstep.2, hop]
  refine (hrun.forall_post_iff Shows
      (fun x => x.event.2 = .tick → ∀ key, key ∈ x.post.flags ↔ x.post.Speaking key)
      sound_start shows_start hsound ?_).symm.trans
    (hrun.forall_post_iff Shows (fun x => x.event.2 = .tick → x.pre.Undisturbed x.event.1)
      sound_start shows_start hsound ?_)
  · intro x _ hs hshows hstep
    by_cases hop : x.event.2 = .tick
    · rw [htick hstep hop]
      exact (shows_tick hs).trans ⟨fun h _ => h, fun h => h hop⟩
    · exact iff_of_true (hother hs hshows hstep hop) fun h => absurd h hop
  · intro x _ hs hshows hstep
    by_cases hop : x.event.2 = .tick
    · rw [htick hstep hop]
      exact ((shows_tick hs).trans (tick_iff hshows hs)).trans ⟨fun h _ => h, fun h => h hop⟩
    · exact iff_of_true (hother hs hshows hstep hop) fun h => absurd h hop

/-! ### A track that is cut off for a moment -/

def bob : PublicKey := SampleLog.key SampleLog.bob

def firstId : SessionId := List.replicate 16 7

def firstFrame : List UInt8 := [3, 1] ++ firstId ++ [0, 0, 0, 0, 0, 0, 0, 1]

def perform (w : Watch) (e : ℕ × StreamOp) : Watch := w.next 1 e.1 e.2

theorem run_perform (ops : List (ℕ × StreamOp))
    (h : ∀ x ∈ Execution.path perform start ops, x.pre.Enabled x.event.1 x.event.2) :
    Run 1 (Execution.path perform start ops) (ops.foldl perform start) :=
  (Execution.of_path perform ops).of_steps fun x hx hstep => ⟨h x hx, hstep.symm⟩

def speaks : List (ℕ × StreamOp) :=
  [(0, .join bob firstId "Bob"), (0, .setTrack bob .audio true), (0, .frame bob firstFrame true),
   (100, .tick)]

theorem speaking_indicators_of_one :
    (∀ x ∈ Execution.path perform start speaks, x.event.2 = .tick →
      ∀ key, key ∈ x.post.flags ↔ x.post.Speaking key) ↔
    ∀ x ∈ Execution.path perform start speaks, x.event.2 = .tick → x.pre.Undisturbed x.event.1 :=
  speaking_indicators (run_perform speaks (by decide +kernel))

/-- Bob disables his track for a moment between two ticks. -/
def speaksOn : List (ℕ × StreamOp) :=
  speaks ++ [(120, .setTrack bob .audio false), (150, .setTrack bob .audio true), (200, .tick)]

theorem speaking_unnoticed :
    ¬∀ (channelId : ℕ) (tr : List (Transition Watch (ℕ × StreamOp))) (w : Watch),
      Run channelId tr w →
      ∀ x ∈ tr, x.event.2 = .tick → ∀ key, key ∈ x.post.flags ↔ x.post.Speaking key := by
  intro h
  have hlast : ⟨(speaksOn.take 6).foldl perform start, (200, .tick), speaksOn.foldl perform start⟩ ∈
      Execution.path perform start speaksOn := by
    simp [speaksOn, speaks, Execution.path]
  have hshown := h 1 _ _ (run_perform speaksOn (by decide +kernel)) _ hlast rfl (firstId, .audio)
  have hsilent : (firstId, TrackKind.audio) ∉ (speaksOn.foldl perform start).flags := by
    decide +kernel
  have htrack : ((speaksOn.foldl perform start).stream.enabledTracks.any fun x =>
      x.1 = (firstId, .audio)) = true := by
    decide +kernel
  obtain ⟨⟨key, session⟩, hx, hkey⟩ := List.any_eq_true.mp htrack
  obtain rfl := of_decide_eq_true hkey
  exact hsilent (hshown.mpr ⟨⟨session, hx⟩, 0, by decide +kernel, by decide +kernel⟩)

end Watch

end Server
