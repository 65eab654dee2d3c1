import Farder.Server.MediaStream

/-! # Sessions in the registry

What the requests of one identity leave alone in the registry of streams, and what is recorded of a
session. -/
namespace Server

open EventLog

namespace StreamState

variable {st : StreamState} {pk : PublicKey} {sid : SessionId} {x : SessionId × ServerSession}

theorem mem_modify {p : SessionId × ServerSession → Prop} [DecidablePred p]
    {f : ServerSession → ServerSession} : x ∈ (st.modify p f).sessions ↔
      ∃ y ∈ st.sessions, x = (y.1, if p y then f y.2 else y.2) := by
  have hmap (y : SessionId × ServerSession) :
      (if p y then (y.1, f y.2) else y) = (y.1, if p y then f y.2 else y.2) := by
    by_cases hp : p y
    · rw [if_pos hp, if_pos hp]
    · rw [if_neg hp, if_neg hp]
  simp only [modify, List.mem_map, hmap, eq_comm]

theorem ids_modify {p : SessionId × ServerSession → Prop} [DecidablePred p]
    {f : ServerSession → ServerSession} :
    (st.modify p f).sessions.map Prod.fst = st.sessions.map Prod.fst := by
  rw [modify, List.map_map]
  refine List.map_congr_left fun y _ => ?_
  show (if p y then (y.1, f y.2) else y).1 = y.1
  by_cases hp : p y
  · rw [if_pos hp]
  · rw [if_neg hp]

theorem mem_sessionsOf : sid ∈ st.sessionsOf pk ↔
    ∃ session, (sid, session) ∈ st.sessions ∧ session.connectionPk = pk := by
  simp [sessionsOf]

/-- A change that concerns the sessions of an identity only, and adds none. -/
structure Touches (pk : PublicKey) (f : StreamState → StreamState) : Prop where
  old : ∀ st, ∀ x ∈ (f st).sessions,
    ∃ y ∈ st.sessions, y.1 = x.1 ∧ y.2.connectionPk = x.2.connectionPk
  others : ∀ st, ∀ y ∈ st.sessions, y.2.connectionPk ≠ pk →
    ∃ x ∈ (f st).sessions, x.1 = y.1 ∧ x.2.connectionPk = y.2.connectionPk
  muted : ∀ st, ∀ sid ∉ st.sessionsOf pk, sid ∈ (f st).muted ↔ sid ∈ st.muted
  deafened : ∀ st, ∀ sid ∉ st.sessionsOf pk, sid ∈ (f st).deafened ↔ sid ∈ st.deafened

theorem touches_leave : Touches pk fun st => st.leave pk where
  old _ x hx := ⟨x, List.mem_of_mem_filter hx, rfl, rfl⟩
  others _ y hy hne := ⟨y, List.mem_filter.mpr ⟨hy, decide_eq_true hne⟩, rfl, rfl⟩
  muted st sid hsid := by simp [leave, hsid]
  deafened st sid hsid := by simp [leave, hsid]

theorem mem_setTrack {kind : TrackKind} {enabled : Bool} :
    (∃ x ∈ (st.setTrack pk kind enabled).sessions, x.1 = sid ∧ x.2.connectionPk = pk') ↔
      ∃ x ∈ st.sessions, x.1 = sid ∧ x.2.connectionPk = pk' := by
  have hpk (y : SessionId × ServerSession) (f : Finset TrackKind) :
      (if y.2.connectionPk = pk then { y.2 with activeTracks := f } else y.2).connectionPk =
        y.2.connectionPk := by
    by_cases h : y.2.connectionPk = pk
    · rw [if_pos h]
    · rw [if_neg h]
  constructor
  · rintro ⟨x, hx, hid, hown⟩
    obtain ⟨y, hy, rfl⟩ := mem_modify.mp hx
    exact ⟨y, hy, hid, (hpk y _).symm.trans hown⟩
  · rintro ⟨y, hy, hid, hown⟩
    exact ⟨_, mem_modify.mpr ⟨y, hy, rfl⟩, hid, (hpk y _).trans hown⟩

theorem touches_setTrack {kind : TrackKind} {enabled : Bool} :
    Touches pk fun st => st.setTrack pk kind enabled where
  old _ x hx := mem_setTrack.mp ⟨x, hx, rfl, rfl⟩
  others _ y hy _ := mem_setTrack.mpr ⟨y, hy, rfl, rfl⟩
  muted _ _ _ := Iff.rfl
  deafened _ _ _ := Iff.rfl

theorem mem_setMute {muted : Bool} : sid ∈ (st.setMute pk muted).muted ↔
    if sid ∈ st.sessionsOf pk then muted = true else sid ∈ st.muted := by
  by_cases hsid : sid ∈ st.sessionsOf pk
  · cases muted with
    | true => simp [setMute, hsid]
    | false => simp [setMute, hsid]
  · cases muted with
    | true => simp [setMute, hsid]
    | false => simp [setMute, hsid]

theorem mem_setDeafen {deafened : Bool} : sid ∈ (st.setDeafen pk deafened).deafened ↔
    if sid ∈ st.sessionsOf pk then deafened = true else sid ∈ st.deafened := by
  by_cases hsid : sid ∈ st.sessionsOf pk
  · cases deafened with
    | true => simp [setDeafen, hsid]
    | false => simp [setDeafen, hsid]
  · cases deafened with
    | true => simp [setDeafen, hsid]
    | false => simp [setDeafen, hsid]

theorem touches_setMute {muted : Bool} : Touches pk fun st => st.setMute pk muted where
  old _ x hx := ⟨x, hx, rfl, rfl⟩
  others _ y hy _ := ⟨y, hy, rfl, rfl⟩
  muted _ _ hsid := by rw [mem_setMute, if_neg hsid]
  deafened _ _ _ := Iff.rfl

theorem touches_setDeafen {deafened : Bool} : Touches pk fun st => st.setDeafen pk deafened where
  old _ x hx := ⟨x, hx, rfl, rfl⟩
  others _ y hy _ := ⟨y, hy, rfl, rfl⟩
  muted _ _ _ := Iff.rfl
  deafened _ _ hsid := by rw [mem_setDeafen, if_neg hsid]

end StreamState

namespace MediaStateMap

variable {media : MediaStateMap} {f : StreamState → StreamState} {c c' : ℕ} {st : StreamState}
  {x : ℕ × StreamState}

/-! ## The registry as a map -/

theorem mem_update : x ∈ media.update f ↔ ∃ y ∈ media, x = (y.1, f y.2) := by
  simp only [update, List.mem_map, eq_comm]

theorem mem_set : x ∈ media.set c st ↔ x = (c, st) ∨ x ∈ media ∧ x.1 ≠ c := by
  unfold set
  by_cases hkey : (media.any fun x => x.1 = c) = true
  · rw [if_pos hkey, List.mem_map]
    obtain ⟨z, hz, hzc⟩ := List.any_eq_true.mp hkey
    constructor
    · rintro ⟨y, hy, rfl⟩
      by_cases hyc : y.1 = c
      · rw [if_pos hyc, hyc]
        exact .inl rfl
      · rw [if_neg hyc]
        exact .inr ⟨hy, hyc⟩
    · rintro (rfl | ⟨hx, hxc⟩)
      · exact ⟨z, hz, by rw [if_pos (of_decide_eq_true hzc), of_decide_eq_true hzc]⟩
      · exact ⟨x, hx, if_neg hxc⟩
  · rw [if_neg hkey, List.mem_append, List.mem_singleton]
    have hnone (hx : x ∈ media) : x.1 ≠ c := fun hc =>
      hkey (List.any_eq_true.mpr ⟨x, hx, decide_eq_true hc⟩)
    constructor
    · rintro (hx | rfl)
      · exact .inr ⟨hx, hnone hx⟩
      · exact .inl rfl
    · rintro (rfl | ⟨hx, -⟩)
      · exact .inr rfl
      · exact .inl hx

theorem keys_update : (media.update f).map Prod.fst = media.map Prod.fst := by
  rw [update, List.map_map]
  rfl

theorem keys_set (h : (media.map Prod.fst).Nodup) : ((media.set c st).map Prod.fst).Nodup := by
  unfold set
  by_cases hkey : (media.any fun x => x.1 = c) = true
  · rw [if_pos hkey, List.map_map]
    have hids : (Prod.fst ∘ fun x : ℕ × StreamState => if x.1 = c then (x.1, st) else x) =
        Prod.fst := by
      funext x
      by_cases hx : x.1 = c
      · simp [hx]
      · simp [hx]
    rwa [hids]
  · rw [if_neg hkey, List.map_append, List.nodup_append]
    refine ⟨h, List.nodup_singleton c, fun a ha b hb hab => hkey ?_⟩
    obtain ⟨x, hx, rfl⟩ := List.mem_map.mp ha
    exact List.any_eq_true.mpr ⟨x, hx, decide_eq_true (hab.trans (List.mem_singleton.mp hb))⟩

theorem channel_of_mem (hkeys : (media.map Prod.fst).Nodup) (h : (c, st) ∈ media) :
    media.channel c = st := by
  have hsome : (media.find? fun x => x.1 = c).isSome = true :=
    List.find?_isSome.mpr ⟨_, h, decide_eq_true rfl⟩
  obtain ⟨x, hx⟩ := Option.isSome_iff_exists.mp hsome
  have hkey := List.find?_some hx
  have heq := List.inj_on_of_nodup_map hkeys (List.mem_of_find?_eq_some hx) h
    (of_decide_eq_true hkey)
  rw [channel, hx, heq]
  rfl

theorem channel_cases (media : MediaStateMap) (c : ℕ) :
    (c, media.channel c) ∈ media ∨ media.channel c = .empty := by
  unfold channel
  cases hfind : media.find? fun x => x.1 = c with
  | none => exact .inr rfl
  | some x =>
    left
    have hkey := List.find?_some hfind
    show (c, x.2) ∈ media
    rw [← of_decide_eq_true hkey]
    exact List.mem_of_find?_eq_some hfind

/-! ## A session in it -/

/-- The session is one of the identity, in the channel only. -/
structure Placed (media : MediaStateMap) (pk : PublicKey) (c : ℕ) (sid : SessionId) : Prop where
  here : ∃ st, (c, st) ∈ media ∧ ∃ y ∈ st.sessions, y.1 = sid ∧ y.2.connectionPk = pk
  only : ∀ x ∈ media, ∀ y ∈ x.2.sessions, y.1 = sid → x.1 = c ∧ y.2.connectionPk = pk

/-- A channel is kept once, and what is kept of it tells of ids that have been drawn. -/
structure Sound (media : MediaStateMap) (drawn : Finset SessionId) : Prop where
  keys : (media.map Prod.fst).Nodup
  sessions : ∀ x ∈ media, ∀ y ∈ x.2.sessions, y.1 ∈ drawn
  muted : ∀ x ∈ media, x.2.muted ⊆ drawn
  deafened : ∀ x ∈ media, x.2.deafened ⊆ drawn

def recorded (media : MediaStateMap) (c : ℕ) (sid : SessionId) : Bool × Bool :=
  (sid ∈ (media.channel c).muted, sid ∈ (media.channel c).deafened)

variable {pk own : PublicKey} {sid sid' : SessionId} {drawn : Finset SessionId} {name : String}

theorem Sound.mono {drawn' : Finset SessionId} (h : media.Sound drawn) (hsub : drawn ⊆ drawn') :
    media.Sound drawn' where
  keys := h.keys
  sessions x hx y hy := hsub (h.sessions x hx y hy)
  muted x hx := (h.muted x hx).trans hsub
  deafened x hx := (h.deafened x hx).trans hsub

theorem mem_sessionsOf {y : ℕ × SessionId} : y ∈ media.sessionsOf pk ↔
    ∃ st, (y.1, st) ∈ media ∧ y.2 ∈ st.sessionsOf pk := by
  simp only [sessionsOf, List.mem_flatMap, List.mem_map]
  constructor
  · rintro ⟨x, hx, sid, hsid, rfl⟩
    exact ⟨x.2, hx, hsid⟩
  · rintro ⟨st, hst, hsid⟩
    exact ⟨_, hst, y.2, hsid, rfl⟩

theorem Placed.of_mem_sessionsOf {y : ℕ × SessionId} (h : media.Placed own c sid)
    (hy : y ∈ media.sessionsOf pk) (hid : y.2 = sid) : y = (c, sid) ∧ pk = own := by
  obtain ⟨st, hst, hmem⟩ := mem_sessionsOf.mp hy
  obtain ⟨session, hsession, hpk⟩ := StreamState.mem_sessionsOf.mp hmem
  obtain ⟨hc, hown⟩ := h.only _ hst _ hsession hid
  exact ⟨Prod.ext hc hid, hpk.symm.trans hown⟩

theorem Placed.mem_sessionsOf (h : media.Placed own c sid) : (c, sid) ∈ media.sessionsOf own := by
  obtain ⟨st, hst, y, hy, rfl, hown⟩ := h.here
  exact MediaStateMap.mem_sessionsOf.mpr ⟨st, hst, StreamState.mem_sessionsOf.mpr ⟨_, hy, hown⟩⟩

theorem Sound.update (h : media.Sound drawn) (hf : StreamState.Touches pk f) :
    (media.update f).Sound drawn where
  keys := by
    rw [keys_update]
    exact h.keys
  sessions x hx y hy := by
    obtain ⟨z, hz, rfl⟩ := mem_update.mp hx
    obtain ⟨y', hy', hid, -⟩ := hf.old z.2 y hy
    exact hid ▸ h.sessions z hz y' hy'
  muted x hx sid hsid := by
    obtain ⟨z, hz, rfl⟩ := mem_update.mp hx
    by_cases hown : sid ∈ z.2.sessionsOf pk
    · obtain ⟨session, hsession, -⟩ := StreamState.mem_sessionsOf.mp hown
      exact h.sessions z hz _ hsession
    · exact h.muted z hz ((hf.muted z.2 sid hown).mp hsid)
  deafened x hx sid hsid := by
    obtain ⟨z, hz, rfl⟩ := mem_update.mp hx
    by_cases hown : sid ∈ z.2.sessionsOf pk
    · obtain ⟨session, hsession, -⟩ := StreamState.mem_sessionsOf.mp hown
      exact h.sessions z hz _ hsession
    · exact h.deafened z hz ((hf.deafened z.2 sid hown).mp hsid)

theorem Sound.channel (h : media.Sound drawn) :
    (∀ y ∈ (media.channel c).sessions, y.1 ∈ drawn) ∧ (media.channel c).muted ⊆ drawn ∧
      (media.channel c).deafened ⊆ drawn := by
  rcases media.channel_cases c with hmem | hempty
  · exact ⟨h.sessions _ hmem, h.muted _ hmem, h.deafened _ hmem⟩
  · rw [hempty]
    exact ⟨fun y hy => absurd hy (List.not_mem_nil), Finset.empty_subset _, Finset.empty_subset _⟩

theorem mem_join {y : SessionId × ServerSession} : y ∈ (st.join pk c sid name).sessions ↔
    y ∈ st.sessions ∨ y = (sid, ⟨pk, c, pk, name, ∅, fun _ => none⟩) := by
  simp [StreamState.join]

theorem Sound.join (h : media.Sound drawn) :
    (media.set c ((media.channel c).join pk c sid name)).Sound (drawn ∪ {sid}) := by
  obtain ⟨hsessions, hmuted, hdeafened⟩ := h.channel (c := c)
  constructor
  · exact keys_set h.keys
  · intro x hx y hy
    rcases mem_set.mp hx with rfl | ⟨hx, -⟩
    · rcases mem_join.mp hy with hy | rfl
      · exact Finset.mem_union_left _ (hsessions y hy)
      · exact Finset.mem_union_right _ (Finset.mem_singleton_self sid)
    · exact Finset.mem_union_left _ (h.sessions x hx y hy)
  · intro x hx
    rcases mem_set.mp hx with rfl | ⟨hx, -⟩
    · exact hmuted.trans Finset.subset_union_left
    · exact (h.muted x hx).trans Finset.subset_union_left
  · intro x hx
    rcases mem_set.mp hx with rfl | ⟨hx, -⟩
    · exact hdeafened.trans Finset.subset_union_left
    · exact (h.deafened x hx).trans Finset.subset_union_left

theorem Placed.update (h : media.Placed own c sid) (hf : StreamState.Touches pk f)
    (hstays : own ≠ pk ∨ ∀ st, ∀ y ∈ st.sessions,
      ∃ x ∈ (f st).sessions, x.1 = y.1 ∧ x.2.connectionPk = y.2.connectionPk) :
    (media.update f).Placed own c sid where
  here := by
    obtain ⟨st, hst, y, hy, hid, hown⟩ := h.here
    obtain ⟨x, hx, hid', hown'⟩ : ∃ x ∈ (f st).sessions,
        x.1 = y.1 ∧ x.2.connectionPk = y.2.connectionPk := by
      rcases hstays with hne | hstays
      · exact hf.others st y hy (hown ▸ hne)
      · exact hstays st y hy
    exact ⟨f st, mem_update.mpr ⟨_, hst, rfl⟩, x, hx, hid'.trans hid, hown'.trans hown⟩
  only x hx y hy hid := by
    obtain ⟨z, hz, rfl⟩ := mem_update.mp hx
    obtain ⟨y', hy', hid', hown⟩ := hf.old z.2 y hy
    rw [← hown]
    exact h.only z hz y' hy' (hid'.trans hid)

theorem Placed.join_other (hkeys : (media.map Prod.fst).Nodup) (h : media.Placed own c sid)
    (hne : sid' ≠ sid) :
    (media.set c' ((media.channel c').join pk c' sid' name)).Placed own c sid where
  here := by
    obtain ⟨st, hst, y, hy, hid, hown⟩ := h.here
    by_cases hc : c = c'
    · subst hc
      refine ⟨_, mem_set.mpr (.inl rfl), y, mem_join.mpr (.inl ?_), hid, hown⟩
      rwa [channel_of_mem hkeys hst]
    · exact ⟨st, mem_set.mpr (.inr ⟨hst, hc⟩), y, hy, hid, hown⟩
  only x hx y hy hid := by
    rcases mem_set.mp hx with rfl | ⟨hx, -⟩
    · rcases mem_join.mp hy with hy | rfl
      · rcases media.channel_cases c' with hmem | hempty
        · exact h.only _ hmem y hy hid
        · rw [hempty] at hy
          cases hy
      · exact absurd hid hne
    · exact h.only x hx y hy hid

theorem placed_join (h : media.Sound drawn) (hfresh : sid ∉ drawn) :
    (media.set c ((media.channel c).join pk c sid name)).Placed pk c sid where
  here := ⟨_, mem_set.mpr (.inl rfl), _, mem_join.mpr (.inr rfl), rfl, rfl⟩
  only x hx y hy hid := by
    rcases mem_set.mp hx with rfl | ⟨hx, -⟩
    · rcases mem_join.mp hy with hy | rfl
      · exact absurd (hid ▸ h.channel.1 y hy) hfresh
      · exact ⟨rfl, rfl⟩
    · exact absurd (hid ▸ h.sessions x hx y hy) hfresh

theorem channel_update (hkeys : (media.map Prod.fst).Nodup) (h : media.Placed own c sid) :
    (media.update f).channel c = f (media.channel c) := by
  obtain ⟨st, hst, -⟩ := h.here
  rw [channel_of_mem hkeys hst]
  refine channel_of_mem ?_ (mem_update.mpr ⟨_, hst, rfl⟩)
  rwa [keys_update]

theorem channel_set (hkeys : (media.map Prod.fst).Nodup) :
    (media.set c st).channel c = st :=
  channel_of_mem (keys_set hkeys) (mem_set.mpr (.inl rfl))

/-! ## What is recorded of it -/

theorem recorded_update_other (h : media.Placed own c sid) (hkeys : (media.map Prod.fst).Nodup)
    (hf : StreamState.Touches pk f) (hne : own ≠ pk) :
    (media.update f).recorded c sid = media.recorded c sid := by
  have hsid : sid ∉ (media.channel c).sessionsOf pk := by
    intro hmem
    obtain ⟨session, hsession, hpk⟩ := StreamState.mem_sessionsOf.mp hmem
    obtain ⟨st, hst, -⟩ := h.here
    rw [channel_of_mem hkeys hst] at hsession
    exact hne ((h.only _ hst _ hsession rfl).2.symm.trans hpk)
  rw [recorded, recorded, channel_update hkeys h]
  simp only [hf.muted _ sid hsid, hf.deafened _ sid hsid]

theorem recorded_join_other (h : media.Placed own c sid) (hkeys : (media.map Prod.fst).Nodup) :
    (media.set c' ((media.channel c').join pk c' sid' name)).recorded c sid =
      media.recorded c sid := by
  by_cases hc : c = c'
  · subst hc
    rw [recorded, channel_set hkeys]
    rfl
  · obtain ⟨st, hst, -⟩ := h.here
    rw [recorded, recorded, channel_of_mem hkeys hst,
      channel_of_mem (keys_set hkeys) (mem_set.mpr (.inr ⟨hst, hc⟩))]

theorem recorded_join (h : media.Sound drawn) (hfresh : sid ∉ drawn) :
    (media.set c ((media.channel c).join pk c sid name)).recorded c sid = (false, false) := by
  rw [recorded, channel_set h.keys]
  have hmuted : sid ∉ (media.channel c).muted := fun hmem => hfresh (h.channel.2.1 hmem)
  have hdeafened : sid ∉ (media.channel c).deafened := fun hmem => hfresh (h.channel.2.2 hmem)
  simp [StreamState.join, hmuted, hdeafened]

theorem mem_sessionsOf_own (h : media.Placed own c sid) (hkeys : (media.map Prod.fst).Nodup) :
    sid ∈ (media.channel c).sessionsOf own := by
  obtain ⟨st, hst, y, hy, rfl, hown⟩ := h.here
  rw [channel_of_mem hkeys hst]
  exact StreamState.mem_sessionsOf.mpr ⟨_, hy, hown⟩

theorem recorded_setMute {muted : Bool} (h : media.Placed own c sid)
    (hkeys : (media.map Prod.fst).Nodup) :
    (media.update fun st => st.setMute own muted).recorded c sid =
      (muted, (media.recorded c sid).2) := by
  rw [recorded, recorded, channel_update hkeys h]
  refine Prod.ext ?_ rfl
  show decide (sid ∈ ((media.channel c).setMute own muted).muted) = muted
  simp only [StreamState.mem_setMute, if_pos (mem_sessionsOf_own h hkeys), Bool.decide_eq_true]

theorem recorded_setDeafen {deafened : Bool} (h : media.Placed own c sid)
    (hkeys : (media.map Prod.fst).Nodup) :
    (media.update fun st => st.setDeafen own deafened).recorded c sid =
      ((media.recorded c sid).1, deafened) := by
  rw [recorded, recorded, channel_update hkeys h]
  refine Prod.ext rfl ?_
  show decide (sid ∈ ((media.channel c).setDeafen own deafened).deafened) = deafened
  simp only [StreamState.mem_setDeafen, if_pos (mem_sessionsOf_own h hkeys), Bool.decide_eq_true]

end MediaStateMap

end Server
