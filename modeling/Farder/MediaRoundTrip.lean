import Farder.Media.Reassembler

/-! # Frames come through

Datagrams are lost, doubled and put in another order on the way. What comes out of the reassembler
is nevertheless always a frame that was sent, and a frame comes out whole with its last fragment,
unless too many others are begun while it waits. -/
namespace Media

open Server Reassembler

variable {r r' : Reassembler} {h : OuterHeader} {payload : List UInt8} {f : SentFrame}
  {sent : List SentFrame} {out : Option (List UInt8)}
  {tr before : List (Transition Reassembler (List UInt8 × Option (List UInt8)))}

/-! ## What comes out was sent -/

/-- All that is held was sent. -/
def Honest (sent : List SentFrame) (r : Reassembler) : Prop :=
  ∀ id, ∀ entry ∈ r.frames.lookup id, ∃ f ∈ sent, f.frameId = id ∧ entry.fragCount = f.count ∧
    ∀ i part, entry.parts[i]? = some (some part) → part = f.part i

theorem held_of_honest (hr : Honest sent r)
    (hids : ∀ f ∈ sent, ∀ g ∈ sent, f.frameId = g.frameId → f = g) (hf : f ∈ sent) {i j : ℕ}
    {part : List UInt8} (h : r.held (f.header j) i = some part) : part = f.part i := by
  obtain ⟨entry, hentry, hpart⟩ := Option.bind_eq_some_iff.mp h
  obtain ⟨g, hg, hid, -, hparts⟩ := hr _ entry hentry
  obtain rfl := hids g hg f hf hid
  split_ifs at hpart
  exact hparts i part (Option.join_eq_some_iff.mp hpart)

theorem heldWith_of_honest (hr : Honest sent r)
    (hids : ∀ f ∈ sent, ∀ g ∈ sent, f.frameId = g.frameId → f = g) (hf : f ∈ sent) {i j : ℕ}
    {part : List UInt8} (h : r.heldWith (f.header j) (f.part j) i = some part) :
    part = f.part i := by
  unfold heldWith at h
  split_ifs at h with hi
  · obtain rfl := Option.some.inj h
    obtain rfl : i = j := hi
    cases hheld : r.held (f.header i) i with
    | none => rfl
    | some old => exact held_of_honest hr hids hf hheld
  · exact held_of_honest hr hids hf h

theorem sealed_of_count_eq_one (h : f.count = 1) : f.part 0 = f.sealed := by
  have hparts := f.flatMap_part
  rwa [h, List.range_one, List.flatMap_singleton] at hparts

theorem flatMap_heldWith (j : ℕ) (hheld : ∀ i < f.count,
      r.heldWith (f.header j) (f.part j) i = some (f.part i)) :
    (List.range f.count).flatMap (fun i => (r.heldWith (f.header j) (f.part j) i).getD []) =
      f.sealed := by
  rw [← f.flatMap_part]
  refine List.flatMap_congr fun i hi => ?_
  rw [hheld i (List.mem_range.mp hi)]
  rfl

theorem honest_accepts (hr : Honest sent r)
    (hids : ∀ f ∈ sent, ∀ g ∈ sent, f.frameId = g.frameId → f = g) (hf : f ∈ sent) {j : ℕ}
    (hj : j < f.count) (hstep : Accepts r (f.header j) (f.part j) r' out) :
    Honest sent r' ∧ ∀ bytes ∈ out, bytes = f.sealed := by
  cases hstep with
  | whole hone =>
    refine ⟨hr, fun bytes hbytes => ?_⟩
    obtain rfl := Option.some.inj hbytes
    obtain rfl : j = 0 := Nat.lt_one_iff.mp (hone ▸ hj)
    exact sealed_of_count_eq_one hone
  | @completed frames hmany hframes hall =>
    obtain ⟨hgone, -, hothers⟩ := hframes
    refine ⟨fun id entry hentry => ?_, fun bytes hbytes => ?_⟩
    · by_cases hid : id = f.frameId
      · subst hid
        have hnone : frames.lookup f.frameId = none := hgone
        rw [hnone] at hentry
        cases hentry
      · exact hr id entry (hothers id hid ▸ hentry)
    · rw [← Option.some.inj hbytes]
      refine flatMap_heldWith j fun i hi => ?_
      obtain ⟨part, hpart⟩ := Option.isSome_iff_exists.mp (hall i hi)
      rw [hpart, heldWith_of_honest hr hids hf hpart]
  | @kept new frames hmany hframes hentry hparts hsome =>
    obtain ⟨hnew, -, hothers⟩ := hframes
    obtain ⟨hcounted, hcount, -, -⟩ := hentry
    refine ⟨fun id entry hmem => ?_, fun bytes hbytes => nomatch hbytes⟩
    have hmem := evict_subset hmem
    by_cases hid : id = f.frameId
    · subst hid
      have hsame : frames.lookup f.frameId = some new := hnew
      rw [hsame] at hmem
      obtain rfl := Option.some.inj hmem
      refine ⟨f, hf, rfl, hcount, fun i part hpart => ?_⟩
      have hi : i < f.count := by
        have hlt := (List.getElem?_eq_some_iff.mp hpart).1
        rwa [hcounted.slots, hcount] at hlt
      exact heldWith_of_honest hr hids hf (Option.some.inj ((hparts i hi).symm.trans hpart))
    · exact hr id entry (hothers id hid ▸ hmem)

theorem receives_datagram {d : List UInt8} (hd : d ∈ f.datagrams)
    (hparse : parse d = .ok (h, payload)) :
    ∃ i < f.count, d = f.datagram i ∧ h = f.header i ∧ payload = f.part i := by
  obtain ⟨i, hi, rfl⟩ := SentFrame.mem_datagrams.mp hd
  obtain ⟨rfl, rfl⟩ := Prod.mk.inj (Except.ok.inj (hparse.symm.trans (f.parse_datagram hi)))
  exact ⟨i, hi, rfl, rfl, rfl⟩

theorem honest_run (hrun : MediaRun r tr r') (hr : Sound r) (hhonest : Honest sent r)
    (hids : ∀ f ∈ sent, ∀ g ∈ sent, f.frameId = g.frameId → f = g)
    (hsent : ∀ x ∈ tr, ∃ f ∈ sent, x.event.1 ∈ f.datagrams) :
    Honest sent r' ∧ ∀ x ∈ tr, ∀ bytes ∈ x.event.2,
      ∃ f ∈ sent, x.event.1 ∈ f.datagrams ∧ bytes = f.sealed := by
  induction hrun with
  | nil => exact ⟨hhonest, by simp⟩
  | @snoc s t e tr hbefore hstep ih =>
    obtain ⟨hs, hout⟩ := ih fun x hx => hsent x (List.mem_append_left _ hx)
    obtain ⟨h, payload, -, hparse, hcases⟩ := hstep.accepts (sound_run hbefore hr).1
    obtain ⟨f, hf, hd⟩ := hsent ⟨s, e, t⟩ (by simp)
    obtain ⟨i, hi, -, rfl, rfl⟩ := receives_datagram hd hparse
    obtain ⟨ht, hbytes⟩ := honest_accepts hs hids hf hi hcases
    refine ⟨ht, fun x hx bytes hx' => ?_⟩
    rcases List.mem_append.mp hx with hx | hx
    · exact hout x hx bytes hx'
    · obtain rfl := List.mem_singleton.mp hx
      exact ⟨f, hf, hd, hbytes bytes hx'⟩

/-! ## A frame that is followed -/

/-- The frames that datagrams touch; one that is a single datagram is never held. -/
def touched (ds : List (List UInt8)) : Finset ℕ :=
  (ds.filterMap fun d => match parse d with
    | .ok (h, _) => if h.fragCount = 1 then none else some h.frameId
    | .error _ => none).toFinset

/-- Between two fragments of the frame there is always room for it. -/
def Spaced (f : SentFrame) (maxFrames : ℕ) (ds : List (List UInt8)) : Prop :=
  ∀ a y b z c, ds = a ++ y :: (b ++ z :: c) → y ∈ f.datagrams → z ∈ f.datagrams →
    (∀ d ∈ b, d ∉ f.datagrams) → (touched b).card < maxFrames

/-- All other datagrams are of frames with other ids. -/
def Apart (f : SentFrame) (ds : List (List UInt8)) : Prop :=
  ∀ d ∈ ds, d ∈ f.datagrams ∨ ∀ h payload, parse d = .ok (h, payload) → h.frameId ≠ f.frameId

/-- The datagrams have come, and just these fragments of the frame are held; what was touched after
the last of them is known. -/
def Tracks (f : SentFrame) (ds : List (List UInt8)) (r : Reassembler) : Prop :=
  (r.frames.lookup f.frameId = none ∧ ∀ d ∈ ds, d ∉ f.datagrams) ∨
  ∃ entry ∈ r.frames.lookup f.frameId, entry.fragCount = f.count ∧
    (∀ i < f.count, entry.parts[i]? =
      some (if f.datagram i ∈ ds then some (f.part i) else none)) ∧
    ∃ a y b, ds = a ++ y :: b ∧ y ∈ f.datagrams ∧ (∀ d ∈ b, d ∉ f.datagrams) ∧
      ∀ id, id ≠ f.frameId → ∀ entry' ∈ r.frames.lookup id, entry.touch ≤ entry'.touch →
        id ∈ touched b

variable {ds : List (List UInt8)} {d : List UInt8}

theorem mem_touched {id : ℕ} : id ∈ touched ds ↔ ∃ d ∈ ds, ∃ h payload,
    parse d = .ok (h, payload) ∧ h.fragCount ≠ 1 ∧ h.frameId = id := by
  rw [touched, List.mem_toFinset, List.mem_filterMap]
  refine exists_congr fun d => and_congr_right fun _ => ?_
  cases hparse : parse d with
  | error e => simp
  | ok x =>
    obtain ⟨h, payload⟩ := x
    by_cases hone : h.fragCount = 1 <;> simp [hone]

theorem touched_append {ds' : List (List UInt8)} : touched ds ⊆ touched (ds ++ ds') := by
  intro id hid
  obtain ⟨d, hd, hrest⟩ := mem_touched.mp hid
  exact mem_touched.mpr ⟨d, List.mem_append_left _ hd, hrest⟩

theorem datagram_inj {i j : ℕ} (hi : i < f.count) (hj : j < f.count)
    (h : f.datagram i = f.datagram j) : i = j := by
  have hparse := f.parse_datagram hi
  rw [h, f.parse_datagram hj] at hparse
  exact (congrArg (·.1.fragIndex) (Except.ok.inj hparse)).symm

theorem held_of_tracks (h : Tracks f ds r) (i j : ℕ) (hi : i < f.count) :
    r.held (f.header j) i = if f.datagram i ∈ ds then some (f.part i) else none := by
  rcases h with ⟨hnone, hds⟩ | ⟨entry, hentry, hcount, hparts, -⟩
  · have hlookup : r.frames.lookup (f.header j).frameId = none := hnone
    rw [held, hlookup, Option.bind_none,
      if_neg fun hmem => hds _ hmem (SentFrame.mem_datagrams.mpr ⟨i, hi, rfl⟩)]
  · have hlookup : r.frames.lookup (f.header j).frameId = some entry := hentry
    rw [held, hlookup, Option.bind_some, hparts i hi, Option.join_some]
    exact if_pos hcount

theorem heldWith_of_tracks (h : Tracks f ds r) {i j : ℕ} (hi : i < f.count) (hj : j < f.count) :
    r.heldWith (f.header j) (f.part j) i =
      if f.datagram i ∈ ds ++ [f.datagram j] then some (f.part i) else none := by
  rw [heldWith, held_of_tracks h i j hi]
  by_cases hij : i = j
  · subst hij
    have hcome : f.datagram i ∈ ds ++ [f.datagram i] := by simp
    rw [if_pos (show i = (f.header i).fragIndex from rfl), if_pos hcome]
    split_ifs <;> rfl
  · have hne : f.datagram i ≠ f.datagram j := fun heq => hij (datagram_inj hi hj heq)
    rw [if_neg (show i ≠ (f.header j).fragIndex from hij)]
    simp [hne]

/-- Of a fragment of the frame itself: all have come, and the frame goes out, or it is followed
further. -/
theorem tracks_own (h : Tracks f ds r) (hr : Sound r) {j : ℕ} (hj : j < f.count)
    (hstep : Accepts r (f.header j) (f.part j) r' out) :
    (∀ i < f.count, f.datagram i ∈ ds ++ [f.datagram j]) ∧ out = some f.sealed ∨
      (∃ i < f.count, f.datagram i ∉ ds ++ [f.datagram j]) ∧ out = none ∧
        Tracks f (ds ++ [f.datagram j]) r' := by
  cases hstep with
  | whole hone =>
    have hone : f.count = 1 := hone
    obtain rfl : j = 0 := Nat.lt_one_iff.mp (hone ▸ hj)
    refine .inl ⟨fun i hi => ?_, by rw [sealed_of_count_eq_one hone]⟩
    obtain rfl : i = 0 := Nat.lt_one_iff.mp (hone ▸ hi)
    simp
  | completed hmany hframes hall =>
    have harrived (i : ℕ) (hi : i < f.count) : f.datagram i ∈ ds ++ [f.datagram j] := by
      have hsome := hall i hi
      rw [heldWith_of_tracks h hi hj] at hsome
      split_ifs at hsome with hmem
      · exact hmem
      · cases hsome
    refine .inl ⟨harrived, congrArg some (flatMap_heldWith j fun i hi => ?_)⟩
    rw [heldWith_of_tracks h hi hj, if_pos (harrived i hi)]
  | @kept new frames hmany hframes hentry hparts hsome =>
    obtain ⟨hnew, -, hothers⟩ := hframes
    obtain ⟨-, hcount, htouch, -⟩ := hentry
    obtain ⟨i, hi, hnone⟩ := hsome
    rw [heldWith_of_tracks h hi hj] at hnone
    refine .inr ⟨⟨i, hi, fun hmem => by simp [hmem] at hnone⟩, rfl, .inr ?_⟩
    have hkept : (evict r.maxFrames frames).lookup f.frameId = some new := by
      refine lookup_evict_of_older hnew fun hfull => ?_
      have hroom := hr.room
      obtain ⟨id, hid, entry, hentry⟩ : ∃ id, id ∉ ({f.frameId} : Finset ℕ) ∧
          ∃ entry, entry ∈ frames.lookup id := by
        refine exists_outside ?_
        rw [Finset.card_singleton]
        omega
      rw [Finset.mem_singleton] at hid
      refine ⟨id, entry, hentry, ?_⟩
      rw [htouch]
      exact Nat.lt_succ_of_le (hr.touched id entry (hothers id hid ▸ hentry))
    refine ⟨new, hkept, hcount, fun i hi => ?_, ds, f.datagram j, [], rfl,
      SentFrame.mem_datagrams.mpr ⟨j, hj, rfl⟩, by simp, fun id hid entry hentry hle => ?_⟩
    · rw [hparts i hi, heldWith_of_tracks h hi hj]
    · have htouched := hr.touched id entry (hothers id hid ▸ evict_subset hentry)
      rw [htouch] at hle
      omega

theorem tracks_other (htracks : Tracks f ds r) (hparse : parse d = .ok (h, payload))
    (hid : h.frameId ≠ f.frameId)
    (hnear : ∀ a y b, ds ++ [d] = a ++ y :: b → y ∈ f.datagrams → (∀ d ∈ b, d ∉ f.datagrams) →
      (touched b).card < r.maxFrames)
    (hstep : Accepts r h payload r' out) : Tracks f (ds ++ [d]) r' := by
  have hout : d ∉ f.datagrams := by
    intro hmem
    obtain ⟨i, -, -, rfl, -⟩ := receives_datagram hmem hparse
    exact hid rfl
  rcases htracks with ⟨hnone, hds⟩ | ⟨entry, hentry, hcount, hparts, a, y, b, rfl, hy, hb, hlater⟩
  · refine .inl ⟨?_, fun x hx => ?_⟩
    · cases hstep with
      | whole hone => exact hnone
      | completed hmany hframes hall => exact (hframes.2.2 _ hid.symm).trans hnone
      | @kept new frames hmany hframes hentry hparts hsome =>
        refine Option.eq_none_iff_forall_not_mem.mpr fun entry hentry => ?_
        have hmem := evict_subset hentry
        rw [hframes.2.2 _ hid.symm, hnone] at hmem
        cases hmem
    · rcases List.mem_append.mp hx with hx | hx
      · exact hds x hx
      · exact List.mem_singleton.mp hx ▸ hout
  · have hb' : ∀ x ∈ b ++ [d], x ∉ f.datagrams := by
      intro x hx
      rcases List.mem_append.mp hx with hx | hx
      · exact hb x hx
      · exact List.mem_singleton.mp hx ▸ hout
    have hsplit : a ++ y :: b ++ [d] = a ++ y :: (b ++ [d]) := by simp
    have hparts' (i : ℕ) (hi : i < f.count) : entry.parts[i]? =
        some (if f.datagram i ∈ a ++ y :: b ++ [d] then some (f.part i) else none) := by
      have hne : f.datagram i ≠ d := fun heq => hout (SentFrame.mem_datagrams.mpr ⟨i, hi, heq⟩)
      have hmem : f.datagram i ∈ a ++ y :: b ++ [d] ↔ f.datagram i ∈ a ++ y :: b := by simp [hne]
      rw [hparts i hi]
      simp only [hmem]
    have hfollow (hlookup : entry ∈ r'.frames.lookup f.frameId) (hothers : ∀ id, id ≠ f.frameId →
        ∀ entry' ∈ r'.frames.lookup id, entry.touch ≤ entry'.touch → id ∈ touched (b ++ [d])) :
        Tracks f (a ++ y :: b ++ [d]) r' :=
      .inr ⟨entry, hlookup, hcount, hparts', a, y, b ++ [d], hsplit, hy, hb', hothers⟩
    cases hstep with
    | whole hone =>
      exact hfollow hentry fun id hid entry' hentry' hle =>
        touched_append (hlater id hid entry' hentry' hle)
    | @completed frames hmany hframes hall =>
      obtain ⟨hgone, -, hothers⟩ := hframes
      refine hfollow ((hothers _ hid.symm).symm ▸ hentry) fun id hne entry' hentry' hle => ?_
      by_cases hsame : id = h.frameId
      · rw [hsame, hgone] at hentry'
        cases hentry'
      · exact touched_append (hlater id hne entry' (hothers id hsame ▸ hentry') hle)
    | @kept new frames hmany hframes hnew hparts hsome =>
      obtain ⟨-, -, hothers⟩ := hframes
      have hd : h.frameId ∈ touched (b ++ [d]) :=
        mem_touched.mpr ⟨d, by simp, h, payload, hparse, hmany, rfl⟩
      have hold : entry ∈ frames.lookup f.frameId := (hothers _ hid.symm).symm ▸ hentry
      have hkept : entry ∈ (evict r.maxFrames frames).lookup f.frameId := by
        refine lookup_evict_of_older hold fun hfull => ?_
        have hroom := hnear a y (b ++ [d]) hsplit hy hb'
        have hcard := Finset.card_insert_le f.frameId (touched (b ++ [d]))
        obtain ⟨id, hid', entry', hentry'⟩ : ∃ id, id ∉ insert f.frameId (touched (b ++ [d])) ∧
            ∃ entry', entry' ∈ frames.lookup id := exists_outside (by omega)
        rw [Finset.mem_insert, not_or] at hid'
        have hne : id ≠ h.frameId := fun heq => hid'.2 (heq ▸ hd)
        refine ⟨id, entry', hentry', Nat.lt_of_not_le fun hle => hid'.2 ?_⟩
        exact touched_append (hlater id hid'.1 entry' (hothers id hne ▸ hentry') hle)
      refine hfollow hkept fun id hne entry' hentry' hle => ?_
      by_cases hsame : id = h.frameId
      · exact hsame ▸ hd
      · exact touched_append (hlater id hne entry' (hothers id hsame ▸ evict_subset hentry') hle)

def datagramsOf (tr : List (Transition Reassembler (List UInt8 × Option (List UInt8)))) :
    List (List UInt8) :=
  tr.map fun x => x.event.1

/-- Up to the last missing fragment the frame is followed, and nothing of it goes out. -/
theorem tracks_run (hrun : MediaRun r tr r') (hr : Sound r)
    (hnone : r.frames.lookup f.frameId = none) (hapart : Apart f (datagramsOf tr))
    (hnear : ∀ a y b c, datagramsOf tr = a ++ y :: (b ++ c) → y ∈ f.datagrams →
      (∀ d ∈ b, d ∉ f.datagrams) → (touched b).card < r.maxFrames)
    (hmissing : ∃ i < f.count, f.datagram i ∉ datagramsOf tr) : Tracks f (datagramsOf tr) r' := by
  induction hrun with
  | nil => exact .inl ⟨hnone, by simp [datagramsOf]⟩
  | @snoc s t e tr hbefore hstep ih =>
    have hsnoc : datagramsOf (tr ++ [⟨s, e, t⟩]) = datagramsOf tr ++ [e.1] := by simp [datagramsOf]
    rw [hsnoc] at hapart hnear hmissing ⊢
    obtain ⟨hs, hmax⟩ := sound_run hbefore hr
    have htracks : Tracks f (datagramsOf tr) s := by
      refine ih (fun d hd => hapart d (List.mem_append_left _ hd)) (fun a y b c heq => ?_) ?_
      · exact hnear a y b (c ++ [e.1]) (by rw [heq]; simp)
      · obtain ⟨i, hi, hout⟩ := hmissing
        exact ⟨i, hi, fun hmem => hout (List.mem_append_left _ hmem)⟩
    obtain ⟨h, payload, -, hparse, hcases⟩ := hstep.accepts hs
    rcases hapart e.1 (by simp) with hown | hother
    · obtain ⟨j, hj, hd, rfl, rfl⟩ := receives_datagram hown hparse
      rw [hd] at hmissing ⊢
      rcases tracks_own htracks hs hj hcases with ⟨hall, -⟩ | ⟨-, -, hnext⟩
      · obtain ⟨i, hi, hout⟩ := hmissing
        exact absurd (hall i hi) hout
      · exact hnext
    · refine tracks_other htracks hparse (hother h payload hparse) (fun a y b heq hy hb => ?_) hcases
      rw [hmax]
      exact hnear a y b [] (by simpa using heq) hy hb

theorem near_of_spaced {maxFrames : ℕ} (h : Spaced f maxFrames (ds ++ [d])) (hd : d ∈ f.datagrams)
    (a : List (List UInt8)) (y : List UInt8) (b c : List (List UInt8))
    (heq : ds = a ++ y :: (b ++ c)) (hy : y ∈ f.datagrams) (hb : ∀ x ∈ b, x ∉ f.datagrams) :
    (touched b).card < maxFrames := by
  obtain ⟨b', z, c', hsplit, hz, hb'⟩ : ∃ b' z c', c ++ [d] = b' ++ z :: c' ∧ z ∈ f.datagrams ∧
      ∀ x ∈ b', x ∉ f.datagrams := by
    have hfirst : ((c ++ [d]).find? (· ∈ f.datagrams)).isSome :=
      List.find?_isSome.mpr ⟨d, by simp, decide_eq_true hd⟩
    obtain ⟨z, hfind⟩ := Option.isSome_iff_exists.mp hfirst
    obtain ⟨hz, b', c', hsplit, hb'⟩ := List.find?_eq_some_iff_append.mp hfind
    exact ⟨b', z, c', hsplit, of_decide_eq_true hz, fun x hx => by simpa using hb' x hx⟩
  have hcard := h a y (b ++ b') z c' (by rw [heq]; simp [← hsplit]) hy hz fun x hx => by
    rcases List.mem_append.mp hx with hx | hx
    · exact hb x hx
    · exact hb' x hx
  exact (Finset.card_le_card touched_append).trans_lt hcard

/-- A fragment of a frame that has not been complete yet brings the frame out, exactly if no other
fragment is missing. -/
theorem output_of_fragment {x : Transition Reassembler (List UInt8 × Option (List UInt8))}
    (hrun : MediaRun r (tr ++ [x]) r') (hr : Sound r) (hnone : r.frames.lookup f.frameId = none)
    (hapart : Apart f (datagramsOf (tr ++ [x])))
    (hspaced : Spaced f r.maxFrames (datagramsOf (tr ++ [x]))) (hx : x.event.1 ∈ f.datagrams)
    (hmissing : ∃ d ∈ f.datagrams, d ∉ datagramsOf tr) :
    x.event.2 = if ∀ d ∈ f.datagrams, d ∈ datagramsOf (tr ++ [x]) then some f.sealed else none := by
  have hsnoc : datagramsOf (tr ++ [x]) = datagramsOf tr ++ [x.event.1] := by simp [datagramsOf]
  rw [hsnoc] at hapart hspaced ⊢
  obtain ⟨hbefore, hstep, -⟩ := hrun.of_snoc
  have hmissing' : ∃ i < f.count, f.datagram i ∉ datagramsOf tr := by
    obtain ⟨d, hd, hout⟩ := hmissing
    obtain ⟨i, hi, rfl⟩ := SentFrame.mem_datagrams.mp hd
    exact ⟨i, hi, hout⟩
  have htracks := tracks_run hbefore hr hnone (fun d hd => hapart d (List.mem_append_left _ hd))
    (near_of_spaced hspaced hx) hmissing'
  have hsound := (sound_run hbefore hr).1
  obtain ⟨h, payload, -, hparse, hcases⟩ := hstep.accepts hsound
  obtain ⟨j, hj, hd, rfl, rfl⟩ := receives_datagram hx hparse
  rw [hd]
  rcases tracks_own htracks hsound hj hcases with ⟨hall, hout⟩ | ⟨⟨i, hi, hgone⟩, hout, -⟩
  · rw [if_pos fun d hd => ?_]
    · exact hout
    · obtain ⟨i, hi, rfl⟩ := SentFrame.mem_datagrams.mp hd
      exact hall i hi
  · rw [if_neg fun hall => hgone (hall _ (SentFrame.mem_datagrams.mpr ⟨i, hi, rfl⟩))]
    exact hout

theorem apart_of_sent (h : ∀ d ∈ ds, d ∈ f.datagrams ∨ ∃ g ∈ sent, d ∈ g.datagrams ∧
    g.frameId ≠ f.frameId) : Apart f ds := by
  intro d hd
  refine (h d hd).imp_right ?_
  rintro ⟨g, -, hmem, hne⟩ h payload hparse
  obtain ⟨i, -, -, rfl, -⟩ := receives_datagram hmem hparse
  exact hne

theorem spaced_of_few {maxFrames : ℕ} (h : (touched ds).card < maxFrames) :
    Spaced f maxFrames ds := by
  rintro a y b z c rfl - - -
  refine (Finset.card_le_card fun id hid => ?_).trans_lt h
  obtain ⟨d, hd, hrest⟩ := mem_touched.mp hid
  exact mem_touched.mpr ⟨d, by simp [hd], hrest⟩

/-- Headers are read back; whatever comes, few frames are held and nothing panics; what comes out
was sent; and a frame comes out with its last missing fragment. -/
theorem media_round_trip :
    (∀ h, Valid h → ∀ payload, parse (write h ++ payload) = .ok (h, payload)) ∧
    (∀ buf h rest, parse buf = .ok (h, rest) → Valid h ∧ buf = write h ++ rest) ∧
    ∀ maxFrames tr r, MediaRun (withCapacity maxFrames) tr r →
      r.inProgressLen ≤ max maxFrames 1 ∧
      (∀ buf h payload, parse buf = .ok (h, payload) → ∃ next, r.accept h payload = .ok next) ∧
      (∀ sent : List SentFrame, (∀ f ∈ sent, ∀ g ∈ sent, f.frameId = g.frameId → f = g) →
        (∀ x ∈ tr, ∃ f ∈ sent, x.event.1 ∈ f.datagrams) →
        ∀ x ∈ tr, ∀ bytes ∈ x.event.2, ∃ f ∈ sent, x.event.1 ∈ f.datagrams ∧ bytes = f.sealed) ∧
      ∀ f : SentFrame, r.frames.lookup f.frameId = none → ∀ before x r',
        MediaRun r (before ++ [x]) r' → Apart f (datagramsOf (before ++ [x])) →
        Spaced f (max maxFrames 1) (datagramsOf (before ++ [x])) → x.event.1 ∈ f.datagrams →
        (∃ d ∈ f.datagrams, d ∉ datagramsOf before) →
        x.event.2 = if ∀ d ∈ f.datagrams, d ∈ datagramsOf (before ++ [x]) then some f.sealed
          else none := by
  refine ⟨fun h hh payload => parse_write hh payload, fun buf h rest => parse_eq_ok, ?_⟩
  intro maxFrames tr r hrun
  obtain ⟨hsound, hmax⟩ := sound_run hrun (sound_withCapacity maxFrames)
  have hmax : r.maxFrames = max maxFrames 1 := hmax
  refine ⟨hmax ▸ hsound.few, fun buf h payload hparse => ?_, fun sent hids hsent => ?_,
    fun f hnone before x r' hmore hapart hspaced hx hmissing => ?_⟩
  · obtain ⟨r', out, haccept, -⟩ := accept_total hsound (parse_eq_ok hparse).1 payload
    exact ⟨(r', out), haccept⟩
  · exact (honest_run hrun (sound_withCapacity maxFrames) (fun _ _ hentry => nomatch hentry) hids
      hsent).2
  · exact output_of_fragment hmore hsound hnone hapart (hmax ▸ hspaced) hx hmissing

/-! ## A frame of two fragments -/

section Sample

def shortFrame (frameId : ℕ) (h : frameId < 2 ^ 32) : SentFrame :=
  ⟨.audio, List.replicate 16 1, frameId, [1, 2, 3], 2, rfl, h, by decide⟩

def firstFrame : SentFrame := shortFrame 1 (by decide)

def secondFrame : SentFrame := shortFrame 9 (by decide)

def receive (r : Reassembler) (e : List UInt8 × Option (List UInt8)) : Option Reassembler :=
  match parse e.1 with
  | .ok (h, payload) => match r.accept h payload with
    | .ok (r', out) => if out = e.2 then some r' else none
    | .error _ => none
  | .error _ => none

theorem receives_of_receive {e : List UInt8 × Option (List UInt8)} (h : receive r e = some r') :
    Receives r e r' := by
  unfold receive at h
  split at h
  · next header payload hparse =>
    split at h
    · next next out haccept =>
      split_ifs at h with hout
      obtain rfl := Option.some.inj h
      exact ⟨header, payload, hparse, hout ▸ haccept⟩
    · cases h
  · cases h

/-- The second fragment comes twice, with one of another frame between. -/
def mixedFragments : List (List UInt8 × Option (List UInt8)) :=
  [(firstFrame.datagram 1, none), (secondFrame.datagram 0, none), (firstFrame.datagram 1, none)]

def lastFragment : List UInt8 × Option (List UInt8) := (firstFrame.datagram 0, some firstFrame.sealed)

def mixedPath (events : List (List UInt8 × Option (List UInt8))) :
    List (Transition Reassembler (List UInt8 × Option (List UInt8))) :=
  Execution.path (Execution.attempt receive) (withCapacity 3) events

theorem mixed_run : MediaRun (withCapacity 3) (mixedPath (mixedFragments ++ [lastFragment]))
    ((mixedFragments ++ [lastFragment]).foldl (Execution.attempt receive) (withCapacity 3)) :=
  (Execution.of_attempt receive _ (by decide +kernel)).of_steps fun _ _ => receives_of_receive

theorem media_round_trip_two : ∃ x, MediaRun (withCapacity 3) (mixedPath mixedFragments ++ [x])
      ((mixedFragments ++ [lastFragment]).foldl (Execution.attempt receive) (withCapacity 3)) ∧
    x.event.1 = firstFrame.datagram 0 ∧ x.event.2 =
      if ∀ d ∈ firstFrame.datagrams, d ∈ datagramsOf (mixedPath mixedFragments ++ [x]) then some firstFrame.sealed
      else none := by
  obtain ⟨x, hx, hevent⟩ : ∃ x, mixedPath (mixedFragments ++ [lastFragment]) = mixedPath mixedFragments ++ [x] ∧
      x.event = lastFragment := ⟨_, rfl, rfl⟩
  have hfew : ∀ d ∈ datagramsOf (mixedPath (mixedFragments ++ [lastFragment])),
      d ∈ firstFrame.datagrams ∨ ∃ g ∈ [secondFrame], d ∈ g.datagrams ∧ g.frameId ≠ firstFrame.frameId := by
    decide +kernel
  have hcard : (touched (datagramsOf (mixedPath (mixedFragments ++ [lastFragment])))).card < 3 := by
    decide +kernel
  have hrun := mixed_run
  rw [hx] at hrun hfew hcard
  obtain ⟨-, -, hall⟩ := media_round_trip
  obtain ⟨-, -, -, hlast⟩ := hall 3 [] _ (.nil _)
  refine ⟨x, hrun, congrArg Prod.fst hevent, hlast firstFrame rfl _ _ _ hrun (apart_of_sent hfew)
    (spaced_of_few hcard) ?_ (by decide +kernel)⟩
  rw [hevent]
  decide +kernel

end Sample

end Media
