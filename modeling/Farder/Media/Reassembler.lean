import Farder.Media.Datagram
import Farder.Support.Execution
import Farder.Support.Guarded
import Mathlib.Data.Finset.Card
import Mathlib.Data.List.AList
import Mathlib.Data.List.MinMax

/-! # Reassembly

The receiver of a track puts the fragments of a frame together as they come. It holds a few frames
at a time: when one more comes, the one that was touched last the longest ago goes. -/
namespace Media

open Server Guarded

/-- A frame of which some fragments are there. -/
structure Partial where
  fragCount : ℕ
  parts : List (Option (List UInt8))
  received : ℕ
  touch : ℕ
  deriving DecidableEq

namespace Partial

def fresh (fragCount now : ℕ) : Partial := ⟨fragCount, List.replicate fragCount none, 0, now⟩

/-- The slot of a fragment is filled once. -/
def put (entry : Partial) (fragIndex : ℕ) (payload : List UInt8) : Checked Partial := do
  let slot ← expect entry.parts[fragIndex]? "index out of bounds"
  if slot = none then
    let received ← expect (if entry.received < 2 ^ 16 - 1 then some (entry.received + 1) else none)
      "attempt to add with overflow"
    return { entry with parts := entry.parts.set fragIndex (some payload), received }
  else return entry

def join : List (Option (List UInt8)) → Checked (List UInt8)
  | [] => .ok []
  | part :: parts => do
    let part ← expect part "all parts present when received == frag_count"
    let rest ← join parts
    return part ++ rest

end Partial

/-- The frames in progress, by their ids. The clock has 64 bits, more than datagrams ever come. -/
structure Reassembler where
  frames : AList fun _ : ℕ => Partial
  maxFrames : ℕ
  clock : ℕ

namespace Reassembler

def withCapacity (maxFrames : ℕ) : Reassembler := ⟨∅, max maxFrames 1, 0⟩

def inProgressLen (r : Reassembler) : ℕ := r.frames.entries.length

/-- The frame that was touched the longest ago goes, if there are too many. -/
def evict (maxFrames : ℕ) (frames : AList fun _ : ℕ => Partial) : AList fun _ : ℕ => Partial :=
  if maxFrames < frames.entries.length then
    match frames.entries.argmin fun x => x.2.touch with
    | some oldest => frames.erase oldest.1
    | none => frames
  else frames

/-- The entry that a fragment goes to: a new one, if the header counts the fragments in another
way. -/
def entryFor (r : Reassembler) (header : OuterHeader) (now : ℕ) : Partial :=
  let entry := (r.frames.lookup header.frameId).getD (.fresh header.fragCount now)
  let entry := if entry.fragCount ≠ header.fragCount then .fresh header.fragCount now else entry
  { entry with touch := now }

/-- `Reassembler::accept`. -/
def accept (r : Reassembler) (header : OuterHeader) (payload : List UInt8) :
    Checked (Reassembler × Option (List UInt8)) :=
  if header.fragCount = 1 then .ok (r, some payload)
  else do
    let now := r.clock + 1
    let entry ← (r.entryFor header now).put header.fragIndex payload
    let frames := r.frames.insert header.frameId entry
    if entry.received = entry.fragCount then
      let sealed ← Partial.join entry.parts
      return ({ r with clock := now, frames := frames.erase header.frameId }, some sealed)
    else return ({ r with clock := now, frames := evict r.maxFrames frames }, none)

/-! ## What is in progress -/

variable {r r' : Reassembler} {h : OuterHeader} {payload : List UInt8} {maxFrames now id : ℕ}
  {frames : AList fun _ : ℕ => Partial} {entry : Partial}

theorem lookup_evict (maxFrames : ℕ) (frames : AList fun _ : ℕ => Partial) (id : ℕ) :
    (evict maxFrames frames).lookup id = frames.lookup id ∨
      (evict maxFrames frames).lookup id = none ∧ maxFrames < frames.entries.length ∧
        ∀ entry ∈ frames.lookup id, ∀ id', ∀ entry' ∈ frames.lookup id',
          entry.touch ≤ entry'.touch := by
  unfold evict
  split_ifs with hfull
  · split
    · next oldest holdest =>
      by_cases hid : id = oldest.1
      · subst hid
        refine .inr ⟨AList.lookup_erase _ _, hfull, fun entry hentry id' entry' hentry' => ?_⟩
        have hmem := List.argmin_mem holdest
        obtain rfl : entry = oldest.2 :=
          Option.mem_unique hentry (AList.mem_lookup_iff.mpr hmem)
        exact List.le_of_mem_argmin (f := fun x : Sigma _ => x.2.touch)
          (AList.mem_lookup_iff.mp hentry') holdest
      · exact .inl (AList.lookup_erase_ne hid)
    · exact .inl rfl
  · exact .inl rfl

theorem length_keys (frames : AList fun _ : ℕ => Partial) :
    frames.keys.length = frames.entries.length :=
  List.length_map _

theorem length_evict (h : frames.entries.length ≤ maxFrames + 1) :
    (evict maxFrames frames).entries.length ≤ maxFrames := by
  unfold evict
  split_ifs with hfull
  · split
    · next oldest holdest =>
      have hmem : oldest.1 ∈ frames.keys := List.mem_map_of_mem (List.argmin_mem holdest)
      rw [← length_keys, AList.keys_erase, List.length_erase_of_mem hmem, length_keys]
      omega
    · next hnone =>
      rw [List.argmin_eq_none.mp hnone]
      exact Nat.zero_le _
  · exact Nat.le_of_not_lt hfull

structure Counted (entry : Partial) : Prop where
  slots : entry.parts.length = entry.fragCount
  received : entry.received = entry.parts.countP Option.isSome

/-- No more frames are held than there is room for, and each was touched in the past. -/
structure Sound (r : Reassembler) : Prop where
  room : 0 < r.maxFrames
  few : r.inProgressLen ≤ r.maxFrames
  counted : ∀ id, ∀ entry ∈ r.frames.lookup id, Counted entry
  touched : ∀ id, ∀ entry ∈ r.frames.lookup id, entry.touch ≤ r.clock

theorem sound_withCapacity (maxFrames : ℕ) : Sound (withCapacity maxFrames) where
  room := Nat.lt_of_lt_of_le Nat.one_pos (Nat.le_max_right _ _)
  few := Nat.zero_le _
  counted := fun _ _ h => nomatch h
  touched := fun _ _ h => nomatch h

theorem counted_fresh (fragCount now : ℕ) : Counted (.fresh fragCount now) where
  slots := List.length_replicate
  received := by simp [Partial.fresh, List.countP_replicate]

def held (r : Reassembler) (h : OuterHeader) (i : ℕ) : Option (List UInt8) :=
  (r.frames.lookup h.frameId).bind fun entry =>
    if entry.fragCount = h.fragCount then entry.parts[i]?.join else none

theorem entryFor_cases (r : Reassembler) (h : OuterHeader) (now : ℕ) :
    (r.entryFor h now = .fresh h.fragCount now ∧ ∀ i, r.held h i = none) ∨
      ∃ entry ∈ r.frames.lookup h.frameId, entry.fragCount = h.fragCount ∧
        r.entryFor h now = { entry with touch := now } ∧
        ∀ i, r.held h i = entry.parts[i]?.join := by
  cases hlookup : r.frames.lookup h.frameId with
  | none => exact .inl ⟨by simp [entryFor, hlookup, Partial.fresh], by simp [held, hlookup]⟩
  | some entry =>
    by_cases hcount : entry.fragCount = h.fragCount
    · refine .inr ⟨entry, rfl, hcount, ?_, ?_⟩
      · simp [entryFor, hlookup, hcount]
      · simp [held, hlookup, hcount]
    · refine .inl ⟨?_, ?_⟩
      · simp [entryFor, hlookup, hcount, Partial.fresh]
      · simp [held, hlookup, hcount]

theorem entryFor_spec (now : ℕ) (hr : Sound r) :
    Counted (r.entryFor h now) ∧ (r.entryFor h now).fragCount = h.fragCount ∧
      (r.entryFor h now).touch = now ∧
      ∀ i < h.fragCount, (r.entryFor h now).parts[i]? = some (r.held h i) := by
  rcases entryFor_cases r h now with ⟨hentry, hheld⟩ | ⟨entry, hlookup, hcount, hentry, hheld⟩
  · rw [hentry]
    refine ⟨counted_fresh _ _, rfl, rfl, fun i hi => ?_⟩
    rw [hheld]
    simp [Partial.fresh, hi]
  · obtain ⟨hslots, hreceived⟩ := hr.counted _ entry hlookup
    rw [hentry]
    refine ⟨⟨hslots, hreceived⟩, hcount, rfl, fun i hi => ?_⟩
    have hlt : i < entry.parts.length := by rwa [hslots, hcount]
    rw [hheld, List.getElem?_eq_getElem hlt]
    rfl

theorem put_spec (payload : List UInt8) {i : ℕ} (hentry : Counted entry) (hi : i < entry.fragCount)
    (hsmall : entry.fragCount < 2 ^ 16) : ∃ entry', entry.put i payload = .ok entry' ∧
      Counted entry' ∧ entry'.fragCount = entry.fragCount ∧ entry'.touch = entry.touch ∧
      (∀ old, entry.parts[i]? = some old → entry'.parts[i]? = some (some (old.getD payload))) ∧
      ∀ j, j ≠ i → entry'.parts[j]? = entry.parts[j]? := by
  obtain ⟨hslots, hreceived⟩ := hentry
  have hlt : i < entry.parts.length := by rwa [hslots]
  unfold Partial.put
  rw [List.getElem?_eq_getElem hlt]
  cases hslot : entry.parts[i] with
  | some old =>
    refine ⟨entry, rfl, ⟨hslots, hreceived⟩, rfl, rfl, fun part hpart => ?_, fun _ _ => rfl⟩
    obtain rfl := Option.some.inj hpart
    rw [List.getElem?_eq_getElem hlt, hslot]
    rfl
  | none =>
    have hroom : entry.received < 2 ^ 16 - 1 := by
      have hle := List.countP_le_length (p := Option.isSome) (l := entry.parts)
      have hne : entry.parts.countP Option.isSome ≠ entry.parts.length := by
        intro heq
        have hall := List.countP_eq_length.mp heq _ (List.getElem_mem hlt)
        rw [hslot] at hall
        cases hall
      omega
    refine ⟨{ entry with
      parts := entry.parts.set i (some payload)
      received := entry.received + 1 }, ?_, ⟨?_, ?_⟩, rfl, rfl, ?_, fun j hj => ?_⟩
    · rw [if_pos hroom]
      rfl
    · rw [List.length_set]
      exact hslots
    · dsimp only
      rw [List.countP_set hlt, hslot, hreceived]
      rfl
    · rintro old hold
      obtain rfl := Option.some.inj hold
      exact List.getElem?_set_self hlt
    · exact List.getElem?_set_ne hj.symm

theorem join_of_filled {parts : List (Option (List UInt8))} (h : ∀ part ∈ parts, part.isSome) :
    Partial.join parts = .ok (parts.flatMap fun part => part.getD []) := by
  induction parts with
  | nil => rfl
  | cons part parts ih =>
    obtain ⟨bytes, rfl⟩ := Option.isSome_iff_exists.mp (h part List.mem_cons_self)
    rw [Partial.join, ih fun p hp => h p (List.mem_cons_of_mem _ hp)]
    rfl

/-- What is held of the frame once the fragment has come. -/
def heldWith (r : Reassembler) (h : OuterHeader) (payload : List UInt8) (i : ℕ) :
    Option (List UInt8) :=
  if i = h.fragIndex then some ((r.held h i).getD payload) else r.held h i

/-- What a fragment of several does: the frame is complete and goes out, or it stays. -/
inductive Accepts (r : Reassembler) (h : OuterHeader) (payload : List UInt8) :
    Reassembler → Option (List UInt8) → Prop
  | whole (hone : h.fragCount = 1) : Accepts r h payload r (some payload)
  | completed {frames : AList fun _ : ℕ => Partial} (hmany : h.fragCount ≠ 1)
      (hframes : frames.lookup h.frameId = none ∧ frames.entries.length ≤ r.maxFrames ∧
        ∀ id, id ≠ h.frameId → frames.lookup id = r.frames.lookup id)
      (hall : ∀ i < h.fragCount, (r.heldWith h payload i).isSome) :
      Accepts r h payload { r with clock := r.clock + 1, frames }
        (some ((List.range h.fragCount).flatMap fun i => (r.heldWith h payload i).getD []))
  | kept {entry : Partial} {frames : AList fun _ : ℕ => Partial} (hmany : h.fragCount ≠ 1)
      (hframes : frames.lookup h.frameId = some entry ∧
        frames.entries.length ≤ r.maxFrames + 1 ∧
        ∀ id, id ≠ h.frameId → frames.lookup id = r.frames.lookup id)
      (hentry : Counted entry ∧ entry.fragCount = h.fragCount ∧ entry.touch = r.clock + 1 ∧
        entry.received < entry.fragCount)
      (hparts : ∀ i < h.fragCount, entry.parts[i]? = some (r.heldWith h payload i))
      (hsome : ∃ i < h.fragCount, r.heldWith h payload i = none) :
      Accepts r h payload
        { r with clock := r.clock + 1, frames := evict r.maxFrames frames } none

theorem length_insert_le (id : ℕ) (entry : Partial) (frames : AList fun _ : ℕ => Partial) :
    (frames.insert id entry).entries.length ≤ frames.entries.length + 1 := by
  rw [← length_keys, ← length_keys, AList.keys_insert, List.length_cons]
  exact Nat.succ_le_succ List.length_erase_le

theorem length_erase_insert_le (id : ℕ) (entry : Partial) (frames : AList fun _ : ℕ => Partial) :
    ((frames.insert id entry).erase id).entries.length ≤ frames.entries.length := by
  rw [← length_keys, ← length_keys, AList.keys_erase, AList.keys_insert, List.erase_cons_head]
  exact List.length_erase_le

theorem accept_total (hr : Sound r) (hh : Valid h) (payload : List UInt8) :
    ∃ r' out, r.accept h payload = .ok (r', out) ∧ Accepts r h payload r' out := by
  unfold accept
  by_cases hone : h.fragCount = 1
  · rw [if_pos hone]
    exact ⟨r, some payload, rfl, .whole hone⟩
  rw [if_neg hone]
  obtain ⟨hcounted, hcount, htouch, hheld⟩ := entryFor_spec (h := h) (r.clock + 1) hr
  obtain ⟨entry, hput, hcounted', hcount', htouch', hslot, hothers⟩ :=
    put_spec payload hcounted (hcount.symm ▸ hh.index_lt) (hcount.symm ▸ hh.fragCount)
  have hparts (i : ℕ) (hi : i < h.fragCount) :
      entry.parts[i]? = some (r.heldWith h payload i) := by
    unfold heldWith
    split_ifs with hindex
    · subst hindex
      exact hslot _ (hheld _ hi)
    · rw [hothers i hindex]
      exact hheld i hi
  have hall : entry.parts = (List.range h.fragCount).map (r.heldWith h payload) := by
    have hlength : entry.parts.length = h.fragCount := by rw [hcounted'.slots, hcount', hcount]
    refine List.ext_getElem (by simp [hlength]) fun i hi hi' => ?_
    have hlt : i < h.fragCount := hlength ▸ hi
    rw [← Option.some_inj, ← List.getElem?_eq_getElem hi, hparts i hlt]
    simp
  have hfull : entry.received = entry.fragCount ↔
      ∀ i < h.fragCount, (r.heldWith h payload i).isSome := by
    rw [hcounted'.received, ← hcounted'.slots, List.countP_eq_length, hall]
    simp
  dsimp only
  rw [hput]
  dsimp only [bind, Except.bind]
  by_cases hdone : entry.received = entry.fragCount
  · rw [if_pos hdone]
    have hjoin : Partial.join entry.parts =
        .ok ((List.range h.fragCount).flatMap fun i => (r.heldWith h payload i).getD []) := by
      rw [join_of_filled (List.countP_eq_length.mp ?_), hall, List.flatMap_map]
      rw [← hcounted'.received, hdone, hcounted'.slots]
    rw [hjoin]
    refine ⟨_, _, rfl, .completed hone ⟨AList.lookup_erase _ _, ?_, fun id hid => ?_⟩
      (hfull.mp hdone)⟩
    · exact (length_erase_insert_le _ _ _).trans hr.few
    · rw [AList.lookup_erase_ne hid, AList.lookup_insert_ne hid]
  · rw [if_neg hdone]
    refine ⟨_, _, rfl, .kept hone ⟨AList.lookup_insert _, ?_, fun id hid => ?_⟩
      ⟨hcounted', hcount'.trans hcount, htouch'.trans htouch, ?_⟩ hparts ?_⟩
    · exact (length_insert_le _ _ _).trans (Nat.succ_le_succ hr.few)
    · exact AList.lookup_insert_ne hid
    · have hle := List.countP_le_length (p := Option.isSome) (l := entry.parts)
      rw [← hcounted'.received, hcounted'.slots] at hle
      exact lt_of_le_of_ne hle hdone
    · by_contra hnone
      refine hdone (hfull.mpr fun i hi => ?_)
      by_contra hmissing
      exact hnone ⟨i, hi, Option.not_isSome_iff_eq_none.mp hmissing⟩

theorem evict_subset {id : ℕ} (h : entry ∈ (evict maxFrames frames).lookup id) :
    entry ∈ frames.lookup id := by
  rcases lookup_evict maxFrames frames id with hsame | ⟨hnone, -⟩
  · rwa [hsame] at h
  · rw [hnone] at h
    cases h

theorem lookup_evict_of_older {id : ℕ} (h : entry ∈ frames.lookup id)
    (holder : maxFrames < frames.entries.length →
      ∃ id', ∃ entry' ∈ frames.lookup id', entry'.touch < entry.touch) :
    (evict maxFrames frames).lookup id = some entry := by
  rcases lookup_evict maxFrames frames id with hsame | ⟨-, hfull, holdest⟩
  · rw [hsame]
    exact h
  · obtain ⟨id', entry', hentry', hlt⟩ := holder hfull
    exact absurd (holdest entry h id' entry' hentry') (Nat.not_le_of_lt hlt)

theorem exists_outside {ids : Finset ℕ} (h : ids.card < frames.entries.length) :
    ∃ id, id ∉ ids ∧ ∃ entry, entry ∈ frames.lookup id := by
  by_contra hnone
  have hsubset : frames.keys.toFinset ⊆ ids := by
    intro id hid
    by_contra hout
    have hsome := AList.lookup_isSome.mpr (AList.mem_keys.mpr (List.mem_toFinset.mp hid))
    exact hnone ⟨id, hout, Option.isSome_iff_exists.mp hsome⟩
  have hcard := Finset.card_le_card hsubset
  rw [List.toFinset_card_of_nodup frames.keys_nodup, length_keys] at hcard
  omega

theorem Accepts.sound {out : Option (List UInt8)} (hstep : Accepts r h payload r' out)
    (hr : Sound r) : Sound r' := by
  cases hstep with
  | whole hone => exact hr
  | @completed frames hmany hframes hall =>
    obtain ⟨hgone, hfew, hothers⟩ := hframes
    have hold (id : ℕ) (entry : Partial) (hentry : entry ∈ frames.lookup id) :
        entry ∈ r.frames.lookup id := by
      by_cases hid : id = h.frameId
      · rw [hid, hgone] at hentry
        cases hentry
      · exact hothers id hid ▸ hentry
    exact ⟨hr.room, hfew, fun id entry hentry => hr.counted id entry (hold id entry hentry),
      fun id entry hentry => (hr.touched id entry (hold id entry hentry)).trans (Nat.le_succ _)⟩
  | @kept new frames hmany hframes hentry hparts hsome =>
    obtain ⟨hnew, hfew, hothers⟩ := hframes
    have hold (id : ℕ) (entry : Partial) (hmem : entry ∈ (evict r.maxFrames frames).lookup id) :
        entry = new ∨ entry ∈ r.frames.lookup id := by
      have hmem := evict_subset hmem
      by_cases hid : id = h.frameId
      · rw [hid, hnew] at hmem
        exact .inl (Option.some.inj hmem).symm
      · exact .inr (hothers id hid ▸ hmem)
    refine ⟨hr.room, length_evict hfew, fun id entry hmem => ?_, fun id entry hmem => ?_⟩
    · rcases hold id entry hmem with rfl | hmem
      · exact hentry.1
      · exact hr.counted id entry hmem
    · rcases hold id entry hmem with rfl | hmem
      · exact hentry.2.2.1.le
      · exact (hr.touched id entry hmem).trans (Nat.le_succ _)

theorem Accepts.maxFrames_eq {out : Option (List UInt8)} (hstep : Accepts r h payload r' out) :
    r'.maxFrames = r.maxFrames := by
  cases hstep <;> rfl

/-- A receiver takes a datagram whose header can be read, and may get a frame from it. -/
def Receives (r : Reassembler) (e : List UInt8 × Option (List UInt8)) (r' : Reassembler) : Prop :=
  ∃ h payload, parse e.1 = .ok (h, payload) ∧ r.accept h payload = .ok (r', e.2)

abbrev MediaRun := Execution Receives

theorem Receives.accepts {e : List UInt8 × Option (List UInt8)} (hstep : Receives r e r')
    (hr : Sound r) : ∃ h payload, Valid h ∧ parse e.1 = .ok (h, payload) ∧
      Accepts r h payload r' e.2 := by
  obtain ⟨h, payload, hparse, haccept⟩ := hstep
  have hvalid := (parse_eq_ok hparse).1
  obtain ⟨r'', out, haccept', hcases⟩ := accept_total hr hvalid payload
  obtain ⟨rfl, rfl⟩ := Prod.mk.inj (Except.ok.inj (haccept.symm.trans haccept'))
  exact ⟨h, payload, hvalid, hparse, hcases⟩

theorem sound_run {tr : List (Transition Reassembler (List UInt8 × Option (List UInt8)))}
    (hrun : MediaRun r tr r') (hr : Sound r) : Sound r' ∧ r'.maxFrames = r.maxFrames := by
  refine hrun.invariant (I := fun s => Sound s ∧ s.maxFrames = r.maxFrames) ⟨hr, rfl⟩ ?_
  rintro s e t ⟨hs, hmax⟩ hstep
  obtain ⟨h, payload, -, -, hcases⟩ := hstep.accepts hs
  exact ⟨hcases.sound hs, hcases.maxFrames_eq.trans hmax⟩

end Reassembler
end Media
