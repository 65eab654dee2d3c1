import Farder.LogInvariant
import Farder.SampleLog
import Farder.Support.HashChain
import Mathlib.Data.List.Chain

/-! # The chains of the log

The events that one device signs for one identity form a chain: they are numbered from 0 and
each names the hash of the one before it. The fold keeps the head of every chain, so an event
extends exactly one chain, and no event is accepted twice. -/
namespace EventChains

open EventLog EventLog.LogState

variable {K : Crypto} {g : Genesis} {s t : LogState} {e : Event} {leaf : Leaf}
  {tr : List (Transition LogState Event)} {l : List Event}

/-- The accepted events of one author and device, in the order of the log. -/
def chainOf (leaf : Leaf) (tr : List (Transition LogState Event)) : List Event :=
  (tr.map Transition.event).filter fun e => e.leaf = leaf

structure Linked (K : Crypto) (l : List Event) : Prop where
  seq : l.map (fun e => e.core.seq) = List.range l.length
  first : ∀ e ∈ l.head?, e.core.prev = none
  prev : l.IsChain fun e₁ e₂ => e₂.core.prev = some (e₁.hash K)

def headOf (K : Crypto) (e : Event) : ChainHead := ⟨e.core.seq, e.hash K⟩

theorem chainOf_snoc (x : Transition LogState Event) :
    chainOf leaf (tr ++ [x]) =
    chainOf leaf tr ++ if x.event.leaf = leaf then [x.event] else [] := by
  by_cases h : x.event.leaf = leaf <;> simp [chainOf, h]

/-- The event comes next after the head of its chain. -/
def Extends (head : Option ChainHead) (e : Event) : Prop :=
  match head with
  | none => e.core.seq = 0 ∧ e.core.prev = none
  | some head => e.core.seq = head.seq + 1 ∧ e.core.prev = some head.hash

theorem checkChain_eq_ok : s.checkChain e = .ok () ↔ Extends (s.chains.lookup e.leaf) e := by
  cases h : s.chains.lookup e.leaf <;> simp [checkChain, Extends, h]

theorem chains_step (h : Step K s e t) :
    s.checkChain e = .ok () ∧ t.chains = s.chains.insert e.leaf (headOf K e) := by
  obtain ⟨key, m, henv, heff, rfl⟩ := apply_cases h
  obtain ⟨hchains, -⟩ := heff.bookkeeping
  exact ⟨henv.chain, by simp only [recordAccepted, advanceChain, hchains, headOf]⟩

theorem Linked.snoc (h : Linked K l) (hnext : Extends (l.getLast?.map (headOf K)) e) :
    Linked K (l ++ [e]) := by
  obtain ⟨hseq, hfirst, hprev⟩ := h
  cases hlast : l.getLast? with
  | none =>
    obtain rfl := List.getLast?_eq_none_iff.mp hlast
    obtain ⟨hzero, hnone⟩ := hnext
    exact ⟨by simp [hzero], by simp [hnone], by simp⟩
  | some last =>
    rw [hlast] at hnext
    obtain ⟨hsucc, hlink⟩ := hnext
    obtain ⟨l', rfl⟩ := List.getLast?_eq_some_iff.mp hlast
    have hnum : last.core.seq = l'.length := by
      have hget := congrArg List.getLast? hseq
      simpa [List.range_succ] using hget
    have hnew : e.core.seq = (l' ++ [last]).length := by
      simp [hsucc, hnum, headOf]
    refine ⟨?_, by simpa using hfirst, ?_⟩
    · have hlength : (l' ++ [last] ++ [e]).length = (l' ++ [last]).length + 1 := by simp
      rw [List.map_append, hseq, List.map_singleton, hnew, ← List.range_succ, hlength]
    · refine List.isChain_append.mpr ⟨hprev, List.isChain_singleton _, ?_⟩
      intro e₁ he₁ e₂ he₂
      obtain rfl : last = e₁ := by simpa using he₁
      obtain rfl : e = e₂ := by simpa using he₂
      exact hlink

theorem chains_linked (h : Run K g tr t) (leaf : Leaf) :
    Linked K (chainOf leaf tr) ∧
      t.chains.lookup leaf = (chainOf leaf tr).getLast?.map (headOf K) := by
  generalize hs : fromGenesis K g = s at h
  induction h with
  | nil =>
    subst hs
    exact ⟨⟨rfl, by simp [chainOf], by simp [chainOf]⟩, by simp [chainOf, fromGenesis]⟩
  | @snoc t u e tr _ hstep ih =>
    obtain ⟨hlinked, hhead⟩ := ih
    obtain ⟨hcheck, hchains⟩ := chains_step hstep
    rw [chainOf_snoc, hchains, FiniteMap.lookup_insert_eq]
    by_cases hleaf : e.leaf = leaf
    · subst hleaf
      rw [checkChain_eq_ok, hhead] at hcheck
      simp only [if_true]
      exact ⟨hlinked.snoc hcheck, by simp⟩
    · have hne : leaf ≠ e.leaf := fun h => hleaf h.symm
      simp only [hleaf, hne, if_false, List.append_nil]
      exact ⟨hlinked, hhead⟩

theorem chainOf_nodup (h : Run K g tr t) (leaf : Leaf) : (chainOf leaf tr).Nodup := by
  refine List.Nodup.of_map (fun e => e.core.seq) ?_
  rw [(chains_linked h leaf).1.seq]
  exact List.nodup_range

theorem events_nodup (h : Run K g tr t) : (tr.map Transition.event).Nodup := by
  rw [List.nodup_iff_count_le_one]
  intro e
  have hcount := List.nodup_iff_count_le_one.mp (chainOf_nodup h e.leaf) e
  rwa [chainOf, List.count_filter (by simp)] at hcount

theorem event_fresh (h : Run K g (tr ++ [⟨s, e, t⟩]) t) {x : Transition LogState Event}
    (hx : x ∈ tr) : x.event ≠ e := by
  have hnodup := events_nodup h
  rw [List.map_append, List.nodup_append] at hnodup
  exact hnodup.2.2 x.event (List.mem_map_of_mem hx) e (by simp)

/-! ## Histories of one device

Whoever knows the head of a chain knows the chain: of two logs in which a device has the same head,
nobody has changed, dropped or inserted an event of the device. -/

theorem Linked.hashChain (h : Linked K l) :
    HashChain.Linked (Event.hash K) (fun e => e.core.prev) l := by
  obtain ⟨-, hfirst, hprev⟩ := h
  induction l using List.reverseRecOn with
  | nil => exact .nil
  | append_singleton l e ih =>
    rcases List.eq_nil_or_concat l with rfl | ⟨before, last, rfl⟩
    · exact .snoc .nil (hfirst e rfl)
    · rw [List.concat_eq_append] at ih hfirst hprev ⊢
      obtain ⟨hbefore, -, hlink⟩ := List.isChain_append.mp hprev
      refine .snoc (ih (fun e' he' => hfirst e' ?_) hbefore) ?_
      · rw [List.head?_append, he']
        rfl
      · rw [List.getLast?_concat]
        exact hlink last (by simp) e (by simp)

variable {g' : Genesis} {s' : LogState} {tr' : List (Transition LogState Event)}

/-- In every run the events of a device are numbered without a gap, and none is accepted twice. Of
any two runs, of whatever servers, in which no two events of the device have the same hash: the
device has the same head in both exactly if it has the same events; and if both have an event of
the device, they have the same events of it before. -/
theorem device_histories (h : Run K g tr s) (h' : Run K g' tr' s')
    (hcollision : ∀ x ∈ chainOf leaf tr, ∀ y ∈ chainOf leaf tr', x.hash K = y.hash K → x = y) :
    ((chainOf leaf tr).map (fun e => e.core.seq) = List.range (chainOf leaf tr).length ∧
      (chainOf leaf tr).Nodup) ∧
    (s.chains.lookup leaf = s'.chains.lookup leaf ↔ chainOf leaf tr = chainOf leaf tr') ∧
    ∀ (x : Event) (p q p' q' : List Event), chainOf leaf tr = p ++ x :: q →
      chainOf leaf tr' = p' ++ x :: q' → p = p' := by
  obtain ⟨hlinked, hhead⟩ := chains_linked h leaf
  obtain ⟨hlinked', hhead'⟩ := chains_linked h' leaf
  refine ⟨⟨hlinked.seq, chainOf_nodup h leaf⟩, ⟨fun heads => ?_, fun hsame => ?_⟩, ?_⟩
  · rw [hhead, hhead'] at heads
    have hlast := congrArg (Option.map ChainHead.hash) heads
    rw [Option.map_map, Option.map_map] at hlast
    exact hlinked.hashChain.eq_of_last hlinked'.hashChain hcollision hlast
  · rw [hhead, hhead', hsame]
  · intro x p q p' q' heq heq'
    refine HashChain.Linked.eq_before (heq ▸ hlinked.hashChain) (heq' ▸ hlinked'.hashChain) ?_
    intro y hy z hz
    exact hcollision y (heq ▸ List.mem_append_left _ hy) z (heq' ▸ List.mem_append_left _ hz)

open SampleLog in
/-- Alice's device in the log of the sample server, and in the log that ends before its commit. -/
theorem device_histories_alice :
    let leaf := (key alice, device a0)
    let log := signed twoMembers
    ((stateOf twoMembers).chains.lookup leaf = (stateOf (twoMembers.take 5)).chains.lookup leaf ↔
      chainOf leaf (LogState.accepted crypto genesis log) =
        chainOf leaf (LogState.accepted crypto genesis (signed (twoMembers.take 5)))) ∧
    (chainOf leaf (LogState.accepted crypto genesis log)).length = 4 :=
  ⟨(device_histories (LogState.run_accepted _) (LogState.run_accepted _) (by decide +kernel)).2.1,
    by decide +kernel⟩

end EventChains
