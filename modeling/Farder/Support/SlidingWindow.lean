import Farder.Support.FiniteMap
import Mathlib.Order.Defs.LinearOrder

/-! # Sliding windows

A limiter admits so many calls of a key in a window of time. It keeps a queue of instants for each
key, drops from it what no longer counts, and forgets keys that have been idle. What it decides is
what the whole history would decide. -/
namespace SlidingWindow

/-- Which instants still count at a later one: fewer and fewer, the oldest first to go. -/
structure Expiry (τ : Type*) [LinearOrder τ] where
  counts : τ → τ → Bool
  of_later : ∀ {now later t}, now ≤ later → counts later t = true → counts now t = true
  of_earlier : ∀ {now t t'}, t ≤ t' → counts now t = true → counts now t' = true

/-- The instants less than a window ago. -/
def Expiry.within (window : ℕ) : Expiry ℕ where
  counts now t := now - t < window
  of_later {now later t} hle h := by
    have hlt : later - t < window := of_decide_eq_true h
    exact decide_eq_true (by omega)
  of_earlier {now t t'} hle h := by
    have hlt : now - t < window := of_decide_eq_true h
    exact decide_eq_true (by omega)

variable {τ κ : Type*} [LinearOrder τ] {E : Expiry τ} {now next : τ} {hits log : List τ}

/-- Drop the instants at the front that no longer count. -/
def Expiry.prune (E : Expiry τ) (now : τ) (hits : List τ) : List τ :=
  hits.dropWhile fun t => !E.counts now t

def Expiry.recent (E : Expiry τ) (now : τ) (log : List τ) : List τ := log.filter (E.counts now)

theorem prune_eq_recent (h : hits.Pairwise (· ≤ ·)) : E.prune now hits = E.recent now hits := by
  induction hits with
  | nil => rfl
  | cons t hits ih =>
    obtain ⟨hfirst, htail⟩ := List.pairwise_cons.mp h
    unfold Expiry.prune Expiry.recent
    cases hcounts : E.counts now t with
    | false =>
      rw [List.dropWhile_cons_of_pos (by simp [hcounts]), List.filter_cons_of_neg (by simp [hcounts])]
      exact ih htail
    | true =>
      rw [List.dropWhile_cons_of_neg (by simp [hcounts]), List.filter_cons_of_pos hcounts]
      refine congrArg _ (List.filter_eq_self.mpr fun t' ht' => ?_).symm
      exact E.of_earlier (hfirst t' ht') hcounts

/-- From an instant on, the queue and the history have the same instants that count. -/
structure Recalls (E : Expiry τ) (now : τ) (hits log : List τ) : Prop where
  sorted : hits.Pairwise (· ≤ ·)
  past : ∀ t ∈ hits, t ≤ now
  same : ∀ next, now ≤ next → E.recent next hits = E.recent next log

theorem Recalls.nil : Recalls E now [] [] := ⟨.nil, fun _ h => (nomatch h), fun _ _ => rfl⟩

theorem Recalls.mono (h : Recalls E now hits log) (hle : now ≤ next) :
    Recalls E next hits log where
  sorted := h.sorted
  past t ht := (h.past t ht).trans hle
  same t ht := h.same t (hle.trans ht)

theorem recent_recent (log : List τ) (hle : now ≤ next) :
    E.recent next (E.recent now log) = E.recent next log := by
  unfold Expiry.recent
  rw [List.filter_filter]
  refine List.filter_congr fun t _ => ?_
  cases hcounts : E.counts next t with
  | false => rfl
  | true => rw [E.of_later hle hcounts]; rfl

theorem Recalls.prune (h : Recalls E now hits log) : Recalls E now (E.prune now hits) log where
  sorted := h.sorted.sublist (List.dropWhile_sublist _)
  past t ht := h.past t ((List.dropWhile_sublist _).subset ht)
  same next hle := by
    rw [prune_eq_recent h.sorted, recent_recent _ hle, h.same next hle]

theorem Recalls.length_prune (h : Recalls E now hits log) :
    (E.prune now hits).length = (E.recent now log).length := by
  rw [prune_eq_recent h.sorted, h.same now le_rfl]

theorem Recalls.push (h : Recalls E now hits log) :
    Recalls E now (hits ++ [now]) (log ++ [now]) where
  sorted := by
    rw [List.pairwise_append]
    refine ⟨h.sorted, List.pairwise_singleton _ _, fun t ht t' ht' => ?_⟩
    exact List.mem_singleton.mp ht' ▸ h.past t ht
  past t ht := by
    rcases List.mem_append.mp ht with ht | ht
    · exact h.past t ht
    · exact (List.mem_singleton.mp ht).le
  same next hle := by
    have hsame := h.same next hle
    unfold Expiry.recent at hsame ⊢
    rw [List.filter_append, List.filter_append, hsame]

theorem Recalls.idle (h : Recalls E now hits log)
    (hidle : ∀ t ∈ hits.getLast?, E.counts now t = false) : Recalls E now [] log where
  sorted := .nil
  past _ h := nomatch h
  same next hle := by
    have hnone : E.recent now hits = [] := by
      refine List.filter_eq_nil_iff.mpr fun t ht hcounts => ?_
      have hne := List.ne_nil_of_mem ht
      have hlast := hidle _ (List.getLast?_eq_some_getLast hne)
      rw [E.of_earlier (h.sorted.rel_getLast ht) hcounts] at hlast
      cases hlast
    rw [← h.same next hle, ← recent_recent hits hle, hnone]

/-! ## A queue for each key -/

variable [DecidableEq κ] {k : κ}

abbrev Queues (κ τ : Type*) := FiniteMap κ (List τ)

open FiniteMap

variable {q : Queues κ τ} {limit : ℕ} {logs : κ → List τ}

def queueOf (q : Queues κ τ) (k : κ) : List τ := (q.lookup k).getD []

/-- Forget the keys whose last instant no longer counts. -/
def dropIdle (E : Expiry τ) (now : τ) (q : Queues κ τ) : Queues κ τ :=
  retain q fun _ hits => (hits.getLast?.map (E.counts now)).getD false = true

def admitCall (E : Expiry τ) (limit : ℕ) (q : Queues κ τ) (k : κ) (now : τ) : Queues κ τ × Bool :=
  let q := adjust (orInsert q k []) k (E.prune now)
  if limit ≤ (queueOf q k).length then (q, false) else (adjust q k (· ++ [now]), true)

/-- What the limiter knows of each key is enough for its history. -/
def Remembers (E : Expiry τ) (now : τ) (q : Queues κ τ) (logs : κ → List τ) : Prop :=
  ∀ k, Recalls E now (queueOf q k) (logs k)

omit [LinearOrder τ] in
theorem queueOf_adjust (q : Queues κ τ) (k k' : κ) {f : List τ → List τ} (hf : f [] = []) :
    queueOf (adjust q k f) k' = if k' = k then f (queueOf q k) else queueOf q k' := by
  unfold queueOf
  rw [lookup_adjust]
  by_cases hk : k' = k
  · rw [if_pos hk, if_pos hk]
    cases q.lookup k with
    | none => exact hf.symm
    | some hits => rfl
  · rw [if_neg hk, if_neg hk]

omit [LinearOrder τ] in
theorem queueOf_orInsert (q : Queues κ τ) (k k' : κ) :
    queueOf (orInsert q k []) k' = queueOf q k' := by
  unfold queueOf
  rw [lookup_orInsert]
  split_ifs with hk
  · rw [hk]
    rfl
  · rfl

theorem remembers_empty : Remembers E now (∅ : Queues κ τ) fun _ => [] := fun _ => .nil

theorem Remembers.mono (h : Remembers E now q logs) (hle : now ≤ next) :
    Remembers E next q logs := fun k => (h k).mono hle

theorem Remembers.dropIdle (h : Remembers E now q logs) :
    Remembers E now (dropIdle E now q) logs := by
  intro k
  have hk := h k
  unfold queueOf at hk ⊢
  cases hkept : (SlidingWindow.dropIdle E now q).lookup k with
  | some hits =>
    obtain ⟨hlookup, -⟩ := (lookup_retain_eq_some q _ k hits).mp hkept
    rwa [hlookup] at hk
  | none =>
    refine hk.idle fun t ht => ?_
    cases hlookup : q.lookup k with
    | none => simp [hlookup] at ht
    | some hits =>
      rw [hlookup, Option.getD_some] at ht
      cases hcounts : E.counts now t with
      | false => rfl
      | true =>
        have hstays : (SlidingWindow.dropIdle E now q).lookup k = some hits := by
          refine (lookup_retain_eq_some q _ k hits).mpr ⟨hlookup, ?_⟩
          rw [Option.mem_def.mp ht]
          exact hcounts
        rw [hkept] at hstays
        cases hstays

/-- The verdict is that of the history, and the call goes into it if it is admitted. -/
theorem Remembers.admitCall (h : Remembers E now q logs) (limit : ℕ) (k : κ) :
    (admitCall E limit q k now).2 = decide ((E.recent now (logs k)).length < limit) ∧
    Remembers E now (admitCall E limit q k now).1 (if (admitCall E limit q k now).2 = true
      then Function.update logs k (logs k ++ [now]) else logs) := by
  have hpruned : Remembers E now (adjust (orInsert q k []) k (E.prune now)) logs := by
    intro k'
    rw [queueOf_adjust _ _ _ rfl, queueOf_orInsert, queueOf_orInsert]
    split_ifs with hk
    · rw [hk]
      exact (h k).prune
    · exact h k'
  have hlength : (queueOf (adjust (orInsert q k []) k (E.prune now)) k).length =
      (E.recent now (logs k)).length := by
    rw [queueOf_adjust _ _ _ rfl, if_pos rfl, queueOf_orInsert]
    exact (h k).length_prune
  unfold SlidingWindow.admitCall
  dsimp only
  by_cases hfull : limit ≤ (queueOf (adjust (orInsert q k []) k (E.prune now)) k).length
  · rw [if_pos hfull]
    refine ⟨?_, hpruned⟩
    rw [hlength] at hfull
    exact (decide_eq_false (Nat.not_lt_of_le hfull)).symm
  · rw [if_neg hfull]
    refine ⟨?_, fun k' => ?_⟩
    · rw [hlength] at hfull
      exact (decide_eq_true (Nat.lt_of_not_le hfull)).symm
    · rw [if_pos rfl]
      have hk' := hpruned k'
      unfold queueOf at hk' ⊢
      rw [lookup_adjust]
      by_cases hk : k' = k
      · subst hk
        rw [if_pos rfl, Function.update_self]
        have hthere : (adjust (orInsert q k' []) k' (E.prune now)).lookup k' =
            some (queueOf (adjust (orInsert q k' []) k' (E.prune now)) k') := by
          unfold queueOf
          rw [lookup_adjust, if_pos rfl, lookup_orInsert, if_pos rfl]
          rfl
        rw [hthere] at hk' ⊢
        exact hk'.push
      · rw [if_neg hk, Function.update_of_ne hk]
        exact hk'

end SlidingWindow
