import Farder.Support.Execution
import Mathlib.Data.Finset.Basic
import Mathlib.Data.List.Chain

/-! # Key groups

The control plane of a group that shares a key: who holds a leaf, which generation and
epoch is current, and when content may be sealed. Commits change the leaves and chain the
epochs of a generation; a reset starts a new generation that owes a place to the leaves it
staged. Leaves, identities and authenticators are arbitrary, and the judgement of who
should hold a leaf is an input of every action. -/
namespace KeyGroup

variable {L I A : Type*} [DecidableEq L]

@[ext]
structure State (L A : Type*) where
  generation : ℕ
  epoch : ℕ
  authenticator : Option A
  confirmed : Finset L
  pending : Finset L
  owed : Finset L
  spent : ℕ

/-- A commit declares where it applies, what it adds and removes, and the link it makes;
`excused` are the leaves whose holders are judged to have lost their place. -/
structure Commit (L A : Type*) where
  generation : ℕ
  epoch : ℕ
  author : L
  adds : Finset L
  removes : Finset L
  excused : Finset L
  prev : A
  post : A

inductive Action (L A : Type*) where
  | commit (c : Commit L A)
  | confirm (leaf : L)
  | reset (author : L) (staged : Finset L)
  | send (author : L) (roster : Finset L)
  | idle

def initial : State L A := ⟨0, 0, none, ∅, ∅, ∅, 0⟩

namespace State

def leaves (s : State L A) : Finset L := s.confirmed ∪ s.pending

/-- Every leaf that the last reset still owes a place is confirmed. -/
def Complete (s : State L A) : Prop := s.owed ⊆ s.confirmed

def Owes (s : State L A) (l : L) : Prop := l ∈ s.owed ∧ l ∉ s.confirmed

def Bootstraps (s : State L A) : Prop := s.authenticator = none ∨ s.confirmed = ∅

instance (s : State L A) : Decidable s.Bootstraps :=
  inferInstanceAs (Decidable (s.authenticator = none ∨ s.confirmed = ∅))

end State

structure CommitEnabled (own : L → I) (s : State L A) (c : Commit L A) : Prop where
  generation : c.generation = s.generation
  epoch : c.epoch = s.epoch
  author : s.confirmed.Nonempty → c.author ∈ s.confirmed
  chain : ∀ a ∈ s.authenticator, c.prev = a
  adds : ∀ l ∈ c.adds, l ∉ s.confirmed ∧ l ∉ s.pending
  removes : ∀ l ∈ c.removes, l ∈ s.confirmed → l ∈ c.excused ∨ own c.author = own l

def Enabled (own : L → I) (ceiling : ℕ) (s : State L A) : Action L A → Prop
  | .commit c => CommitEnabled own s c
  | .confirm leaf => leaf ∈ s.pending
  | .reset author staged => author ∉ staged
  | .send author roster =>
    author ∈ s.confirmed ∧ s.leaves ⊆ roster ∧ s.spent < ceiling ∧ s.Complete
  | .idle => True

/-- The leaves that a commit confirms: its author's, when it bootstraps. -/
def founders (s : State L A) (c : Commit L A) : Finset L :=
  if s.Bootstraps then {c.author} else ∅

def next (s : State L A) : Action L A → State L A
  | .commit c =>
    { s with
      epoch := c.epoch + 1
      authenticator := some c.post
      confirmed := (s.confirmed \ c.removes) ∪ founders s c
      pending := ((s.pending ∪ c.adds) \ c.removes) \ founders s c
      owed := s.owed \ c.excused
      spent := 0 }
  | .confirm leaf =>
    { s with confirmed := insert leaf s.confirmed, pending := s.pending.erase leaf }
  | .reset author staged =>
    { s with
      generation := s.generation + 1
      epoch := 1
      authenticator := none
      confirmed := {author}
      pending := staged
      owed := staged
      spent := 0 }
  | .send _ _ => { s with spent := s.spent + 1 }
  | .idle => s

variable {own : L → I} {ceiling : ℕ} {s t : State L A} {a : Action L A}
  {tr : List (Transition (State L A) (Action L A))}

def Step (own : L → I) (ceiling : ℕ) (s : State L A) (a : Action L A) (t : State L A) : Prop :=
  Enabled own ceiling s a ∧ t = next s a

theorem mem_founders {c : Commit L A} {l : L} :
    l ∈ founders s c ↔ s.Bootstraps ∧ l = c.author := by
  unfold founders
  split_ifs with h <;> simp [h]

/-- A confirmed leaf leaves by a commit that removes it, under the removal rule, or by a
reset. -/
theorem confirmed_lost {l : L} (h : Step own ceiling s a t) (hl : l ∈ s.confirmed)
    (hlost : l ∉ t.confirmed) :
    (∃ c, a = .commit c ∧ l ∈ c.removes ∧ (l ∈ c.excused ∨ own c.author = own l)) ∨
      ∃ author staged, a = .reset author staged := by
  obtain ⟨he, rfl⟩ := h
  cases a with
  | commit c =>
    have hrem : l ∈ c.removes := by
      by_contra hnot
      exact hlost (by simp [next, hl, hnot])
    exact .inl ⟨c, rfl, hrem, he.removes l hrem hl⟩
  | confirm leaf => exact absurd (by simp [next, hl]) hlost
  | reset author staged => exact .inr ⟨author, staged, rfl⟩
  | send author roster => exact absurd hl hlost
  | idle => exact absurd hl hlost

theorem leaf_lost {l : L} (h : Step own ceiling s a t) (hl : l ∈ s.leaves)
    (hlost : l ∉ t.leaves) :
    (∃ c, a = .commit c) ∨ ∃ author staged, a = .reset author staged := by
  obtain ⟨-, rfl⟩ := h
  cases a with
  | commit c => exact .inl ⟨c, rfl⟩
  | confirm leaf =>
    refine absurd ?_ hlost
    simp only [State.leaves, next, Finset.mem_union, Finset.mem_insert, Finset.mem_erase] at hl ⊢
    tauto
  | reset author staged => exact .inr ⟨author, staged, rfl⟩
  | send author roster => exact absurd hl hlost
  | idle => exact absurd hl hlost

/-! ## Completeness of a reset -/

/-- A commit out of a complete state keeps it complete exactly when every leaf it removes
is not owed, or is excused, or founds the group by this very commit. -/
theorem complete_commit_iff {c : Commit L A} (hs : s.Complete) :
    (next s (.commit c)).Complete ↔
      ∀ l ∈ c.removes, l ∈ s.owed → l ∉ c.excused → s.Bootstraps ∧ l = c.author := by
  simp only [State.Complete, next, Finset.subset_iff, Finset.mem_sdiff, Finset.mem_union,
    mem_founders]
  constructor
  · intro h l hrem howed hexc
    exact (h ⟨howed, hexc⟩).resolve_left fun hl => hl.2 hrem
  · rintro h l ⟨howed, hexc⟩
    by_cases hrem : l ∈ c.removes
    · exact .inr (h l hrem howed hexc)
    · exact .inl ⟨hs howed, hrem⟩

theorem step_complete_iff (h : Step own ceiling s a t) (hs : s.Complete)
    (hreset : ∀ author staged, a ≠ .reset author staged) :
    t.Complete ↔ ∀ c, a = .commit c →
      ∀ l ∈ c.removes, l ∈ s.owed → l ∉ c.excused → s.Bootstraps ∧ l = c.author := by
  obtain ⟨-, rfl⟩ := h
  cases a with
  | commit c => simpa using complete_commit_iff hs
  | confirm leaf =>
    have hnext : (next s (.confirm leaf)).Complete := hs.trans (Finset.subset_insert _ _)
    simpa using hnext
  | reset author staged => exact absurd rfl (hreset author staged)
  | send author roster =>
    have hnext : (next s (.send author roster)).Complete := hs
    simpa using hnext
  | idle =>
    have hnext : (next s .idle).Complete := hs
    simpa using hnext

/-- A commit that drops an owed leaf of somebody in good standing leaves the reset
incomplete, unless the leaf founds the group by this very commit. -/
theorem dropped_not_complete {c : Commit L A} {l : L} (howed : l ∈ s.owed)
    (hexc : l ∉ c.excused) (hdrop : l ∉ (next s (.commit c)).confirmed) :
    ¬(next s (.commit c)).Complete :=
  fun h => hdrop (h (by simp [next, howed, hexc]))

/-- How an owed leaf is discharged: it confirms, it founds the group, or it is excused. -/
def Discharges (l : L) (s : State L A) (a : Action L A) : Prop :=
  a = .confirm l ∨ ∃ c, a = .commit c ∧ ((s.Bootstraps ∧ c.author = l) ∨ l ∈ c.excused)

theorem owes_until {l : L} (h : Step own ceiling s a t) (hs : s.Owes l) (ht : ¬t.Owes l)
    (hreset : ∀ author staged, a ≠ .reset author staged) : Discharges l s a := by
  obtain ⟨-, rfl⟩ := h
  cases a with
  | commit c =>
    refine .inr ⟨c, rfl, ?_⟩
    by_contra hnot
    obtain ⟨hfound, hexc⟩ := not_or.mp hnot
    refine ht ⟨by simp [next, hs.1, hexc], ?_⟩
    simp only [next, Finset.mem_union, Finset.mem_sdiff, mem_founders]
    rintro (hmem | ⟨hboot, rfl⟩)
    · exact hs.2 hmem.1
    · exact hfound ⟨hboot, rfl⟩
  | confirm leaf =>
    have hleaf : l = leaf := by
      by_contra hne
      exact ht ⟨hs.1, by simp [next, hs.2, hne]⟩
    exact .inl (by rw [hleaf])
  | reset author staged => exact absurd rfl (hreset author staged)
  | send author roster => exact absurd hs ht
  | idle => exact absurd hs ht

theorem discharged {l : L} (h : Execution (Step own ceiling) s tr t) (hs : s.Owes l)
    (hreset : ∀ x ∈ tr, ∀ author staged, x.event ≠ .reset author staged) (ht : t.Complete) :
    ∃ x ∈ tr, Discharges l x.pre x.event := by
  rcases h.persists (fun u => u.Owes l) hs with hend | ⟨x, hx, hpre, hpost⟩
  · exact absurd (ht hend.1) hend.2
  · exact ⟨x, hx, owes_until (h.step_of_mem hx) hpre hpost (hreset x hx)⟩

theorem generation_of_no_reset (h : Step own ceiling s a t)
    (hreset : ∀ author staged, a ≠ .reset author staged) : t.generation = s.generation := by
  obtain ⟨-, rfl⟩ := h
  cases a with
  | reset author staged => exact absurd rfl (hreset author staged)
  | _ => rfl

/-- A generation that a run has entered was opened by a reset, with none after it. -/
theorem last_reset (h : Execution (Step own ceiling) s tr t) (hgen : s.generation < t.generation) :
    ∃ a r b author staged, tr = a ++ r :: b ∧ r.event = .reset author staged ∧
      (∀ x ∈ b, ∀ author staged, x.event ≠ .reset author staged) ∧
      r.post.generation = t.generation := by
  induction h with
  | nil => exact absurd hgen (Nat.lt_irrefl _)
  | @snoc t u act tr _ hstep ih =>
    by_cases hact : ∃ author staged, act = .reset author staged
    · obtain ⟨author, staged, rfl⟩ := hact
      exact ⟨tr, ⟨t, .reset author staged, u⟩, [], author, staged, rfl, rfl, by simp, rfl⟩
    · -- The last step stays in its generation, which the run before it has opened.
      simp only [not_exists] at hact
      have hsame := generation_of_no_reset hstep hact
      rw [hsame] at hgen
      obtain ⟨a, r, b, author, staged, rfl, hr, hb, hpost⟩ := ih hgen
      refine ⟨a, r, b ++ [⟨t, act, u⟩], author, staged, by simp, hr, ?_, hpost.trans hsame.symm⟩
      simp only [List.forall_mem_append, List.forall_mem_singleton]
      exact ⟨hb, hact⟩

/-- Between the reset that staged a leaf and a complete state without another reset, the leaf
is discharged. -/
theorem staged_discharged {a b : List (Transition (State L A) (Action L A))}
    {r : Transition (State L A) (Action L A)} {author : L} {staged : Finset L}
    (h : Execution (Step own ceiling) s (a ++ r :: b) t) (hr : r.event = .reset author staged)
    (hreset : ∀ x ∈ b, ∀ author staged, x.event ≠ .reset author staged) (ht : t.Complete) {l : L}
    (hl : l ∈ staged) : ∃ x ∈ b, Discharges l x.pre x.event := by
  obtain ⟨-, ⟨henabled, hpost⟩, hrun⟩ := h.split_at
  rw [hr] at henabled hpost
  refine discharged hrun ?_ hreset ht
  rw [hpost]
  refine ⟨hl, fun hauthor => henabled ?_⟩
  rwa [← Finset.mem_singleton.mp hauthor]

def commitIn (n : ℕ) (x : Transition (State L A) (Action L A)) : Option (Commit L A) :=
  match x.event with
  | .commit c => if c.generation = n then some c else none
  | _ => none

def commitsOf (n : ℕ) (tr : List (Transition (State L A) (Action L A))) : List (Commit L A) :=
  tr.filterMap (commitIn n)

def firstEpoch (n : ℕ) : ℕ := if n = 0 then 0 else 1

/-- One commit an epoch, each linked to the one before it. -/
structure Chained (n : ℕ) (l : List (Commit L A)) : Prop where
  epochs : l.map Commit.epoch = List.range' (firstEpoch n) l.length
  links : l.IsChain fun c d => d.prev = c.post

omit [DecidableEq L] in
theorem Chained.append {n : ℕ} {l : List (Commit L A)} {c : Commit L A} (h : Chained n l)
    (hepoch : c.epoch = firstEpoch n + l.length)
    (hlink : ∀ a ∈ l.getLast?.map Commit.post, c.prev = a) : Chained n (l ++ [c]) where
  epochs := by
    rw [List.map_append, h.epochs, List.length_append, List.length_singleton,
      List.range'_1_concat, List.map_singleton, hepoch]
  links := by
    refine List.isChain_append.mpr ⟨h.links, List.isChain_singleton _, fun d hd b hb => ?_⟩
    obtain rfl : c = b := by simpa using hb
    exact hlink _ (Option.mem_map_of_mem _ hd)

/-- What a run from the initial state has built of every generation. -/
structure ChainInvariant (tr : List (Transition (State L A) (Action L A))) (t : State L A) :
    Prop where
  chained : ∀ n, Chained n (commitsOf n tr)
  future : ∀ n > t.generation, commitsOf n tr = []
  epoch : t.epoch = firstEpoch t.generation + (commitsOf t.generation tr).length
  authenticator : t.authenticator = (commitsOf t.generation tr).getLast?.map Commit.post

omit [DecidableEq L] in
theorem commitsOf_snoc (n : ℕ) (x : Transition (State L A) (Action L A)) :
    commitsOf n (tr ++ [x]) = commitsOf n tr ++ (commitIn n x).toList := by
  cases h : commitIn n x <;> simp [commitsOf, h]

omit [DecidableEq L] in
theorem ChainInvariant.idle (h : ChainInvariant tr s) (hgen : t.generation = s.generation)
    (hepoch : t.epoch = s.epoch) (hauth : t.authenticator = s.authenticator)
    (ha : ∀ n, commitIn n ⟨s, a, t⟩ = none) : ChainInvariant (tr ++ [⟨s, a, t⟩]) t := by
  have hsame (n : ℕ) : commitsOf n (tr ++ [⟨s, a, t⟩]) = commitsOf n tr := by
    simp [commitsOf_snoc, ha n]
  constructor <;> simp only [hsame, hgen, hepoch, hauth]
  exacts [h.chained, h.future, h.epoch, h.authenticator]

theorem step_preserves_chain (h : ChainInvariant tr s) (hstep : Step own ceiling s a t) :
    ChainInvariant (tr ++ [⟨s, a, t⟩]) t := by
  obtain ⟨he, rfl⟩ := hstep
  cases a with
  | commit c =>
    -- Only the list of the current generation grows.
    have hlist (n : ℕ) : commitsOf n (tr ++ [⟨s, .commit c, next s (.commit c)⟩]) =
        commitsOf n tr ++ if s.generation = n then [c] else [] := by
      simp only [commitsOf_snoc, commitIn, he.generation]
      split_ifs <;> rfl
    constructor <;> simp only [hlist]
    · intro n
      split_ifs with hn
      · subst hn
        exact (h.chained _).append (he.epoch.trans h.epoch) (h.authenticator ▸ he.chain)
      · simpa using h.chained n
    · intro n hn
      have hne : s.generation ≠ n := Nat.ne_of_lt hn
      simpa [hne] using h.future n hn
    · simp only [next, if_true, he.epoch, h.epoch, List.length_append, List.length_singleton]
      omega
    · simp [next]
  | confirm leaf => exact h.idle rfl rfl rfl fun _ => rfl
  | reset author staged =>
    -- The generation that opens has no commits in the run so far.
    have hlist (n : ℕ) : commitsOf n (tr ++ [⟨s, .reset author staged,
        next s (.reset author staged)⟩]) = commitsOf n tr := by
      simp [commitsOf_snoc, commitIn]
    have hnew : commitsOf (s.generation + 1) tr = [] := h.future _ (Nat.lt_succ_self _)
    constructor <;> simp only [hlist]
    · exact h.chained
    · exact fun n hn => h.future n (Nat.lt_of_succ_lt hn)
    · simp [next, hnew, firstEpoch]
    · simp [next, hnew]
  | send author roster => exact h.idle rfl rfl rfl fun _ => rfl
  | idle => exact h.idle rfl rfl rfl fun _ => rfl

theorem chainInvariant (h : Execution (Step own ceiling) initial tr t) :
    ChainInvariant tr t := by
  generalize hs : (initial : State L A) = s at h
  induction h with
  | nil =>
    subst hs
    exact ⟨fun n => ⟨by simp [commitsOf], by simp [commitsOf]⟩, fun _ _ => rfl, rfl, rfl⟩
  | snoc _ hstep ih => exact step_preserves_chain ih hstep

/-! ## The budget of a key -/

def isSend : Action L A → Bool
  | .send _ _ => true
  | _ => false

/-- A message spends one unit below the ceiling; what commits and resets nothing spends
nothing. -/
theorem spent_step (h : Step own ceiling s a t) (hcommit : ∀ c, a ≠ .commit c)
    (hreset : ∀ author staged, a ≠ .reset author staged) :
    (isSend a = true → s.spent < ceiling ∧ t.spent = s.spent + 1) ∧
      (isSend a = false → t.spent = s.spent) := by
  obtain ⟨he, rfl⟩ := h
  cases a with
  | commit c => exact absurd rfl (hcommit c)
  | reset author staged => exact absurd rfl (hreset author staged)
  | confirm leaf => simp [next, isSend]
  | idle => simp [next, isSend]
  | send author roster => simp [next, isSend, he.2.2.1]

/-- Between two commits or resets at most `ceiling` messages are sent. -/
theorem sends_le (h : Execution (Step own ceiling) s tr t)
    (hcommit : ∀ x ∈ tr, ∀ c, x.event ≠ .commit c)
    (hreset : ∀ x ∈ tr, ∀ author staged, x.event ≠ .reset author staged) :
    tr.countP (fun x => isSend x.event) ≤ ceiling := by
  have hspend (x : Transition (State L A) (Action L A)) (hx : x ∈ tr) :=
    spent_step (h.step_of_mem hx) (hcommit x hx) (hreset x hx)
  obtain ⟨hspent, hle⟩ := h.countP_le State.spent (I := fun _ => True) trivial
    (fun _ _ _ _ _ => trivial) (fun x hx _ => (hspend x hx).1) (fun x hx _ => (hspend x hx).2)
  by_cases hzero : tr.countP (fun x => isSend x.event) = 0
  · omega
  · have := hle hzero
    omega

end KeyGroup
