import Farder.GroupStep
import Farder.SampleLog

/-! # Turns at committing

Between two commits of one identity others have their turn, unless there is nobody else or the
commit is called for. The gap that the rule asks for is the number of identities in the tree, up to
a limit, so that whoever waits for everybody else has waited long enough. -/
namespace CommitTurns

open EventLog EventLog.LogState Guarded

variable {K : Crypto} {g₀ : Genesis} {s t : LogState} {e : Event} {c n : ℕ} {a pk : PublicKey}
  {tr b : List (Transition LogState Event)} {x y : Transition LogState Event}
  {g g' : MlsGroupRecord}

/-- The author of the event, if it is an applied commit of the channel and generation. -/
def turn (c n : ℕ) (x : Transition LogState Event) : Option PublicKey :=
  (x.pre.appliedCommit c x.event).bind fun p =>
    if p.generation = n then some x.event.core.author else none

/-- Who has committed in the generation, in the order of the log. -/
def turns (c n : ℕ) (tr : List (Transition LogState Event)) : List PublicKey :=
  tr.filterMap (turn c n)

def sealedEvents (c : ℕ) (tr : List (Transition LogState Event)) : ℕ :=
  tr.countP fun x => decide (x.event.SealedIn c)

def NoOtherHolder (s : LogState) (c : ℕ) (pk : PublicKey) : Prop :=
  ∀ leaf ∈ s.leavesConfirmed c, leaf.1 = pk

theorem turn_eq_some : turn c n x = some pk ↔ ∃ p, x.pre.appliedCommit c x.event = some p ∧
    p.generation = n ∧ x.event.core.author = pk := by
  simp [turn, Option.bind_eq_some_iff]

theorem turn_eq_none (h : x.pre.appliedCommit c x.event = none) : turn c n x = none := by
  simp [turn, h]

theorem turns_snoc : turns c n (tr ++ [x]) = turns c n tr ++ (turn c n x).toList := by
  rw [turns, List.filterMap_append]
  cases hx : turn c n x <;> simp [turns, hx]

theorem sealedEvents_snoc : sealedEvents c (tr ++ [x]) =
    sealedEvents c tr + if x.event.SealedIn c then 1 else 0 := by
  simp [sealedEvents, List.countP_append, List.countP_singleton]

/-! ## Two turns in a row -/

/-- The group is in a later generation, or its last commit is one of `pk`'s, and so many sealed
events have come since. -/
def LastIs (c n : ℕ) (pk : PublicKey) (since : ℕ) (s : LogState) : Prop :=
  ∃ g, s.mlsGroups.lookup c = some g ∧ (n < g.generation ∨ g.generation = n ∧
    (∃ last, g.lastCommitEpochByAuthor.lookup pk = some last ∧ last + 1 = g.epoch) ∧
    g.eventsSinceLastCommit ≤ since)

theorem turn_of_commit {p : MlsCommit} (hp : s.appliedCommit c e = some p)
    (hcommit : CommitAuthorized s e p g) (hgen : g.generation = n) :
    turn c n ⟨s, e, t⟩ = some e.core.author :=
  turn_eq_some.mpr ⟨p, hp, hcommit.generation.trans hgen, rfl⟩

theorem lastIs_commit {p : MlsCommit} {since : ℕ}
    (h : Step K s e t) (hp : s.appliedCommit c e = some p) (hgen : p.generation = n)
    (hpk : e.core.author = pk) : LastIs c n pk since t := by
  obtain ⟨hpayload, hc, hv⟩ := appliedCommit_eq_some.mp hp
  obtain ⟨key, m, -, heff, rfl⟩ := apply_cases h
  cases heff with
  | mlsCommit q g hq hg hcommit =>
    obtain rfl : q = p := EventPayload.mlsCommit.inj (hq.symm.trans hpayload)
    subst hc hpk
    refine ⟨_, Finmap.lookup_insert _, .inr ⟨hcommit.generation.symm.trans hgen, ?_, Nat.zero_le _⟩⟩
    exact ⟨q.epoch, Finmap.lookup_insert _, rfl⟩
  | staleCommit q g hq hg hstale hepoch =>
    obtain rfl : q = p := EventPayload.mlsCommit.inj (hq.symm.trans hpayload)
    have hverdict : s.checkPayloadAuthz e = .ok .staleCommitNoOp := by
      simpa only [checkPayloadAuthz, hq] using
        checkMlsCommit_eq_ok.mpr ⟨g, hg, .inr ⟨rfl, hstale, hepoch⟩⟩
    cases hverdict.symm.trans hv
  | _ => simp_all

/-- One event: unless another identity commits, the last commit remains one of `pk`'s. -/
theorem lastIs_step {since : ℕ} {owner : PublicKey} (hs : Invariant owner s) (h : Step K s e t)
    (hlast : LastIs c n pk since s) (hturn : ∀ a, turn c n ⟨s, e, t⟩ = some a → a = pk) :
    LastIs c n pk (since + if e.SealedIn c then 1 else 0) t := by
  obtain ⟨g, hg, hcases⟩ := hlast
  obtain ⟨g', hg', heff⟩ := group_step hs h hg
  refine ⟨g', hg', ?_⟩
  rcases hcases with hlater | ⟨hgen, ⟨last, hlookup, hepoch⟩, hsince⟩
  · refine .inl ?_
    cases heff with
    | reset p hp hreset =>
      have hnext := hreset.generation
      show n < p.newGeneration
      omega
    | _ => exact hlater
  cases heff with
  | commit p hp hcommit =>
    have hpk := hturn _ (turn_of_commit hp hcommit hgen)
    refine .inr ⟨hgen, ⟨p.epoch, ?_, rfl⟩, Nat.zero_le _⟩
    show (g.lastCommitEpochByAuthor.insert e.core.author p.epoch).lookup pk = _
    rw [hpk]
    exact Finmap.lookup_insert _
  | reset p hp hreset =>
    refine .inl ?_
    have hnext := hreset.generation
    show n < p.newGeneration
    omega
  | sealed k j hsealed =>
    have hin : e.SealedIn c := by simp [Event.SealedIn, hsealed]
    refine .inr ⟨hgen, ⟨last, hlookup, hepoch⟩, ?_⟩
    rw [if_pos hin]
    show min (g.eventsSinceLastCommit + 1) (2 ^ 32 - 1) ≤ since + 1
    omega
  | _ => exact .inr ⟨hgen, ⟨last, hlookup, hepoch⟩, hsince.trans (Nat.le_add_right _ _)⟩

theorem lastIs_run {owner : PublicKey} (hs : Invariant owner s)
    (h : Execution (Step K) s b t) (hlast : LastIs c n pk 0 s) (hturns : ∀ a ∈ turns c n b, a = pk) :
    LastIs c n pk (sealedEvents c b) t := by
  induction h with
  | nil => exact hlast
  | @snoc t u e tr htr hstep ih =>
    rw [turns_snoc] at hturns
    have ht := htr.invariant hs fun _ _ _ => step_preserves_invariant
    have hmid := ih fun a ha => hturns a (List.mem_append_left _ ha)
    rw [sealedEvents_snoc]
    exact lastIs_step ht hstep hmid fun a ha =>
      hturns a (List.mem_append_right _ (by simp [ha]))

theorem commitAuthorized_of_applied {p : MlsCommit} (hp : s.appliedCommit c e = some p) :
    ∃ g, s.mlsGroups.lookup c = some g ∧ CommitAuthorized s e p g := by
  obtain ⟨hpayload, rfl, hv⟩ := appliedCommit_eq_some.mp hp
  simp only [checkPayloadAuthz, hpayload] at hv
  obtain ⟨g, hg, ⟨-, hcommit⟩ | ⟨hstale, -⟩⟩ := checkMlsCommit_eq_ok.mp hv
  · exact ⟨g, hg, hcommit⟩
  · cases hstale

theorem excused_of_lastIs {since : ℕ} {p : MlsCommit} (hlast : LastIs c n pk since s)
    (hg : s.mlsGroups.lookup c = some g) (hcommit : CommitAuthorized s e p g)
    (hgen : p.generation = n) (hpk : e.core.author = pk) :
    s.CommitDischargesDrift e ∨
      freshnessCeilingEvents - commitRateCeilingGraceEvents ≤ since ∨ NoOtherHolder s c pk := by
  obtain ⟨g', hg', hcases⟩ := hlast
  obtain rfl : g = g' := Option.some.inj (hg.symm.trans hg')
  rcases hcases with hlater | ⟨-, ⟨last, hlookup, hepoch⟩, hsince⟩
  · have hsame := hcommit.generation
    omega
  rcases hcommit.rate with hdrift | hceiling | hpace
  · exact .inl hdrift
  · refine .inr (.inl ?_)
    simp only [MlsGroupRecord.CeilingDemandsRekey, saturatingAdd, freshnessCeilingEvents,
      commitRateCeilingGraceEvents] at hceiling ⊢
    omega
  · refine .inr (.inr ?_)
    -- The gap is one: at most one identity holds a leaf, and the author holds one if anybody does.
    have hgap := hpace last (hpk ▸ hlookup)
    have hcurrent := hcommit.epoch
    simp only [MlsGroupRecord.commitRateGap, commitRateMinEpochGap] at hgap
    have hcard : (g.leavesConfirmed.image Prod.fst).card ≤ 1 := by
      change last + min 4 (max (g.leavesConfirmed.image Prod.fst).card 1) ≤ p.epoch at hgap
      omega
    intro leaf hleaf
    simp only [leavesConfirmed, hg, Option.map_some, Option.getD_some] at hleaf
    have hauthor := hcommit.confirmed (Finset.ne_empty_of_mem hleaf)
    rw [← hpk]
    exact Finset.card_le_one.mp hcard _ (Finset.mem_image_of_mem _ hleaf) _
      (Finset.mem_image_of_mem _ hauthor)

/-- The last turn of `a` is so many turns back as the epochs say. -/
def Placed (c : ℕ) (tr : List (Transition LogState Event)) (g : MlsGroupRecord) : Prop :=
  ∀ a last, g.lastCommitEpochByAuthor.lookup a = some last →
    ∃ u v, turns c g.generation tr = u ++ a :: v ∧ a ∉ v ∧ last + 1 + v.length = g.epoch

theorem Placed.of_eq (h : Placed c tr g) (hturn : turn c g.generation x = none)
    (hgen : g'.generation = g.generation) (hepoch : g'.epoch = g.epoch)
    (hlast : g'.lastCommitEpochByAuthor = g.lastCommitEpochByAuthor) :
    Placed c (tr ++ [x]) g' := by
  intro a last ha
  rw [hgen, hepoch, turns_snoc, hturn, Option.toList_none, List.append_nil]
  exact h a last (hlast ▸ ha)

theorem placed_step (heff : GroupEffect K s e c g g') (h : Placed c tr g) :
    Placed c (tr ++ [⟨s, e, t⟩]) g' := by
  cases heff with
  | other hcommit => exact h.of_eq (turn_eq_none hcommit) rfl rfl rfl
  | commit p hp hcommit =>
    intro a last ha
    have hturn : turn c g.generation ⟨s, e, t⟩ = some e.core.author :=
      turn_of_commit hp hcommit rfl
    change (g.lastCommitEpochByAuthor.insert e.core.author p.epoch).lookup a = some last at ha
    show ∃ u v, turns c g.generation (tr ++ [⟨s, e, t⟩]) = u ++ a :: v ∧ a ∉ v ∧
      last + 1 + v.length = p.epoch + 1
    rw [turns_snoc, hturn, Option.toList_some]
    rw [FiniteMap.lookup_insert_eq] at ha
    by_cases hauthor : a = e.core.author
    · rw [if_pos hauthor] at ha
      obtain rfl := Option.some.inj ha
      exact ⟨turns c g.generation tr, [], by rw [hauthor], List.not_mem_nil, rfl⟩
    · rw [if_neg hauthor] at ha
      obtain ⟨u, v, hturns, hnot, hepoch⟩ := h a last ha
      refine ⟨u, v ++ [e.core.author], by rw [hturns]; simp, ?_, ?_⟩
      · simp [hnot, hauthor]
      · have hcurrent := hcommit.epoch
        rw [List.length_append, List.length_singleton]
        omega
  | reset p hp hreset =>
    intro a last ha
    exact absurd ha (by simp [MlsGroupRecord.applyReset])
  | welcome p hp hc =>
    exact h.of_eq (turn_eq_none (by simp [appliedCommit, hp])) rfl rfl rfl
  | confirm p hp hc =>
    exact h.of_eq (turn_eq_none (by simp [appliedCommit, hp])) rfl rfl rfl
  | tombstone p hp hc =>
    exact h.of_eq (turn_eq_none (by simp [appliedCommit, hp])) rfl rfl rfl
  | sealed k j hsealed =>
    refine h.of_eq (turn_eq_none ?_) rfl rfl rfl
    cases hp : e.core.payload <;> simp_all [appliedCommit, Event.sealedAs]

theorem placed_run (h : Run K g₀ tr s) : ∀ c g, s.mlsGroups.lookup c = some g → Placed c tr g := by
  induction h with
  | nil => simp [fromGenesis]
  | @snoc s t e tr htr hstep ih =>
    intro c g' hg'
    have hs := reachable_invariant ⟨tr, htr⟩
    cases hg : s.mlsGroups.lookup c with
    | none =>
      obtain ⟨key, m, -, heff, rfl⟩ := apply_cases hstep
      obtain rfl := heff.group_new hg' hg
      intro a last ha
      exact absurd ha (by simp [MlsGroupRecord.new])
    | some g =>
      obtain ⟨g'', hg'', heff⟩ := group_step hs hstep hg
      obtain rfl := Option.some.inj (hg''.symm.trans hg')
      exact placed_step heff (ih c g hg)

/-- Since the last turn of `a` everybody else has had one. -/
def InTurn (members : Finset PublicKey) (taken : List PublicKey) (a : PublicKey) : Prop :=
  ∀ u v, taken = u ++ a :: v → a ∉ v → ∀ pk ∈ members, pk ≠ a → pk ∈ v

theorem pace_of_inTurn (h : Placed c tr g)
    (hturn : InTurn (g.leavesConfirmed.image Prod.fst) (turns c g.generation tr) a) :
    ∀ last ∈ g.lastCommitEpochByAuthor.lookup a, last + g.commitRateGap ≤ g.epoch := by
  intro last hlast
  obtain ⟨u, v, hturns, hnot, hepoch⟩ := h a last hlast
  have hothers : (g.leavesConfirmed.image Prod.fst).erase a ⊆ v.toFinset := by
    intro pk hpk
    obtain ⟨hne, hmem⟩ := Finset.mem_erase.mp hpk
    exact List.mem_toFinset.mpr (hturn u v hturns hnot pk hmem hne)
  have hcard := (Finset.card_le_card hothers).trans v.toFinset_card_le
  have herase := Finset.pred_card_le_card_erase (s := g.leavesConfirmed.image Prod.fst) (a := a)
  have hgap : g.commitRateGap ≤ max (g.leavesConfirmed.image Prod.fst).card 1 := min_le_right _ _
  omega

/-- Before the turn of `a` the turns have gone round in a fixed order: after others that came
before, the rest of a round, whole rounds, and the present round up to `a`. Whoever had a turn before
they began to go round has had one since. -/
def RoundRobin (order taken : List PublicKey) (a : PublicKey) : Prop :=
  ∃ old rest rounds before after, order = before ++ a :: after ∧ rest <:+ order ∧
    taken = old ++ (rest ++ (List.replicate rounds order).flatten ++ before) ∧
    (a ∈ old → a ∈ rest ++ (List.replicate rounds order).flatten)

theorem append_cons_inj {α : Type} {u v u' v' : List α} {z : α} (h : u ++ z :: v = u' ++ z :: v')
    (hv : z ∉ v) (hv' : z ∉ v') : v = v' := by
  rcases List.append_eq_append_iff.mp h with ⟨w, rfl, hw⟩ | ⟨w, rfl, hw⟩
  · cases w with
    | nil => exact (List.cons.inj hw).2
    | cons z' w =>
      obtain ⟨rfl, hrest⟩ := List.cons.inj hw
      exact absurd (hrest ▸ List.mem_append_right w List.mem_cons_self) hv
  · cases w with
    | nil => exact (List.cons.inj hw).2.symm
    | cons z' w =>
      obtain ⟨rfl, hrest⟩ := List.cons.inj hw
      exact absurd (hrest ▸ List.mem_append_right w List.mem_cons_self) hv'

theorem inTurn_of_roundRobin {order taken : List PublicKey} (hnodup : order.Nodup)
    (h : RoundRobin order taken a) : InTurn order.toFinset taken a := by
  obtain ⟨old, rest, rounds, before, after, rfl, hrest, rfl, hold⟩ := h
  obtain ⟨hbefore, hcons, hdisjoint⟩ := List.nodup_append.mp hnodup
  have hnotBefore : a ∉ before := fun ha => hdisjoint a ha a List.mem_cons_self rfl
  have hnotAfter : a ∉ after := (List.nodup_cons.mp hcons).1
  -- The last turn of `a` closes with those after it in the order, and those before it.
  have hlast : a ∈ rest ++ (List.replicate rounds (before ++ a :: after)).flatten →
      ∃ w, old ++ (rest ++ (List.replicate rounds (before ++ a :: after)).flatten ++ before) =
        w ++ a :: (after ++ before) := by
    intro ha
    cases rounds with
    | zero =>
      obtain ⟨front, hfront⟩ := hrest
      rw [List.replicate_zero, List.flatten_nil, List.append_nil] at ha ⊢
      obtain ⟨p, q, rfl⟩ := List.append_of_mem ha
      have hq : q = after := by
        have hsplit : (front ++ p) ++ a :: q = before ++ a :: after := by
          rw [← hfront, List.append_assoc]
        refine append_cons_inj hsplit (fun hq => ?_) hnotAfter
        rw [← hsplit] at hnodup
        exact (List.nodup_cons.mp (List.nodup_append.mp hnodup).2.1).1 hq
      exact ⟨old ++ p, by simp [hq]⟩
    | succ k =>
      refine ⟨old ++ rest ++ (List.replicate k (before ++ a :: after)).flatten ++ before, ?_⟩
      rw [List.replicate_succ', List.flatten_append]
      simp
  intro u v hsplit hnot pk hpk hne
  have hturn : a ∈ rest ++ (List.replicate rounds (before ++ a :: after)).flatten := by
    by_contra hno
    have hmem : a ∈ old ++ (rest ++ (List.replicate rounds (before ++ a :: after)).flatten ++
        before) := hsplit ▸ List.mem_append_right u List.mem_cons_self
    rcases List.mem_append.mp hmem with ha | ha
    · exact hno (hold ha)
    · rcases List.mem_append.mp ha with ha | ha
      · exact hno ha
      · exact hnotBefore ha
  obtain ⟨w, hw⟩ := hlast hturn
  have hv : v = after ++ before := by
    refine append_cons_inj (hsplit.symm.trans hw) hnot ?_
    simp [hnotAfter, hnotBefore]
  rw [hv]
  simp only [List.mem_toFinset, List.mem_append, List.mem_cons] at hpk ⊢
  rcases hpk with hpk | hpk | hpk
  · exact .inr hpk
  · exact absurd hpk hne
  · exact .inl hpk

/-- The rules for a commit of the current epoch, but for the one about the rate. -/
def checkOtherRules (s : LogState) (e : Event) (p : MlsCommit) (group : MlsGroupRecord) :
    Checked Authorized := do
  s.checkInstancePin e.core.device p.storeInstanceHash
  ensure (s.IsFullMember e.core.author) "only full members may author MLS commits"
  s.checkCommitAuthor e p group
  ensureIfSome group.epochAuthenticator (fun expected => p.prevEpochAuthenticator = expected)
    "commit does not chain onto the previous commit's declared authenticator"
  forAll p.adds (s.checkDeclaredAdd e group)
  forAll p.removes (s.checkDeclaredRemove e group)
  return .apply

theorem checkCurrentCommit_of_inTurn (h : Placed c tr g)
    (hturn : InTurn (g.leavesConfirmed.image Prod.fst) (turns c g.generation tr) e.core.author)
    {p : MlsCommit} (hepoch : p.epoch = g.epoch) :
    s.checkCurrentCommit e p g = checkOtherRules s e p g := by
  have hpace := pace_of_inTurn h hturn
  rw [← hepoch] at hpace
  simp only [checkCurrentCommit, checkOtherRules, ensure, if_pos (Or.inr (Or.inr hpace))]
  rfl

/-! ## Commits in turn -/

def CommitBy (c n : ℕ) (pk : PublicKey) (x : Transition LogState Event) : Prop :=
  turn c n x = some pk

/-- Between two commits of one identity another one has committed, or the second commit was called
for, by a difference between the tree and the members or by the sealed events since, or nobody else
holds a confirmed leaf; and whoever comes in turn, as when the confirmed identities go round, is not
refused by the rate rule. -/
theorem turns_alternate (h : Run K g₀ tr s) (c : ℕ) :
    (∀ n pk before x between y after, tr = before ++ x :: (between ++ y :: after) →
      CommitBy c n pk x → CommitBy c n pk y → (∀ z ∈ between, ∀ a, CommitBy c n a z → a = pk) →
        y.pre.CommitDischargesDrift y.event ∨
          freshnessCeilingEvents - commitRateCeilingGraceEvents ≤ sealedEvents c between ∨
          NoOtherHolder y.pre c pk) ∧
    (∀ group a, s.mlsGroups.lookup c = some group →
      (InTurn (group.leavesConfirmed.image Prod.fst) (turns c group.generation tr) a ∨
        ∃ order : List PublicKey, order.Nodup ∧
          order.toFinset = group.leavesConfirmed.image Prod.fst ∧
          RoundRobin order (turns c group.generation tr) a) →
      ∀ e p, e.core.author = a → p.epoch = group.epoch →
        s.checkCurrentCommit e p group = checkOtherRules s e p group) := by
  constructor
  · rintro n pk before x between y after rfl hx hy hbetween
    obtain ⟨hpre, hstep, hrest⟩ := h.split_at
    obtain ⟨hmid, hsecond, -⟩ := hrest.split_at
    have hinv := reachable_invariant ⟨before, hpre⟩
    obtain ⟨p, hp, hgen, hauthor⟩ := turn_eq_some.mp hx
    have hstart : LastIs c n pk 0 x.post := lastIs_commit hstep hp hgen hauthor
    have hlast := lastIs_run (step_preserves_invariant hinv hstep) hmid hstart fun a ha => by
      obtain ⟨z, hz, hturn⟩ := List.mem_filterMap.mp ha
      exact hbetween z hz a hturn
    obtain ⟨q, hq, hqgen, hqauthor⟩ := turn_eq_some.mp hy
    obtain ⟨g, hg, hcommit⟩ := commitAuthorized_of_applied hq
    exact excused_of_lastIs hlast hg hcommit hqgen hqauthor
  · rintro group a hg hturn e p rfl hepoch
    refine checkCurrentCommit_of_inTurn (placed_run h c group hg) ?_ hepoch
    rcases hturn with hturn | ⟨order, hnodup, horder, hround⟩
    · exact hturn
    · exact horder ▸ inTurn_of_roundRobin hnodup hround

section Sample

open SampleLog

/-- Alice is alone in her channel: she commits, takes her own leaf out, and commits again. -/
def alone : List Entry :=
  [⟨alice, a0, 1, cert alice a0 none⟩,
   ⟨alice, a0, 1, .channelCreated ⟨7, "sealed", "text", .e2ee, none⟩⟩,
   ⟨alice, a0, 2, commit 0 0 [] []⟩,
   ⟨alice, a0, 3, commit 0 1 [] [⟨key alice, device a0⟩]⟩,
   ⟨alice, a0, 4, commit 0 2 [] []⟩]

abbrev log : List (Transition LogState Event) := accepted crypto genesis (signed alone)

theorem three_lt_log : 3 < log.length := by decide +kernel
theorem four_lt_log : 4 < log.length := by decide +kernel

theorem two_turns : ∃ before x y, log = before ++ x :: ([] ++ y :: []) ∧
    CommitBy 7 0 (key alice) x ∧ CommitBy 7 0 (key alice) y ∧
    ¬y.pre.CommitDischargesDrift y.event ∧ y.pre.leavesConfirmed 7 = ∅ := by
  refine ⟨log.take 3, log.get ⟨3, three_lt_log⟩, log.get ⟨4, four_lt_log⟩, ?_, ?_⟩
  · have hend : log.drop 5 = [] := List.drop_eq_nil_of_le (by decide +kernel)
    rw [List.nil_append, ← hend, List.get_eq_getElem, List.get_eq_getElem,
      ← List.drop_eq_getElem_cons four_lt_log, ← List.drop_eq_getElem_cons three_lt_log,
      List.take_append_drop]
  · unfold CommitBy
    decide +kernel

theorem turns_alternate_alone : ∃ before x y, log = before ++ x :: ([] ++ y :: []) ∧
    CommitBy 7 0 (key alice) x ∧ CommitBy 7 0 (key alice) y ∧
    (y.pre.CommitDischargesDrift y.event ∨
      freshnessCeilingEvents - commitRateCeilingGraceEvents ≤ sealedEvents 7 [] ∨
      NoOtherHolder y.pre 7 (key alice)) := by
  obtain ⟨before, x, y, hlog, hx, hy, -⟩ := two_turns
  refine ⟨before, x, y, hlog, hx, hy, ?_⟩
  exact (turns_alternate (run_accepted (signed alone)) 7).1 0 _ before x [] y [] hlog hx hy
    fun z hz => absurd hz List.not_mem_nil

/-- An identity that has taken its only leaf out of the tree commits twice in a row, and holds no leaf
itself. -/
theorem not_only_holder :
    ¬∀ (K : Crypto) (g₀ : Genesis) (tr : List (Transition LogState Event)) (s : LogState),
      Run K g₀ tr s → ∀ c n pk before x between y after,
        tr = before ++ x :: (between ++ y :: after) → CommitBy c n pk x → CommitBy c n pk y →
        (∀ z ∈ between, ∀ a, CommitBy c n a z → a = pk) →
          y.pre.CommitDischargesDrift y.event ∨
            freshnessCeilingEvents - commitRateCeilingGraceEvents ≤ sealedEvents c between ∨
            (y.pre.leavesConfirmed c).image Prod.fst = {pk} := by
  intro h
  obtain ⟨before, x, y, hlog, hx, hy, hdrift, hnone⟩ := two_turns
  rcases h crypto genesis _ _ (run_accepted (signed alone)) 7 0 (key alice) before x [] y [] hlog
    hx hy (fun z hz => absurd hz List.not_mem_nil) with hdischarge | hsealed | honly
  · exact hdrift hdischarge
  · simp [sealedEvents, freshnessCeilingEvents, commitRateCeilingGraceEvents] at hsealed
  · rw [hnone, Finset.image_empty] at honly
    exact Finset.singleton_ne_empty _ honly.symm

end Sample

end CommitTurns
