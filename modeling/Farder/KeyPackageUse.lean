import Farder.GroupRefinement
import Farder.SampleLog

/-! # KeyPackages are used once

A commit consumes the KeyPackages that its adds cite. Each add is checked against the state
before the commit, so two adds of one commit are not checked against each other; across
commits a cited KeyPackage is never live again. Over a whole run KeyPackages are used once
exactly when no applied commit adds one leaf twice. -/
namespace KeyPackageUse

open EventLog EventLog.LogState

variable {K : Crypto} {g : Genesis} {s t : LogState} {e : Event}
  {tr : List (Transition LogState Event)}

def appliedAdds (x : Transition LogState Event) : List DeclaredAdd :=
  match x.event.core.payload with
  | .mlsCommit p => if x.pre.checkPayloadAuthz x.event = .ok .apply then p.adds else []
  | _ => []

/-- Every citation of a KeyPackage by an applied commit, in the order of the log. -/
def citations (tr : List (Transition LogState Event)) : List EventRef :=
  tr.flatMap fun x => (appliedAdds x).map DeclaredAdd.keyPackage

def Publishes (K : Crypto) (e : Event) (leaf : Leaf) (r : EventRef) (exp : ℕ) : Prop :=
  ∃ p, e.core.payload = .mlsKeyPackagePublished p ∧ e.leaf = leaf ∧ e.hash K = r ∧
    p.expiresAtLogPos = exp

def CollisionFree (K : Crypto) (tr : List (Transition LogState Event)) : Prop :=
  ∀ x ∈ tr, ∀ y ∈ tr, x.event.hash K = y.event.hash K → x.event = y.event

instance (tr : List (Transition LogState Event)) : Decidable (CollisionFree K tr) :=
  inferInstanceAs (Decidable (∀ x ∈ tr, ∀ y ∈ tr, _ → _))

/-- One citation for each KeyPackage; the adds of one commit have different leaves and
KeyPackages, each published before by that very leaf and not expired. -/
structure UsedOnce (K : Crypto) (tr : List (Transition LogState Event)) : Prop where
  once : (citations tr).Nodup
  leaves : ∀ x ∈ tr, ((appliedAdds x).map DeclaredAdd.leaf).Nodup
  refs : ∀ x ∈ tr, ((appliedAdds x).map DeclaredAdd.keyPackage).Nodup
  published : ∀ a x b, tr = a ++ x :: b → ∀ add ∈ appliedAdds x,
    ∃ y ∈ a, ∃ exp, Publishes K y.event add.leaf add.keyPackage exp ∧ exp > x.pre.logPos

def DistinctLeaves (x : Transition LogState Event) : Prop :=
  ((appliedAdds x).map DeclaredAdd.leaf).Nodup

instance (x : Transition LogState Event) : Decidable (DistinctLeaves x) :=
  inferInstanceAs (Decidable (List.Nodup _))

/-! ## The store of KeyPackages -/

def Live (live : FiniteMap Leaf (FiniteMap EventRef ℕ)) (leaf : Leaf) (r : EventRef) (exp : ℕ) :
    Prop :=
  ∃ m, live.lookup leaf = some m ∧ m.lookup r = some exp

/-- The KeyPackage that an add cites is live, or it has been consumed. -/
def Known (store : KeyPackageStore) (add : DeclaredAdd) : Prop :=
  (∃ exp, Live store.live add.leaf add.keyPackage exp) ∨ add.keyPackage ∈ store.consumed

section Store

variable {store : KeyPackageStore} {adds : List DeclaredAdd} {a b : DeclaredAdd}

theorem live_of_consume {leaf : Leaf} {r : EventRef} {exp : ℕ}
    (h : Live (store.consume a).live leaf r exp) : Live store.live leaf r exp := by
  unfold KeyPackageStore.consume at h
  split at h
  · exact h
  · rename_i m hm
    split at h
    · exact h
    · obtain ⟨m', hm', hr⟩ := h
      rw [FiniteMap.lookup_insert_eq] at hm'
      split_ifs at hm' with hleaf
      · obtain rfl := Option.some.inj hm'
        rw [FiniteMap.lookup_erase_eq] at hr
        split_ifs at hr
        exact ⟨m, hleaf ▸ hm, hr⟩
      · exact ⟨m', hm', hr⟩

theorem live_of_foldl_consume {leaf : Leaf} {r : EventRef} {exp : ℕ}
    (h : Live (adds.foldl KeyPackageStore.consume store).live leaf r exp) :
    Live store.live leaf r exp := by
  induction adds generalizing store with
  | nil => exact h
  | cons a adds ih => exact live_of_consume (ih h)

theorem consumed_consume {r : EventRef} (h : r ∈ store.consumed) :
    r ∈ (store.consume a).consumed := by
  unfold KeyPackageStore.consume
  split
  · exact h
  · split
    · exact h
    · exact Finmap.mem_insert.mpr (.inr h)

theorem consume_self (h : Known store a) :
    a.keyPackage ∈ (store.consume a).consumed := by
  rcases h with ⟨exp, m, hm, hr⟩ | h
  · simp [KeyPackageStore.consume, hm, hr]
  · exact consumed_consume h

theorem known_consume (h : Known store b) : Known (store.consume a) b := by
  unfold Known
  rcases h with ⟨exp, m, hm, hr⟩ | h
  · unfold KeyPackageStore.consume
    split
    · exact .inl ⟨exp, m, hm, hr⟩
    · rename_i m' hm'
      split
      · exact .inl ⟨exp, m, hm, hr⟩
      · by_cases hleaf : b.leaf = a.leaf
        · by_cases href : b.keyPackage = a.keyPackage
          · exact .inr (by simp [href])
          · rw [hleaf, hm'] at hm
            obtain rfl := Option.some.inj hm
            exact .inl ⟨exp, m'.erase a.keyPackage, by simp [hleaf], by simp [href, hr]⟩
        · exact .inl ⟨exp, m, by simp [hleaf, hm], hr⟩
  · exact .inr (consumed_consume h)

theorem consumed_foldl_consume (h : ∀ b ∈ adds, Known store b) {r : EventRef}
    (hr : r ∈ store.consumed ∨ r ∈ adds.map DeclaredAdd.keyPackage) :
    r ∈ (adds.foldl KeyPackageStore.consume store).consumed := by
  induction adds generalizing store with
  | nil => simpa using hr
  | cons a adds ih =>
    refine ih (fun b hb => known_consume (h b (by simp [hb]))) ?_
    rcases hr with hr | hr
    · exact .inl (consumed_consume hr)
    · rcases List.mem_cons.mp hr with rfl | hr
      exacts [.inl (consume_self (h a (by simp))), .inr hr]

end Store

/-! ## What one event does to KeyPackages -/

theorem addAuthorized {x : Transition LogState Event} {add : DeclaredAdd}
    (hadd : add ∈ appliedAdds x) : ∃ g, AddAuthorized x.pre x.event g add := by
  unfold appliedAdds at hadd
  split at hadd
  · rename_i p hp
    split_ifs at hadd with hv
    · simp only [checkPayloadAuthz, hp] at hv
      obtain ⟨g, -, ⟨-, hcommit⟩ | ⟨hstale, -⟩⟩ := checkMlsCommit_eq_ok.mp hv
      · exact ⟨g, hcommit.adds add hadd⟩
      · cases hstale
    · cases hadd
  · cases hadd

theorem live_of_addAuthorized {group : MlsGroupRecord} {add : DeclaredAdd}
    (h : AddAuthorized s e group add) :
    ∃ exp, Live s.keyPackages add.leaf add.keyPackage exp ∧ exp > s.logPos := by
  obtain ⟨m, hm, exp, hr, hexp⟩ := h.key_package
  exact ⟨exp, ⟨m, hm, hr⟩, hexp⟩

theorem live_step {leaf : Leaf} {r : EventRef} {exp : ℕ} (h : Step K s e t)
    (hlive : Live t.keyPackages leaf r exp) :
    Live s.keyPackages leaf r exp ∨ Publishes K e leaf r exp := by
  obtain ⟨key, m, -, heff, rfl⟩ := apply_cases h
  cases heff with
  | mlsKeyPackagePublished p hp =>
    obtain ⟨m, hm, hr⟩ := hlive
    change ((s.keyPackages.insert e.leaf _).lookup leaf) = some m at hm
    rw [FiniteMap.lookup_insert_eq] at hm
    split_ifs at hm with hleaf
    · obtain rfl := Option.some.inj hm
      rw [FiniteMap.lookup_insert_eq] at hr
      split_ifs at hr with hhash
      · exact .inr ⟨p, hp, hleaf.symm, hhash.symm, Option.some.inj hr⟩
      · have hold := ((FiniteMap.lookup_retain_eq_some _ _ _ _).mp hr).1
        change ((s.keyPackages.lookup e.leaf).getD ∅).lookup r = some exp at hold
        cases hs : s.keyPackages.lookup e.leaf with
        | none => simp [hs] at hold
        | some m => exact .inl ⟨m, hleaf ▸ hs, by simpa [hs] using hold⟩
    · exact .inl ⟨m, hm, hr⟩
  | mlsCommit p group hp hg =>
    have hfold : Live (p.adds.foldl KeyPackageStore.consume
      ⟨s.keyPackages, s.consumedKeyPackages⟩).live leaf r exp := hlive
    exact .inl (live_of_foldl_consume hfold)
  | _ => exact .inl hlive

/-- Whatever is consumed stays so, and the adds of an applied commit are consumed. -/
theorem consumed_step {r : EventRef} (h : Step K s e t)
    (hr : r ∈ s.consumedKeyPackages ∨ r ∈ (appliedAdds ⟨s, e, t⟩).map DeclaredAdd.keyPackage) :
    r ∈ t.consumedKeyPackages := by
  obtain ⟨key, m, -, heff, rfl⟩ := apply_cases h
  cases heff with
  | mlsCommit p group hp hg hcommit =>
    have hadds : r ∈ s.consumedKeyPackages ∨ r ∈ p.adds.map DeclaredAdd.keyPackage := by
      refine hr.imp_right fun hr => ?_
      simp only [appliedAdds, hp] at hr
      split_ifs at hr
      exacts [hr, by simp at hr]
    refine consumed_foldl_consume (fun add hadd => .inl ?_) hadds
    obtain ⟨exp, hlive, -⟩ := live_of_addAuthorized (hcommit.adds add hadd)
    exact ⟨exp, hlive⟩
  | staleCommit p group hp hg hgen hepoch =>
    have hv : s.checkPayloadAuthz e = .ok .staleCommitNoOp := by
      simpa only [checkPayloadAuthz, hp] using
        checkMlsCommit_eq_ok.mpr ⟨group, hg, .inr ⟨rfl, hgen, hepoch⟩⟩
    exact hr.resolve_right (by simp [appliedAdds, hp, hv])
  | _ => exact hr.resolve_right (by simp [appliedAdds, *])

theorem live_published (h : Run K g tr t) {leaf : Leaf} {r : EventRef} {exp : ℕ}
    (hlive : Live t.keyPackages leaf r exp) : ∃ y ∈ tr, Publishes K y.event leaf r exp := by
  rcases h.persists (fun s => ¬Live s.keyPackages leaf r exp) (by simp [Live, fromGenesis]) with
    hend | ⟨y, hy, hpre, hpost⟩
  · exact absurd hlive hend
  · exact ⟨y, hy, (live_step (h.step_of_mem hy) (not_not.mp hpost)).resolve_left hpre⟩

theorem cited_consumed (h : Run K g tr t) : ∀ r ∈ citations tr, r ∈ t.consumedKeyPackages := by
  induction h with
  | nil => simp [citations]
  | snoc _ hstep ih =>
    intro r hr
    refine consumed_step hstep ?_
    simp only [citations, List.flatMap_append, List.mem_append, List.flatMap_singleton] at hr
    exact hr.imp_left (ih r)

/-- The adds of one commit have different KeyPackages when they have different leaves: two
leaves that published the same reference would have signed the same event. -/
theorem refs_nodup (h : Run K g tr t) (hK : CollisionFree K tr) {x : Transition LogState Event}
    (hx : x ∈ tr) (hleaves : DistinctLeaves x) :
    ((appliedAdds x).map DeclaredAdd.keyPackage).Nodup := by
  obtain ⟨a, b, rfl⟩ := List.append_of_mem hx
  have hrun := h.split_at.1
  -- A cited reference is the hash of an event of the leaf that is added.
  have hpub (add : DeclaredAdd) (hadd : add ∈ appliedAdds x) :
      ∃ y ∈ a, y.event.leaf = add.leaf ∧ y.event.hash K = add.keyPackage := by
    obtain ⟨group, hauth⟩ := addAuthorized hadd
    obtain ⟨exp, hlive, -⟩ := live_of_addAuthorized hauth
    obtain ⟨y, hy, p, -, hleaf, hhash, -⟩ := live_published hrun hlive
    exact ⟨y, hy, hleaf, hhash⟩
  refine List.Nodup.map_on (fun add hadd add' hadd' href => ?_) hleaves.of_map
  obtain ⟨y, hy, hleaf, hhash⟩ := hpub add hadd
  obtain ⟨y', hy', hleaf', hhash'⟩ := hpub add' hadd'
  have hevent : y.event = y'.event :=
    hK y (by simp [hy]) y' (by simp [hy']) (by rw [hhash, hhash', href])
  refine List.inj_on_of_nodup_map hleaves hadd hadd' ?_
  rw [← hleaf, ← hleaf', hevent]

theorem citations_nodup (h : Run K g tr t)
    (hrefs : ∀ x ∈ tr, ((appliedAdds x).map DeclaredAdd.keyPackage).Nodup) :
    (citations tr).Nodup := by
  induction h with
  | nil => simp [citations]
  | @snoc t u e tr htr hstep ih =>
    rw [citations, List.flatMap_append, List.flatMap_singleton, List.nodup_append]
    refine ⟨ih fun x hx => hrefs x (by simp [hx]), hrefs ⟨t, e, u⟩ (by simp), ?_⟩
    rintro r hr _ hr' rfl
    obtain ⟨add, hadd, rfl⟩ := List.mem_map.mp hr'
    obtain ⟨group, hauth⟩ := addAuthorized hadd
    exact hauth.not_consumed (cited_consumed htr _ hr)

/-- In every run without hash collisions, KeyPackages are used once exactly when no applied
commit adds one leaf twice. -/
theorem usedOnce_iff (h : Run K g tr t) (hK : CollisionFree K tr) :
    UsedOnce K tr ↔ ∀ x ∈ tr, DistinctLeaves x := by
  refine ⟨fun hused => hused.leaves, fun hleaves => ?_⟩
  have hrefs := fun x hx => refs_nodup h hK (x := x) hx (hleaves x hx)
  refine ⟨citations_nodup h hrefs, hleaves, hrefs, ?_⟩
  rintro a x b rfl add hadd
  obtain ⟨group, hauth⟩ := addAuthorized hadd
  obtain ⟨exp, hlive, hexp⟩ := live_of_addAuthorized hauth
  obtain ⟨y, hy, hpub⟩ := live_published h.split_at.1 hlive
  exact ⟨y, hy, exp, hpub, hexp⟩

open SampleLog

theorem usedOnce_twoMembers :
    UsedOnce crypto (accepted crypto genesis (signed twoMembers)) ∧
      citations (accepted crypto genesis (signed twoMembers)) = [ref bob b0 2] :=
  ⟨(usedOnce_iff (run_accepted _) (by decide +kernel)).mpr (by decide +kernel), by decide +kernel⟩

/-- Alice's first commit adds her second device twice. -/
def doubleAdd : List Entry :=
  [⟨alice, a0, 1, cert alice a0 none⟩,
   ⟨alice, a1, 1, cert alice a1 none⟩,
   ⟨alice, a0, 1, .channelCreated ⟨7, "sealed", "text", .e2ee, none⟩⟩,
   ⟨alice, a1, 1, .mlsKeyPackagePublished ⟨[], 0, 100⟩⟩,
   ⟨alice, a0, 2, commit 0 0 [⟨key alice, device a1, ref alice a1 1⟩,
     ⟨key alice, device a1, ref alice a1 1⟩] []⟩]

/-- The commit is accepted and applied, and cites one KeyPackage for two adds of one leaf. -/
theorem usedTwice_doubleAdd :
    Run crypto genesis (accepted crypto genesis (signed doubleAdd)) (stateOf doubleAdd) ∧
      CollisionFree crypto (accepted crypto genesis (signed doubleAdd)) ∧
      citations (accepted crypto genesis (signed doubleAdd)) = [ref alice a1 1, ref alice a1 1] ∧
      ¬UsedOnce crypto (accepted crypto genesis (signed doubleAdd)) := by
  have hcited : citations (accepted crypto genesis (signed doubleAdd)) =
      [ref alice a1 1, ref alice a1 1] := by decide +kernel
  refine ⟨run_accepted _, by decide +kernel, hcited, fun h => ?_⟩
  have honce := h.once
  rw [hcited] at honce
  exact absurd honce (by decide +kernel)

end KeyPackageUse
