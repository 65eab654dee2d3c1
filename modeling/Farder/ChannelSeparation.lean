import Farder.GroupRefinement
import Farder.SampleLog
import Mathlib.Logic.Relation

/-! # Plaintext and sealed channels

The class of a channel is fixed when the channel is created, or by its first plaintext post.
From then on plaintext and sealed content exclude each other, whatever order the events come
in; groups exist exactly for the encrypted channels, so no assertion of the fold can fail;
and thread parents form a well-founded relation inside one class. -/
namespace ChannelSeparation

open EventLog EventLog.LogState Guarded

variable {K : Crypto} {g : Genesis} {s s' m : LogState} {e : Event} {c : ℕ}
  {tr : List (Transition LogState Event)}

def postsPlaintext (e : Event) (c : ℕ) : Bool :=
  match e.core.payload with
  | .messagePosted p => p.channelId = c
  | _ => false

def createsE2ee (e : Event) (c : ℕ) : Bool :=
  match e.core.payload with
  | .channelCreated p => p.channelId = c ∧ p.cls = .e2ee
  | _ => false

/-! ## No assertion fails -/

theorem not_panics_checkEnvelope : ¬Panics (s.checkEnvelope K e) := by
  have hdevice : ¬Panics (s.resolveDevicePubkey K e) := by
    unfold resolveDevicePubkey
    split <;> simp
  have hchain : ¬Panics (s.checkChain e) := by
    unfold checkChain
    split <;> simp
  simp [checkEnvelope, hdevice, hchain]

theorem not_panics_checkSealedSend (hs : ChannelsKept s) (channelId generation epoch : ℕ) :
    ¬Panics (s.checkSealedSend e channelId generation epoch) := by
  simp only [checkSealedSend, panics_bind, panics_context, panics_ensure, panics_expect,
    context_eq_ok, ensure_eq_ok, false_or, not_exists, not_and, exists_const]
  rintro cls hcls rfl
  have hsome := (hs.group_iff channelId).mpr hcls
  rintro (hnone | ⟨_, _, h⟩)
  · simp [hnone] at hsome
  · simp at h

theorem not_panics_checkMlsCommit (p : MlsCommit) : ¬Panics (s.checkMlsCommit e p) := by
  have hauthor (group : MlsGroupRecord) : ¬Panics (s.checkCommitAuthor e p group) := by
    unfold checkCommitAuthor
    split <;> simp
  have hadds (group : MlsGroupRecord) : ¬Panics (forAll p.adds (s.checkDeclaredAdd e group)) :=
    not_panics_forAll fun add _ => by simp [checkDeclaredAdd]
  have hremoves (group : MlsGroupRecord) :
      ¬Panics (forAll p.removes (s.checkDeclaredRemove e group)) :=
    not_panics_forAll fun rem _ => by simp [checkDeclaredRemove]
  have hcurrent (group : MlsGroupRecord) : ¬Panics (s.checkCurrentCommit e p group) := by
    simp [checkCurrentCommit, checkInstancePin, hauthor, hadds, hremoves]
  simp only [checkMlsCommit, panics_bind, panics_context, panics_ensure, false_or, not_exists,
    not_and]
  intro group _ _ _
  split <;> simp [hcurrent]

theorem not_panics_checkPayloadAuthz (hs : ChannelsKept s) : ¬Panics (s.checkPayloadAuthz e) := by
  have hsend := not_panics_checkSealedSend (e := e) hs
  cases hp : e.core.payload <;> simp only [checkPayloadAuthz, hp]
  case channelCreated p =>
    have hparent : ¬Panics (s.checkParent p) := by
      unfold checkParent
      split <;> simp
    simp [checkChannelCreated, hparent]
  case messageDeleted p =>
    have hreason : ¬Panics (s.checkDeleteReason e.core.author p.reason) := by
      unfold checkDeleteReason
      split <;> simp
    simp [checkMessageDeleted, hreason]
  case mlsKeyPackagePublished p => simp [checkKeyPackagePublished, checkInstancePin]
  case mlsCommit p => exact not_panics_checkMlsCommit p
  case mlsWelcome p =>
    have hscope (group : MlsGroupRecord) : ¬Panics (s.checkWelcomeScope e p group) := by
      unfold checkWelcomeScope
      split_ifs <;> simp
    simp [checkMlsWelcome, hscope]
  case mlsLeafConfirmed p =>
    have htree (group : MlsGroupRecord) : ¬Panics (checkConfirmedTree e.leaf group p) := by
      unfold checkConfirmedTree
      split
      · simp
      · split <;> simp
    simp [checkMlsLeafConfirmed, checkInstancePin, htree]
  case mlsGroupReset p =>
    have hstage (group : MlsGroupRecord) :
        ¬Panics (p.welcomes.foldlM (stageWelcome group p.newGeneration) (∅, ∅)) :=
      not_panics_foldlM (fun acc r => by simp [stageWelcome]) _
    simp [checkMlsGroupReset, hstage]
  all_goals simp [hsend]

theorem panics_updateGroup {f : MlsGroupRecord → MlsGroupRecord} :
    Panics (s.updateGroup c f) ↔ s.mlsGroups.lookup c = none := by
  simp [updateGroup]

theorem not_panics_applyPayloadEffect {key : PublicKey}
    (hv : s.checkPayloadAuthz e = .ok .apply) : ¬Panics (s.applyPayloadEffect K e key) := by
  cases hp : e.core.payload <;> simp only [checkPayloadAuthz, hp] at hv <;>
    simp only [applyPayloadEffect, hp, panics_updateGroup, panics_pure, not_false_eq_true]
  case mlsCommit p =>
    obtain ⟨group, hg, -⟩ := checkMlsCommit_eq_ok.mp hv
    exact fun hnone => by cases hg.symm.trans hnone
  case mlsWelcome p =>
    obtain ⟨-, group, hg, -⟩ := checkMlsWelcome_eq_ok.mp hv
    exact fun hnone => by cases hg.symm.trans hnone
  case mlsLeafConfirmed p =>
    obtain ⟨-, group, hg, -⟩ := checkMlsLeafConfirmed_eq_ok.mp hv
    exact fun hnone => by cases hg.symm.trans hnone
  case mlsGroupReset p =>
    obtain ⟨-, group, hg, -⟩ := checkMlsGroupReset_eq_ok.mp hv
    exact fun hnone => by cases hg.symm.trans hnone

theorem not_panics_apply (hs : ChannelsKept s) : ¬Panics (s.apply K e) := by
  simp only [apply, panics_bind, not_panics_checkEnvelope, not_panics_checkPayloadAuthz hs,
    false_or, not_exists, not_and]
  intro key _ v hv
  split_ifs with happly
  · subst happly
    simp [not_panics_applyPayloadEffect hv]
  · simp

/-! ## Classes never change -/

theorem Effect.channel_kept {key : PublicKey} (h : Effect K s e key m) {ch : ChannelRecord}
    (hch : s.channels.lookup c = some ch) : m.channels.lookup c = some ch := by
  cases h with
  | channelCreated p hp howner hnew =>
    have hne : c ≠ p.channelId := by
      rintro rfl
      simp [Finmap.lookup_eq_none.mpr hnew] at hch
    simpa [createChannel, hne] using hch
  | _ => exact hch

theorem Effect.history_kept {key : PublicKey} (h : Effect K s e key m)
    (hc : c ∈ s.plaintextHistoryChannels) : c ∈ m.plaintextHistoryChannels := by
  cases h with
  | messagePosted p =>
    show c ∈ ite _ _ _
    split_ifs
    exacts [hc, Finset.mem_insert_of_mem hc]
  | _ => exact hc

/-- Plaintext for good: declared as such, or never declared and posted to. -/
def IsPlain (s : LogState) (c : ℕ) : Prop :=
  s.channelClass c = some .plaintext ∨ c ∈ s.plaintextHistoryChannels

theorem channel_kept {ch : ChannelRecord} (h : Step K s e s')
    (hch : s.channels.lookup c = some ch) : s'.channels.lookup c = some ch := by
  obtain ⟨key, m, -, heff, rfl⟩ := apply_cases h
  exact Effect.channel_kept heff hch

theorem class_kept {cls : ChannelClass} (h : Step K s e s') (hc : s.channelClass c = some cls) :
    s'.channelClass c = some cls := by
  obtain ⟨ch, hch, rfl⟩ := Option.map_eq_some_iff.mp hc
  simp [channelClass, channel_kept h hch]

theorem history_kept (h : Step K s e s') (hc : c ∈ s.plaintextHistoryChannels) :
    c ∈ s'.plaintextHistoryChannels := by
  obtain ⟨key, m, -, heff, rfl⟩ := apply_cases h
  have hm := Effect.history_kept heff hc
  exact hm

theorem isPlain_kept (h : Step K s e s') (hc : IsPlain s c) : IsPlain s' c :=
  hc.imp (class_kept h) (history_kept h)

theorem isPlain_of_posts (h : Step K s e s') (hposts : postsPlaintext e c) : IsPlain s' c := by
  obtain ⟨key, m, -, heff, rfl⟩ := apply_cases h
  have hm : IsPlain m c := by
    cases heff with
    | messagePosted p hp hmember hclass =>
      obtain rfl : p.channelId = c := by simpa [postsPlaintext, hp] using hposts
      cases hch : s.channels.lookup p.channelId with
      | some ch =>
        have hplain : s.channelClass p.channelId = some .plaintext := by
          simpa [channelClass, hch] using hclass ch hch
        exact .inl hplain
      | none =>
        refine .inr ?_
        show p.channelId ∈ ite _ _ _
        rw [if_pos (Finmap.lookup_eq_none.mp hch)]
        exact Finset.mem_insert_self _ _
    | _ => simp_all [postsPlaintext]
  exact hm

theorem e2ee_of_creates (h : Step K s e s') (hcreates : createsE2ee e c) :
    s'.channelClass c = some .e2ee := by
  obtain ⟨key, m, -, heff, rfl⟩ := apply_cases h
  have hm : m.channelClass c = some .e2ee := by
    cases heff with
    | channelCreated p hp =>
      obtain ⟨rfl, hcls⟩ : p.channelId = c ∧ p.cls = .e2ee := by
        simpa [createsE2ee, hp] using hcreates
      rw [channelClass_createChannel, if_pos rfl, hcls]
    | _ => simp_all [createsE2ee]
  exact hm

theorem e2ee_of_sealed (h : Step K s e s') (hsealed : e.SealedIn c) :
    s.channelClass c = some .e2ee := by
  obtain ⟨⟨n, k⟩, hcited⟩ := Option.isSome_iff_exists.mp hsealed
  obtain ⟨group, -, hsend⟩ := sendAuthorized_of_apply h hcited
  exact hsend.e2ee

theorem not_isPlain_of_e2ee (hs : ChannelsKept s) (hc : s.channelClass c = some .e2ee) :
    ¬IsPlain s c := by
  rintro (hplain | hhist)
  · cases hc.symm.trans hplain
  · simp [channelClass, hs.history c hhist] at hc

theorem kept_to_end {Q : LogState → Prop} {t : LogState} {x : Transition LogState Event}
    (h : Execution (Step K) s tr t) (hx : x ∈ tr) (hQ : Q x.post)
    (hkept : ∀ s e s', Q s → Step K s e s' → Q s') : Q t := by
  obtain ⟨a, b, rfl⟩ := List.append_of_mem hx
  exact h.split_at.2.2.invariant hQ hkept

def IsParent (s : LogState) (parent child : ℕ) : Prop :=
  ∃ ch, s.channels.lookup child = some ch ∧ ch.parent = some parent

/-- Parents are recorded with the class of their children, and following them ends. -/
structure Threads (s : LogState) : Prop where
  same_class : ∀ parent child ch, s.channels.lookup child = some ch → ch.parent = some parent →
    ∃ p, s.channels.lookup parent = some p ∧ p.cls = ch.cls
  wellFounded : WellFounded (IsParent s)

theorem threads_genesis : Threads (fromGenesis K g) where
  same_class := by simp [fromGenesis]
  wellFounded := ⟨fun c => ⟨c, fun p ⟨ch, hch, _⟩ => by simp [fromGenesis] at hch⟩⟩

theorem Threads.congr {t : LogState} (hs : Threads s) (h : t.channels = s.channels) :
    Threads t := by
  have hparent : IsParent t = IsParent s := by
    funext parent child
    simp only [IsParent, h]
  exact ⟨h ▸ hs.same_class, hparent ▸ hs.wellFounded⟩

theorem threads_createChannel {author : PublicKey} {p : ChannelCreated} (hs : Threads s)
    (hnew : p.channelId ∉ s.channels)
    (hparent : ∀ parent ∈ p.parent, ∃ ch, s.channels.lookup parent = some ch ∧ ch.cls = p.cls) :
    Threads (s.createChannel author p) := by
  have hlookup (c : ℕ) : (s.createChannel author p).channels.lookup c =
      if c = p.channelId then some ⟨p.name, p.kind, p.cls, p.parent, author⟩
      else s.channels.lookup c := FiniteMap.lookup_insert_eq _ _ _ _
  have hrecorded {c : ℕ} {ch : ChannelRecord} (hc : s.channels.lookup c = some ch) :
      c ≠ p.channelId := by
    rintro rfl
    cases (Finmap.lookup_eq_none.mpr hnew).symm.trans hc
  constructor
  · intro parent child ch hch hpar
    rw [hlookup] at hch
    have hold : ∃ q, s.channels.lookup parent = some q ∧ q.cls = ch.cls := by
      split_ifs at hch
      · obtain rfl := Option.some.inj hch
        exact hparent parent hpar
      · exact hs.same_class parent child ch hch hpar
    obtain ⟨q, hq, hcls⟩ := hold
    exact ⟨q, by rw [hlookup, if_neg (hrecorded hq), hq], hcls⟩
  · -- Recorded channels keep their parents, none of which is the new channel.
    have hacc (c : ℕ) (hc : c ≠ p.channelId) :
        Acc (IsParent (s.createChannel author p)) c := by
      induction c using hs.wellFounded.induction with
      | _ c ih =>
        refine ⟨c, fun parent ⟨ch, hch, hpar⟩ => ?_⟩
        rw [hlookup, if_neg hc] at hch
        obtain ⟨q, hq, -⟩ := hs.same_class parent c ch hch hpar
        exact ih parent ⟨ch, hch, hpar⟩ (hrecorded hq)
    refine ⟨fun c => ?_⟩
    by_cases hc : c = p.channelId
    · refine ⟨c, fun parent ⟨ch, hch, hpar⟩ => ?_⟩
      rw [hlookup, if_pos hc] at hch
      obtain rfl := Option.some.inj hch
      obtain ⟨q, hq, -⟩ := hparent parent hpar
      exact hacc parent (hrecorded hq)
    · exact hacc c hc

theorem step_preserves_threads (hs : Threads s) (h : Step K s e s') : Threads s' := by
  obtain ⟨key, m, -, heff, rfl⟩ := apply_cases h
  have hm : Threads m := by
    cases heff with
    | channelCreated p hp howner hnew hhistory hparent =>
      exact threads_createChannel hs hnew hparent
    | _ => exact hs.congr rfl
  exact hm.congr rfl

theorem run_threads {t : LogState} (h : Run K g tr t) : Threads t :=
  h.invariant threads_genesis fun _ _ _ => step_preserves_threads

theorem ancestor_class (hs : Threads s) {child ancestor : ℕ} {cls : ChannelClass}
    (h : Relation.ReflTransGen (fun c p => IsParent s p c) child ancestor)
    (hc : s.channelClass child = some cls) : s.channelClass ancestor = some cls := by
  induction h with
  | refl => exact hc
  | tail _ hpar ih =>
    obtain ⟨ch, hch, hpar⟩ := hpar
    obtain ⟨p, hp, hcls⟩ := hs.same_class _ _ ch hch hpar
    simp only [channelClass, hch, Option.map_some, Option.some.injEq] at ih
    simp [channelClass, hp, hcls, ih]

/-- In every run and for every channel: plaintext posts exclude its creation as encrypted and
sealed content; a recorded channel keeps its record to the end; groups exist exactly for the
encrypted channels; no event makes an assertion of the fold fail; and parent links end,
inside the class of the channel they start from. -/
theorem plaintext_and_sealed_disjoint {t : LogState} (h : Run K g tr t) (c : ℕ) :
    ¬((∃ x ∈ tr, postsPlaintext x.event c) ∧
        ∃ x ∈ tr, createsE2ee x.event c ∨ x.event.SealedIn c) ∧
      (∀ x ∈ tr, ∀ ch, x.pre.channels.lookup c = some ch → t.channels.lookup c = some ch) ∧
      ((t.mlsGroups.lookup c).isSome ↔ t.channelClass c = some .e2ee) ∧
      (∀ e, ¬Panics (t.apply K e)) ∧
      WellFounded (IsParent t) ∧
      ∀ cls ancestor, t.channelClass c = some cls →
        Relation.ReflTransGen (fun c p => IsParent t p c) c ancestor →
        t.channelClass ancestor = some cls := by
  have hinv := (reachable_invariant ⟨tr, h⟩).channels
  have hthreads := run_threads h
  refine ⟨?_, fun x hx ch hch => ?_, hinv.group_iff c, fun e => not_panics_apply hinv,
    hthreads.wellFounded, fun cls ancestor hc hpath => ancestor_class hthreads hpath hc⟩
  · rintro ⟨⟨x, hx, hposts⟩, y, hy, hsecret⟩
    have hplain : IsPlain t c :=
      kept_to_end h hx (isPlain_of_posts (h.step_of_mem hx) hposts)
        fun _ _ _ hc hstep => isPlain_kept hstep hc
    have hy' := h.step_of_mem hy
    have hpost : y.post.channelClass c = some .e2ee :=
      hsecret.elim (e2ee_of_creates hy') fun hs => class_kept hy' (e2ee_of_sealed hy' hs)
    have he2ee : t.channelClass c = some .e2ee :=
      kept_to_end h hy hpost fun _ _ _ hc hstep => class_kept hstep hc
    exact not_isPlain_of_e2ee hinv he2ee hplain
  · exact kept_to_end h hx (channel_kept (h.step_of_mem hx) hch)
      fun _ _ _ hc hstep => channel_kept hstep hc

open SampleLog

/-- The sample server's channel was created encrypted, so nobody has posted plaintext in it. -/
theorem plaintext_and_sealed_twoMembers :
    (∃ x ∈ accepted crypto genesis (signed twoMembers),
        createsE2ee x.event 7 ∨ x.event.SealedIn 7) ∧
      ¬∃ x ∈ accepted crypto genesis (signed twoMembers), postsPlaintext x.event 7 := by
  have hcreated : ∃ x ∈ accepted crypto genesis (signed twoMembers),
      createsE2ee x.event 7 ∨ x.event.SealedIn 7 := by decide +kernel
  exact ⟨hcreated, fun hposts =>
    (plaintext_and_sealed_disjoint (run_accepted _) 7).1 ⟨hposts, hcreated⟩⟩

end ChannelSeparation
