import Farder.Ui.LocalHistory

/-! # Deletions and the local history

The client purges its store of what it hears to be deleted. It hears only the server that it shows,
and the store tells neither servers apart nor what comes before a purge from what comes after it. -/
namespace LocalPurges

open EventLog Server Ui

variable {ownPk : PublicKey} {s t : App} {op : AppOp} {r : HistoryRecord} {p : Purge}

/-- No command is pending. -/
structure Quiet (s : App) : Prop where
  openings : s.openings = []
  puts : s.puts = []
  purges : s.purges = []

/-- The store has nothing that has been deleted, and all else that it ever had. -/
structure Reached (s : App) : Prop where
  gone : ∀ r ∈ s.store, r.message ∉ s.deleted
  kept : ∀ r ∈ s.landed, r.message ∉ s.deleted → ∃ x ∈ s.store, x.version = r.version

/-- A purge that has not ended removes the record. -/
def Doomed (s : App) (r : HistoryRecord) : Prop := ∃ p ∈ s.purges, p.hits r = true

instance : Decidable (Doomed s r) := inferInstanceAs (Decidable (∃ p ∈ _, _))

/-- What has been deleted is about to be removed, and nothing else has been. -/
structure Purged (s : App) : Prop where
  doomed : ∀ r ∈ s.store, r.message ∈ s.deleted → Doomed s r
  kept : ∀ r ∈ s.landed, r.message ∉ s.deleted → ∃ x ∈ s.store, x.version = r.version

/-- A deletion is heard, if there is something to be removed; what is stored has not been deleted
before, and does not replace a message of another server; a purge removes nothing that has not been
deleted; and no purge that is needed is lost. -/
def Careful (s : App) : AppOp → Prop
  | .messageDeleted server channelId messageId => s.active = some server ∨
      ∀ r ∈ s.store, r.message = (server, channelId, messageId) → Doomed s r
  | .memberDataDeleted server author => ∀ r ∈ s.store, r.message ∈ s.messagesOf server author →
      (s.active = some server ∧ r.author = author) ∨ Doomed s r
  | .putDone i true => ∀ r ∈ s.puts[i]?, (r.message ∈ s.deleted → Doomed s r) ∧
      ∀ x ∈ s.store, x.key = r.key → x.server = r.server ∨ x.message ∈ s.deleted
  | .purgeDone i true => ∀ p ∈ s.purges[i]?, ∀ r ∈ s.store, p.hits r = true →
      r.message ∈ s.deleted
  | .purgeDone i false => ∀ r ∈ s.store, r.message ∈ s.deleted →
      ∃ p ∈ s.purges.eraseIdx i, p.hits r = true
  | .restart => ∀ r ∈ s.store, r.message ∉ s.deleted
  | _ => True

instance decidableCareful (s : App) (op : AppOp) : Decidable (Careful s op) :=
  match op with
  | .messageDeleted .. => inferInstanceAs (Decidable (_ ∨ ∀ r ∈ _, _))
  | .memberDataDeleted .. => inferInstanceAs (Decidable (∀ r ∈ _, _))
  | .putDone _ true => inferInstanceAs (Decidable (∀ r ∈ _, _ ∧ ∀ x ∈ _, _))
  | .purgeDone _ true => inferInstanceAs (Decidable (∀ p ∈ _, ∀ r ∈ _, _))
  | .purgeDone _ false => inferInstanceAs (Decidable (∀ r ∈ _, _ → ∃ p ∈ _, _))
  | .restart => inferInstanceAs (Decidable (∀ r ∈ _, _))
  | .putDone _ false | .posted _ | .sealedMessage .. | .loaded .. | .activate _ | .sent ..
  | .hydrate .. | .scan .. | .settle .. => .isTrue trivial

structure Stored (s : App) : Prop where
  landed : ∀ r ∈ s.store, r ∈ s.landed
  keys : (s.store.map HistoryRecord.key).Nodup

theorem key_of_version {x : HistoryRecord} (h : x.version = r.version) : x.key = r.key :=
  congrArg Prod.snd h

theorem version_of_key {x : HistoryRecord} (hkey : x.key = r.key) (hserver : x.server = r.server) :
    x.version = r.version :=
  Prod.ext hserver hkey

theorem message_of_version {x : HistoryRecord} (h : x.version = r.version) :
    x.message = r.message := by
  have hserver : x.server = r.server := congrArg Prod.fst h
  have hchannel : x.channelId = r.channelId := congrArg Prod.fst (key_of_version h)
  have hid : x.messageId = r.messageId := congrArg (fun k => k.2.1) (key_of_version h)
  rw [HistoryRecord.message, HistoryRecord.message, hserver, hchannel, hid]

theorem mem_putRecord {x : HistoryRecord} {store : List HistoryRecord} :
    x ∈ putRecord store r ↔ (x ∈ store ∧ x.key ≠ r.key) ∨ x = r := by
  simp [putRecord]

theorem mem_purge {store : List HistoryRecord} :
    r ∈ purge store p ↔ r ∈ store ∧ p.hits r = false := by
  simp [purge]

/-- An operation that runs no command of the store. -/
structure Spares (s t : App) : Prop where
  store : t.store = s.store
  purges : t.purges = s.purges
  deleted : t.deleted = s.deleted
  landed : t.landed = s.landed

theorem Spares.purged (h : Spares s t) (hs : Purged s) : Purged t where
  doomed r hr hdeleted := by
    rw [Doomed, h.purges]
    exact hs.doomed r (h.store ▸ hr) (h.deleted ▸ hdeleted)
  kept r hr hdeleted := by
    rw [h.store]
    exact hs.kept r (h.landed ▸ hr) (h.deleted ▸ hdeleted)

theorem Spares.stored (h : Spares s t) (hs : Stored s) : Stored t where
  landed r hr := h.landed ▸ hs.landed r (h.store ▸ hr)
  keys := h.store ▸ hs.keys

def runs : AppOp → Bool
  | .messageDeleted .. => true
  | .memberDataDeleted .. => true
  | .putDone _ true => true
  | .purgeDone .. => true
  | .restart => true
  | _ => false

theorem spares_step (hruns : runs op = false) (h : s.step ownPk op = some t) : Spares s t := by
  cases op with
  | messageDeleted | memberDataDeleted | purgeDone | restart => cases hruns
  | posted message =>
    simp only [App.step] at h
    split at h
    · obtain rfl := Option.some.inj h
      exact ⟨rfl, rfl, rfl, rfl⟩
    · cases h
  | sealedMessage server row =>
    simp only [App.step] at h
    split_ifs at h <;> obtain rfl := Option.some.inj h <;> exact ⟨rfl, rfl, rfl, rfl⟩
  | loaded server channelId scrolled rows =>
    simp only [App.step] at h
    split at h
    · obtain rfl := Option.some.inj h
      exact ⟨rfl, rfl, rfl, rfl⟩
    · cases h
  | activate | sent =>
    obtain rfl := Option.some.inj h
    exact ⟨rfl, rfl, rfl, rfl⟩
  | hydrate channelId rows =>
    simp only [App.step] at h
    split at h
    · cases h
    · split_ifs at h
      split at h
      · obtain rfl := Option.some.inj h
        exact ⟨rfl, rfl, rfl, rfl⟩
      · split_ifs at h
        obtain rfl := Option.some.inj h
        exact ⟨rfl, rfl, rfl, rfl⟩
  | scan channelId i =>
    simp only [App.step] at h
    split at h
    · cases h
    · split_ifs at h
      obtain ⟨m, -, rfl⟩ := Option.map_eq_some_iff.mp h
      unfold App.scanRow
      split <;> exact ⟨rfl, rfl, rfl, rfl⟩
  | settle i content =>
    obtain ⟨o, -, rfl⟩ := Option.map_eq_some_iff.mp h
    cases content <;> exact ⟨rfl, rfl, rfl, rfl⟩
  | putDone i ok =>
    cases ok with
    | true => cases hruns
    | false =>
      obtain ⟨r, -, rfl⟩ := Option.map_eq_some_iff.mp h
      exact ⟨rfl, rfl, rfl, rfl⟩

/-! ## Deletions and purges -/

theorem step_deleted {server : ℕ} {gone : List (ℕ × ℕ × ℕ)} {p : Purge} (hs : Purged s)
    (hdeleted : t.deleted = s.deleted ++ gone) (hstore : t.store = s.store)
    (hlanded : t.landed = s.landed)
    (hpurges : t.purges = if s.active = some server then s.purges ++ [p] else s.purges) :
    Purged t ↔ ∀ r ∈ s.store, r.message ∈ gone →
      (s.active = some server ∧ p.hits r = true) ∨ Doomed s r := by
  have hdoomed (r : HistoryRecord) :
      Doomed t r ↔ (s.active = some server ∧ p.hits r = true) ∨ Doomed s r := by
    rw [Doomed, hpurges]
    split_ifs with hactive
    · simp only [List.mem_append, List.mem_singleton, or_and_right, exists_or, exists_eq_left,
        hactive, true_and, Doomed]
      exact or_comm
    · simp only [hactive, false_and, false_or, Doomed]
  constructor
  · intro h r hr hgone
    exact (hdoomed r).mp (h.doomed r (hstore ▸ hr) (hdeleted ▸ List.mem_append_right _ hgone))
  · intro h
    refine ⟨fun r hr hgone => (hdoomed r).mpr ?_, fun r hr hgone => ?_⟩
    · rw [hstore] at hr
      rw [hdeleted, List.mem_append] at hgone
      rcases hgone with hgone | hgone
      · exact .inr (hs.doomed r hr hgone)
      · exact h r hr hgone
    · rw [hstore]
      rw [hdeleted, List.mem_append, not_or] at hgone
      exact hs.kept r (hlanded ▸ hr) hgone.1

theorem step_put (hs : Purged s) (hstored : Stored s) :
    Purged { s with store := putRecord s.store r, landed := s.landed ++ [r] } ↔
      (r.message ∈ s.deleted → Doomed s r) ∧
        ∀ x ∈ s.store, x.key = r.key → x.server = r.server ∨ x.message ∈ s.deleted := by
  constructor
  · intro h
    refine ⟨h.doomed r (mem_putRecord.mpr (.inr rfl)), fun x hx hkey => ?_⟩
    refine or_iff_not_imp_right.mpr fun hgone => ?_
    obtain ⟨y, hy, hversion⟩ := h.kept x (List.mem_append_left _ (hstored.landed x hx)) hgone
    rcases mem_putRecord.mp hy with ⟨-, hne⟩ | rfl
    · exact absurd ((key_of_version hversion).trans hkey) hne
    · exact (congrArg Prod.fst hversion).symm
  · rintro ⟨hdoomed, hreplaced⟩
    refine ⟨fun x hx hgone => ?_, fun x hx hgone => ?_⟩
    · rcases mem_putRecord.mp hx with ⟨hx, -⟩ | rfl
      · exact hs.doomed x hx hgone
      · exact hdoomed hgone
    · rcases List.mem_append.mp hx with hx | hx
      · obtain ⟨y, hy, hversion⟩ := hs.kept x hx hgone
        by_cases hkey : y.key = r.key
        · have hserver : y.server = r.server := (hreplaced y hy hkey).resolve_right fun hdeleted =>
            hgone (message_of_version hversion ▸ hdeleted)
          exact ⟨r, mem_putRecord.mpr (.inr rfl), (version_of_key hkey hserver).symm.trans hversion⟩
        · exact ⟨y, mem_putRecord.mpr (.inl ⟨hy, hkey⟩), hversion⟩
      · obtain rfl := List.mem_singleton.mp hx
        exact ⟨x, mem_putRecord.mpr (.inr rfl), rfl⟩

theorem step_purge {i : ℕ} (hp : s.purges[i]? = some p) (hs : Purged s) (hstored : Stored s) :
    Purged { s with purges := s.purges.eraseIdx i, store := purge s.store p } ↔
      ∀ r ∈ s.store, p.hits r = true → r.message ∈ s.deleted := by
  constructor
  · intro h r hr hhits
    by_contra hgone
    obtain ⟨x, hx, hversion⟩ := h.kept r (hstored.landed r hr) hgone
    obtain ⟨hx, hmiss⟩ := mem_purge.mp hx
    obtain rfl := List.inj_on_of_nodup_map hstored.keys hx hr (key_of_version hversion)
    rw [hhits] at hmiss
    cases hmiss
  · intro h
    refine ⟨fun r hr hgone => ?_, fun r hr hgone => ?_⟩
    · obtain ⟨hr, hmiss⟩ := mem_purge.mp hr
      obtain ⟨p', hp', hhits⟩ := hs.doomed r hr hgone
      obtain ⟨j, hj⟩ := List.mem_iff_getElem?.mp hp'
      refine ⟨p', List.mem_eraseIdx_iff_getElem?.mpr ⟨j, ?_, hj⟩, hhits⟩
      rintro rfl
      obtain rfl := Option.some.inj (hp.symm.trans hj)
      rw [hhits] at hmiss
      cases hmiss
    · obtain ⟨x, hx, hversion⟩ := hs.kept r hr hgone
      refine ⟨x, mem_purge.mpr ⟨hx, Bool.eq_false_iff.mpr fun hhits => ?_⟩, hversion⟩
      exact hgone (message_of_version hversion ▸ h x hx hhits)

theorem step_messageDeleted {server channelId messageId : ℕ} (hs : Purged s)
    (h : s.step ownPk (.messageDeleted server channelId messageId) = some t) :
    Purged t ↔ Careful s (.messageDeleted server channelId messageId) := by
  have hiff : Purged t ↔ ∀ r ∈ s.store, r.message ∈ [(server, channelId, messageId)] →
      (s.active = some server ∧ (Purge.message channelId messageId).hits r = true) ∨
        Doomed s r := by
    simp only [App.step] at h
    split_ifs at h with hactive <;> obtain rfl := Option.some.inj h
    · exact step_deleted hs rfl rfl rfl (if_pos hactive).symm
    · exact step_deleted hs rfl rfl rfl (if_neg hactive).symm
  rw [hiff, Careful]
  have hhits {r : HistoryRecord} (hr : r.message = (server, channelId, messageId)) :
      (Purge.message channelId messageId).hits r = true := by
    obtain ⟨-, hchannel, hid⟩ : _ ∧ r.channelId = channelId ∧ r.messageId = messageId := by
      simpa only [HistoryRecord.message, Prod.mk.injEq] using hr
    exact decide_eq_true ⟨hchannel, hid⟩
  constructor
  · intro h
    refine or_iff_not_imp_left.mpr fun hactive r hr hmessage => ?_
    exact (h r hr (List.mem_singleton.mpr hmessage)).resolve_left fun hheard => hactive hheard.1
  · rintro (hactive | hdoomed) r hr hmessage
    · exact .inl ⟨hactive, hhits (List.mem_singleton.mp hmessage)⟩
    · exact .inr (hdoomed r hr (List.mem_singleton.mp hmessage))

theorem step_memberDataDeleted {server : ℕ} {author : PublicKey} (hs : Purged s)
    (h : s.step ownPk (.memberDataDeleted server author) = some t) :
    Purged t ↔ Careful s (.memberDataDeleted server author) := by
  have hiff : Purged t ↔ ∀ r ∈ s.store, r.message ∈ s.messagesOf server author →
      (s.active = some server ∧ (Purge.author author).hits r = true) ∨ Doomed s r := by
    simp only [App.step] at h
    split_ifs at h with hactive <;> obtain rfl := Option.some.inj h
    · exact step_deleted hs rfl rfl rfl (if_pos hactive).symm
    · exact step_deleted hs rfl rfl rfl (if_neg hactive).symm
  simp only [Purge.hits, decide_eq_true_eq] at hiff
  exact hiff

theorem purged_step_iff (hs : Purged s) (hstored : Stored s) (h : s.step ownPk op = some t) :
    Purged t ↔ Careful s op := by
  by_cases hruns : runs op = false
  · have hcareful : Careful s op := by
      cases op with
      | putDone i ok => cases ok with
        | true => cases hruns
        | false => trivial
      | messageDeleted | memberDataDeleted | purgeDone | restart => cases hruns
      | _ => trivial
    exact iff_of_true ((spares_step hruns h).purged hs) hcareful
  cases op with
  | messageDeleted => exact step_messageDeleted hs h
  | memberDataDeleted => exact step_memberDataDeleted hs h
  | putDone i ok =>
    cases ok with
    | false => exact absurd rfl hruns
    | true =>
      obtain ⟨r, hr, rfl⟩ := Option.map_eq_some_iff.mp h
      have hiff := step_put (s := { s with puts := s.puts.eraseIdx i }) (r := r)
        ⟨hs.doomed, hs.kept⟩ ⟨hstored.landed, hstored.keys⟩
      refine hiff.trans ?_
      simp only [Careful, hr, Option.mem_some, forall_eq']
      exact Iff.rfl
  | purgeDone i ok =>
    obtain ⟨p, hp, rfl⟩ := Option.map_eq_some_iff.mp h
    cases ok with
    | true =>
      refine (step_purge hp hs hstored).trans ?_
      simp only [Careful, hp, Option.mem_some, forall_eq']
    | false => exact ⟨fun h => h.doomed, fun h => ⟨h, hs.kept⟩⟩
  | restart =>
    obtain rfl := Option.some.inj h
    constructor
    · intro h r hr hgone
      obtain ⟨p, hp, -⟩ := h.doomed r hr hgone
      exact absurd hp List.not_mem_nil
    · exact fun h => ⟨fun r hr hgone => absurd hgone (h r hr), hs.kept⟩
  | _ => exact absurd rfl hruns

theorem stored_step (hs : Stored s) (h : s.step ownPk op = some t) : Stored t := by
  by_cases hruns : runs op = false
  · exact (spares_step hruns h).stored hs
  cases op with
  | messageDeleted | memberDataDeleted =>
    simp only [App.step] at h
    split_ifs at h <;> obtain rfl := Option.some.inj h <;> exact ⟨hs.landed, hs.keys⟩
  | putDone i ok =>
    cases ok with
    | false => exact absurd rfl hruns
    | true =>
      obtain ⟨r, -, rfl⟩ := Option.map_eq_some_iff.mp h
      refine ⟨fun x hx => ?_, ?_⟩
      · rcases mem_putRecord.mp hx with ⟨hx, -⟩ | rfl
        · exact List.mem_append_left _ (hs.landed x hx)
        · exact List.mem_append_right _ (List.mem_singleton_self _)
      · rw [if_pos rfl, putRecord, List.map_append, List.map_singleton, ← List.concat_eq_append]
        refine (List.nodup_concat _ _).mpr
          ⟨fun hmem => ?_, hs.keys.sublist (List.filter_sublist.map _)⟩
        obtain ⟨x, hx, hkey⟩ := List.mem_map.mp hmem
        exact of_decide_eq_true (List.mem_filter.mp hx).2 hkey
  | purgeDone i ok =>
    obtain ⟨p, -, rfl⟩ := Option.map_eq_some_iff.mp h
    cases ok with
    | true =>
      exact ⟨fun r hr => hs.landed r (mem_purge.mp hr).1,
        hs.keys.sublist (List.filter_sublist.map _)⟩
    | false => exact ⟨hs.landed, hs.keys⟩
  | restart =>
    obtain rfl := Option.some.inj h
    exact ⟨hs.landed, hs.keys⟩
  | _ => exact absurd rfl hruns

theorem reached_of_purged (hs : Purged s) (hquiet : Quiet s) : Reached s where
  gone r hr hgone := by
    obtain ⟨p, hp, -⟩ := hs.doomed r hr hgone
    rw [hquiet.purges] at hp
    exact absurd hp List.not_mem_nil
  kept := hs.kept

/-- In every run, the store is about to lose what has been deleted and has all else, exactly if the
client takes care at every step; then all deletions have reached the store when nothing is pending. -/
theorem deletions_reach {tr : List (Transition App AppOp)} (h : AppRun ownPk .initial tr t) :
    ((∀ x ∈ tr, Purged x.post) ↔ ∀ x ∈ tr, Careful x.pre x.event) ∧
      ((∀ x ∈ tr, Careful x.pre x.event) → Quiet t → Reached t) := by
  have hstored : Stored .initial := ⟨fun r hr => absurd hr List.not_mem_nil, List.nodup_nil⟩
  have hpurged : Purged .initial :=
    ⟨fun r hr => absurd hr List.not_mem_nil, fun r hr => absurd hr List.not_mem_nil⟩
  have hiff := h.forall_post_iff (I := Stored) Purged (fun x => Careful x.pre x.event) hstored
    hpurged (fun _ _ _ hs hstep => stored_step hs hstep)
    fun x _ hpre hgood hstep => purged_step_iff hgood hpre hstep
  exact ⟨hiff, fun hcareful => reached_of_purged (h.good_end hpurged (hiff.mpr hcareful))⟩

/-! ## A sample client -/

section Sample

def alice : PublicKey := ⟨1⟩
def bob : PublicKey := ⟨2⟩

def attempt : App → AppOp → App := Execution.attempt (App.step bob)

def after (ops : List AppOp) : App := ops.foldl attempt .initial

def message : Message := ⟨1, 7, 3, alice, some "h"⟩

def row : Ui.MessageInfo :=
  ⟨3, 7, alice, "", 60, none, false, [], true, some [5], some "h"⟩

/-- Bob reads a message of Alice, and it is stored. -/
def read : List AppOp :=
  [.posted message, .activate 1, .sealedMessage 1 row, .hydrate 7 (some []), .scan 7 0,
   .settle 0 (some "hello"), .putDone 0 true]

/-- Alice deletes it while Bob is on that server. -/
def heard : List AppOp := read ++ [.messageDeleted 1 7 3, .purgeDone 0 true]

/-- Alice deletes it while Bob is on another server. -/
def unheard : List AppOp := read ++ [.activate 2, .messageDeleted 1 7 3]

theorem deletions_reach_heard : Reached (after heard) ∧ (after heard).deleted = [(1, 7, 3)] :=
  ⟨(deletions_reach (Execution.of_attempt (App.step bob) heard (by decide))).2 (by decide)
    ⟨by decide, by decide, by decide⟩, by decide⟩

theorem deletion_unheard :
    ¬∀ (ownPk : PublicKey) (t : App) (tr : List (Transition App AppOp)),
      AppRun ownPk .initial tr t → Quiet t → Reached t := by
  intro h
  have hreached := h bob (after unheard) _
    (Execution.of_attempt (App.step bob) unheard (by decide)) ⟨by decide, by decide, by decide⟩
  exact hreached.gone (row.record 1 7 "hello") (by decide) (by decide)

end Sample

end LocalPurges
