import Farder.Ui.Timeline

/-! # Convergence of the open channel

A page replaces the list of a channel, or is put in front of it, as it was read. What is still on its
way to the client brings the list up to date if the page is newer than all that has come. -/
namespace ListConverges

open Ui Feed

/-! ## The feed of a channel -/

/-- What a notice makes of a message that is there. -/
inductive Change where
  | keep
  | edited (content : String) (editedAt : ℕ)
  | resealed (message : MessageInfo)
  | pinned (value : Bool)

def Change.act : Change → MessageInfo → MessageInfo
  | keep, m => m
  | edited content editedAt, m => { m with content, editedAt := some editedAt }
  | resealed message, m => { message with id := m.id }
  | pinned value, m => { m with pinned := value }

def rows : Rows MessageInfo Change where
  key := MessageInfo.id
  act := Change.act
  key_act p x := by cases p <;> rfl
  twice p x := by cases p <;> rfl
  settled p q x := by cases p <;> cases q <;> rfl

variable {ch : Channel} {s s' t : Timeline} {n : Notice} {log : List Notice} {l : List MessageInfo}
  {m : MessageInfo}

/-- A notice, as the list of the client is to show it. -/
def event (ch : Channel) : Notice → Event MessageInfo Change
  | .newMessage message => .posted (ch.shown message) .keep
  | .sealedMessage message => .posted message (.resealed message)
  | .messageEdited messageId newContent editedAt =>
    .changed messageId (.edited (ch.opened newContent) editedAt)
  | .sealedMessageEdited message => .changed message.id (.resealed message)
  | .messageDeleted messageId => .dropped messageId
  | .messagePinChanged messageId pinned => .changed messageId (.pinned pinned)

@[simp] theorem key_event : (event ch n).key rows = n.messageId := by
  cases n <;> rfl

theorem drops_event (k : ℕ) : (event ch n).drops k = n.deletes k := by
  cases n <;> rfl

theorem posted_event {row : MessageInfo} {again : Change} (h : event ch n = .posted row again) :
    n.posts = true ∧ n.messageId = row.id := by
  cases n with
  | newMessage message =>
    obtain ⟨rfl, -⟩ := Event.posted.inj h
    exact ⟨rfl, rfl⟩
  | sealedMessage message =>
    obtain ⟨rfl, -⟩ := Event.posted.inj h
    exact ⟨rfl, rfl⟩
  | messageEdited | sealedMessageEdited | messageDeleted | messagePinChanged => exact nomatch h

theorem event_of_posts (h : n.posts = true) :
    ∃ row again, event ch n = .posted row again ∧ row.id = n.messageId := by
  cases n with
  | newMessage message => exact ⟨_, _, rfl, rfl⟩
  | sealedMessage message => exact ⟨_, _, rfl, rfl⟩
  | messageEdited | sealedMessageEdited | messageDeleted | messagePinChanged =>
    exact absurd h Bool.false_ne_true

theorem shown_of_e2ee (h : ch.kind = .e2ee) (m : MessageInfo) : ch.shown m = m := by
  have hopened : ch.opened m.content = m.content := by rw [Channel.opened, h]
  rw [Channel.shown, hopened]

theorem e2ee_of_allows (h : ch.Allows log n) (hsealed : n.isSealed = some true) :
    ch.kind = .e2ee := by
  have hkind := h.1
  rw [hsealed] at hkind
  split at hkind
  · assumption
  · exact absurd rfl hkind

theorem map_shown_record (h : ch.Allows log n) :
    (n.record l).map ch.shown = record rows (l.map ch.shown) (event ch n) := by
  have hmap : ∀ (k : ℕ) (f : MessageInfo → MessageInfo) (how : Change),
      (∀ m : MessageInfo, m.id = k → ch.shown (f m) = how.act (ch.shown m)) →
      (l.map fun m => if m.id = k then f m else m).map ch.shown =
        amend rows (l.map ch.shown) (.changed k how) := by
    intro k f how hf
    show _ = (l.map ch.shown).map _
    rw [List.map_map, List.map_map]
    refine List.map_congr_left fun m _ => ?_
    show ch.shown (if m.id = k then f m else m) = if m.id = k then how.act (ch.shown m) else ch.shown m
    split_ifs with hk
    · exact hf m hk
    · rfl
  cases n with
  | newMessage message => exact List.map_append
  | sealedMessage message =>
    have hshown := shown_of_e2ee (e2ee_of_allows h rfl)
    show (l ++ [message]).map ch.shown = l.map ch.shown ++ [message]
    rw [List.map_append, List.map_singleton, hshown]
  | messageEdited messageId newContent editedAt => exact hmap messageId _ _ fun _ _ => rfl
  | sealedMessageEdited message =>
    have hshown := shown_of_e2ee (e2ee_of_allows h rfl)
    refine hmap message.id (fun _ => message) (.resealed message) fun m hm => ?_
    show ch.shown message = { message with id := m.id }
    rw [hshown, hm]
  | messageDeleted messageId =>
    exact (List.filter_map (f := ch.shown) (p := fun m => m.id ≠ messageId) (l := l)).symm
  | messagePinChanged messageId pinned => exact hmap messageId _ _ fun _ _ => rfl

theorem history_event (h : ch.Log log) :
    (Ui.history log).map ch.shown = Feed.history rows (log.map (event ch)) := by
  induction h with
  | nil => rfl
  | @snoc log n _ hn ih =>
    rw [List.map_append, List.map_singleton, history_snoc, ← ih, ← map_shown_record hn]
    rw [Ui.history, List.foldl_append]
    rfl

theorem ids_shown : (l.map ch.shown).map MessageInfo.id = ids l := by
  rw [List.map_map]
  rfl

theorem log_event (h : ch.Log log) : Feed.Log rows (log.map (event ch)) := by
  induction h with
  | nil => exact .nil
  | @snoc log n _ hn ih =>
    rw [List.map_append, List.map_singleton]
    refine ih.snoc ?_
    have hids := hn.2
    have hlater : n.posts = true → ∀ e ∈ log.map (event ch), e.key rows < n.messageId := by
      intro hposts e he
      rw [if_pos hposts] at hids
      obtain ⟨n', hn', rfl⟩ := List.mem_map.mp he
      rw [key_event]
      exact hids n' hn'
    cases n with
    | newMessage message => exact ⟨hlater rfl, rfl⟩
    | sealedMessage message => exact ⟨hlater rfl, rfl⟩
    | messageEdited | sealedMessageEdited | messageDeleted | messagePinChanged => trivial

theorem reduce_newMessage : reduce (.newMessage m) l = replay rows l (.posted m .keep) := by
  have hsame : amend rows l (.posted m .keep) = l :=
    amend_of_stable fun x _ => ⟨ite_self x, rfl⟩
  rw [replay, hsame]
  show (if l.any fun x => x.id = m.id then l else l ++ [m]) =
    l ++ if l.any fun x => x.id = m.id then [] else [m]
  split_ifs
  · exact (List.append_nil l).symm
  · rfl

theorem addOrUpdate_of_not_mem (h : m.id ∉ ids l) : addOrUpdate m l = l ++ [m] := by
  have hnone : (l.any fun x => x.id = m.id) = false :=
    List.any_eq_false.mpr fun x hx heq => h (List.mem_map.mpr ⟨x, hx, of_decide_eq_true heq⟩)
  rw [addOrUpdate, hnone]
  rfl

theorem addOrUpdate_of_mem (h : m.id ∈ ids l) (hnodup : (ids l).Nodup) :
    addOrUpdate m l = l.map fun x => if x.id = m.id then { m with id := x.id } else x := by
  have hany : (l.any fun x => x.id = m.id) = true := by
    obtain ⟨x, hx, hid⟩ := List.mem_map.mp h
    exact List.any_eq_true.mpr ⟨x, hx, decide_eq_true hid⟩
  rw [addOrUpdate, if_pos hany]
  clear hany
  induction l with
  | nil => exact absurd h List.not_mem_nil
  | cons x l ih =>
    obtain ⟨hx, hnodup⟩ := List.nodup_cons.mp hnodup
    by_cases hid : x.id = m.id
    · have hrest : (l.map fun x => if x.id = m.id then { m with id := x.id } else x) = l := by
        refine (List.map_congr_left fun y hy => if_neg fun hyid => ?_).trans (List.map_id l)
        exact hx (List.mem_map.mpr ⟨y, hy, hyid.trans hid.symm⟩)
      rw [List.map_cons, hrest, if_pos hid, List.findIdx_cons, decide_eq_true hid]
      show m :: l = _
      rw [hid]
    · have htail : m.id ∈ ids l := by
        refine (List.mem_cons.mp h).resolve_left fun heq => hid heq.symm
      rw [List.map_cons, if_neg hid, List.findIdx_cons, decide_eq_false hid]
      show x :: l.modify _ _ = _
      rw [ih htail hnodup]

theorem ids_replay_nodup {e : Event MessageInfo Change} (h : (ids l).Nodup) :
    (ids (replay rows l e)).Nodup := by
  have hmap : (ids (l.map fun x => touch rows x e)).Nodup := by
    have hids : ids (l.map fun x => touch rows x e) = ids l := by
      rw [ids, List.map_map]
      exact List.map_congr_left fun x _ => key_touch (R := rows)
    rwa [hids]
  cases e with
  | posted row again =>
    rw [replay, told]
    split_ifs with hany
    · rwa [List.append_nil]
    · rw [ids, List.map_append, List.nodup_append]
      refine ⟨hmap, List.nodup_singleton _, ?_⟩
      rintro k hk k' hk' rfl
      obtain ⟨y, hy, rfl⟩ := List.mem_map.mp hk
      obtain ⟨x, hx, rfl, -⟩ := mem_amend hy
      refine hany (List.any_eq_true.mpr ⟨x, hx, decide_eq_true ?_⟩)
      exact key_touch.symm.trans (List.mem_singleton.mp hk')
  | changed k how =>
    show (ids (amend rows l (.changed k how) ++ [])).Nodup
    rw [List.append_nil]
    exact hmap
  | dropped k =>
    show (ids (amend rows l (.dropped k) ++ [])).Nodup
    rw [List.append_nil]
    exact (List.filter_sublist.map _).nodup h

/-- A message that has come and is not yet in the list. -/
def waiting (ch : Channel) (m : MessageInfo) : Event MessageInfo Change := .posted (ch.shown m) .keep

/-- A notice that the client can take in as it comes: a sealed edit finds its message in the list, and
what a direct channel is told needs no decryption, and is not about a message that waits for its
own. -/
def Timely (ch : Channel) (s : Timeline) : Notice → Prop
  | .newMessage _ => True
  | .sealedMessage _ => True
  | .sealedMessageEdited message => message.id ∈ ids s.messages
  | .messageEdited messageId newContent _ =>
    (messageId ∈ ids s.messages → ch.opened newContent = newContent) ∧
      (messageId ∈ ids s.decrypts → messageId ∈ ids s.messages)
  | .messagePinChanged messageId _ => messageId ∈ ids s.decrypts → messageId ∈ ids s.messages
  | .messageDeleted messageId => messageId ∉ ids s.decrypts

/-- What is still to be put into the list. -/
def pending (ch : Channel) (s : Timeline) : List (Event MessageInfo Change) :=
  s.decrypts.map (waiting ch) ++ (s.log.drop s.delivered).map (event ch)

/-- The list as it is going to be. -/
def settled (ch : Channel) (s : Timeline) : List MessageInfo := replays rows s.messages (pending ch s)

theorem replay_changed (k : ℕ) (how : Change) : replay rows l (.changed k how) =
    l.map fun x => if x.id = k then how.act x else x := List.append_nil _

theorem shown_of_not_dm (h : ∀ dmDecrypt, ch.kind ≠ .dm dmDecrypt) (m : MessageInfo) :
    ch.shown m = m := by
  have hopened : ch.opened m.content = m.content := by
    rw [Channel.opened]
    split
    · exact absurd ‹_› (h _)
    · rfl
  rw [Channel.shown, hopened]

theorem hear_eq (hnodup : (ids s.messages).Nodup) (ht : Timely ch s n)
    (hn : ∀ m, n = .newMessage m → ∀ dmDecrypt, ch.kind ≠ .dm dmDecrypt) :
    ch.hear s n = { s with messages := replay rows s.messages (event ch n) } := by
  cases n with
  | newMessage message =>
    have hkind := hn message rfl
    have hhear : ch.hear s (.newMessage message) =
        { s with messages := reduce (.newMessage message) s.messages } := by
      rw [Channel.hear]
      split
      · exact absurd ‹_› (hkind _)
      · rfl
    rw [hhear, reduce_newMessage, event, shown_of_not_dm hkind]
  | sealedMessage message =>
    show { s with messages := addOrUpdate message s.messages } = _
    by_cases hmem : message.id ∈ ids s.messages
    · have hany := any_key_iff (R := rows).mpr hmem
      rw [addOrUpdate_of_mem hmem hnodup, event, replay, told, if_pos hany, List.append_nil]
      rfl
    · have hany := mt (any_key_iff (R := rows)).mp hmem
      have hstay : amend rows s.messages (.posted message (.resealed message)) = s.messages :=
        amend_of_ne fun x hx heq => hmem (List.mem_map.mpr ⟨x, hx, heq.symm⟩)
      rw [addOrUpdate_of_not_mem hmem, event, replay, told, if_neg hany, hstay]
  | sealedMessageEdited message =>
    show { s with messages := addOrUpdate message s.messages } = _
    rw [addOrUpdate_of_mem ht hnodup, event, replay_changed]
    rfl
  | messageEdited messageId newContent editedAt =>
    rw [event, replay_changed]
    show { s with messages := s.messages.map _ } = { s with messages := s.messages.map _ }
    congr 1
    refine List.map_congr_left fun x hx => ?_
    split_ifs with hid
    · rw [ht.1 (List.mem_map.mpr ⟨x, hx, hid⟩)]
      rfl
    · rfl
  | messageDeleted messageId =>
    rw [event, replay_of_not_posted (e := .dropped messageId) fun _ _ h => by cases h]
    rfl
  | messagePinChanged messageId pinned =>
    rw [event, replay_changed]
    rfl

def Direct (ch : Channel) (s : Timeline) : Prop :=
  s.decrypts ≠ [] → ∃ dmDecrypt, ch.kind = .dm dmDecrypt

theorem pending_deliver (h : s.log[s.delivered]? = some n) :
    pending ch s = s.decrypts.map (waiting ch) ++
      event ch n :: (s.log.drop (s.delivered + 1)).map (event ch) := by
  obtain ⟨hlt, rfl⟩ := List.getElem?_eq_some_iff.mp h
  rw [pending, List.drop_eq_getElem_cons hlt]
  rfl

theorem replays_append_eq {u v : List (Event MessageInfo Change)} :
    replays rows l (u ++ v) = replays rows (replays rows l u) v := List.foldl_append

theorem not_posted_of_posts (h : n.posts = false) (row : MessageInfo) (again : Change) :
    event ch n ≠ .posted row again := by
  intro heq
  rw [(posted_event heq).1] at h
  exact Bool.false_ne_true h.symm

theorem replay_waiting (hposts : n.posts = false) (ht : Timely ch s n) :
    replay rows (replays rows s.messages (s.decrypts.map (waiting ch))) (event ch n) =
      replays rows (replay rows s.messages (event ch n)) (s.decrypts.map (waiting ch)) := by
  refine replays_comm (not_posted_of_posts hposts) fun e he => ?_
  obtain ⟨m, hm, rfl⟩ := List.mem_map.mp he
  refine ⟨ch.shown m, .keep, rfl, fun _ => rfl, fun hkey => ?_⟩
  rw [key_event] at hkey
  have hwaits : n.messageId ∈ ids s.decrypts := List.mem_map.mpr ⟨m, hm, hkey.symm⟩
  rw [← hkey]
  cases n with
  | newMessage | sealedMessage => exact absurd hposts.symm Bool.false_ne_true
  | sealedMessageEdited message => exact ⟨rfl, ht⟩
  | messageEdited messageId newContent editedAt => exact ⟨rfl, ht.2 hwaits⟩
  | messageDeleted messageId => exact absurd hwaits ht
  | messagePinChanged messageId pinned => exact ⟨rfl, ht hwaits⟩

theorem settled_deliver (hnodup : (ids s.messages).Nodup) (hdirect : Direct ch s)
    (hsealed : n.isSealed = some true → ch.kind = .e2ee) (h : s.log[s.delivered]? = some n)
    (ht : Timely ch s n) :
    settled ch (ch.hear { s with delivered := s.delivered + 1 } n) = settled ch s := by
  rw [settled, settled, pending_deliver h]
  by_cases hdm : ∃ m dmDecrypt, n = .newMessage m ∧ ch.kind = .dm dmDecrypt
  · obtain ⟨m, dmDecrypt, rfl, hkind⟩ := hdm
    have hhear : ch.hear { s with delivered := s.delivered + 1 } (.newMessage m) =
        { s with delivered := s.delivered + 1, decrypts := s.decrypts ++ [m] } := by
      rw [Channel.hear, hkind]
    rw [hhear, pending, List.map_append, List.append_assoc]
    rfl
  have hhear := hear_eq (s := { s with delivered := s.delivered + 1 }) hnodup ht
    fun m hm dmDecrypt hkind => hdm ⟨m, dmDecrypt, hm, hkind⟩
  rw [hhear, pending]
  by_cases hposts : n.posts = true
  · have hnone : s.decrypts = [] := by
      by_contra hne
      obtain ⟨dmDecrypt, hkind⟩ := hdirect hne
      cases n with
      | newMessage message => exact hdm ⟨message, dmDecrypt, rfl, hkind⟩
      | sealedMessage message => exact nomatch hkind.symm.trans (hsealed rfl)
      | messageEdited | sealedMessageEdited | messageDeleted | messagePinChanged =>
        exact absurd hposts Bool.false_ne_true
    rw [hnone]
    rfl
  · rw [replays_append_eq, replays_append_eq]
    refine congrArg (replays rows · _) ?_
    exact (replay_waiting (eq_false_of_ne_true hposts) ht).symm

theorem replay_waiting_of_mem (h : m.id ∈ ids l) : replay rows l (waiting ch m) = l := by
  have hany : (l.any fun x => rows.key x = rows.key (ch.shown m)) = true :=
    any_key_iff.mpr h
  have hsame : amend rows l (waiting ch m) = l := amend_of_stable fun x _ => ⟨ite_self x, rfl⟩
  rw [replay, hsame, waiting, told, if_pos hany, List.append_nil]

theorem replays_waiting_of_mem {decrypts : List MessageInfo} (h : ∀ m ∈ decrypts, m.id ∈ ids l) :
    replays rows l (decrypts.map (waiting ch)) = l := by
  induction decrypts with
  | nil => rfl
  | cons m decrypts ih =>
    rw [List.forall_mem_cons] at h
    show replays rows (replay rows l (waiting ch m)) _ = l
    rw [replay_waiting_of_mem h.1]
    exact ih h.2

theorem drops_waiting (decrypts : List MessageInfo) (k : ℕ) :
    (decrypts.map (waiting ch)).any (·.drops k) = false := by
  refine List.any_eq_false.mpr fun e he => ?_
  obtain ⟨m, -, rfl⟩ := List.mem_map.mp he
  exact Bool.false_ne_true

/-- The messages that came before a message are in the list when it is put there, or it is there. -/
def InTurn (s : Timeline) (i : ℕ) : Prop :=
  ∀ m, s.decrypts[i]? = some m →
    m.id ∈ ids s.messages ∨ ∀ d ∈ s.decrypts.take i, d.id ∈ ids s.messages

theorem settled_decrypted {i : ℕ} (h : s.decrypts[i]? = some m) (hturn : InTurn s i) :
    settled ch { s with
      decrypts := s.decrypts.eraseIdx i
      messages := reduce (.newMessage (ch.shown m)) s.messages } = settled ch s := by
  obtain ⟨hlt, hm⟩ := List.getElem?_eq_some_iff.mp h
  have hsplit : s.decrypts = s.decrypts.take i ++ m :: s.decrypts.drop (i + 1) := by
    rw [← hm, ← List.drop_eq_getElem_cons hlt, List.take_append_drop]
  have hturn := hturn m h
  set before := s.decrypts.take i
  set after := s.decrypts.drop (i + 1)
  have hswap : replays rows (replay rows s.messages (waiting ch m)) (before.map (waiting ch)) =
      replay rows (replays rows s.messages (before.map (waiting ch))) (waiting ch m) := by
    rcases hturn with hin | hbefore
    · have hthere : m.id ∈ ids (replays rows s.messages (before.map (waiting ch))) :=
        key_mem_replays (R := rows) (drops_waiting before m.id) (.inl hin)
      rw [replay_waiting_of_mem hin, replay_waiting_of_mem hthere]
    · rw [replays_waiting_of_mem hbefore, replays_waiting_of_mem]
      exact fun d hd => key_mem_replay (R := rows) (hbefore d hd) rfl
  rw [settled, settled, pending, pending, reduce_newMessage, replays_append_eq, replays_append_eq]
  refine congrArg (replays rows · _) ?_
  show replays rows (replay rows s.messages (waiting ch m)) _ = _
  rw [List.eraseIdx_eq_take_drop_succ]
  conv_rhs => rw [hsplit]
  show replays rows _ ((before ++ after).map (waiting ch)) = _
  rw [List.map_append, List.map_append, replays_append_eq, replays_append_eq, hswap]
  rfl

/-- The notices that were sent from one count to another. -/
def between (log : List Notice) (i j : ℕ) : List Notice := (log.take j).drop i

theorem mem_between {i j : ℕ} : n ∈ between log i j ↔ ∃ p, i ≤ p ∧ p < j ∧ log[p]? = some n := by
  rw [between, List.mem_iff_getElem?]
  simp only [List.getElem?_drop, List.getElem?_take]
  constructor
  · rintro ⟨p, hp⟩
    split_ifs at hp with hlt
    exact ⟨i + p, by omega, hlt, hp⟩
  · rintro ⟨p, hip, hpj, hp⟩
    refine ⟨p - i, ?_⟩
    rw [Nat.add_sub_cancel' hip, if_pos hpj]
    exact hp

theorem mem_drop_iff {i : ℕ} : n ∈ log.drop i ↔ ∃ p, i ≤ p ∧ log[p]? = some n := by
  rw [List.mem_iff_getElem?]
  simp only [List.getElem?_drop]
  constructor
  · rintro ⟨p, hp⟩
    exact ⟨i + p, by omega, hp⟩
  · rintro ⟨p, hip, hp⟩
    exact ⟨p - i, by rwa [Nat.add_sub_cancel' hip]⟩

theorem take_append_between {i j : ℕ} (h : i ≤ j) : log.take i ++ between log i j = log.take j := by
  have happend := List.take_append_drop i (log.take j)
  rwa [List.take_take, Nat.min_eq_left h] at happend

theorem between_append_drop {i j : ℕ} (h : i ≤ j) : between log i j ++ log.drop j = log.drop i := by
  have happend := List.take_append_drop (j - i) (log.drop i)
  rwa [← List.drop_take, List.drop_drop, Nat.add_sub_cancel' h] at happend

theorem take_append_drop_event (i : ℕ) :
    (log.take i).map (event ch) ++ (log.drop i).map (event ch) = log.map (event ch) := by
  rw [← List.map_append, List.take_append_drop]

theorem any_drops_event {w : List Notice} (k : ℕ) :
    (w.map (event ch)).any (·.drops k) = w.any (·.deletes k) := by
  rw [List.any_map]
  exact congrArg (List.any w) (funext fun n => drops_event k)

theorem log_take (h : ch.Log log) (i : ℕ) : Feed.Log rows ((log.take i).map (event ch)) := by
  have hlog := log_event h
  rw [← take_append_drop_event i] at hlog
  exact hlog.of_append

theorem log_between (h : ch.Log log) {i j : ℕ} (hij : i ≤ j) :
    Feed.Log rows ((log.take i).map (event ch) ++ (between log i j).map (event ch)) := by
  rw [← List.map_append, take_append_between hij]
  exact log_take h j

/-- Who has the last messages of some moment has the last ones when all has come. -/
theorem replays_drop_suffix (h : ch.Log log) {i : ℕ}
    (hl : l <:+ Feed.history rows ((log.take i).map (event ch))) :
    replays rows l ((log.drop i).map (event ch)) <:+ Feed.history rows (log.map (event ch)) := by
  have hlog := log_event h
  rw [← take_append_drop_event i] at hlog
  have hsuffix := replays_suffix hlog hl
  rwa [take_append_drop_event] at hsuffix

/-- A page that replaces the list: it is readable, nothing that came after it was read posts a message
or is about one of its own, and what waits, or was announced since it was asked for, is in it or was
deleted before it was read. -/
structure Covers (ch : Channel) (s : Timeline) (f : Fetch) (page : Page) : Prop where
  readable : f.purpose = .select → ∀ m ∈ page.rows, ch.shown m = m
  overtaken : ∀ n ∈ between s.log page.taken s.delivered,
    n.posts = false ∧ n.messageId ∉ ids page.rows
  waiting : ∀ m ∈ s.decrypts, m.id ∈ ids page.rows ∨
    (between s.log s.delivered page.taken).any (·.deletes m.id) = true
  announced : ∀ n ∈ between s.log f.asked page.taken, n.posts = true →
    n.messageId ∈ ids page.rows ∨
      (between s.log f.asked page.taken).any (·.deletes n.messageId) = true

/-- The ids of the messages that the list has or is to get. -/
def Known (s : Timeline) (k : ℕ) : Prop :=
  k ∈ ids s.messages ∨ k ∈ ids s.decrypts ∨ ∃ n ∈ s.log.drop s.delivered, n.posts = true ∧
    n.messageId = k

/-- A page that is put in front: it is readable, nothing that came after it was read is about one of
its messages, and the messages that the list has or is to get are those that the page ends before. -/
structure Continues (ch : Channel) (s : Timeline) (oldest : ℕ) (page : Page) : Prop where
  readable : ∀ m ∈ page.rows, ch.shown m = m
  overtaken : ∀ n ∈ between s.log page.taken s.delivered, n.messageId ∉ ids page.rows
  joined : ∀ m, m ∈ Ui.history s.log ∨ m ∈ page.rows →
    (oldest ≤ m.id ↔ Known s m.id)

theorem fetchHistory_suffix (l : List MessageInfo) (beforeId : Option ℕ) :
    (fetchHistory l beforeId).reverse <:+
      l.filter fun m => beforeId.all fun before => m.id < before := by
  rw [← List.reverse_reverse (l.filter _), List.reverse_suffix]
  exact List.take_prefix _ _

section Fill

variable {f : Fetch} {page : Page} {X : List MessageInfo}

theorem event_of_mem_map {w : List Notice} {row : MessageInfo} {again : Change}
    (h : .posted row again ∈ w.map (event ch)) :
    ∃ n ∈ w, event ch n = .posted row again ∧ n.posts = true ∧ n.messageId = row.id := by
  obtain ⟨n, hn, heq⟩ := List.mem_map.mp h
  exact ⟨n, hn, heq, posted_event heq⟩

/-- What was announced on the way to a page that is newer than what has come. -/
theorem announced_between (hlog : ch.Log s.log) (hasked : f.asked ≤ s.delivered)
    (hnewer : s.delivered ≤ page.taken) (hcovers : Covers ch s f page) {row : MessageInfo}
    {again : Change}
    (hrow : .posted row again ∈ (between s.log s.delivered page.taken).map (event ch)) :
    row.id ∈ ids page.rows ∨
      (between s.log s.delivered page.taken).any (·.deletes row.id) = true := by
  obtain ⟨n, hn, heq, hposts, hid⟩ := event_of_mem_map hrow
  obtain ⟨p, hp, hlt, hget⟩ := mem_between.mp hn
  have hann := hcovers.announced n (mem_between.mpr ⟨p, by omega, hlt, hget⟩) hposts
  rw [hid] at hann
  refine hann.imp_right fun hdel => ?_
  obtain ⟨n', hn', hdel⟩ := List.any_eq_true.mp hdel
  obtain ⟨p', hp', hlt', hget'⟩ := mem_between.mp hn'
  refine List.any_eq_true.mpr ⟨n', mem_between.mpr ⟨p', ?_, hlt', hget'⟩, hdel⟩
  by_contra hearly
  -- A message is deleted after it is posted.
  have hsplit := List.append_of_mem hrow
  obtain ⟨u, v, huv⟩ := hsplit
  have hwhole := log_between hlog hnewer
  rw [huv, ← List.append_assoc] at hwhole
  have hmem : event ch n' ∈ (s.log.take s.delivered).map (event ch) ++ u := by
    refine List.mem_append_left _ (List.mem_map_of_mem ?_)
    rw [List.mem_iff_getElem?]
    exact ⟨p', by rw [List.getElem?_take, if_pos (by omega), hget']⟩
  have hkey := hwhole.key_lt hmem
  rw [key_event] at hkey
  cases n' with
  | messageDeleted messageId =>
    have heq : messageId = row.id := of_decide_eq_true hdel
    exact absurd hkey (heq ▸ Nat.lt_irrefl messageId)
  | newMessage | sealedMessage | messageEdited | sealedMessageEdited | messagePinChanged =>
    exact Bool.false_ne_true hdel

theorem take_suffix_of_overtaken (hlog : ch.Log s.log) (holder : page.taken ≤ s.delivered)
    (hX : X <:+ Feed.history rows ((s.log.take page.taken).map (event ch)))
    (hids : ids X = (ids page.rows).reverse) (hcovers : Covers ch s f page) :
    X <:+ Feed.history rows ((s.log.take s.delivered).map (event ch)) := by
  have hsuffix := replays_suffix (log_between hlog holder) hX
  have hsame : replays rows X ((between s.log page.taken s.delivered).map (event ch)) = X := by
    have hstay : ∀ e ∈ (between s.log page.taken s.delivered).map (event ch),
        replay rows X e = X := by
      intro e he
      obtain ⟨n, hn, rfl⟩ := List.mem_map.mp he
      obtain ⟨hposts, hid⟩ := hcovers.overtaken n hn
      rw [replay_of_not_posted (not_posted_of_posts hposts)]
      refine amend_of_ne fun x hx heq => hid ?_
      rw [key_event] at heq
      have hxids : x.id ∈ (ids page.rows).reverse := hids ▸ List.mem_map_of_mem hx
      rw [heq]
      exact List.mem_reverse.mp hxids
    clear hsuffix
    generalize (between s.log page.taken s.delivered).map (event ch) = w at hstay
    induction w with
    | nil => rfl
    | cons e w ih =>
      rw [List.forall_mem_cons] at hstay
      show replays rows (replay rows X e) w = X
      rw [hstay.1]
      exact ih hstay.2
  rw [hsame, ← List.map_append, take_append_between holder] at hsuffix
  exact hsuffix

/-- A page that covers what is on its way is the end of the history when all has come. -/
theorem settled_fill (hlog : ch.Log s.log) (hasked : f.asked ≤ s.delivered)
    (hX : X <:+ Feed.history rows ((s.log.take page.taken).map (event ch)))
    (hids : ids X = (ids page.rows).reverse) (hcovers : Covers ch s f page) :
    replays rows X (pending ch s) <:+ Feed.history rows (s.log.map (event ch)) := by
  have hmem : ∀ k, k ∈ ids X ↔ k ∈ ids page.rows := by
    intro k
    rw [hids, List.mem_reverse]
  have hwaits : ∀ {w : List (Event MessageInfo Change)}, (∀ m ∈ s.decrypts, m.id ∈ ids page.rows ∨
      w.any (·.drops m.id) = true) → ∀ e ∈ s.decrypts.map (waiting ch),
        ∃ row again, e = .posted row again ∧
          (rows.key row ∈ X.map rows.key ∨ w.any (·.drops (rows.key row)) = true) := by
    intro w hw e he
    obtain ⟨m, hm, rfl⟩ := List.mem_map.mp he
    exact ⟨ch.shown m, .keep, rfl, (hw m hm).imp_left (hmem m.id).mpr⟩
  have hidle : ∀ row again, .posted row again ∈ s.decrypts.map (waiting ch) →
      ∀ x, rows.act again x = x := by
    intro row again hrow x
    obtain ⟨m, -, heq⟩ := List.mem_map.mp hrow
    obtain ⟨-, rfl⟩ := Event.posted.inj heq
    rfl
  rcases Nat.le_total s.delivered page.taken with hnewer | holder
  · have hwhole := log_between hlog hnewer
    have hX' : X <:+ Feed.history rows ((s.log.take s.delivered).map (event ch) ++
        (between s.log s.delivered page.taken).map (event ch)) := by
      rwa [← List.map_append, take_append_between hnewer]
    have hcopy := replays_copy (l := X) hwhole (fun x hx => hX'.subset hx) hidle
      (hwaits fun m hm => (hcovers.waiting m hm).imp_right fun h => by rwa [any_drops_event])
      fun row again hrow => (announced_between hlog hasked hnewer hcovers hrow).imp
        (hmem row.id).mpr fun h => by rw [any_drops_event]; exact h
    have hpending : pending ch s = (s.decrypts.map (waiting ch) ++
        (between s.log s.delivered page.taken).map (event ch)) ++
          (s.log.drop page.taken).map (event ch) := by
      rw [pending, ← between_append_drop hnewer, List.map_append, List.append_assoc]
    rw [hpending, replays_append_eq, hcopy]
    exact replays_drop_suffix hlog hX
  · have hX' := take_suffix_of_overtaken hlog holder hX hids hcovers
    have hnone : between s.log s.delivered page.taken = [] := by
      refine List.eq_nil_iff_forall_not_mem.mpr fun n hn => ?_
      obtain ⟨p, hp, hlt, -⟩ := mem_between.mp hn
      omega
    have hcopy : replays rows X (s.decrypts.map (waiting ch)) = X := by
      refine replays_waiting_of_mem fun m hm => (hmem m.id).mpr ?_
      have hwait := hcovers.waiting m hm
      rw [hnone] at hwait
      exact hwait.resolve_right Bool.false_ne_true
    rw [pending, replays_append_eq, hcopy]
    exact replays_drop_suffix hlog hX'

theorem key_kept (hlog : ch.Log log) (i : ℕ) (hm : m ∈ Feed.history rows (log.map (event ch))) :
    (log.drop i).any (·.deletes m.id) = false := by
  have hlog := log_event hlog
  rw [← take_append_drop_event i] at hlog hm
  have hkept := (hlog.stable hm).2
  rwa [any_drops_event] at hkept

theorem posted_of_drop {i : ℕ} (hn : n ∈ log.drop i) (hposts : n.posts = true) :
    ∃ row again, .posted row again ∈ (log.drop i).map (event ch) ∧ rows.key row = n.messageId := by
  obtain ⟨row, again, heq, hid⟩ := event_of_posts hposts
  exact ⟨row, again, heq ▸ List.mem_map_of_mem hn, hid⟩

theorem pending_kept (hlog : ch.Log s.log)
    (hm : m ∈ Feed.history rows (s.log.map (event ch))) :
    (pending ch s).any (·.drops m.id) = false := by
  rw [pending, List.any_append, drops_waiting, any_drops_event, key_kept hlog _ hm]
  rfl

/-- What was announced since the page was asked for is in the list when all has come. -/
theorem mem_settled_fill (hlog : ch.Log s.log) (hids : ids X = (ids page.rows).reverse)
    (hcovers : Covers ch s f page) (hm : m ∈ Feed.history rows (s.log.map (event ch)))
    (hn : n ∈ s.log.drop f.asked) (hposts : n.posts = true) (hid : n.messageId = m.id) :
    m.id ∈ ids (replays rows X (pending ch s)) := by
  refine key_mem_replays (R := rows) (pending_kept hlog hm) ?_
  obtain ⟨p, hp, hget⟩ := mem_drop_iff.mp hn
  by_cases hlate : s.delivered ≤ p
  · obtain ⟨row, again, hrow, hkey⟩ :=
      posted_of_drop (mem_drop_iff.mpr ⟨p, hlate, hget⟩) hposts
    exact .inr ⟨row, again, List.mem_append_right _ hrow, hkey.trans hid⟩
  · refine .inl ?_
    have hin : m.id ∈ ids page.rows := by
      by_cases htaken : p < page.taken
      · have hann := hcovers.announced n (mem_between.mpr ⟨p, hp, htaken, hget⟩) hposts
        rw [hid] at hann
        refine hann.resolve_right fun hdel => ?_
        obtain ⟨n', hn', hdel⟩ := List.any_eq_true.mp hdel
        obtain ⟨p', hp', -, hget'⟩ := mem_between.mp hn'
        have hkept := key_kept hlog f.asked hm
        rw [List.any_eq_false] at hkept
        exact hkept n' (mem_drop_iff.mpr ⟨p', hp', hget'⟩) hdel
      · have hovertaken := hcovers.overtaken n (mem_between.mpr ⟨p, by omega, by omega, hget⟩)
        exact absurd hposts (by rw [hovertaken.1]; exact Bool.false_ne_true)
    have hX : m.id ∈ ids X := by rwa [hids, List.mem_reverse]
    exact hX

end Fill

section Scroll

variable {oldest : ℕ} {page : Page} {P : List MessageInfo}

theorem key_of_mem_replays {w : List (Event MessageInfo Change)} {k : ℕ}
    (h : k ∈ ids (replays rows l w)) :
    k ∈ ids l ∨ ∃ row again, .posted row again ∈ w ∧ row.id = k := by
  induction w generalizing l with
  | nil => exact .inl h
  | cons e w ih =>
    rcases ih h with hk | ⟨row, again, hrow, hid⟩
    · rw [ids, replay, List.map_append, List.mem_append] at hk
      rcases hk with hk | hk
      · exact .inl (key_mem_amend (R := rows) hk)
      · cases e with
        | posted row again =>
          rw [told] at hk
          split_ifs at hk
          · exact absurd hk List.not_mem_nil
          · exact .inr ⟨row, again, List.mem_cons_self, (List.mem_singleton.mp hk).symm⟩
        | changed | dropped => exact absurd hk List.not_mem_nil
    · exact .inr ⟨row, again, List.mem_cons_of_mem e hrow, hid⟩

theorem posted_pending_iff {k : ℕ} :
    (∃ row again, .posted row again ∈ pending ch s ∧ row.id = k) ↔
      k ∈ ids s.decrypts ∨ ∃ n ∈ s.log.drop s.delivered, n.posts = true ∧ n.messageId = k := by
  constructor
  · rintro ⟨row, again, hrow, rfl⟩
    rcases List.mem_append.mp hrow with hrow | hrow
    · obtain ⟨m, hm, heq⟩ := List.mem_map.mp hrow
      obtain ⟨rfl, -⟩ := Event.posted.inj heq
      exact .inl (List.mem_map.mpr ⟨m, hm, rfl⟩)
    · obtain ⟨n, hn, -, hposts, hid⟩ := event_of_mem_map hrow
      exact .inr ⟨n, hn, hposts, hid⟩
  · rintro (hk | ⟨n, hn, hposts, rfl⟩)
    · obtain ⟨m, hm, rfl⟩ := List.mem_map.mp hk
      exact ⟨ch.shown m, .keep, List.mem_append_left _ (List.mem_map_of_mem hm), rfl⟩
    · obtain ⟨row, again, hrow, hid⟩ := posted_of_drop hn hposts
      exact ⟨row, again, List.mem_append_right _ hrow, hid⟩

theorem known_iff (hlog : ch.Log s.log) (hm : m ∈ Feed.history rows (s.log.map (event ch))) :
    m.id ∈ ids (settled ch s) ↔ Known s m.id := by
  constructor
  · intro h
    exact (key_of_mem_replays h).imp_right posted_pending_iff.mp
  · intro h
    exact key_mem_replays (R := rows) (pending_kept hlog hm)
      (h.imp_right posted_pending_iff.mpr)

theorem filter_lt_of_suffix {H Z V : List MessageInfo} (hH : H = Z ++ V)
    (h : ∀ m ∈ H, m ∈ V ↔ oldest ≤ m.id) (hnodup : H.Nodup) :
    (H.filter fun m => m.id < oldest) = Z := by
  subst hH
  have hZ : (Z.filter fun m => m.id < oldest) = Z := by
    refine List.filter_eq_self.mpr fun m hm => decide_eq_true ?_
    by_contra hlt
    have hV := (h m (List.mem_append_left _ hm)).mpr (Nat.not_lt.mp hlt)
    exact (List.nodup_append.mp hnodup).2.2 m hm m hV rfl
  have hV : (V.filter fun m => m.id < oldest) = [] := by
    refine List.filter_eq_nil_iff.mpr fun m hm hlt => ?_
    have hle := (h m (List.mem_append_right _ hm)).mp hm
    have hlt := of_decide_eq_true hlt
    omega
  rw [List.filter_append, hZ, hV, List.append_nil]

theorem mem_history_iff (hlog : ch.Log log) {k : ℕ} :
    k ∈ ids (Feed.history rows (log.map (event ch))) ↔ k ∈ ids (Ui.history log) := by
  rw [← history_event hlog]
  show k ∈ (List.map ch.shown _).map MessageInfo.id ↔ _
  rw [ids_shown]

theorem nodup_ids_history (hlog : ch.Log log) :
    (ids (Feed.history rows (log.map (event ch)))).Nodup :=
  (List.pairwise_map.mpr (log_event hlog).sorted).imp Nat.ne_of_lt

/-- What is pending leaves the messages of the page, but for what was sent after it was read. -/
theorem amends_page (hlog : ch.Log s.log) (hcontinues : Continues ch s oldest page)
    (hP : P ⊆ Feed.history rows ((s.log.take page.taken).map (event ch)))
    (hids : ids P = (ids page.rows).reverse) :
    amends rows P (pending ch s) = amends rows P ((s.log.drop page.taken).map (event ch)) := by
  have hwaiting : amends rows P (s.decrypts.map (waiting ch)) = P := by
    generalize s.decrypts = decrypts
    induction decrypts with
    | nil => rfl
    | cons m decrypts ih =>
      have hsame : amend rows P (waiting ch m) = P := amend_of_stable fun x _ => ⟨ite_self x, rfl⟩
      show amends rows (amend rows P (waiting ch m)) _ = P
      rw [hsame]
      exact ih
  have happend : ∀ u v : List (Event MessageInfo Change),
      amends rows P (u ++ v) = amends rows (amends rows P u) v := fun u v => List.foldl_append
  rw [pending, happend, hwaiting]
  rcases Nat.le_total s.delivered page.taken with hnewer | holder
  · have hstable : amends rows P ((between s.log s.delivered page.taken).map (event ch)) = P := by
      refine amends_of_stable (log_between hlog hnewer) fun x hx => ?_
      rw [← List.map_append, take_append_between hnewer]
      exact hP hx
    rw [← between_append_drop hnewer, List.map_append, happend, hstable]
  · have hstable : amends rows P ((between s.log page.taken s.delivered).map (event ch)) = P := by
      refine amends_of_ne fun e he x hx heq => ?_
      obtain ⟨n, hn, rfl⟩ := List.mem_map.mp he
      rw [key_event] at heq
      have hx : x.id ∈ (ids page.rows).reverse := hids ▸ List.mem_map_of_mem hx
      exact hcontinues.overtaken n hn (heq ▸ List.mem_reverse.mp hx)
    rw [← between_append_drop holder, List.map_append, happend, hstable]

theorem settled_scroll (hlog : ch.Log s.log) (hcontinues : Continues ch s oldest page)
    (hP : P <:+ (Feed.history rows ((s.log.take page.taken).map (event ch))).filter fun m =>
      m.id < oldest)
    (hids : ids P = (ids page.rows).reverse)
    (holdest : ∃ n ∈ s.log.take page.taken, n.messageId = oldest)
    (hsettled : settled ch s <:+ Feed.history rows (s.log.map (event ch))) :
    replays rows (P ++ s.messages) (pending ch s) <:+
      Feed.history rows (s.log.map (event ch)) := by
  have hbefore : ∀ k, k ∈ ids P → k < oldest ∧ ∃ m ∈ page.rows, m.id = k := by
    intro k hk
    obtain ⟨x, hx, rfl⟩ := List.mem_map.mp hk
    refine ⟨of_decide_eq_true (List.mem_filter.mp (hP.subset hx)).2, ?_⟩
    rw [hids] at hk
    exact List.mem_map.mp (List.mem_reverse.mp hk)
  have hfront : replays rows (P ++ s.messages) (pending ch s) =
      amends rows P (pending ch s) ++ settled ch s := by
    refine replays_append fun row again hrow hmem => ?_
    obtain ⟨hlt, m, hm, hid⟩ := hbefore _ hmem
    have hknown : Known s m.id := .inr (posted_pending_iff.mp ⟨row, again, hrow, hid.symm⟩)
    have hle := (hcontinues.joined m (.inr hm)).mpr hknown
    rw [hid] at hle
    omega
  have hsub : P ⊆ Feed.history rows ((s.log.take page.taken).map (event ch)) := fun x hx =>
    List.mem_of_mem_filter (hP.subset hx)
  obtain ⟨n, hn, hnid⟩ := holdest
  have holder : amends rows P (pending ch s) <:+
      (Feed.history rows (s.log.map (event ch))).filter fun m => m.id < oldest := by
    have hwhole := log_event hlog
    rw [← take_append_drop_event page.taken] at hwhole
    have hsuffix := amends_older hwhole hP fun row again hrow => ?_
    · rw [take_append_drop_event] at hsuffix
      rw [amends_page hlog hcontinues hsub hids]
      exact hsuffix
    · obtain ⟨u, v, huv⟩ := List.append_of_mem hrow
      rw [huv, ← List.append_assoc] at hwhole
      have hlt := hwhole.key_lt (List.mem_append_left u (List.mem_map_of_mem hn))
      rw [key_event, hnid] at hlt
      exact Nat.le_of_lt hlt
  obtain ⟨Z, hZ⟩ := hsettled
  have hjoined : ∀ m ∈ Feed.history rows (s.log.map (event ch)),
      m ∈ settled ch s ↔ oldest ≤ m.id := by
    intro m hm
    have hraw : ∃ m' ∈ Ui.history s.log, m'.id = m.id :=
      List.mem_map.mp ((mem_history_iff hlog).mp (List.mem_map_of_mem hm))
    obtain ⟨m', hm', hid⟩ := hraw
    rw [← hid, hcontinues.joined m' (.inl hm'), hid, ← known_iff hlog hm]
    refine ⟨fun h => List.mem_map_of_mem h, fun h => ?_⟩
    obtain ⟨x, hx, hxid⟩ := List.mem_map.mp h
    have hxH : x ∈ Feed.history rows (s.log.map (event ch)) := hZ ▸ List.mem_append_right Z hx
    have heq := List.inj_on_of_nodup_map (nodup_ids_history hlog) hxH hm hxid
    rwa [← heq]
  have hfilter := filter_lt_of_suffix hZ.symm hjoined (nodup_ids_history hlog).of_map
  rw [hfilter] at holder
  obtain ⟨Z', hZ'⟩ := holder
  refine ⟨Z', ?_⟩
  rw [hfront, ← List.append_assoc, hZ', hZ]

end Scroll

/-- A fetch, after `delivered` notices of the log have come. -/
structure Asked (log : List Notice) (delivered : ℕ) (f : Fetch) : Prop where
  asked : f.asked ≤ delivered
  oldest : ∀ oldest, f.purpose.beforeId = some oldest → ∃ n ∈ log, n.messageId = oldest
  taken : ∀ page, f.answer = some page → page.taken ≤ log.length
  rows : ∀ page, f.answer = some page →
    page.rows = fetchHistory (Ui.history (log.take page.taken)) f.purpose.beforeId
  before : ∀ page, f.answer = some page → ∀ oldest, f.purpose.beforeId = some oldest →
    ∃ n ∈ log.take page.taken, n.messageId = oldest

/-- What holds of a client whatever has come in what order. -/
structure Coherent (ch : Channel) (s : Timeline) : Prop where
  log : ch.Log s.log
  delivered : s.delivered ≤ s.log.length
  since : s.since ≤ s.delivered
  direct : Direct ch s
  known : ∀ k ∈ ids s.messages ++ ids s.decrypts, ∃ n ∈ s.log, n.messageId = k
  fetches : ∀ f ∈ s.fetches, Asked s.log s.delivered f

theorem Asked.mono {f : Fetch} {k : ℕ} (h : Asked log s.delivered f) (hk : s.delivered ≤ k)
    (more : List Notice) : Asked (log ++ more) k f := by
  obtain ⟨hasked, holdest, htaken, hrows, hbefore⟩ := h
  refine ⟨hasked.trans hk, fun oldest ho => ?_, fun page hpage => ?_, fun page hpage => ?_,
    fun page hpage => ?_⟩
  · obtain ⟨n, hn, hid⟩ := holdest oldest ho
    exact ⟨n, List.mem_append_left more hn, hid⟩
  · rw [List.length_append]
    exact (htaken page hpage).trans (Nat.le_add_right _ _)
  · rw [List.take_append_of_le_length (htaken page hpage)]
    exact hrows page hpage
  · rw [List.take_append_of_le_length (htaken page hpage)]
    exact hbefore page hpage

theorem known_of_history (hlog : ch.Log log) (hm : m ∈ Ui.history log) :
    ∃ n ∈ log, n.messageId = m.id := by
  have hids : m.id ∈ ids (Feed.history rows (log.map (event ch))) :=
    (mem_history_iff hlog).mpr (List.mem_map_of_mem hm)
  obtain ⟨x, hx, hid⟩ := List.mem_map.mp hids
  obtain ⟨e, he, hkey⟩ := key_of_mem_history hx
  obtain ⟨n, hn, rfl⟩ := List.mem_map.mp he
  rw [key_event] at hkey
  exact ⟨n, hn, hkey.trans hid⟩

theorem ids_addOrUpdate {k : ℕ} (h : k ∈ ids (addOrUpdate m l)) : k ∈ ids l ∨ k = m.id := by
  obtain ⟨x, hx, rfl⟩ := List.mem_map.mp h
  rcases mem_addOrUpdate hx with hx | rfl
  · exact .inl (List.mem_map_of_mem hx)
  · exact .inr rfl

theorem ids_map_if {k : ℕ} (id : ℕ) (f : MessageInfo → MessageInfo) (hf : ∀ m, (f m).id = m.id)
    (h : k ∈ ids (l.map fun m => if m.id = id then f m else m)) : k ∈ ids l := by
  rw [ids, List.map_map] at h
  obtain ⟨x, hx, rfl⟩ := List.mem_map.mp h
  refine List.mem_map.mpr ⟨x, hx, ?_⟩
  rw [Function.comp_apply]
  split_ifs
  · exact (hf x).symm
  · rfl

/-- A notice puts nothing into the list, or in line for it, but its own message. -/
theorem known_hear {k : ℕ}
    (h : k ∈ ids (ch.hear s n).messages ++ ids (ch.hear s n).decrypts) :
    k ∈ ids s.messages ++ ids s.decrypts ∨ k = n.messageId := by
  have hlist : ∀ {l : List MessageInfo}, (k ∈ ids l → k ∈ ids s.messages ∨ k = n.messageId) →
      k ∈ ids l ++ ids s.decrypts → k ∈ ids s.messages ++ ids s.decrypts ∨ k = n.messageId := by
    intro l hl h
    rcases List.mem_append.mp h with h | h
    · exact (hl h).imp_left (List.mem_append_left _)
    · exact .inl (List.mem_append_right _ h)
  have hnew : ∀ message : MessageInfo, k ∈ ids (reduce (.newMessage message) s.messages) →
      k ∈ ids s.messages ∨ k = message.id := by
    intro message h
    rw [reduce_newMessage] at h
    rcases key_of_mem_replays (w := [_]) h with h | ⟨row, again, hrow, rfl⟩
    · exact .inl h
    · obtain ⟨rfl, -⟩ := Event.posted.inj (List.mem_singleton.mp hrow)
      exact .inr rfl
  cases n with
  | newMessage message =>
    rw [Channel.hear] at h
    split at h
    · rw [ids, ids, List.map_append, ← List.append_assoc, List.mem_append] at h
      exact h.imp_right List.mem_singleton.mp
    · exact hlist (hnew message) h
  | sealedMessage message => exact hlist ids_addOrUpdate h
  | sealedMessageEdited message => exact hlist ids_addOrUpdate h
  | messageEdited messageId newContent editedAt =>
    refine hlist ?_ h
    exact fun h => .inl (ids_map_if messageId
      (fun m => { m with content := newContent, editedAt := some editedAt }) (fun _ => rfl) h)
  | messageDeleted messageId =>
    exact hlist (fun h => .inl ((List.filter_sublist.map _).subset h)) h
  | messagePinChanged messageId pinned =>
    refine hlist ?_ h
    exact fun h => .inl (ids_map_if messageId (fun m => { m with pinned }) (fun _ => rfl) h)

theorem hear_fields : (ch.hear s n).log = s.log ∧ (ch.hear s n).delivered = s.delivered ∧
    (ch.hear s n).fetches = s.fetches ∧ (ch.hear s n).since = s.since := by
  cases n with
  | newMessage message =>
    rw [Channel.hear]
    split <;> exact ⟨rfl, rfl, rfl, rfl⟩
  | sealedMessage | sealedMessageEdited | messageEdited | messageDeleted | messagePinChanged =>
    exact ⟨rfl, rfl, rfl, rfl⟩

theorem direct_hear (h : Direct ch s) : Direct ch (ch.hear s n) := by
  cases n with
  | newMessage message =>
    rcases hkind : ch.kind with _ | _ | dmDecrypt
    · have hhear : (ch.hear s (.newMessage message)).decrypts = s.decrypts := by
        rw [Channel.hear, hkind]
      rw [Direct, hhear]
      exact h
    · have hhear : (ch.hear s (.newMessage message)).decrypts = s.decrypts := by
        rw [Channel.hear, hkind]
      rw [Direct, hhear]
      exact h
    · exact fun _ => ⟨dmDecrypt, hkind⟩
  | sealedMessage | sealedMessageEdited | messageEdited | messageDeleted | messagePinChanged =>
    exact h

theorem mem_fetchHistory {beforeId : Option ℕ} (h : m ∈ fetchHistory l beforeId) :
    m ∈ l ∧ beforeId.all (fun before => m.id < before) = true := by
  have hrev := (fetchHistory_suffix l beforeId).subset (List.mem_reverse.mpr h)
  exact List.mem_filter.mp hrev

theorem mem_insertions {k i : ℕ} (h : k ∈ ids (s.decrypts.eraseIdx i)) : k ∈ ids s.decrypts :=
  ((List.eraseIdx_sublist s.decrypts i).map _).subset h

theorem ids_receive {f : Fetch} {page : Page} {k : ℕ}
    (h : k ∈ ids (ch.receive s f page).messages) : k ∈ ids s.messages ∨ k ∈ ids page.rows := by
  unfold Channel.receive at h
  split at h
  · refine .inr ?_
    have hk : k ∈ ids page.rows.reverse := h
    rwa [ids, List.map_reverse, List.mem_reverse] at hk
  · refine .inr ?_
    have hk : k ∈ ids (page.rows.map ch.shown).reverse := h
    rwa [ids, List.map_reverse, List.mem_reverse, ids_shown] at hk
  · split_ifs at h
    · exact .inl h
    · have hk : k ∈ ids (page.rows.reverse ++ s.messages) := h
      rw [ids, List.map_append, List.map_reverse, List.mem_append, List.mem_reverse] at hk
      exact hk.symm

theorem since_receive {f : Fetch} {page : Page} (hs : s.since ≤ s.delivered)
    (hf : f.asked ≤ s.delivered) : (ch.receive s f page).since ≤ s.delivered := by
  unfold Channel.receive
  split
  · exact hf
  · exact hf
  · split_ifs <;> exact hs

theorem receive_fields {f : Fetch} {page : Page} : (ch.receive s f page).log = s.log ∧
    (ch.receive s f page).delivered = s.delivered ∧
    (ch.receive s f page).decrypts = s.decrypts ∧ (ch.receive s f page).fetches = s.fetches := by
  unfold Channel.receive
  split
  · exact ⟨rfl, rfl, rfl, rfl⟩
  · exact ⟨rfl, rfl, rfl, rfl⟩
  · split_ifs <;> exact ⟨rfl, rfl, rfl, rfl⟩

theorem Coherent.ask {f : Fetch} (h : Coherent ch s) (hf : Asked s.log s.delivered f) :
    Coherent ch { s with fetches := s.fetches ++ [f] } := by
  refine ⟨h.log, h.delivered, h.since, h.direct, h.known, ?_⟩
  rw [List.forall_mem_append, List.forall_mem_singleton]
  exact ⟨h.fetches, hf⟩

theorem asked_new {purpose : Purpose}
    (h : ∀ oldest, purpose.beforeId = some oldest → ∃ n ∈ log, n.messageId = oldest) (k : ℕ) :
    Asked log k ⟨purpose, k, none⟩ := by
  refine ⟨Nat.le_refl k, h, ?_, ?_, ?_⟩
  · rintro page ⟨⟩
  · rintro page ⟨⟩
  · rintro page ⟨⟩

theorem coherent_notice (h : Coherent ch s) (hn : ch.Allows s.log n) :
    Coherent ch { s with log := s.log ++ [n] } := by
  refine ⟨h.log.snoc hn, ?_, h.since, h.direct, fun k hk => ?_, fun f hf => ?_⟩
  · rw [List.length_append]
    exact h.delivered.trans (Nat.le_add_right _ _)
  · obtain ⟨n', hn', hid⟩ := h.known k hk
    exact ⟨n', List.mem_append_left _ hn', hid⟩
  · exact (h.fetches f hf).mono (Nat.le_refl _) [n]

theorem coherent_snapshot {i : ℕ} {f : Fetch} (h : Coherent ch s) (hf : s.fetches[i]? = some f) :
    Coherent ch { s with fetches := s.fetches.set i { f with
      answer := some ⟨s.log.length, fetchHistory (Ui.history s.log) f.purpose.beforeId⟩ } } := by
  refine ⟨h.log, h.delivered, h.since, h.direct, h.known, fun g hg => ?_⟩
  rcases List.mem_or_eq_of_mem_set hg with hg | rfl
  · exact h.fetches g hg
  · obtain ⟨hasked, holdest, -, -, -⟩ := h.fetches f (List.mem_of_getElem? hf)
    refine ⟨hasked, holdest, ?_, ?_, ?_⟩
    · rintro page ⟨⟩
      exact Nat.le_refl _
    · rintro page ⟨⟩
      rw [List.take_length]
    · rintro page ⟨⟩
      rw [List.take_length]
      exact holdest

theorem coherent_deliver (h : Coherent ch s) (hn : s.log[s.delivered]? = some n) :
    Coherent ch (ch.hear { s with delivered := s.delivered + 1 } n) := by
  obtain ⟨hlog, hdelivered, hfetches, hsince⟩ :=
    hear_fields (s := { s with delivered := s.delivered + 1 }) (n := n)
  have hlt := (List.getElem?_eq_some_iff.mp hn).1
  refine ⟨?_, ?_, ?_, direct_hear h.direct, fun k hk => ?_, fun f hf => ?_⟩
  · rw [hlog]
    exact h.log
  · rw [hlog, hdelivered]
    exact hlt
  · rw [hsince, hdelivered]
    exact h.since.trans (Nat.le_succ _)
  · rw [hlog]
    rcases known_hear hk with hk | rfl
    · exact h.known k hk
    · exact ⟨n, List.mem_of_getElem? hn, rfl⟩
  · rw [hlog, hdelivered]
    rw [hfetches] at hf
    have hmono := (h.fetches f hf).mono (Nat.le_succ s.delivered) []
    rwa [List.append_nil] at hmono

theorem coherent_decrypted {i : ℕ} (h : Coherent ch s) (hm : s.decrypts[i]? = some m) :
    Coherent ch { s with
      decrypts := s.decrypts.eraseIdx i
      messages := reduce (.newMessage (ch.shown m)) s.messages } := by
  refine ⟨h.log, h.delivered, h.since, fun hne => h.direct fun hnil => hne ?_, fun k hk => ?_,
    h.fetches⟩
  · show s.decrypts.eraseIdx i = []
    rw [hnil, List.eraseIdx_nil]
  · refine h.known k ?_
    rcases List.mem_append.mp hk with hk | hk
    · have hk : k ∈ ids (reduce (.newMessage (ch.shown m)) s.messages) := hk
      rw [reduce_newMessage] at hk
      rcases key_of_mem_replays (w := [_]) hk with hk | ⟨row, again, hrow, rfl⟩
      · exact List.mem_append_left _ hk
      · obtain ⟨rfl, -⟩ := Event.posted.inj (List.mem_singleton.mp hrow)
        exact List.mem_append_right _ (List.mem_map.mpr ⟨m, List.mem_of_getElem? hm, rfl⟩)
    · exact List.mem_append_right _ (mem_insertions hk)

theorem coherent_answered {i : ℕ} {f : Fetch} {page : Page} (h : Coherent ch s)
    (hf : s.fetches[i]? = some f) (hpage : f.answer = some page) :
    Coherent ch (ch.receive { s with fetches := s.fetches.eraseIdx i } f page) := by
  obtain ⟨hlog, hdelivered, hdecrypts, hfetches⟩ :=
    receive_fields (s := { s with fetches := s.fetches.eraseIdx i })
  have hasked := h.fetches f (List.mem_of_getElem? hf)
  refine ⟨?_, ?_, ?_, ?_, fun k hk => ?_, fun g hg => ?_⟩
  · rw [hlog]
    exact h.log
  · rw [hlog, hdelivered]
    exact h.delivered
  · rw [hdelivered]
    exact since_receive (s := { s with fetches := s.fetches.eraseIdx i }) h.since hasked.asked
  · rw [Direct, hdecrypts]
    exact h.direct
  · rw [hlog]
    rw [hdecrypts] at hk
    rcases List.mem_append.mp hk with hk | hk
    · rcases ids_receive hk with hk | hk
      · exact h.known k (List.mem_append_left _ hk)
      · obtain ⟨x, hx, rfl⟩ := List.mem_map.mp hk
        rw [hasked.rows page hpage] at hx
        have hsent := h.log
        rw [← List.take_append_drop page.taken s.log] at hsent
        obtain ⟨n, hn, hid⟩ := known_of_history hsent.of_append (mem_fetchHistory hx).1
        exact ⟨n, List.mem_of_mem_take hn, hid⟩
    · exact h.known k (List.mem_append_right _ hk)
  · rw [hlog, hdelivered]
    rw [hfetches] at hg
    exact h.fetches g (List.mem_of_mem_eraseIdx hg)

/-- With what is still to be put into it, the list is the end of the history, and reaches back to what
came first since it was last filled. -/
structure Synced (ch : Channel) (s : Timeline) : Prop where
  nodup : (ids s.messages).Nodup
  suffix : settled ch s <:+ Feed.history rows (s.log.map (event ch))
  complete : ∀ m ∈ Feed.history rows (s.log.map (event ch)),
    (∃ n ∈ s.log.drop s.since, n.posts = true ∧ n.messageId = m.id) → m.id ∈ ids (settled ch s)

/-- A page is still to come that replaces the list. -/
def Awaits (s : Timeline) : Prop := ∃ f ∈ s.fetches, f.purpose.beforeId = none

/-- The condition on a step, in the state before it. -/
def Orderly (ch : Channel) (s : Timeline) : Op → Prop
  | .deliver => ∀ n, s.log[s.delivered]? = some n → Timely ch s n
  | .decrypted i => InTurn s i
  | .answered i => ∀ f page, s.fetches[i]? = some f → f.answer = some page →
    match f.purpose with
    | .scroll oldest => page.rows = [] ∨ Continues ch s oldest page
    | _ => Covers ch s f page
  | _ => True

/-- A message that was posted before a notice, and is there after it, was there. -/
theorem posted_before {a : List (Event MessageInfo Change)} {e : Event MessageInfo Change}
    (hlog : Feed.Log rows (a ++ [e])) (hm : m ∈ Feed.history rows (a ++ [e]))
    (hearly : ∃ f ∈ a, f.key rows = m.id) : ∃ x ∈ Feed.history rows a, x.id = m.id := by
  rw [history_snoc] at hm
  have hold : m ∈ amend rows (Feed.history rows a) e → ∃ x ∈ Feed.history rows a, x.id = m.id := by
    intro hm
    obtain ⟨x, hx, rfl, -⟩ := mem_amend hm
    exact ⟨x, hx, (key_touch (R := rows)).symm⟩
  cases e with
  | posted row again =>
    rcases List.mem_append.mp hm with hm | hm
    · exact ⟨m, hm, rfl⟩
    · obtain ⟨f, hf, hkey⟩ := hearly
      have hlt : f.key rows < row.id := hlog.allowed.1 f hf
      rw [hkey, List.mem_singleton.mp hm] at hlt
      exact absurd hlt (Nat.lt_irrefl _)
  | changed k how => exact hold hm
  | dropped k => exact hold hm

theorem synced_notice (h : Coherent ch s) (hs : Synced ch s) (hn : ch.Allows s.log n) :
    Synced ch { s with log := s.log ++ [n] } := by
  have hlog := log_event (h.log.snoc hn)
  rw [List.map_append] at hlog
  have hpending : pending ch { s with log := s.log ++ [n] } = pending ch s ++ [event ch n] := by
    rw [pending, pending, List.drop_append_of_le_length h.delivered, List.map_append,
      ← List.append_assoc]
    rfl
  have hsettled : settled ch { s with log := s.log ++ [n] } =
      replays rows (settled ch s) [event ch n] := by
    rw [settled, hpending]
    exact replays_append_eq
  refine ⟨hs.nodup, ?_, fun m hm hposted => ?_⟩
  · rw [hsettled, List.map_append]
    exact replays_suffix hlog hs.suffix
  · rw [hsettled]
    rw [List.map_append] at hm
    refine key_mem_replays (R := rows) (hlog.stable hm).2 ?_
    obtain ⟨n', hn', hposts, hid⟩ := hposted
    rw [List.drop_append_of_le_length (h.since.trans h.delivered)] at hn'
    rcases List.mem_append.mp hn' with hn' | hn'
    · have hearly : event ch n' ∈ s.log.map (event ch) := List.mem_map_of_mem (List.mem_of_mem_drop hn')
      obtain ⟨x, hx, hxid⟩ := posted_before hlog hm ⟨_, hearly, by rw [key_event, hid]⟩
      have hin := hs.complete x hx ⟨n', hn', hposts, hid.trans hxid.symm⟩
      exact .inl (hxid ▸ hin)
    · obtain rfl := List.mem_singleton.mp hn'
      obtain ⟨row, again, heq, hrow⟩ := event_of_posts hposts
      exact .inr ⟨row, again, by rw [heq]; exact List.mem_singleton_self _, hrow.trans hid⟩

theorem Synced.congr (hs : Synced ch s) (hlog : t.log = s.log) (hsince : t.since = s.since)
    (hsettled : settled ch t = settled ch s) (hnodup : (ids t.messages).Nodup) : Synced ch t := by
  refine ⟨hnodup, ?_, ?_⟩
  · rw [hsettled, hlog]
    exact hs.suffix
  · rw [hsettled, hlog, hsince]
    exact hs.complete

theorem sealed_of_log (h : ch.Log log) (hn : n ∈ log) (hsealed : n.isSealed = some true) :
    ch.kind = .e2ee := by
  induction h with
  | nil => exact absurd hn List.not_mem_nil
  | snoc _ hallows ih =>
    rcases List.mem_append.mp hn with hn | hn
    · exact ih hn
    · obtain rfl := List.mem_singleton.mp hn
      exact e2ee_of_allows hallows hsealed

theorem synced_deliver (h : Coherent ch s) (hs : Synced ch s) (hn : s.log[s.delivered]? = some n)
    (ht : Timely ch s n) : Synced ch (ch.hear { s with delivered := s.delivered + 1 } n) := by
  obtain ⟨hlog, -, -, hsince⟩ :=
    hear_fields (s := { s with delivered := s.delivered + 1 }) (n := n)
  have hsealed := sealed_of_log h.log (List.mem_of_getElem? hn)
  refine hs.congr hlog hsince (settled_deliver hs.nodup h.direct hsealed hn ht) ?_
  by_cases hdm : ∃ m dmDecrypt, n = .newMessage m ∧ ch.kind = .dm dmDecrypt
  · obtain ⟨m, dmDecrypt, rfl, hkind⟩ := hdm
    have hhear : (ch.hear { s with delivered := s.delivered + 1 } (.newMessage m)).messages =
        s.messages := by rw [Channel.hear, hkind]
    rw [hhear]
    exact hs.nodup
  · rw [hear_eq (s := { s with delivered := s.delivered + 1 }) hs.nodup ht
      fun m hm dmDecrypt hkind => hdm ⟨m, dmDecrypt, hm, hkind⟩]
    exact ids_replay_nodup hs.nodup

theorem synced_decrypted {i : ℕ} (hs : Synced ch s) (hm : s.decrypts[i]? = some m)
    (hturn : InTurn s i) : Synced ch { s with
      decrypts := s.decrypts.eraseIdx i
      messages := reduce (.newMessage (ch.shown m)) s.messages } := by
  refine hs.congr rfl rfl (settled_decrypted hm hturn) ?_
  show (ids (reduce (.newMessage (ch.shown m)) s.messages)).Nodup
  rw [reduce_newMessage]
  exact ids_replay_nodup hs.nodup

section Answers

variable {f : Fetch} {page : Page}

theorem page_suffix (hlog : ch.Log s.log) (hf : Asked s.log s.delivered f)
    (hpage : f.answer = some page) : (page.rows.map ch.shown).reverse <:+
      (Feed.history rows ((s.log.take page.taken).map (event ch))).filter fun m =>
        f.purpose.beforeId.all fun before => m.id < before := by
  have hsent := hlog
  rw [← List.take_append_drop page.taken s.log] at hsent
  rw [← history_event hsent.of_append, List.filter_map, ← List.map_reverse, hf.rows page hpage]
  exact (fetchHistory_suffix _ _).map ch.shown

theorem ids_page : ids (page.rows.map ch.shown).reverse = (ids page.rows).reverse := by
  rw [ids, List.map_reverse, ids_shown]

theorem synced_fill (h : Coherent ch s) (hf : Asked s.log s.delivered f)
    (hpage : f.answer = some page) (hfill : f.purpose.beforeId = none)
    (hcovers : Covers ch s f page) :
    Synced ch (ch.receive s f page) := by
  have hreceive : ch.receive s f page =
      { s with messages := (page.rows.map ch.shown).reverse, since := f.asked } := by
    unfold Channel.receive
    split
    next hselect =>
      have hreadable : page.rows.map ch.shown = page.rows :=
        (List.map_congr_left (hcovers.readable hselect)).trans (List.map_id _)
      rw [hreadable]
      rfl
    next => rfl
    next heq => rw [heq] at hfill; exact nomatch hfill
  have hsuffix := page_suffix h.log hf hpage
  rw [hfill] at hsuffix
  have hall : ∀ l : List MessageInfo,
      (l.filter fun m => (none : Option ℕ).all fun before => m.id < before) = l := fun l =>
    List.filter_eq_self.mpr fun _ _ => rfl
  rw [hall] at hsuffix
  rw [hreceive]
  have hsettled := settled_fill (s := s) h.log hf.asked hsuffix ids_page hcovers
  refine ⟨?_, hsettled, ?_⟩
  · have hsorted := (log_take h.log page.taken).sorted.sublist hsuffix.sublist
    exact (List.pairwise_map.mpr hsorted).imp Nat.ne_of_lt
  · rintro m hm ⟨n, hn, hposts, hid⟩
    exact mem_settled_fill (s := s) h.log ids_page hcovers hm hn hposts hid

theorem synced_scroll {oldest : ℕ} (h : Coherent ch s) (hs : Synced ch s)
    (hf : Asked s.log s.delivered f) (hpage : f.answer = some page)
    (hscroll : f.purpose = .scroll oldest)
    (hcontinues : page.rows = [] ∨ Continues ch s oldest page) :
    Synced ch (ch.receive s f page) := by
  by_cases hnil : page.rows = []
  · have hreceive : ch.receive s f page = s := by
      rw [Channel.receive, hscroll]
      exact if_pos hnil
    rwa [hreceive]
  have hcontinues := hcontinues.resolve_left hnil
  have hreadable : page.rows.map ch.shown = page.rows :=
    (List.map_congr_left hcontinues.readable).trans (List.map_id _)
  have hreceive : ch.receive s f page =
      { s with messages := page.rows.reverse ++ s.messages } := by
    rw [Channel.receive, hscroll]
    exact if_neg hnil
  have hsuffix := page_suffix h.log hf hpage
  have hids : ids page.rows.reverse = (ids page.rows).reverse := List.map_reverse
  rw [hscroll, hreadable] at hsuffix
  have hsettled := settled_scroll h.log hcontinues hsuffix hids
    (hf.before page hpage oldest (by rw [hscroll]; rfl)) hs.suffix
  have hlt : ∀ m ∈ page.rows, m.id < oldest := by
    intro m hm
    exact of_decide_eq_true
      (List.mem_filter.mp (hsuffix.subset (List.mem_reverse.mpr hm))).2
  rw [hreceive]
  refine ⟨?_, hsettled, fun m hm hposted => ?_⟩
  · rw [ids, List.map_append, List.nodup_append]
    refine ⟨?_, hs.nodup, ?_⟩
    · have hsorted := ((log_take h.log page.taken).sorted.filter _).sublist hsuffix.sublist
      exact (List.pairwise_map.mpr hsorted).imp Nat.ne_of_lt
    · rintro k hk k' hk' rfl
      obtain ⟨x, hx, rfl⟩ := List.mem_map.mp hk
      have hx := List.mem_reverse.mp hx
      have hle := (hcontinues.joined x (.inr hx)).mpr (.inl hk')
      have := hlt x hx
      omega
  · refine key_mem_replays (R := rows) (pending_kept h.log hm) ?_
    rcases key_of_mem_replays (hs.complete m hm hposted) with hk | hrow
    · refine .inl ?_
      rw [List.map_append]
      exact List.mem_append_right _ hk
    · exact .inr hrow

end Answers

inductive Stepped (ch : Channel) (s : Timeline) : Op → Timeline → Prop where
  | notice {n : Notice} (hn : ch.Allows s.log n) :
      Stepped ch s (.notice n) { s with log := s.log ++ [n] }
  | ask {op : Op} {purpose : Purpose} (hop : ∀ s, Orderly ch s op)
      (h : ∀ oldest, purpose.beforeId = some oldest → oldest ∈ ids s.messages) :
      Stepped ch s op { s with fetches := s.fetches ++ [⟨purpose, s.delivered, none⟩] }
  | snapshot {i : ℕ} {f : Fetch} (hf : s.fetches[i]? = some f) (hnone : f.answer = none) :
      Stepped ch s (.snapshot i) { s with fetches := s.fetches.set i { f with
        answer := some ⟨s.log.length, fetchHistory (Ui.history s.log) f.purpose.beforeId⟩ } }
  | answered {i : ℕ} {f : Fetch} {page : Page} (hf : s.fetches[i]? = some f)
      (hpage : f.answer = some page) : Stepped ch s (.answered i)
        (ch.receive { s with fetches := s.fetches.eraseIdx i } f page)
  | deliver {n : Notice} (hn : s.log[s.delivered]? = some n) :
      Stepped ch s .deliver (ch.hear { s with delivered := s.delivered + 1 } n)
  | decrypted {i : ℕ} {m : MessageInfo} (hm : s.decrypts[i]? = some m) :
      Stepped ch s (.decrypted i) { s with
        decrypts := s.decrypts.eraseIdx i
        messages := reduce (.newMessage (ch.shown m)) s.messages }

theorem step_cases {op : Op} (h : ch.step s op = some t) : Stepped ch s op t := by
  cases op with
  | notice n =>
    simp only [Channel.step] at h
    split_ifs at h with hn
    obtain rfl := Option.some.inj h
    exact .notice hn
  | select =>
    obtain rfl := Option.some.inj h
    exact .ask (fun _ => trivial) fun _ ho => nomatch ho
  | dmPanel =>
    obtain rfl := Option.some.inj h
    exact .ask (fun _ => trivial) fun _ ho => nomatch ho
  | scroll =>
    obtain ⟨m, hm, rfl⟩ := Option.map_eq_some_iff.mp h
    refine .ask (fun _ => trivial) fun oldest ho => ?_
    obtain rfl := Option.some.inj ho
    exact List.mem_map_of_mem (List.mem_of_mem_head? hm)
  | snapshot i =>
    simp only [Channel.step] at h
    split at h
    · obtain rfl := Option.some.inj h
      exact .snapshot ‹_› rfl
    · exact nomatch h
  | answered i =>
    simp only [Channel.step] at h
    split at h
    · obtain rfl := Option.some.inj h
      exact .answered ‹_› rfl
    · exact nomatch h
  | deliver =>
    simp only [Channel.step] at h
    split at h
    · obtain rfl := Option.some.inj h
      exact .deliver ‹_›
    · exact nomatch h
  | decrypted i =>
    simp only [Channel.step] at h
    split at h
    · obtain rfl := Option.some.inj h
      exact .decrypted ‹_›
    · exact nomatch h

theorem coherent_step {op : Op} (h : Coherent ch s) (hstep : ch.step s op = some t) :
    Coherent ch t := by
  cases step_cases hstep with
  | notice hn => exact coherent_notice h hn
  | ask _ holdest =>
    refine h.ask (asked_new (fun oldest ho => ?_) s.delivered)
    exact h.known oldest (List.mem_append_left _ (holdest oldest ho))
  | snapshot hf hnone => exact coherent_snapshot h hf
  | answered hf hpage => exact coherent_answered h hf hpage
  | deliver hn => exact coherent_deliver h hn
  | decrypted hm => exact coherent_decrypted h hm

theorem synced_fetches (hs : Synced ch s) (fetches : List Fetch) :
    Synced ch { s with fetches } := ⟨hs.nodup, hs.suffix, hs.complete⟩

theorem awaits_step {op : Op} (hs : Awaits s) (h : Stepped ch s op t) :
    Awaits t ∨ ∃ i f page, op = .answered i ∧ s.fetches[i]? = some f ∧ f.answer = some page ∧
      f.purpose.beforeId = none ∧ t = ch.receive { s with fetches := s.fetches.eraseIdx i } f page := by
  obtain ⟨g, hg, hfill⟩ := hs
  cases h with
  | notice hn => exact .inl ⟨g, hg, hfill⟩
  | ask _ _ => exact .inl ⟨g, List.mem_append_left _ hg, hfill⟩
  | @snapshot i f hf hnone =>
    left
    obtain ⟨j, hj⟩ := List.mem_iff_getElem?.mp hg
    by_cases hij : i = j
    · subst hij
      obtain rfl : f = g := Option.some.inj (hf.symm.trans hj)
      exact ⟨_, List.mem_set (List.getElem?_eq_some_iff.mp hf).1 _, hfill⟩
    · refine ⟨g, List.mem_iff_getElem?.mpr ⟨j, ?_⟩, hfill⟩
      show (s.fetches.set i _)[j]? = some g
      rw [List.getElem?_set_ne hij, hj]
  | @answered i f page hf hpage =>
    obtain ⟨j, hj⟩ := List.mem_iff_getElem?.mp hg
    by_cases hij : j = i
    · subst hij
      obtain rfl : f = g := Option.some.inj (hf.symm.trans hj)
      exact .inr ⟨j, f, page, rfl, hf, hpage, hfill, rfl⟩
    · refine .inl ⟨g, ?_, hfill⟩
      rw [receive_fields.2.2.2]
      exact List.mem_eraseIdx_iff_getElem?.mpr ⟨j, hij, hj⟩
  | deliver hn =>
    refine .inl ⟨g, ?_, hfill⟩
    rw [hear_fields.2.2.1]
    exact hg
  | decrypted hm => exact .inl ⟨g, hg, hfill⟩

/-- A step under the condition, or with a page on its way afterwards that replaces the list. -/
theorem good_step {op : Op} (h : Coherent ch s) (hgood : Synced ch s ∨ Awaits s)
    (hstep : ch.step s op = some t) (hcond : Orderly ch s op ∨ Awaits t) :
    Synced ch t ∨ Awaits t := by
  rcases hcond with hcond | hawaits
  swap
  · exact .inr hawaits
  have hfilled : ∀ i f page, op = .answered i → s.fetches[i]? = some f → f.answer = some page →
      f.purpose.beforeId = none → t = ch.receive { s with fetches := s.fetches.eraseIdx i } f page →
      Synced ch t := by
    rintro i f page rfl hf hpage hfill rfl
    have hcovers : Covers ch s f page := by
      have hcovers := hcond f page hf hpage
      rcases hpurpose : f.purpose with _ | _ | oldest
      · rwa [hpurpose] at hcovers
      · rwa [hpurpose] at hcovers
      · rw [hpurpose] at hfill
        exact nomatch hfill
    have herased : Coherent ch { s with fetches := s.fetches.eraseIdx i } :=
      ⟨h.log, h.delivered, h.since, h.direct, h.known, fun g hg =>
        h.fetches g (List.mem_of_mem_eraseIdx hg)⟩
    exact synced_fill (s := { s with fetches := s.fetches.eraseIdx i }) herased
      (h.fetches f (List.mem_of_getElem? hf)) hpage hfill
      ⟨hcovers.readable, hcovers.overtaken, hcovers.waiting, hcovers.announced⟩
  have hcases := step_cases hstep
  rcases hgood with hs | hs
  swap
  · rcases awaits_step hs hcases with ht | ⟨i, f, page, hop, hf, hpage, hfill, ht⟩
    · exact .inr ht
    · exact .inl (hfilled i f page hop hf hpage hfill ht)
  left
  cases hcases with
  | notice hn => exact synced_notice h hs hn
  | ask _ _ => exact synced_fetches hs _
  | snapshot hf hnone => exact synced_fetches hs _
  | @answered i f page hf hpage =>
    rcases hpurpose : f.purpose with _ | _ | oldest
    · exact hfilled i f page rfl hf hpage (by rw [hpurpose]; rfl) rfl
    · exact hfilled i f page rfl hf hpage (by rw [hpurpose]; rfl) rfl
    · have hcontinues := hcond f page hf hpage
      rw [hpurpose] at hcontinues
      have herased : Coherent ch { s with fetches := s.fetches.eraseIdx i } :=
        ⟨h.log, h.delivered, h.since, h.direct, h.known, fun g hg =>
          h.fetches g (List.mem_of_mem_eraseIdx hg)⟩
      exact synced_scroll (s := { s with fetches := s.fetches.eraseIdx i }) herased
        (synced_fetches hs _) (h.fetches f (List.mem_of_getElem? hf)) hpage hpurpose
        (hcontinues.imp_right fun hc => ⟨hc.readable, hc.overtaken, hc.joined⟩)
  | deliver hn => exact synced_deliver h hs hn (hcond _ hn)
  | decrypted hm => exact synced_decrypted hs hm hcond

theorem coherent_opened (h : s.Opened ch) : Coherent ch s := by
  obtain ⟨hlog, hdelivered, hmessages, hdecrypts, hfetches, hsince⟩ := h
  refine ⟨hlog, hdelivered, hsince.le, fun hne => absurd hdecrypts hne, fun k hk => ?_,
    fun f hf => ?_⟩
  · rw [hmessages, hdecrypts] at hk
    exact absurd hk List.not_mem_nil
  · rw [hfetches] at hf
    exact absurd hf List.not_mem_nil

theorem synced_opened (h : s.Opened ch) : Synced ch s := by
  obtain ⟨hlog, hdelivered, hmessages, hdecrypts, -, hsince⟩ := h
  have hpending : pending ch s = (s.log.drop s.delivered).map (event ch) := by
    rw [pending, hdecrypts]
    rfl
  refine ⟨?_, ?_, ?_⟩
  · rw [hmessages]
    exact List.nodup_nil
  · rw [settled, hpending, hmessages]
    exact replays_drop_suffix hlog List.nil_suffix
  · rintro m hm ⟨n, hn, hposts, hid⟩
    rw [hsince] at hn
    refine key_mem_replays (R := rows) (pending_kept hlog hm) (.inr ?_)
    obtain ⟨row, again, hrow, hkey⟩ := posted_of_drop hn hposts
    exact ⟨row, again, hpending ▸ hrow, hkey.trans hid⟩

/-- The list of an open channel when nothing is pending: the end of the history, as the client shows
it, oldest first, with all that came since the list was last asked for. -/
structure Converged (ch : Channel) (s : Timeline) : Prop where
  suffix : s.messages <:+ (Ui.history s.log).map ch.shown
  sorted : s.messages.Pairwise fun a b => a.id < b.id
  complete : ∀ m ∈ Ui.history s.log,
    (∃ n ∈ s.log.drop s.since, n.posts = true ∧ n.messageId = m.id) → ch.shown m ∈ s.messages

/-- Whatever the order in which pages, notices and decrypted messages come, the list converges if each
of them meets the condition, or is followed by a page that replaces the list. -/
theorem list_converges {tr : List (Transition Timeline Op)} (hs : s.Opened ch)
    (h : ch.TimelineRun s tr t)
    (hcond : ∀ x ∈ tr, Orderly ch x.pre x.event ∨ Awaits x.post) (hquiet : t.Quiet) :
    Converged ch t := by
  have hgood : Coherent ch t ∧ (Synced ch t ∨ Awaits t) := by
    have hstart : Coherent ch s ∧ (Synced ch s ∨ Awaits s) :=
      ⟨coherent_opened hs, .inl (synced_opened hs)⟩
    have hkept := h.kept (Q := fun s => Coherent ch s ∧ (Synced ch s ∨ Awaits s)) hstart
      fun x hx hstep ⟨hcoherent, hgood⟩ =>
        ⟨coherent_step hcoherent hstep, good_step hcoherent hgood hstep (hcond x hx)⟩
    exact h.good_end (Q := fun s => Coherent ch s ∧ (Synced ch s ∨ Awaits s)) hstart
      fun x hx => (hkept x hx).2
  obtain ⟨hcoherent, hgood⟩ := hgood
  have hsynced : Synced ch t := by
    refine hgood.resolve_right ?_
    rintro ⟨f, hf, -⟩
    rw [hquiet.fetches] at hf
    exact absurd hf List.not_mem_nil
  have hsettled : settled ch t = t.messages := by
    rw [settled, pending, hquiet.decrypts, hquiet.delivered, List.drop_length]
    rfl
  have hhistory := history_event hcoherent.log
  have hsuffix := hsynced.suffix
  rw [hsettled] at hsuffix
  refine ⟨?_, (log_event hcoherent.log).sorted.sublist hsuffix.sublist, fun m hm hposted => ?_⟩
  · rw [hhistory]
    exact hsuffix
  · have hshown : ch.shown m ∈ Feed.history rows (t.log.map (event ch)) :=
      hhistory ▸ List.mem_map_of_mem hm
    have hin := hsynced.complete _ hshown hposted
    rw [hsettled] at hin
    obtain ⟨x, hx, hid⟩ := List.mem_map.mp hin
    have heq := List.inj_on_of_nodup_map (nodup_ids_history hcoherent.log) (hsuffix.subset hx)
      hshown hid
    rwa [← heq]

section Sample

def perform (ch : Channel) (s : Timeline) (op : Op) : Timeline := (ch.step s op).getD s

theorem run_perform (ops : List Op) (h : (Execution.path (perform ch) s ops).all
    (fun x => (ch.step x.pre x.event).isSome) = true) :
    ch.TimelineRun s (Execution.path (perform ch) s ops) (ops.foldl (perform ch) s) :=
  .of_attempt ch.step ops h

def general : Channel := ⟨1, .text⟩

def message (id : ℕ) (content : String) : MessageInfo :=
  ⟨id, 1, ⟨7⟩, content, 60 * id, none, false, [], false, none, none⟩

def opened : Timeline := ⟨[.newMessage (message 1 "hello")], 1, [], [], [], 1⟩

theorem opened_opened : opened.Opened general :=
  ⟨.snoc .nil (by decide), Nat.le_refl 1, rfl, rfl, rfl, rfl⟩

/-- A message is posted while the history is fetched, and comes after the page that has it. -/
def newer : List Op :=
  [.select, .notice (.newMessage (message 2 "hi")), .snapshot 0, .answered 0, .deliver]

theorem list_converges_newer :
    Converged general (newer.foldl (perform general) opened) ∧
      ids (newer.foldl (perform general) opened).messages = [1, 2] := by
  refine ⟨?_, by decide⟩
  refine list_converges opened_opened (run_perform newer (by decide)) ?_ ⟨by decide, by decide, by decide⟩
  refine List.forall_mem_cons.mpr ⟨.inl trivial, ?_⟩
  refine List.forall_mem_cons.mpr ⟨.inl trivial, ?_⟩
  refine List.forall_mem_cons.mpr ⟨.inl trivial, ?_⟩
  refine List.forall_mem_cons.mpr ⟨.inl ?_, List.forall_mem_singleton.mpr (.inl ?_)⟩
  · rintro f page ⟨⟩ ⟨⟩
    exact ⟨fun _ m _ => rfl, by decide, by decide, by decide⟩
  · rintro n ⟨⟩
    trivial

/-- A message comes while the history is fetched, and the page is older. -/
def older : List Op :=
  [.select, .snapshot 0, .notice (.newMessage (message 2 "hi")), .deliver, .answered 0]

theorem list_diverges :
    ¬∀ (ch : Channel) (s t : Timeline) (tr : List (Transition Timeline Op)),
      s.Opened ch → ch.TimelineRun s tr t → t.Quiet → Converged ch t := by
  intro h
  have hconverged := h general opened _ _ opened_opened (run_perform older (by decide))
    ⟨by decide, by decide, by decide⟩
  have hids := hconverged.suffix.map MessageInfo.id
  revert hids
  decide

end Sample

end ListConverges
