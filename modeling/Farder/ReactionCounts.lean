import Farder.Server.HostFrame
import Farder.Server.SampleHost
import Farder.Support.Tally
import Farder.Ui.Messages

/-! # Reaction counts

The server keeps who has reacted with what; a client keeps counts, and is told of reactions that are
added and removed. It is told of a removal whether or not there was something to remove. -/
namespace ReactionCounts

open EventLog Guarded Server Tally

abbrev Key := String × Option ℕ

/-- Who has reacted to the message, and with what. -/
def marks (db : Db) (m : ℕ) : List (PublicKey × Key) :=
  (db.reactions.filter fun r => r.messageId = m).map fun r =>
    (r.userKey, r.emoji, readFileId r.fileId)

def Keyed (db : Db) : Prop :=
  (db.reactions.map fun r => (r.messageId, r.userKey, r.emoji, r.fileId)).Nodup

def counter (g : ReactionGroup) : Counter Key := ⟨(g.emoji, g.fileId), g.count, g.me⟩

theorem counter_injective : Function.Injective counter := by
  rintro ⟨emoji, count, me, fileId⟩ ⟨emoji', count', me', fileId'⟩ h
  simp only [counter, Counter.mk.injEq, Prod.mk.injEq] at h
  obtain ⟨⟨rfl, rfl⟩, rfl, rfl⟩ := h
  rfl

theorem readFileId_injective : Function.Injective readFileId := by
  intro a b h
  unfold readFileId at h
  split_ifs at h with ha hb
  · rw [ha, hb]
  · exact Option.some.inj h

def readKey (key : String × ℕ) : Key := (key.1, readFileId key.2)

theorem readKey_injective : Function.Injective readKey := by
  rintro ⟨emoji, fileId⟩ ⟨emoji', fileId'⟩ h
  obtain ⟨hemoji, hfile⟩ := Prod.mk.inj h
  exact Prod.ext hemoji (readFileId_injective hfile)

variable {db : Db} {m : ℕ} {own : PublicKey}

theorem map_snd_marks : (marks db m).map Prod.snd =
    ((db.reactions.filter fun r => r.messageId = m).map fun r => (r.emoji, r.fileId)).map
      readKey := by
  simp [marks, Function.comp_def, readKey]

theorem total_marks (key : String × ℕ) :
    total (marks db m) (readKey key) = (db.groupRows m key).length := by
  rw [total, marks, List.countP_map, List.countP_filter, Db.groupRows, ← List.countP_eq_length_filter]
  refine List.countP_congr fun r _ => ?_
  simp only [Function.comp_apply, decide_eq_true_eq, Bool.and_eq_true]
  rw [and_comm]
  exact and_congr_right fun _ => readKey_injective.eq_iff (a := (r.emoji, r.fileId)) (b := key)

theorem mem_marks {u : PublicKey} (key : String × ℕ) : (u, readKey key) ∈ marks db m ↔
    (db.groupRows m key).any (fun r => r.userKey = u) = true := by
  simp only [marks, List.mem_map, List.mem_filter, decide_eq_true_eq, List.any_eq_true,
    Db.groupRows, Prod.mk.injEq]
  constructor
  · rintro ⟨r, ⟨hr, hm⟩, rfl, hkey⟩
    have hread : readKey (r.emoji, r.fileId) = readKey key := Prod.ext_iff.mpr (Prod.ext_iff.mp hkey)
    exact ⟨r, ⟨hr, hm, readKey_injective hread⟩, rfl⟩
  · rintro ⟨r, ⟨hr, hm, hkey⟩, rfl⟩
    exact ⟨r, ⟨hr, hm⟩, rfl, by rw [← hkey]; rfl⟩

theorem groups_tell (m : ℕ) (own : PublicKey) :
    Tells ((db.getReactionsForMessage m own).map counter) own (marks db m) := by
  rw [Tells, counters, map_snd_marks, List.dedup_map_of_injective readKey_injective, List.map_map,
    Db.getReactionsForMessage, List.map_map]
  refine ((List.mergeSort_perm _ _).map _).trans (List.Perm.of_eq ?_)
  refine List.map_congr_left fun key _ => ?_
  simp only [Function.comp_apply, counter, Counter.mk.injEq]
  refine ⟨rfl, (total_marks key).symm, ?_⟩
  rw [Bool.eq_iff_iff, marked_iff]
  exact (mem_marks key).symm

/-- The client's groups are the server's exactly if they are those of the marks. -/
theorem perm_groups_iff {groups : List ReactionGroup} :
    groups.Perm (db.getReactionsForMessage m own) ↔
      Tells (groups.map counter) own (marks db m) := by
  rw [Tells, ← (groups_tell m own).congr_right]
  exact (List.map_perm_map_iff counter_injective).symm

/-! ## What the client does -/

theorem sameGroup_eq {emoji : String} {fileId : Option ℕ} {g : ReactionGroup} :
    Ui.MessageInfo.sameGroup emoji fileId g = decide ((counter g).key = (emoji, fileId)) := by
  simp only [Ui.MessageInfo.sameGroup, counter, Prod.mk.injEq]

theorem map_addReaction (row : Ui.MessageInfo) (emoji : String) (me : Bool) (fileId : Option ℕ) :
    (row.addReaction emoji me fileId).reactions.map counter =
      bump (emoji, fileId) me (row.reactions.map counter) := by
  have hfind : (row.reactions.map counter).find? (fun c => decide (c.key = (emoji, fileId))) =
      (row.reactions.find? (Ui.MessageInfo.sameGroup emoji fileId)).map counter := by
    rw [List.find?_map]
    simp only [Function.comp_def, ← sameGroup_eq]
  unfold Ui.MessageInfo.addReaction bump
  rw [hfind]
  rcases row.reactions.find? (Ui.MessageInfo.sameGroup emoji fileId) with _ | existing
  · simp [counter]
  · simp only [Option.map_some]
    show (if (me && existing.me) = true then _ else _ : Ui.MessageInfo).reactions.map counter =
      if (me && existing.me) = true then _ else _
    split_ifs
    · rfl
    · rw [List.map_map, List.map_map]
      refine List.map_congr_left fun g _ => ?_
      simp only [Function.comp_apply, sameGroup_eq, decide_eq_true_eq]
      split_ifs <;> rfl

theorem map_removeReaction (row : Ui.MessageInfo) (emoji : String) (fileId : Option ℕ) :
    (row.removeReaction emoji fileId).reactions.map counter =
      drop (emoji, fileId) (row.reactions.map counter) := by
  have hmap : (row.reactions.map fun g => if Ui.MessageInfo.sameGroup emoji fileId g then
      { g with count := g.count - 1 } else g).map counter =
      (row.reactions.map counter).map fun c =>
        if c.key = (emoji, fileId) then { c with count := c.count - 1 } else c := by
    rw [List.map_map, List.map_map]
    refine List.map_congr_left fun g _ => ?_
    simp only [Function.comp_apply, sameGroup_eq, decide_eq_true_eq]
    split_ifs <;> rfl
  unfold Ui.MessageInfo.removeReaction drop
  rw [← hmap]
  exact (List.filter_map (f := counter) (p := fun c => decide (0 < c.count))).symm

inductive Kind where
  | add
  | remove
  deriving DecidableEq

/-- A request about a reaction, on the connection of any member. -/
structure Reacting where
  moment : Moment
  member : PublicKey
  isOwner : Bool
  kind : Kind
  messageId : ℕ
  emoji : String
  fileId : Option ℕ

def Reacting.request (r : Reacting) : Request :=
  match r.kind with
  | .add => .message (.addReaction r.messageId r.emoji r.fileId)
  | .remove => .message (.removeReaction r.messageId r.emoji r.fileId)

def Reacting.op (r : Reacting) : Moment × HostOp := (r.moment, .request r.member r.isOwner r.request)

/-- The server, and the list of a channel on the client of a viewer. -/
structure Scene where
  host : Host
  messages : List Ui.MessageInfo

def notices (answer : Checked Answer) : List ServerEvent :=
  match answer with
  | .ok a => a.events.map BroadcastEvent.event
  | .error _ => []

/-- What the viewer does with what it is told. -/
def hear (own : PublicKey) (c : ℕ) (messages : List Ui.MessageInfo) (events : List ServerEvent) :
    List Ui.MessageInfo :=
  (events.filterMap (Ui.reactionAction own)).foldl (Ui.reduceChannel c) messages

def perform (K : Crypto) (own : PublicKey) (c : ℕ) (s : Scene) (r : Reacting) : Scene :=
  let done := s.host.perform K r.op.1 r.op.2
  ⟨done.1, hear own c s.messages (notices done.2)⟩

/-- The groups that the viewer shows of the message are those that it would fetch. -/
def Agrees (own : PublicKey) (m : ℕ) (s : Scene) : Prop :=
  ∀ row ∈ s.messages, row.id = m →
    row.reactions.Perm (s.host.db.getReactionsForMessage m own)

/-- The condition on a request that is accepted: a new reaction has no file id 0, and a reaction that
is taken back was there, and was not the viewer's own among others, or nobody has reacted so. -/
def Counted (K : Crypto) (own : PublicKey) (m : ℕ) (s : Scene) (r : Reacting) : Prop :=
  r.messageId = m → s.host.Accepts K r.op →
    let key : Key := (r.emoji, readFileId (r.fileId.getD 0))
    let reacted := (r.member, key) ∈ marks s.host.db m
    match r.kind with
    | .add => r.fileId = some 0 → reacted
    | .remove =>
      if r.fileId = some 0 then ¬reacted
      else reacted ∧ (r.member = own → total (marks s.host.db m) key = 1) ∨
        total (marks s.host.db m) key = 0

variable {K : Crypto} {host : Host} {r : Reacting}

/-- What a request about a reaction leaves in the tables of messages and reactions, and tells. -/
structure Done (host : Host) (r : Reacting) (host' : Host) (told : List ServerEvent)
    (reactions : List ReactionRow) (events : ℕ → List ServerEvent) : Prop where
  messages : host'.db.messages = host.db.messages
  reactions : host'.db.reactions = reactions
  told : ∃ row, host.db.messages.get? r.messageId = some row ∧ told = events row.channelId

theorem perform_add (hkind : r.kind = .add) (h : host.Accepts K r.op) :
    Done host r (host.perform K r.op.1 r.op.2).1 (notices (host.perform K r.op.1 r.op.2).2)
      (if host.db.hasReaction r.messageId r.member r.emoji r.fileId then host.db.reactions
        else host.db.reactions ++
          [⟨r.messageId, r.member, r.emoji, r.fileId.getD 0, r.moment.now⟩])
      fun c => if host.db.hasReaction r.messageId r.member r.emoji r.fileId then []
        else [.reactionAdded r.messageId c r.emoji r.member r.fileId] := by
  have hperform := Host.perform_of_accepts h
  have hrequest : r.request = .message (.addReaction r.messageId r.emoji r.fileId) := by
    simp only [Reacting.request, hkind]
  obtain ⟨a, ha⟩ := h
  simp only [Reacting.op] at ha ⊢
  rw [hperform, hrequest] at ha ⊢
  simp only [Host.dispatch, Host.handleMessageRequest, Host.addReaction] at ha ⊢
  have hwrite := Host.commit_answered ha
  rw [Host.commit_answer hwrite]
  generalize (Host.commit _ _ _).1 = host' at hwrite ⊢
  simp only [bind_eq_ok, context_eq_ok, map_eq_ok, Db.addReaction, pure_eq_ok] at hwrite
  obtain ⟨⟨⟩, -, row, hrow, ⟨⟩, -, ⟨⟩, -, db, ⟨⟨⟩, -, rfl⟩, rfl⟩ := hwrite
  refine ⟨rfl, rfl, row, hrow, ?_⟩
  have hchannel : (((host.expireTimeout r.member r.moment.nowMs).db.messages.get? r.messageId).map
      MessageRow.channelId).getD 0 = row.channelId := by
    rw [hrow]
    rfl
  simp only [notices, hchannel]
  show (if host.db.hasReaction r.messageId r.member r.emoji r.fileId then _ else _ :
    List BroadcastEvent).map BroadcastEvent.event = _
  split_ifs <;> rfl

theorem perform_remove (hkind : r.kind = .remove) (h : host.Accepts K r.op) :
    Done host r (host.perform K r.op.1 r.op.2).1 (notices (host.perform K r.op.1 r.op.2).2)
      (host.db.removeReaction r.messageId r.member r.emoji r.fileId).reactions
      fun c => [.reactionRemoved r.messageId c r.emoji r.member r.fileId] := by
  have hperform := Host.perform_of_accepts h
  have hrequest : r.request = .message (.removeReaction r.messageId r.emoji r.fileId) := by
    simp only [Reacting.request, hkind]
  obtain ⟨a, ha⟩ := h
  simp only [Reacting.op] at ha ⊢
  rw [hperform, hrequest] at ha ⊢
  simp only [Host.dispatch, Host.handleMessageRequest, Host.removeReaction] at ha ⊢
  have hwrite := Host.commit_answered ha
  rw [Host.commit_answer hwrite]
  generalize (Host.commit _ _ _).1 = host' at hwrite ⊢
  simp only [bind_eq_ok, context_eq_ok, pure_eq_ok] at hwrite
  obtain ⟨row, hrow, ⟨⟩, -, rfl⟩ := hwrite
  refine ⟨rfl, rfl, row, hrow, ?_⟩
  simp only [notices, hrow]
  rfl

/-- A request that is refused leaves messages and reactions, and tells nothing. -/
theorem perform_refused (h : ¬host.Accepts K r.op) :
    (host.perform K r.op.1 r.op.2).1.db = host.db ∧
      notices (host.perform K r.op.1 r.op.2).2 = [] := by
  have herror : ∀ a, (host.perform K r.op.1 r.op.2).2 ≠ .ok a := fun a ha => h ⟨a, ha⟩
  constructor
  swap
  · rcases hanswer : (host.perform K r.op.1 r.op.2).2 with failure | a
    · rfl
    · exact absurd hanswer (herror a)
  simp only [Reacting.op, Host.perform] at herror ⊢
  have hmember : r.request.requiresMembership = true := by
    unfold Reacting.request
    split <;> rfl
  rcases hgate : host.contentBlockReason r.member with _ | reason
  swap
  · rw [Host.handleRequest_of_blocked hmember hgate]
  rw [Host.handleRequest_of_open hgate] at herror ⊢
  unfold Reacting.request at herror ⊢
  split at herror
  · simp only [Host.dispatch, Host.handleMessageRequest, Host.addReaction] at herror ⊢
    refine (congrArg Host.db (Host.commit_rejected ?_ herror)).trans rfl
    exact fun _ _ => ⟨_, rfl⟩
  · simp only [Host.dispatch, Host.handleMessageRequest, Host.removeReaction] at herror ⊢
    refine (congrArg Host.db (Host.commit_rejected ?_ herror)).trans rfl
    exact fun _ _ => ⟨_, rfl⟩

/-- The viewer has the channel of the message open, and shows the message; the rows of the table have
their primary key. -/
structure Watching (c m : ℕ) (s : Scene) : Prop where
  channel : ∃ row, s.host.db.messages.get? m = some row ∧ row.channelId = c
  shown : ∃ row ∈ s.messages, row.id = m
  keyed : Keyed s.host.db

section Rows

variable {u : PublicKey} {emoji : String} {fileId : Option ℕ} {now : ℕ} {mid : ℕ}

theorem isReaction_iff {x : ReactionRow} : Db.isReaction mid u emoji fileId x = true ↔
    x.messageId = mid ∧ x.userKey = u ∧ (x.emoji, x.fileId) = (emoji, fileId.getD 0) := by
  simp [Db.isReaction]

theorem hasReaction_iff : db.hasReaction m u emoji fileId = true ↔
    (u, emoji, readFileId (fileId.getD 0)) ∈ marks db m := by
  refine Iff.trans ?_ (mem_marks (emoji, fileId.getD 0)).symm
  simp only [Db.hasReaction, Db.groupRows, List.any_eq_true, isReaction_iff, List.mem_filter,
    decide_eq_true_eq]
  constructor
  · rintro ⟨x, hx, hm, hu, hkey⟩
    exact ⟨x, ⟨hx, hm, hkey⟩, hu⟩
  · rintro ⟨x, ⟨hx, hm, hkey⟩, hu⟩
    exact ⟨x, hx, hm, hu, hkey⟩

theorem marks_append {host' : Host} (h : host'.db.reactions =
    db.reactions ++ [⟨m, u, emoji, fileId.getD 0, now⟩]) :
    marks host'.db m = marks db m ++ [(u, emoji, readFileId (fileId.getD 0))] := by
  simp [marks, h]

theorem marks_remove : marks (db.removeReaction m u emoji fileId) m =
    without (marks db m) (u, emoji, readFileId (fileId.getD 0)) := by
  rw [marks, marks, without, Db.removeReaction, List.filter_map, List.filter_filter,
    List.filter_filter]
  refine congrArg _ (List.filter_congr fun x _ => ?_)
  rw [Bool.eq_iff_iff]
  simp only [Bool.and_eq_true, decide_eq_true_eq, Bool.not_eq_true', Bool.eq_false_iff, ne_eq,
    isReaction_iff, Function.comp_apply, bne_iff_ne]
  rw [and_comm]
  refine and_congr_left fun hm => not_congr ?_
  rw [Prod.mk.injEq, Prod.mk.injEq, Prod.mk.injEq, readFileId_injective.eq_iff]
  exact and_iff_right hm

theorem marks_append_of_ne {host' : Host} (hne : mid ≠ m) (h : host'.db.reactions =
    db.reactions ++ [⟨mid, u, emoji, fileId.getD 0, now⟩]) : marks host'.db m = marks db m := by
  simp [marks, h, hne]

theorem marks_remove_of_ne (hne : mid ≠ m) :
    marks (db.removeReaction mid u emoji fileId) m = marks db m := by
  rw [marks, marks, Db.removeReaction, List.filter_filter]
  refine congrArg _ (List.filter_congr fun x _ => ?_)
  rw [Bool.eq_iff_iff]
  simp only [Bool.and_eq_true, decide_eq_true_eq, Bool.not_eq_true', Bool.eq_false_iff, ne_eq,
    isReaction_iff]
  exact and_iff_left_of_imp fun hm h => hne (h.1.symm.trans hm)

theorem nodup_marks (h : Keyed db) : (marks db m).Nodup := by
  refine List.Nodup.map_on (fun x hx y hy hxy => ?_) (h.of_map.filter _)
  obtain ⟨hxdb, hxm⟩ := List.mem_filter.mp hx
  obtain ⟨hydb, hym⟩ := List.mem_filter.mp hy
  simp only [Prod.mk.injEq] at hxy
  refine List.inj_on_of_nodup_map h hxdb hydb ?_
  simp only [Prod.mk.injEq]
  refine ⟨?_, hxy.1, hxy.2.1, readFileId_injective hxy.2.2⟩
  exact (of_decide_eq_true hxm).trans (of_decide_eq_true hym).symm

theorem keyed_append {host' : Host} (h : Keyed db)
    (hnew : db.hasReaction mid u emoji fileId = false)
    (hrows : host'.db.reactions = db.reactions ++ [⟨mid, u, emoji, fileId.getD 0, now⟩]) :
    Keyed host'.db := by
  rw [Keyed, hrows, List.map_append, List.nodup_append]
  refine ⟨h, List.nodup_singleton _, ?_⟩
  rintro a ha b hb rfl
  obtain ⟨x, hx, hxa⟩ := List.mem_map.mp ha
  have hkey := hxa.trans (List.mem_singleton.mp hb)
  simp only [Prod.mk.injEq] at hkey
  have hthere : db.hasReaction mid u emoji fileId = true :=
    List.any_eq_true.mpr ⟨x, hx, isReaction_iff.mpr ⟨hkey.1, hkey.2.1, Prod.ext hkey.2.2.1 hkey.2.2.2⟩⟩
  rw [hnew] at hthere
  exact Bool.false_ne_true hthere

theorem keyed_remove (h : Keyed db) : Keyed (db.removeReaction mid u emoji fileId) :=
  (List.filter_sublist.map _).nodup h

end Rows

theorem readFileId_ne (stored : ℕ) : readFileId stored ≠ some 0 := by
  unfold readFileId
  split_ifs with h
  · exact fun hnone => nomatch hnone
  · exact fun hsome => h (Option.some.inj hsome)

theorem readFileId_getD {fileId : Option ℕ} (h : fileId ≠ some 0) :
    readFileId (fileId.getD 0) = fileId := by
  rcases fileId with _ | k
  · rfl
  · refine if_neg fun hk => h ?_
    rw [Option.getD_some] at hk
    rw [hk]

theorem total_zero {emoji : String} : total (marks db m) (emoji, some 0) = 0 := by
  rw [total, List.countP_eq_zero]
  intro x hx
  obtain ⟨r, -, rfl⟩ := List.mem_map.mp hx
  intro hkey
  exact readFileId_ne r.fileId (Prod.mk.inj (of_decide_eq_true hkey)).2

/-! ## What the viewer shows -/

section Hear

variable {c mid : ℕ} {u : PublicKey} {emoji : String} {fileId : Option ℕ}
  {messages : List Ui.MessageInfo}

theorem hear_added (channelId : ℕ) :
    hear own c messages [.reactionAdded mid channelId emoji u fileId] =
      if channelId = c then messages.map fun row =>
        if row.id = mid then row.addReaction emoji (u = own) fileId else row
      else messages :=
  rfl

theorem hear_removed (channelId : ℕ) :
    hear own c messages [.reactionRemoved mid channelId emoji u fileId] =
      if channelId = c then messages.map fun row =>
        if row.id = mid then row.removeReaction emoji fileId else row
      else messages :=
  rfl

theorem addReaction_id (row : Ui.MessageInfo) (me : Bool) :
    (row.addReaction emoji me fileId).id = row.id := by
  unfold Ui.MessageInfo.addReaction
  split
  · split_ifs <;> rfl
  · rfl

theorem agrees_map_iff {s : Scene} {host' : Host} {f : Ui.MessageInfo → Ui.MessageInfo}
    {change : List (Counter Key) → List (Counter Key)} (hs : Watching c m s)
    (hid : ∀ row, (f row).id = row.id)
    (hf : ∀ row, (f row).reactions.map counter = change (row.reactions.map counter))
    (hP : ∀ l, Tells l own (marks s.host.db m) → (Tells (change l) own (marks host'.db m) ↔ P))
    (hagrees : Agrees own m s) :
    Agrees own m ⟨host', s.messages.map fun row => if row.id = m then f row else row⟩ ↔ P := by
  have hrow : ∀ row ∈ s.messages, row.id = m →
      ((f row).reactions.Perm (host'.db.getReactionsForMessage m own) ↔ P) := by
    intro row hrow hm
    rw [perm_groups_iff, hf]
    exact hP _ (perm_groups_iff.mp (hagrees row hrow hm))
  constructor
  · intro h
    obtain ⟨row, hmem, hm⟩ := hs.shown
    refine (hrow row hmem hm).mp (h (f row) (List.mem_map.mpr ⟨row, hmem, if_pos hm⟩) ?_)
    rw [hid, hm]
  · intro h row' hrow' hm'
    obtain ⟨row, hmem, rfl⟩ := List.mem_map.mp hrow'
    by_cases hm : row.id = m
    · rw [if_pos hm]
      exact (hrow row hmem hm).mpr h
    · rw [if_neg hm] at hm'
      exact absurd hm' hm

theorem agrees_map_of_ne {s : Scene} {host' : Host} {f : Ui.MessageInfo → Ui.MessageInfo}
    (hne : mid ≠ m) (hid : ∀ row, (f row).id = row.id)
    (hmarks : marks host'.db m = marks s.host.db m) (hagrees : Agrees own m s) :
    Agrees own m ⟨host', s.messages.map fun row => if row.id = mid then f row else row⟩ := by
  intro row' hrow' hm'
  obtain ⟨row, hmem, rfl⟩ := List.mem_map.mp hrow'
  by_cases hmid : row.id = mid
  · rw [if_pos hmid, hid, hmid] at hm'
    exact absurd hm' hne
  · rw [if_neg hmid] at hm' ⊢
    rw [perm_groups_iff, hmarks]
    exact perm_groups_iff.mp (hagrees row hmem hm')

theorem agrees_congr {s : Scene} {host' : Host} (hmarks : marks host'.db m = marks s.host.db m)
    (hagrees : Agrees own m s) : Agrees own m ⟨host', s.messages⟩ := by
  intro row hrow hm
  rw [perm_groups_iff, hmarks]
  exact perm_groups_iff.mp (hagrees row hrow hm)

end Hear

section Steps

variable {c : ℕ} {s : Scene}

theorem marks_congr {db' : Db} (h : db'.reactions = db.reactions) : marks db' m = marks db m := by
  rw [marks, marks, h]

theorem watching_of_done {host' : Host} {told : List ServerEvent}
    {messages : List Ui.MessageInfo} {reactions : List ReactionRow}
    {events : ℕ → List ServerEvent} (hs : Watching c m s)
    (h : Done s.host r host' told reactions events) (hkeyed : Keyed host'.db)
    (hid : ∀ row ∈ s.messages, ∃ row' ∈ messages, row'.id = row.id) :
    Watching c m ⟨host', messages⟩ := by
  obtain ⟨hchannel, ⟨row, hrow, hm⟩, -⟩ := hs
  obtain ⟨row', hrow', hid'⟩ := hid row hrow
  refine ⟨?_, ⟨row', hrow', hid'.trans hm⟩, hkeyed⟩
  show ∃ row, host'.db.messages.get? m = some row ∧ row.channelId = c
  rw [h.messages]
  exact hchannel

theorem agrees_add_iff (hs : Watching c m s) (hagrees : Agrees own m s) (hkind : r.kind = .add)
    (hm : r.messageId = m) (h : s.host.Accepts K r.op) :
    Agrees own m (perform K own c s r) ↔
      (r.fileId = some 0 →
        (r.member, r.emoji, readFileId (r.fileId.getD 0)) ∈ marks s.host.db m) := by
  subst hm
  obtain ⟨-, hreactions, row, hrow, htold⟩ := perform_add hkind h
  obtain ⟨row', hrow', hchannel⟩ := hs.channel
  obtain rfl : row = row' := Option.some.inj (hrow.symm.trans hrow')
  unfold perform
  simp only [htold]
  by_cases hhas : s.host.db.hasReaction r.messageId r.member r.emoji r.fileId = true
  · rw [if_pos hhas] at hreactions ⊢
    refine iff_of_true ?_ fun _ => hasReaction_iff.mp hhas
    exact agrees_congr (marks_congr hreactions) hagrees
  rw [if_neg hhas] at hreactions ⊢
  have hnew := mt hasReaction_iff.mpr hhas
  rw [hear_added, if_pos hchannel]
  refine agrees_map_iff hs (fun row => addReaction_id row _)
    (fun row => map_addReaction row r.emoji _ r.fileId) (fun l htells => ?_) hagrees
  rw [marks_append hreactions]
  by_cases hzero : r.fileId = some 0
  · refine iff_of_false ?_ fun hmem => hnew (hmem hzero)
    -- The viewer counts under file id 0, and the server under none.
    obtain ⟨counted, hmem, hkey⟩ := exists_mem_bump (r.emoji, r.fileId) (r.member = own) l
    refine not_tells_of_mem hmem ?_
    rw [hkey, total_append, hzero, total_zero, if_neg (by simp [readFileId])]
  · refine iff_of_true ?_ fun hzero' => absurd hzero' hzero
    rw [readFileId_getD hzero] at hnew ⊢
    exact tells_bump htells hnew

theorem agrees_remove_iff (hs : Watching c m s) (hagrees : Agrees own m s)
    (hkind : r.kind = .remove) (hm : r.messageId = m) (h : s.host.Accepts K r.op) :
    Agrees own m (perform K own c s r) ↔
      let key : Key := (r.emoji, readFileId (r.fileId.getD 0))
      let reacted := (r.member, key) ∈ marks s.host.db m
      if r.fileId = some 0 then ¬reacted
      else reacted ∧ (r.member = own → total (marks s.host.db m) key = 1) ∨
        total (marks s.host.db m) key = 0 := by
  subst hm
  obtain ⟨-, hreactions, row, hrow, htold⟩ := perform_remove hkind h
  obtain ⟨row', hrow', hchannel⟩ := hs.channel
  obtain rfl : row = row' := Option.some.inj (hrow.symm.trans hrow')
  have hnodup := nodup_marks (m := r.messageId) hs.keyed
  unfold perform
  simp only [htold]
  rw [hear_removed, if_pos hchannel]
  refine agrees_map_iff (f := fun row => row.removeReaction r.emoji r.fileId) hs (fun _ => rfl)
    (fun row => map_removeReaction row r.emoji r.fileId) (fun l htells => ?_) hagrees
  rw [marks_congr hreactions, marks_remove]
  by_cases hzero : r.fileId = some 0
  · rw [if_pos hzero, hzero, drop_of_absent htells total_zero]
    exact tells_without_iff htells hnodup
  · rw [if_neg hzero, readFileId_getD hzero]
    exact tells_drop_iff htells hnodup

theorem agrees_of_ne (hagrees : Agrees own m s) (hne : r.messageId ≠ m)
    (h : s.host.Accepts K r.op) : Agrees own m (perform K own c s r) := by
  unfold perform
  rcases hkind : r.kind with _ | _
  · obtain ⟨-, hreactions, row, hrow, htold⟩ := perform_add hkind h
    simp only [htold]
    split_ifs at hreactions ⊢ with hhas
    · exact agrees_congr (marks_congr hreactions) hagrees
    · have hmarks := marks_append_of_ne hne hreactions
      rw [hear_added]
      split_ifs
      · exact agrees_map_of_ne hne (fun row => addReaction_id row _) hmarks hagrees
      · exact agrees_congr hmarks hagrees
  · obtain ⟨-, hreactions, row, hrow, htold⟩ := perform_remove hkind h
    simp only [htold]
    have hmarks := (marks_congr hreactions).trans (marks_remove_of_ne (m := m) hne)
    rw [hear_removed]
    split_ifs
    · exact agrees_map_of_ne (f := fun row => row.removeReaction r.emoji r.fileId) hne
        (fun _ => rfl) hmarks hagrees
    · exact agrees_congr hmarks hagrees

/-- One request: the viewer goes on showing what it would fetch exactly under the condition. -/
theorem agrees_perform_iff (hs : Watching c m s) (hagrees : Agrees own m s) :
    Agrees own m (perform K own c s r) ↔ Counted K own m s r := by
  by_cases h : s.host.Accepts K r.op
  swap
  · refine iff_of_true ?_ fun _ haccepts => absurd haccepts h
    obtain ⟨hdb, htold⟩ := perform_refused h
    unfold perform
    simp only [htold]
    exact agrees_congr (congrArg (marks · m) hdb) hagrees
  by_cases hm : r.messageId = m
  swap
  · exact iff_of_true (agrees_of_ne hagrees hm h) fun hm' => absurd hm' hm
  unfold Counted
  rcases hkind : r.kind with _ | _
  · rw [agrees_add_iff hs hagrees hkind hm h]
    exact ⟨fun hcond _ _ => hcond, fun hcond => hcond hm h⟩
  · rw [agrees_remove_iff hs hagrees hkind hm h]
    exact ⟨fun hcond _ _ => hcond, fun hcond => hcond hm h⟩

theorem watching_perform (hs : Watching c m s) : Watching c m (perform K own c s r) := by
  have hmap : ∀ f : Ui.MessageInfo → Ui.MessageInfo, (∀ row, (f row).id = row.id) →
      ∀ row ∈ s.messages, ∃ row' ∈ s.messages.map fun row => if row.id = r.messageId then f row
        else row, row'.id = row.id := by
    intro f hid row hrow
    refine ⟨_, List.mem_map_of_mem hrow, ?_⟩
    split_ifs
    · exact hid row
    · rfl
  have hsame : ∀ row ∈ s.messages, ∃ row' ∈ s.messages, row'.id = row.id :=
    fun row hrow => ⟨row, hrow, rfl⟩
  unfold perform
  by_cases h : s.host.Accepts K r.op
  swap
  · obtain ⟨hdb, htold⟩ := perform_refused h
    simp only [htold]
    refine ⟨?_, hs.shown, ?_⟩
    · rw [hdb]
      exact hs.channel
    · rw [hdb]
      exact hs.keyed
  rcases hkind : r.kind with _ | _
  · have hdone := perform_add hkind h
    obtain ⟨row, hrow, htold⟩ := hdone.told
    have hreactions := hdone.reactions
    refine watching_of_done hs hdone ?_ ?_
    · split_ifs at hreactions with hhas
      · rw [Keyed, hreactions]
        exact hs.keyed
      · exact keyed_append hs.keyed (Bool.eq_false_of_not_eq_true hhas) hreactions
    · simp only [htold]
      split_ifs
      · exact hsame
      · rw [hear_added]
        split_ifs
        · exact hmap _ fun row => addReaction_id row _
        · exact hsame
  · have hdone := perform_remove hkind h
    obtain ⟨row, hrow, htold⟩ := hdone.told
    refine watching_of_done hs hdone ?_ ?_
    · rw [Keyed, hdone.reactions]
      exact keyed_remove hs.keyed
    · simp only [htold]
      rw [hear_removed]
      split_ifs
      · exact hmap (fun row => row.removeReaction r.emoji r.fileId) fun _ => rfl
      · exact hsame

end Steps

/-- Requests of any members, one after the other. -/
abbrev ReactionRun (K : Crypto) (own : PublicKey) (c : ℕ) :=
  Execution fun s r t => perform K own c s r = t

/-- A viewer shows in every state of a run what it would fetch exactly if every request meets the
condition. -/
theorem counts_converge_iff {c : ℕ} {s t : Scene} {tr : List (Transition Scene Reacting)}
    (hs : Watching c m s) (hagrees : Agrees own m s) (h : ReactionRun K own c s tr t) :
    ((∀ x ∈ tr, Agrees own m x.post) ↔ ∀ x ∈ tr, Counted K own m x.pre x.event) ∧
      ((∀ x ∈ tr, Counted K own m x.pre x.event) → Agrees own m t) := by
  have hiff := h.forall_post_iff (I := Watching c m) (Agrees own m)
    (fun x => Counted K own m x.pre x.event) hs hagrees
    (fun s r t hs hstep => hstep ▸ watching_perform hs)
    (fun x _ hs hagrees hstep => hstep ▸ agrees_perform_iff hs hagrees)
  exact ⟨hiff, fun hcond => h.good_end hagrees (hiff.mpr hcond)⟩

/-! ## A sample viewer -/

section Sample

open SampleLog SampleHost

/-- Alice has written a message, and Bob has reacted to it. -/
def reacted : Host := hostAfter (joined ++ requests 8
  [(alice, .message (.sendMessage 1 "hello" none [])),
   (bob, .message (.addReaction 1 "👍" none))])

/-- Alice has just fetched her message. -/
def fetched : Scene :=
  ⟨reacted, [⟨1, 1, key alice, "hello", 8, none, false,
    reacted.db.getReactionsForMessage 1 (key alice), false, none, none⟩]⟩

def reacting (s : ℕ) (who : Keypair) (kind : Kind) : Reacting :=
  ⟨momentAt s, key who, who = alice, kind, 1, "👍", none⟩

theorem watching_fetched : Watching 1 1 fetched := by
  refine ⟨?_, ⟨_, List.mem_singleton_self _, rfl⟩, ?_⟩
  · have hrow : (fetched.host.db.messages.get? 1).map MessageRow.channelId = some 1 := by
      decide +kernel
    exact Option.map_eq_some_iff.mp hrow
  · unfold Keyed
    decide +kernel

theorem agrees_fetched : Agrees (key alice) 1 fetched := by
  intro row hrow _
  obtain rfl := List.mem_singleton.mp hrow
  exact List.Perm.refl _

/-- Alice reacts as Bob has, and Bob takes his reaction back. -/
def orderly : List (Transition Scene Reacting) :=
  Execution.path (perform crypto (key alice) 1) fetched
    [reacting 10 alice .add, reacting 11 bob .remove]

theorem counts_converge_alice : (∀ x ∈ orderly, Agrees (key alice) 1 x.post) ∧
    orderly.all (fun x => x.pre.host.Accepts crypto x.event.op) = true := by
  refine ⟨?_, by decide +kernel⟩
  refine (counts_converge_iff watching_fetched agrees_fetched (Execution.of_path _ _)).1.mpr ?_
  refine List.forall_mem_cons.mpr ⟨?_, List.forall_mem_singleton.mpr ?_⟩
  · intro _ _ _ _ (hzero : none = some 0)
    exact nomatch hzero
  · exact fun _ _ => .inl ⟨by decide +kernel, by decide +kernel⟩

/-- Alice takes back a reaction that she has not made. Her client drops Bob's. -/
theorem counts_diverge :
    ¬∀ (K : Crypto) (own : PublicKey) (c m : ℕ) (s t : Scene) (tr : List (Transition Scene Reacting)),
      Watching c m s → Agrees own m s → ReactionRun K own c s tr t → Agrees own m t := by
  intro h
  set after := perform crypto (key alice) 1 fetched (reacting 10 alice .remove)
  have hagrees : Agrees (key alice) 1 after :=
    h crypto (key alice) 1 1 fetched _ _ watching_fetched agrees_fetched (.single rfl)
  have hshown : after.messages.map (fun row => (row.id, row.reactions)) = [(1, [])] := by
    decide +kernel
  have hkept : after.host.db.getReactionsForMessage 1 (key alice) = [⟨"👍", 1, false, none⟩] := by
    decide +kernel
  obtain ⟨row, hrows, hrow⟩ := List.map_eq_singleton_iff.mp hshown
  obtain ⟨hid, hnone⟩ := Prod.mk.inj hrow
  have hperm := hagrees row (hrows ▸ List.mem_singleton_self row) hid
  rw [hnone, hkept] at hperm
  exact List.cons_ne_nil _ _ hperm.nil_eq.symm

end Sample

end ReactionCounts
