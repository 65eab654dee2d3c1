import Farder.Server.MemberRows
import Farder.Server.Step

/-! # What requests do to the rows of messages

A row is added by a post, by a command, by a giveaway's announcement or by the log; every other
request leaves the ids of the rows as they are. -/
namespace Server

open EventLog Guarded Permissions

variable {K : Crypto} {host host' host'' : Host} {member : PublicKey} {isOwner : Bool}
  {moment : Moment} {channelId : ℕ} {row : MessageRow}

def Host.AddsRow (host host' : Host) (channelId : ℕ) : Prop :=
  ∃ x ∈ host'.db.messages, x.2.channelId = channelId ∧ ∀ y ∈ host.db.messages, y.1 ≠ x.1

instance : Decidable (host.AddsRow host' channelId) :=
  inferInstanceAs (Decidable (∃ x ∈ host'.db.messages.rows, x.2.channelId = channelId ∧
    ∀ y ∈ host.db.messages.rows, y.1 ≠ x.1))

/-- Every row has the id of one that was there before. -/
def Host.AddsNothing (host host' : Host) : Prop :=
  ∀ x ∈ host'.db.messages, ∃ y ∈ host.db.messages, y.1 = x.1

namespace Host

theorem AddsNothing.not_addsRow (h : host.AddsNothing host') : ¬host.AddsRow host' channelId := by
  rintro ⟨x, hx, -, hnew⟩
  obtain ⟨y, hy, heq⟩ := h x hx
  exact hnew y hy heq

theorem AddsNothing.of_eq (h : host'.db.messages = host.db.messages) : host.AddsNothing host' :=
  fun x hx => ⟨x, h ▸ hx, rfl⟩

theorem AddsNothing.of_modify {id : ℕ} {f : MessageRow → MessageRow}
    (h : host'.db.messages = host.db.messages.modify id f) : host.AddsNothing host' := by
  intro x hx
  rw [h] at hx
  obtain ⟨y, hy, rfl⟩ := Table.mem_map.mp hx
  exact ⟨y, hy, rfl⟩

theorem AddsNothing.of_delete {p : ℕ × MessageRow → Bool}
    (h : host'.db.messages = host.db.messages.delete p) : host.AddsNothing host' := by
  intro x hx
  rw [h] at hx
  exact ⟨x, (Table.mem_delete.mp hx).1, rfl⟩

theorem addsRow_of_insert (h : host'.db.messages = host.db.messages.insert row) :
    host.AddsRow host' channelId ↔ row.channelId = channelId := by
  simp only [AddsRow, h, Table.mem_insert]
  constructor
  · rintro ⟨x, hx | rfl, hchannel, hnew⟩
    · exact absurd rfl (hnew x hx)
    · exact hchannel
  · rintro rfl
    exact ⟨_, .inr rfl, rfl, fun y hy => (Table.key_lt hy).ne⟩

theorem expireTimeouts_db {pks : List PublicKey} {nowMs : ℕ} :
    (pks.foldl (fun host pk => host.expireTimeout pk nowMs) host).db = host.db :=
  foldl_invariant (P := fun host' : Host => host'.db = host.db) rfl fun _ h _ _ => h

theorem attachFiles_messages {messageId : ℕ} {files : List (ℕ × ℕ)} :
    (attachFiles member isOwner messageId host files).1.db.messages = host.db.messages := by
  induction files generalizing host with
  | nil => rfl
  | cons x files ih =>
    simp only [attachFiles]
    split
    · rfl
    · exact ih

end Host

open Host

theorem insertMessage_eq_ok {db db' : Db} {author : PublicKey} {content : String}
    {replyTo : Option ℕ} {now : ℕ} :
    db.insertMessage channelId author content replyTo now = .ok db' ↔
      db.resolve channelId = .plaintext ∧ db.insertRow
        ⟨channelId, author, content, now, none, replyTo, none, none, false⟩ = .ok db' := by
  simp [Db.insertMessage, Db.requirePlaintext]

theorem insertRow_exists {db : Db}
    (h : row.eventHash = none ∨ ∀ x ∈ db.messages, x.2.eventHash ≠ row.eventHash) :
    ∃ db', db.insertRow row = .ok db' :=
  ⟨_, bind_eq_ok.mpr ⟨(), ensure_eq_ok.mpr h, rfl⟩⟩

theorem insertMessage_exists {db : Db} (author : PublicKey) (content : String)
    (replyTo : Option ℕ) (now : ℕ) (h : db.resolve channelId = .plaintext) :
    ∃ db', db.insertMessage channelId author content replyTo now = .ok db' := by
  have hinsert : ∃ db', db.insertRow
      ⟨channelId, author, content, now, none, replyTo, none, none, false⟩ = .ok db' :=
    insertRow_exists (.inl rfl)
  obtain ⟨db', hinsert⟩ := hinsert
  exact ⟨db', insertMessage_eq_ok.mpr ⟨h, hinsert⟩⟩

theorem insertMessage_eq {db db' : Db} {author : PublicKey} {content : String}
    {replyTo : Option ℕ} {now : ℕ}
    (h : db.insertMessage channelId author content replyTo now = .ok db') :
    db' = { db with
      messages := db.messages.insert
        ⟨channelId, author, content, now, none, replyTo, none, none, false⟩
      messagesFts := db.messagesFts ++ [(db.messages.next, content)] } := by
  have hrow := (insertMessage_eq_ok.mp h).2
  simp only [Db.insertRow, bind_eq_ok, pure_eq_ok] at hrow
  obtain ⟨⟨⟩, -, rfl⟩ := hrow
  rfl

theorem insertMessage_messages {db db' : Db} {author : PublicKey} {content : String}
    {replyTo : Option ℕ} {now : ℕ}
    (h : db.insertMessage channelId author content replyTo now = .ok db') :
    db'.messages = db.messages.insert
      ⟨channelId, author, content, now, none, replyTo, none, none, false⟩ := by
  rw [insertMessage_eq h]

theorem channelEffect_addsNothing {request : ChannelRequest}
    (h : ChannelEffect host member isOwner request host') : host.AddsNothing host' := by
  cases h <;> exact .of_eq rfl

theorem roleEffect_addsNothing {request : RoleRequest}
    (h : RoleEffect host member isOwner request host') : host.AddsNothing host' := by
  cases h <;> exact .of_eq rfl

theorem memberEffect_addsNothing {request : MemberRequest}
    (h : MemberEffect host member isOwner moment request host') : host.AddsNothing host' := by
  cases h with
  | requestDeletion hrequest =>
    simp only [Db.requestDeletion, bind_eq_ok, pure_eq_ok] at hrequest
    obtain ⟨⟨⟩, -, ⟨⟩, -, rfl⟩ := hrequest
    exact .of_eq rfl
  | cancelDeletion hcancel =>
    simp only [Db.cancelDeletion, bind_eq_ok, pure_eq_ok] at hcancel
    obtain ⟨⟨⟩, -, rfl⟩ := hcancel
    exact .of_eq rfl
  | _ => exact .of_eq rfl

theorem messageEffect_addsNothing {request : MessageRequest}
    (hpost : ∀ id content replyTo files, request ≠ .sendMessage id content replyTo files)
    (h : MessageEffect host member isOwner moment request host') : host.AddsNothing host' := by
  cases h with
  | sendMessage => exact absurd rfl (hpost _ _ _ _)
  | editMessage hedit =>
    obtain ⟨row, -, -, hview⟩ := view_requestEditMessage hedit
    have hmessages := congrArg View.messages hview
    simp only [Db.view_messages] at hmessages
    exact .of_modify hmessages
  | deleteMessage hrow hdelete =>
    have hmessages := congrArg View.messages (view_requestDeleteMessage hdelete)
    simp only [Db.view_messages] at hmessages
    exact .of_delete hmessages
  | addReaction hrow hperm hadd =>
    simp only [Db.addReaction, bind_eq_ok, pure_eq_ok] at hadd
    obtain ⟨⟨⟩, -, rfl⟩ := hadd
    exact .of_eq rfl
  | openDm =>
    refine .of_eq ?_
    unfold Host.openDmChannel
    split_ifs <;> rfl
  | _ => exact .of_eq rfl

theorem fetchUrl_addsNothing {fetched : Option Fetched} :
    host.AddsNothing (host.fetchUrl K member isOwner moment channelId fetched).1 := by
  refine commit_effect (.of_eq rfl) fun host' h => ?_
  simp only [bind_eq_ok, map_eq_ok] at h
  obtain ⟨⟨⟩, -, ⟨⟩, -, file, -, ⟨db, id⟩, hstore, rfl⟩ := h
  exact .of_eq (congrArg View.messages (Db.view_storeOrReuse hstore))

end Server
