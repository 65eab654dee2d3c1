import Farder.Participation
import Farder.Server.CardRows

/-! # What can happen to a widget

Whatever happens to a server, each widget changes by a few steps only. A step says which row it
has found, what becomes of it, and what is told; what is claimed of widgets looks at these. -/
namespace Server

open EventLog Guarded Permissions Widgets Reports View

variable {K : Crypto} {b b' : Board} {member : PublicKey} {isOwner : Bool} {moment : Moment}
  {w w' : Widgets} {now : ℕ}

namespace Widgets

/-- The widget is open: its card invites to something. -/
def isOpen (w : Widgets) : WidgetRef → Bool
  | .poll id => (w.polls.get? id).any fun row => row.closedAt = none
  | .giveaway id => (w.giveaways.get? id).any fun row => row.status = .opened
  | .event id => (w.channelEvents.get? id).any fun row => row.status = .upcoming

/-- The message of the card, and its channel. -/
def place (w : Widgets) : WidgetRef → Option (ℕ × ℕ)
  | .poll id => (w.polls.get? id).map fun row => (row.messageId, row.channelId)
  | .giveaway id => (w.giveaways.get? id).map fun row => (row.messageId, row.channelId)
  | .event id => (w.channelEvents.get? id).map fun row => (row.messageId, row.channelId)

end Widgets

/-! ## Steps of one widget -/

/-- The card is drawn anew; nothing is written to anybody. -/
def CardNotice.isUpdate : CardNotice → Bool
  | .pollUpdated _ => true
  | .giveawayUpdated _ => true
  | .eventUpdated _ => true
  | _ => false

inductive WidgetChange (now : ℕ) (w : Widgets) : List CardNotice → Widgets → Prop
  | voted {l : List CardNotice} (pollVotes : KeyedRows (ℕ × PublicKey) ℕ)
      (hl : ∀ n ∈ l, n.isUpdate = true) : WidgetChange now w l { w with pollVotes }
  | entered {l : List CardNotice} (giveawayEntries : KeyedRows (ℕ × PublicKey) ℕ)
      (hl : ∀ n ∈ l, n.isUpdate = true) : WidgetChange now w l { w with giveawayEntries }
  | replied {l : List CardNotice} (rsvps : KeyedRows (ℕ × PublicKey) Rsvp)
      (hl : ∀ n ∈ l, n.isUpdate = true) : WidgetChange now w l { w with rsvps }
  | pollClosed {l : List CardNotice} (id : ℕ) (hl : ∀ n ∈ l, n.isUpdate = true) :
      WidgetChange now w l (w.closePoll id now)
  | giveawayCancelled {l : List CardNotice} (id : ℕ) (hl : ∀ n ∈ l, n.isUpdate = true) :
      WidgetChange now w l (w.cancelGiveaway id)
  | eventCancelled {l : List CardNotice} (id : ℕ) (hl : ∀ n ∈ l, n.isUpdate = true) :
      WidgetChange now w l (w.cancelEvent id now)
  | drawn {id : ℕ} (winner : Option PublicKey) (info : GiveawayInfo) (message : MessageInfo)
      (hopen : w.isOpen (.giveaway id) = true) :
      WidgetChange now w [.giveawayUpdated info, .newMessage (.draw id) message]
        (w.endGiveaway id winner)
  | rerolled {l : List CardNotice} {id : ℕ} (winner : PublicKey) (hl : ∀ n ∈ l, n.isUpdate = true ∨
      ∃ message, n = .newMessage (.reroll id) message) :
      WidgetChange now w l (w.rerollWinner id winner)
  | reminded {id : ℕ} {row : EventRow} (keys : List PublicKey) (text : String)
      (hrow : w.channelEvents.get? id = some row) (hnone : row.remindedAt = none)
      (hkeys : keys.Nodup) :
      WidgetChange now w (keys.map fun pk => .dm (.lead id) pk text) (w.markReminded id now)
  | started {id : ℕ} {row : EventRow} (info : EventInfo) (message : MessageInfo)
      (keys : List PublicKey) (text : String) (hrow : w.channelEvents.get? id = some row)
      (hupcoming : row.status = .upcoming) (hkeys : keys.Nodup) :
      WidgetChange now w ([.eventUpdated info, .newMessage (.start id) message] ++
        keys.map fun pk => .dm (.start id) pk text) (w.startEvent id now)
  | toldCancelled {id : ℕ} {row : EventRow} (keys : List PublicKey) (text : String)
      (hrow : w.channelEvents.get? id = some row) (hcancelled : row.status = .cancelled)
      (hnone : row.cancelNotifiedAt = none) (hkeys : keys.Nodup) :
      WidgetChange now w (keys.map fun pk => .dm (.cancellation id) pk text)
        (w.markCancelNotified id now)
  | withdrawn (id : ℕ) (owner : PublicKey) : WidgetChange now w [] (w.cancelReminder id owner)
  | reminderSent {id : ℕ} {row : ReminderRow} (recipient : PublicKey) (text : String)
      (hrow : w.reminders.get? id = some row) (hpending : row.status = .pending) :
      WidgetChange now w [.dm (.reminder id) recipient text] (w.markSent id now)

inductive WidgetStep (now : ℕ) (b : Board) (l : List CardNotice) (b' : Board) : Prop
  | aside (hl : ∀ n ∈ l, n.isUpdate = true) (hwidgets : b'.widgets = b.widgets)
      (hdb : Keeps b.host.db.view b'.host.db.view) (houtbox : b'.outbox = b.outbox)
  | changed (h : WidgetChange now b.widgets l b'.widgets)
      (hdb : Keeps b.host.db.view b'.host.db.view) (houtbox : b'.outbox = b.outbox)

structure PostsCard (b b' : Board) (messageId channelId : ℕ) : Prop where
  fresh : messageId = b.host.db.messages.next
  posted : b'.host.db.view.Posted messageId channelId
  kept : Keeps b.host.db.view b'.host.db.view
  outbox : b'.outbox = b.outbox

/-- A card is posted with its row, or a reminder is set. -/
inductive CreateStep (b : Board) : List CardNotice → Board → Prop
  | poll {row : PollRow} {info : PollInfo} {message : MessageInfo} {b' : Board}
      (hcard : PostsCard b b' row.messageId row.channelId)
      (hwidgets : b'.widgets = { b.widgets with
        polls := b.widgets.polls.insert row
        widget := b.widgets.widget.insert row.messageId (.poll b.widgets.polls.next) }) :
      CreateStep b [.newMessage (.card (.poll b.widgets.polls.next)) message, .pollUpdated info] b'
  | giveaway {row : GiveawayRow} {info : GiveawayInfo} {message : MessageInfo} {b' : Board}
      (hcard : PostsCard b b' row.messageId row.channelId)
      (hwidgets : b'.widgets = { b.widgets with
        giveaways := b.widgets.giveaways.insert row
        widget := b.widgets.widget.insert row.messageId (.giveaway b.widgets.giveaways.next) }) :
      CreateStep b [.newMessage (.card (.giveaway b.widgets.giveaways.next)) message,
        .giveawayUpdated info] b'
  | event {row : EventRow} {info : EventInfo} {message : MessageInfo} {b' : Board}
      (hcard : PostsCard b b' row.messageId row.channelId)
      (hwidgets : b'.widgets = { b.widgets with
        channelEvents := b.widgets.channelEvents.insert row
        widget := b.widgets.widget.insert row.messageId (.event b.widgets.channelEvents.next) }) :
      CreateStep b [.newMessage (.card (.event b.widgets.channelEvents.next)) message,
        .eventUpdated info] b'
  | reminder {row : ReminderRow} {b' : Board} (hhost : b'.host = b.host)
      (houtbox : b'.outbox = b.outbox)
      (hwidgets : b'.widgets = { b.widgets with
        reminders := b.widgets.reminders.insert row }) : CreateStep b [] b'

abbrev WidgetPath (now : ℕ) := Reports.Path (WidgetStep now)

variable {l : List CardNotice}

namespace WidgetPath

theorem aside (hl : ∀ n ∈ l, n.isUpdate = true) (hwidgets : b'.widgets = b.widgets)
    (hdb : Keeps b.host.db.view b'.host.db.view) (houtbox : b'.outbox = b.outbox := by rfl) :
    WidgetPath now b l b' :=
  .single (.aside hl hwidgets hdb houtbox)

theorem changed (h : WidgetChange now b.widgets l b'.widgets)
    (hdb : Keeps b.host.db.view b'.host.db.view) (houtbox : b'.outbox = b.outbox := by rfl) :
    WidgetPath now b l b' :=
  .single (.changed h hdb houtbox)

theorem after {b₁ : Board} (hwidgets : b₁.widgets = b.widgets) (hdb : b₁.host.db = b.host.db)
    (houtbox : b₁.outbox = b.outbox) (h : WidgetPath now b₁ l b') : WidgetPath now b l b' :=
  Reports.Path.chain.append _ _ _ _ _
    (aside (List.forall_mem_nil _) hwidgets (.of_eq (congrArg Db.view hdb)) houtbox) h

theorem outbox (h : WidgetPath now b l b') : b'.outbox = b.outbox := by
  have hchain : Chain fun (b : Board) (_ : List CardNotice) b' => b'.outbox = b.outbox :=
    .of_trans (E := fun b b' : Board => b'.outbox = b.outbox) (fun _ => rfl)
      fun _ _ _ h h' => h'.trans h
  refine h.along hchain ?_
  rintro s l t (⟨-, -, -, houtbox⟩ | ⟨-, -, houtbox⟩) <;> exact houtbox

theorem cancelled (h : WidgetPath now b l b') : b.widgets.channelEvents.Retains
    (fun row row' => row.status = .cancelled → row'.status = .cancelled)
    b'.widgets.channelEvents := by
  refine h.along (R := fun b _ b' => b.widgets.channelEvents.Retains
    (fun row row' => row.status = .cancelled → row'.status = .cancelled)
    b'.widgets.channelEvents) (.of_trans (fun _ => .refl fun _ => id)
      fun _ _ _ h h' => h.trans (fun _ _ _ hab hbc => hbc ∘ hab) h') ?_
  rintro s l t (⟨-, hwidgets, -, -⟩ | ⟨hchange, -, -⟩)
  · rw [hwidgets]
    exact .refl fun _ => id
  · generalize t.widgets = w' at hchange
    cases hchange with
    | eventCancelled | reminded | started | toldCancelled =>
      refine .modify (fun _ => id) fun row hcancelled => ?_
      split_ifs
      · simp_all
      · exact hcancelled
    | _ => exact .refl fun _ => id

end WidgetPath

theorem attempt_chain {R : Board → List CardNotice → Board → Prop} (hR : Chain R)
    {write : Board → Checked (Board × List CardNotice)}
    (h : ∀ x, write b = .ok x → R b x.2 x.1) : R b (b.attempt write).2 (b.attempt write).1 := by
  unfold Board.attempt
  split
  · exact h _ ‹_›
  · exact hR.nil b

theorem passRows_path {ρ : Type} {chance : Chance} {kind : SweepPass} {due : List (ℕ × ρ)}
    {step : ℕ × ρ → Board → Checked (Board × List CardNotice)}
    (h : ∀ x ∈ due, ∀ l b', WidgetPath now b l b' → ∀ y, step x b' = .ok y →
      WidgetPath now b' y.2 y.1) :
    WidgetPath now b (b.passRows chance kind due step).2 (b.passRows chance kind due step).1 := by
  refine Reports.Path.chain.forEach fun x hx l b' hl => ?_
  split_ifs
  · exact .nil b'
  · exact attempt_chain Reports.Path.chain (h x hx l b' hl)

theorem pass_path {ρ : Type} {chance : Chance} {kind : SweepPass} {due : List (ℕ × ρ)}
    {step : ℕ × ρ → Board → Checked (Board × List CardNotice)}
    (h : ∀ x ∈ due, ∀ l b', WidgetPath now b l b' → ∀ y, step x b' = .ok y →
      WidgetPath now b' y.2 y.1) :
    WidgetPath now b (b.pass chance kind due step).2 (b.pass chance kind due step).1 := by
  unfold Board.pass
  split_ifs
  · exact .nil b
  · exact passRows_path h

theorem inPlaintext_path {channelId : ℕ} {write : Board → Checked (Board × List CardNotice)}
    {y : Board × List CardNotice} (hy : Board.inPlaintext channelId write b = .ok y)
    (h : ∀ y, write b = .ok y → WidgetPath now b y.2 y.1) : WidgetPath now b y.2 y.1 :=
  h y (Board.inPlaintext_eq_ok.mp hy).2

theorem announce_eq_ok {author : PublicKey} {channelId messageId : ℕ} {text : String}
    {subject : Subject} {x : Board × CardNotice}
    (h : b.announce now author channelId messageId text subject = .ok x) :
    x.1.widgets = b.widgets ∧ x.1.outbox = b.outbox ∧ Keeps b.host.db.view x.1.host.db.view ∧
      ∃ message, x.2 = .newMessage subject message := by
  simp only [Board.announce, bind_eq_ok, pure_eq_ok] at h
  obtain ⟨db, hinsert, message, -, rfl⟩ := h
  exact ⟨rfl, rfl, Db.keeps_insertMessage hinsert, message, rfl⟩

theorem closeDue_path {chance : Chance} :
    WidgetPath now b (b.closeDue chance now).2 (b.closeDue chance now).1 := by
  unfold Board.closeDue
  dsimp only
  by_cases hfails : chance.fails (.list .poll) = true
  · rw [if_pos hfails]
    exact .nil b
  rw [if_neg hfails]
  generalize (b.widgets.duePolls now).takeWhile _ = done
  have hclosed : ∀ w, WidgetPath now b [] (b.withWidgets w) →
      WidgetPath now b [] (b.withWidgets (done.foldl (fun w id => w.closePoll id now) w)) := by
    clear hfails
    induction done with
    | nil => exact fun w h => h
    | cons id done ih =>
      intro w h
      have hstep : WidgetPath now (b.withWidgets w) [] (b.withWidgets (w.closePoll id now)) :=
        WidgetPath.changed (.pollClosed id (List.forall_mem_nil _)) .refl
      exact ih _ (Reports.Path.chain.append _ _ _ _ _ h hstep)
  have hupdates : ∀ l : List CardNotice, (∀ n ∈ l, n.isUpdate = true) → WidgetPath now b l
      (b.withWidgets (done.foldl (fun w id => w.closePoll id now) b.widgets)) := fun l hl =>
    Reports.Path.chain.append _ [] _ _ _ (hclosed b.widgets (.nil b))
      (WidgetPath.aside hl rfl .refl)
  split_ifs
  · refine hupdates _ fun n hn => ?_
    obtain ⟨id, -, hinfo⟩ := List.mem_filterMap.mp hn
    obtain ⟨row, -, rfl⟩ := Option.map_eq_some_iff.mp hinfo
    rfl
  · exact hupdates [] (List.forall_mem_nil _)

theorem closeAndDraw_path {chance : Chance} {x : ℕ × GiveawayRow} {y : Board × List CardNotice}
    (h : b.closeAndDraw chance now x = .ok y) : WidgetPath now b y.2 y.1 := by
  simp only [Board.closeAndDraw, bind_eq_ok, ensure_eq_ok, pure_eq_ok] at h
  obtain ⟨⟨⟩, hopen, ⟨announced, notice⟩, hannounce, row, -, rfl⟩ := h
  obtain ⟨hwidgets, houtbox, hkept, message, hnotice⟩ := announce_eq_ok hannounce
  obtain rfl : notice = .newMessage (.draw x.1) message := hnotice
  refine WidgetPath.changed ?_ hkept houtbox
  rw [hwidgets]
  exact .drawn _ _ message hopen

theorem sendReminder_path {x : ℕ × ReminderRow} {y : Board × List CardNotice}
    (h : b.sendReminder now x = .ok y) : WidgetPath now b y.2 y.1 := by
  simp only [Board.sendReminder, bind_eq_ok, ensure_eq_ok, pure_eq_ok] at h
  obtain ⟨⟨⟩, hpending, rfl⟩ := h
  obtain ⟨row, hrow, hpending⟩ := (Option.any_eq_true _ _).mp hpending
  exact WidgetPath.changed (.reminderSent _ _ hrow (of_decide_eq_true hpending)) .refl

theorem nodup_responders {id : ℕ} {responses : List String} :
    (w.responders id responses).Nodup := by
  have hkeys : (w.rsvps.entries.map Sigma.fst).Nodup := w.rsvps.nodupKeys
  have hrows : ((w.rsvps.rowsOf id).map Prod.fst).Nodup := by
    have hids : ((w.rsvps.entries.reverse.filter fun x => x.1.1 = id).map Sigma.fst).Nodup := by
      refine List.Nodup.sublist (List.filter_sublist.map _) ?_
      rw [List.map_reverse]
      exact List.nodup_reverse.mpr hkeys
    rw [KeyedRows.rowsOf, List.map_map]
    refine (List.nodup_map_iff_inj_on hids.of_map).mpr ?_
    intro x hx y hy heq
    refine List.inj_on_of_nodup_map hids hx hy (Prod.ext ?_ heq)
    have hxid := of_decide_eq_true (List.mem_filter.mp hx).2
    have hyid := of_decide_eq_true (List.mem_filter.mp hy).2
    exact hxid.trans hyid.symm
  have hreplies : ((w.replies id).map Prod.fst).Nodup :=
    ((List.perm_insertionSort _ _).map _).nodup_iff.mpr hrows
  exact hreplies.sublist (List.filter_sublist.map _)

theorem nodup_dms (b : Board) (chance : Chance) (id : ℕ) (responses : List String) :
    ∃ keys : List PublicKey, keys.Nodup ∧ ∀ subject text,
      b.eventDms chance id subject responses text = keys.map fun pk => .dm subject pk text := by
  unfold Board.eventDms
  split_ifs
  · exact ⟨[], List.nodup_nil, fun _ _ => rfl⟩
  · exact ⟨_, nodup_responders, fun _ _ => rfl⟩

theorem remindOfStart_path {chance : Chance} {x : ℕ × EventRow} {y : Board × List CardNotice}
    (h : b.remindOfStart chance now x = .ok y) : WidgetPath now b y.2 y.1 := by
  simp only [Board.remindOfStart, bind_eq_ok, ensure_eq_ok, pure_eq_ok] at h
  obtain ⟨⟨⟩, hnone, rfl⟩ := h
  obtain ⟨row, hrow, hnone⟩ := (Option.any_eq_true _ _).mp hnone
  obtain ⟨keys, hkeys, heq⟩ := nodup_dms (b.withWidgets (b.widgets.markReminded x.1 now)) chance
    x.1 ["going", "maybe"]
  dsimp only
  rw [heq]
  exact WidgetPath.changed (.reminded keys _ hrow (of_decide_eq_true hnone) hkeys) .refl

theorem startAndAnnounce_path {chance : Chance} {systemPk : PublicKey} {x : ℕ × EventRow}
    {y : Board × List CardNotice} (h : b.startAndAnnounce chance now systemPk x = .ok y) :
    WidgetPath now b y.2 y.1 := by
  simp only [Board.startAndAnnounce, bind_eq_ok, ensure_eq_ok, pure_eq_ok] at h
  obtain ⟨⟨⟩, hupcoming, ⟨announced, notice⟩, hannounce, row', -, rfl⟩ := h
  obtain ⟨row, hrow, hupcoming⟩ := (Option.any_eq_true _ _).mp hupcoming
  obtain ⟨hwidgets, houtbox, hkept, message, hnotice⟩ := announce_eq_ok hannounce
  obtain rfl : notice = .newMessage (.start x.1) message := hnotice
  obtain ⟨keys, hkeys, heq⟩ := nodup_dms announced chance x.1 ["going"]
  dsimp only
  rw [heq]
  refine WidgetPath.changed ?_ hkept houtbox
  rw [hwidgets]
  exact .started _ message keys _ hrow (of_decide_eq_true hupcoming) hkeys

theorem notifyCancelled_path {chance : Chance} {x : ℕ × EventRow} {y : Board × List CardNotice}
    (hcancelled : ∃ row ∈ b.widgets.channelEvents.get? x.1, row.status = .cancelled)
    (h : b.notifyCancelled chance now x = .ok y) : WidgetPath now b y.2 y.1 := by
  simp only [Board.notifyCancelled, bind_eq_ok, ensure_eq_ok, pure_eq_ok] at h
  obtain ⟨⟨⟩, hnone, rfl⟩ := h
  obtain ⟨row, hrow, hnone⟩ := (Option.any_eq_true _ _).mp hnone
  obtain ⟨row', hrow', hstatus⟩ := hcancelled
  obtain rfl := Option.some.inj (hrow.symm.trans hrow')
  obtain ⟨keys, hkeys, heq⟩ := nodup_dms
    (b.withWidgets (b.widgets.markCancelNotified x.1 now)) chance x.1 ["going"]
  dsimp only
  rw [heq]
  exact WidgetPath.changed (.toldCancelled keys _ hrow hstatus (of_decide_eq_true hnone) hkeys)
    .refl

theorem systemIdentity_outbox {key : PublicKey} {x : Board × PublicKey}
    (h : b.getOrCreateSystemIdentity now key = .ok x) : x.1.outbox = b.outbox := by
  unfold Board.getOrCreateSystemIdentity at h
  split at h
  · split_ifs at h
    · simp only [bind_eq_ok, pure_eq_ok] at h
      obtain ⟨community, -, rfl⟩ := h
      rfl
    · obtain rfl := pure_eq_ok.mp h
      rfl
  · simp only [bind_eq_ok, pure_eq_ok] at h
    obtain ⟨community, -, rfl⟩ := h
    rfl

theorem startEvents_path {chance : Chance} :
    WidgetPath now b (b.startEvents chance now).2 (b.startEvents chance now).1 := by
  unfold Board.startEvents
  dsimp only
  split_ifs
  · exact .nil b
  · exact .nil b
  · split
    · exact .nil b
    · next opened systemPk hsystem =>
      obtain ⟨hwidgets, hdb⟩ := Board.systemIdentity_eq_ok hsystem
      exact WidgetPath.after hwidgets hdb (systemIdentity_outbox hsystem)
        (passRows_path fun x _ l b' _ y hy =>
          inPlaintext_path hy fun y => startAndAnnounce_path)

theorem notifyCancellations_path {chance : Chance} : WidgetPath now b
    (b.notifyCancellations chance now).2 (b.notifyCancellations chance now).1 := by
  refine pass_path fun x hx l b' hl y hy => notifyCancelled_path ?_ hy
  obtain ⟨hrow, hdue⟩ := List.mem_filter.mp (List.mem_of_mem_take hx)
  obtain ⟨row, hrow, hkept⟩ := hl.cancelled x.1 x.2 (Table.get?_eq_some.mpr hrow)
  exact ⟨row, hrow, hkept (of_decide_eq_true hdue).1⟩

theorem sweepOnce_path {chance : Chance} :
    WidgetPath now b (b.sweepOnce chance now).2 (b.sweepOnce chance now).1 := by
  refine Reports.Path.chain.andThen closeDue_path ?_
  refine Reports.Path.chain.andThen (pass_path fun x _ l b' _ y hy =>
    inPlaintext_path hy fun y => closeAndDraw_path) ?_
  refine Reports.Path.chain.andThen (pass_path fun x _ l b' _ y => sendReminder_path) ?_
  refine Reports.Path.chain.andThen (pass_path fun x _ l b' _ y => remindOfStart_path) ?_
  exact Reports.Path.chain.andThen startEvents_path notifyCancellations_path

theorem interact_path {write : Board → Checked (Board × List CardNotice)}
    (h : ∀ x, write (b.expireTimeout member moment) = .ok x →
      WidgetPath now (b.expireTimeout member moment) x.2 x.1) :
    WidgetPath now b (b.interact member moment write).2 (b.interact member moment write).1 := by
  unfold Board.interact
  split
  · exact .nil b
  · refine @WidgetPath.after b _ now _ (b.expireTimeout member moment) rfl rfl rfl
      (attempt_chain Reports.Path.chain fun x hx => ?_)
    simp only [bind_eq_ok] at hx
    obtain ⟨⟨⟩, -, hx⟩ := hx
    exact h x hx

theorem interactLimited_path {write : Board → Checked (Board × List CardNotice)}
    (h : ∀ x, write (b.expireTimeout member moment) = .ok x →
      WidgetPath now (b.expireTimeout member moment) x.2 x.1) :
    WidgetPath now b (b.interactLimited member moment write).2
      (b.interactLimited member moment write).1 := by
  unfold Board.interactLimited
  split_ifs
  · exact interact_path h
  · exact .nil b

theorem forall_update {n : CardNotice} (hn : n.isUpdate = true) : ∀ m ∈ [n], m.isUpdate = true :=
  fun _ hm => List.mem_singleton.mp hm ▸ hn

theorem forall_update_ite {p : Prop} [Decidable p] {n : CardNotice} (hn : n.isUpdate = true) :
    ∀ m ∈ (if p then [n] else []), m.isUpdate = true := by
  split_ifs
  · exact forall_update hn
  · exact List.forall_mem_nil _

theorem rerollGiveaway_path {id pick : ℕ} :
    WidgetPath now b (b.rerollGiveaway K member isOwner moment id pick).2
      (b.rerollGiveaway K member isOwner moment id pick).1 := by
  unfold Board.rerollGiveaway
  dsimp only
  have hkept := fun view text => @handleRequest_cards K b.host member isOwner moment
    (.rerollGiveaway view text)
  split
  · refine WidgetPath.changed (@WidgetChange.rerolled _ _ _ id _ fun n hn => ?_) (hkept _ _)
    rcases List.mem_append.mp hn with hn | hn
    · obtain ⟨row, -, rfl⟩ := List.mem_map.mp hn
      exact .inl rfl
    · obtain ⟨message, -, rfl⟩ := List.mem_map.mp hn
      exact .inr ⟨message, rfl⟩
  · exact WidgetPath.aside (List.forall_mem_nil _) rfl (hkept _ _)

def WidgetRequest.isEdit : WidgetRequest → Bool
  | .editEvent .. => true
  | _ => false

theorem request_path {pick : ℕ} {request : WidgetRequest} (hedit : request.isEdit = false) :
    WidgetPath moment.now b (b.handleWidgetRequest K member isOwner moment pick request).2
      (b.handleWidgetRequest K member isOwner moment pick request).1 := by
  cases request with
  | votePoll id i =>
    refine interactLimited_path fun x hx => ?_
    simp only [Board.votePoll, bind_eq_ok, pure_eq_ok] at hx
    obtain ⟨row, -, ⟨⟩, -, ⟨⟩, -, rfl⟩ := hx
    exact WidgetPath.changed (.voted _ (forall_update rfl)) .refl
  | retractVote id =>
    refine interactLimited_path fun x hx => ?_
    simp only [Board.retractVote, bind_eq_ok, pure_eq_ok] at hx
    obtain ⟨row, -, ⟨⟩, -, rfl⟩ := hx
    exact WidgetPath.changed (.voted _ (forall_update_ite rfl)) .refl
  | closePoll id =>
    refine interact_path fun x hx => ?_
    simp only [Board.closePoll, bind_eq_ok, pure_eq_ok] at hx
    obtain ⟨row, -, ⟨⟩, -, ⟨⟩, -, row', -, rfl⟩ := hx
    exact WidgetPath.changed (.pollClosed id (forall_update rfl)) .refl
  | enterGiveaway id =>
    refine interactLimited_path fun x hx => ?_
    simp only [Board.enterGiveaway, bind_eq_ok, pure_eq_ok] at hx
    obtain ⟨row, -, ⟨⟩, -, ⟨⟩, -, rfl⟩ := hx
    refine WidgetPath.changed (.entered _ ?_) .refl
    dsimp only
    split_ifs
    · exact List.forall_mem_nil _
    · exact forall_update rfl
  | leaveGiveaway id =>
    refine interactLimited_path fun x hx => ?_
    simp only [Board.leaveGiveaway, bind_eq_ok, pure_eq_ok] at hx
    obtain ⟨row, -, ⟨⟩, -, ⟨⟩, -, rfl⟩ := hx
    exact WidgetPath.changed (.entered _ (forall_update_ite rfl)) .refl
  | cancelGiveaway id =>
    refine interact_path fun x hx => ?_
    simp only [Board.cancelGiveaway, bind_eq_ok, pure_eq_ok] at hx
    obtain ⟨row, -, ⟨⟩, -, ⟨⟩, -, row', -, rfl⟩ := hx
    exact WidgetPath.changed (.giveawayCancelled id (forall_update rfl)) .refl
  | rerollGiveaway id => exact rerollGiveaway_path
  | rsvpEvent id response =>
    refine interactLimited_path fun x hx => ?_
    simp only [Board.rsvpEvent, bind_eq_ok, pure_eq_ok] at hx
    obtain ⟨row, -, ⟨⟩, -, ⟨⟩, -, rfl⟩ := hx
    exact WidgetPath.changed (.replied _ (forall_update rfl)) .refl
  | clearRsvp id =>
    refine interactLimited_path fun x hx => ?_
    simp only [Board.clearRsvp, bind_eq_ok, pure_eq_ok] at hx
    obtain ⟨row, -, ⟨⟩, -, rfl⟩ := hx
    exact WidgetPath.changed (.replied _ (forall_update_ite rfl)) .refl
  | cancelEvent id =>
    refine interactLimited_path fun x hx => ?_
    simp only [Board.cancelEvent, bind_eq_ok, pure_eq_ok] at hx
    obtain ⟨row, -, ⟨⟩, -, ⟨⟩, -, row', -, rfl⟩ := hx
    exact WidgetPath.changed (.eventCancelled id (forall_update rfl)) .refl
  | editEvent id edit => cases hedit
  | cancelReminder id =>
    show WidgetPath _ b (b.cancelReminder member id).2 (b.cancelReminder member id).1
    unfold Board.cancelReminder
    split
    · exact .nil b
    · exact WidgetPath.changed (.withdrawn id member) .refl

theorem edit_perform {pick id : ℕ} {edit : EventEdit} {x : Board × List CardNotice}
    (hx : b.perform K moment (.request member isOwner pick (.editEvent id edit)) = x) :
    x.1.host.db = b.host.db ∧ x.1.outbox = b.outbox ∧ (∀ n ∈ x.2, n.isUpdate = true) ∧
      (x.1.widgets = b.widgets ∨ ∃ row edit', b.widgets.channelEvents.get? id = some row ∧
        x.1.widgets = b.widgets.editEvent id edit' (edit'.startsAt ≠ row.startsAt)) := by
  change b.interactLimited member moment (·.editEvent member isOwner moment id edit) = x at hx
  unfold Board.interactLimited Board.interact at hx
  split_ifs at hx
  swap
  · obtain rfl := hx
    exact ⟨rfl, rfl, List.forall_mem_nil _, .inl rfl⟩
  split at hx
  · obtain rfl := hx
    exact ⟨rfl, rfl, List.forall_mem_nil _, .inl rfl⟩
  · unfold Board.attempt at hx
    split at hx
    · next y hy =>
      simp only [bind_eq_ok, Board.editEvent, pure_eq_ok] at hy
      obtain ⟨⟨⟩, -, row, hrow, ⟨⟩, -, ⟨⟩, -, ⟨⟩, -, startsAt, -, ⟨⟩, -, row', -, rfl⟩ := hy
      obtain rfl := hx
      exact ⟨rfl, rfl, forall_update rfl, .inr ⟨row, _, visibleRow_row hrow, rfl⟩⟩
    · obtain rfl := hx
      exact ⟨rfl, rfl, List.forall_mem_nil _, .inl rfl⟩

section Commands

variable {cmd : PendingCommand}

theorem postAs_eq_ok {author : PublicKey} {content : String} {write : ℕ → Widgets → Widgets}
    {x : Board × MessageInfo} (h : b.postAs moment cmd author content write = .ok x) :
    x.1.widgets = write b.host.db.messages.next b.widgets ∧
      PostsCard b x.1 b.host.db.messages.next cmd.channelId := by
  simp only [Board.postAs, bind_eq_ok, pure_eq_ok] at h
  obtain ⟨db, hinsert, message, -, rfl⟩ := h
  have hrow : (b.host.db.messages.next, (⟨cmd.channelId, author, content, moment.now, none, none,
      none, none, false⟩ : MessageRow)) ∈ db.messages :=
    insertMessage_messages hinsert ▸ Table.mem_insert.mpr (.inr rfl)
  exact ⟨rfl, rfl, ⟨_, hrow, rfl, rfl⟩, Db.keeps_insertMessage hinsert, rfl⟩

theorem createPollCard_step {parsed : ParsedPoll} {x : Board × List CardNotice}
    (h : b.createPollCard moment cmd parsed = .ok x) : CreateStep b x.2 x.1 := by
  simp only [Board.createPollCard, bind_eq_ok, pure_eq_ok] at h
  obtain ⟨⟨⟩, -, ⟨posted, message⟩, hposted, row, -, rfl⟩ := h
  obtain ⟨hwidgets, hcard⟩ := postAs_eq_ok hposted
  exact .poll hcard hwidgets

theorem createGiveawayCard_step {parsed : ParsedGiveaway} {x : Board × List CardNotice}
    (h : b.createGiveawayCard moment cmd parsed = .ok x) : CreateStep b x.2 x.1 := by
  simp only [Board.createGiveawayCard, bind_eq_ok, pure_eq_ok] at h
  obtain ⟨⟨⟩, -, ⟨⟩, -, ⟨posted, message⟩, hposted, row, -, rfl⟩ := h
  obtain ⟨hwidgets, hcard⟩ := postAs_eq_ok hposted
  exact .giveaway hcard hwidgets

theorem createEventCard_step {parsed : ParsedEvent} {x : Board × List CardNotice}
    (h : b.createEventCard moment cmd parsed = .ok x) : CreateStep b x.2 x.1 := by
  simp only [Board.createEventCard, bind_eq_ok, pure_eq_ok] at h
  obtain ⟨⟨⟩, -, startsAt, -, ⟨posted, message⟩, hposted, row, -, rfl⟩ := h
  obtain ⟨hwidgets, hcard⟩ := postAs_eq_ok hposted
  exact .event hcard hwidgets

theorem createReminder_step {parsed : ParsedReminder} {x : Board × List CardNotice}
    (h : b.createReminder moment cmd parsed = .ok x) : CreateStep b x.2 x.1 := by
  simp only [Board.createReminder, bind_eq_ok, pure_eq_ok] at h
  obtain ⟨⟨⟩, -, ⟨⟩, -, rfl⟩ := h
  exact .reminder rfl rfl rfl

end Commands

theorem deliver_path {systemKey : PublicKey} {ciphertext : String} :
    WidgetPath moment.now { b with outbox := b.outbox.tail } []
      (b.deliver moment systemKey ciphertext) := by
  unfold Board.deliver
  split
  · next houtbox =>
    exact WidgetPath.aside (List.forall_mem_nil _) rfl .refl (by rw [houtbox]; rfl)
  · next subject recipient text rest houtbox =>
    rw [houtbox]
    split
    · next sent hsent =>
      simp only [Board.sendSystemDm, bind_eq_ok, pure_eq_ok] at hsent
      obtain ⟨⟨opened, systemPk⟩, hsystem, channel, -, db, hinsert, rfl⟩ := hsent
      obtain ⟨hwidgets, hdb⟩ := Board.systemIdentity_eq_ok hsystem
      have hopened : Keeps b.host.db.view (opened.host.openDmChannel systemPk recipient).db.view :=
        Keeps.trans (.of_eq (congrArg Db.view hdb)) openDmChannel_cards
      exact WidgetPath.aside (List.forall_mem_nil _) hwidgets
        (hopened.trans (Db.keeps_insertMessage hinsert)) (systemIdentity_outbox hsystem)
    · exact .nil _
  · next notice rest hother houtbox =>
    rw [houtbox]
    exact .nil _

/-- What an operation does: it is about the widgets, it creates one, it edits an event, it is about
the messages that a sweep leaves, or it is about the store or the whole server. -/
inductive Performed (K : Crypto) (b : Board) (moment : Moment) : BoardOp → Prop
  | path {op : BoardOp} (h : WidgetPath moment.now b (b.perform K moment op).2
      (b.perform K moment op).1) : Performed K b moment op
  | created {op : BoardOp} (h : CreateStep b (b.perform K moment op).2
      (b.perform K moment op).1) : Performed K b moment op
  | edited {member : PublicKey} {isOwner : Bool} {pick id : ℕ} {edit : EventEdit} :
      Performed K b moment (.request member isOwner pick (.editEvent id edit))
  | swept {chance : Chance} (h : WidgetPath moment.now b (b.sweepOnce chance moment.now).2
      (b.sweepOnce chance moment.now).1) : Performed K b moment (.sweep chance)
  | delivered {systemKey : PublicKey} {ciphertext : String}
      (h : WidgetPath moment.now { b with outbox := b.outbox.tail } []
        (b.deliver moment systemKey ciphertext)) :
      Performed K b moment (.deliver systemKey ciphertext)
  | dropped : Performed K b moment .drop
  | store {op : StoreOp} : Performed K b moment (.store op)
  | restart : Performed K b moment .restart

theorem Performed.of_create {op : BoardOp} (write : Board → Checked (Board × List CardNotice))
    (hop : b.perform K moment op = b.attempt write)
    (hwrite : ∀ x, write b = .ok x → CreateStep b x.2 x.1) : Performed K b moment op := by
  cases hx : write b with
  | ok x =>
    refine .created ?_
    rw [hop, Board.attempt, hx]
    exact hwrite x hx
  | error failure =>
    refine .path ?_
    rw [hop, Board.attempt, hx]
    exact .nil b

theorem performed (K : Crypto) (b : Board) (moment : Moment) (op : BoardOp) :
    Performed K b moment op := by
  cases op with
  | store op => exact .store
  | request member isOwner pick request =>
    cases hedit : request.isEdit with
    | false => exact .path (request_path hedit)
    | true =>
      cases request with
      | editEvent id edit => exact .edited
      | _ => cases hedit
  | runCommand member isOwner channelId =>
    refine .path ?_
    show WidgetPath _ b (b.admitCommand member isOwner moment channelId).2
      (b.admitCommand member isOwner moment channelId).1
    unfold Board.admitCommand
    split
    · exact .nil b
    split_ifs
    swap
    · exact .nil b
    · refine @WidgetPath.after b _ moment.now _ (b.expireTimeout member moment) rfl rfl rfl
        (attempt_chain Reports.Path.chain fun x hx => ?_)
      simp only [bind_eq_ok, pure_eq_ok] at hx
      obtain ⟨⟨⟩, -, rfl⟩ := hx
      exact WidgetPath.aside (List.forall_mem_nil _) rfl .refl
  | findCommand cmd trigger =>
    refine .path (attempt_chain Reports.Path.chain fun x hx => ?_)
    simp only [Board.findCommand, bind_eq_ok, pure_eq_ok] at hx
    obtain ⟨⟨⟩, -, row, -, rfl⟩ := hx
    exact WidgetPath.aside (List.forall_mem_nil _) rfl .refl
  | checkModerator cmd =>
    refine .path (attempt_chain Reports.Path.chain fun x hx => ?_)
    simp only [Board.checkModerator, bind_eq_ok, pure_eq_ok] at hx
    obtain ⟨⟨⟩, -, ⟨⟩, -, rfl⟩ := hx
    exact WidgetPath.aside (List.forall_mem_nil _) rfl .refl
  | reply cmd content =>
    refine .path (attempt_chain Reports.Path.chain fun x hx => ?_)
    simp only [Board.reply, bind_eq_ok, pure_eq_ok] at hx
    obtain ⟨⟨⟩, -, row, -, posted, hposted, rfl⟩ := hx
    obtain ⟨hwidgets, hcard⟩ := postAs_eq_ok hposted
    exact WidgetPath.aside (List.forall_mem_nil _) hwidgets hcard.kept hcard.outbox
  | createPoll cmd parsed =>
    exact .of_create (·.createPollCard moment cmd parsed) rfl fun x => createPollCard_step
  | createGiveaway cmd parsed =>
    exact .of_create (·.createGiveawayCard moment cmd parsed) rfl fun x => createGiveawayCard_step
  | createEvent cmd parsed =>
    exact .of_create (·.createEventCard moment cmd parsed) rfl fun x => createEventCard_step
  | createReminder cmd parsed =>
    exact .of_create (·.createReminder moment cmd parsed) rfl fun x => createReminder_step
  | sweep chance => exact .swept sweepOnce_path
  | deliver systemKey ciphertext => exact .delivered deliver_path
  | drop => exact .dropped
  | restart => exact .restart

end Server
