import Farder.Server.BoardSteps
import Farder.Server.SampleHub

/-! # Nobody is told twice

A giveaway is drawn once, and an event starts once. What the server writes about them, and the
reminders that members have set, is written down as done before it is sent. -/
namespace Server

open EventLog Guarded Permissions Widgets Reports

variable {K : Crypto} {b b' : Board} {w w' w'' : Widgets} {l : List CardNotice} {now : ℕ}

/-- What the server has to tell once: in the channel, or to one member. -/
inductive Occasion where
  | draw (giveawayId : ℕ)
  | lead (eventId : ℕ) (member : PublicKey)
  | start (eventId : ℕ)
  /-- That the event starts, or that it does not take place. -/
  | outcome (eventId : ℕ) (member : PublicKey)
  | reminder (reminderId : ℕ)
  deriving DecidableEq, Repr

def EventRow.outcomeDue (row : EventRow) : Prop :=
  row.status = .upcoming ∨ row.status = .cancelled ∧ row.cancelNotifiedAt = none

instance (row : EventRow) : Decidable row.outcomeDue := inferInstanceAs (Decidable (_ ∨ _))

namespace Occasion

variable {e : Occasion}

def marks : Occasion → CardNotice → Bool
  | .draw id, .newMessage (.draw i) _ => id = i
  | .lead id member, .dm (.lead i) pk _ => id = i ∧ member = pk
  | .start id, .newMessage (.start i) _ => id = i
  | .outcome id member, .dm (.start i) pk _ => id = i ∧ member = pk
  | .outcome id member, .dm (.cancellation i) pk _ => id = i ∧ member = pk
  | .reminder id, .dm (.reminder i) _ _ => id = i
  | _, _ => false

/-- It has yet to be told; that may be before there is a row. -/
def Owed (w : Widgets) : Occasion → Prop
  | .draw id => ∀ row ∈ w.giveaways.get? id, row.status = .opened
  | .lead id _ => ∀ row ∈ w.channelEvents.get? id, row.remindedAt = none
  | .start id => ∀ row ∈ w.channelEvents.get? id, row.status = .upcoming
  | .outcome id _ => ∀ row ∈ w.channelEvents.get? id, row.outcomeDue
  | .reminder id => ∀ row ∈ w.reminders.get? id, row.status = .pending

instance (w : Widgets) : Decidable (e.Owed w) :=
  match e with
  | .draw _ | .lead .. | .start _ | .outcome .. | .reminder _ =>
    inferInstanceAs (Decidable (∀ row ∈ _, _))

/-- The event is moved, so those who come are reminded anew. -/
def Rearmed (w w' : Widgets) : Occasion → Prop
  | .lead id _ => ∃ row ∈ w.channelEvents.get? id, ∃ row' ∈ w'.channelEvents.get? id,
      row'.startsAt ≠ row.startsAt
  | _ => False

instance (w w' : Widgets) : Decidable (e.Rearmed w w') :=
  match e with
  | .lead .. => inferInstanceAs (Decidable (∃ row ∈ _, ∃ row' ∈ _, _))
  | .draw _ | .start _ | .outcome .. | .reminder _ => inferInstanceAs (Decidable False)

def allowance (e : Occasion) (b : Board) : ℕ := if e.Owed b.widgets then 1 else 0

/-! ## What is done stays done -/

end Occasion

/-- Nothing that is done is to be done again. -/
structure Settles (w w' : Widgets) : Prop where
  giveaways : w.giveaways.Retains (fun row row' => row'.status = .opened → row.status = .opened)
    w'.giveaways
  reminded : w.channelEvents.Retains (fun row row' => row'.remindedAt = none →
    row.remindedAt = none) w'.channelEvents
  upcoming : w.channelEvents.Retains (fun row row' => row'.status = .upcoming →
    row.status = .upcoming) w'.channelEvents
  outcome : w.channelEvents.Retains (fun row row' => row'.outcomeDue → row.outcomeDue)
    w'.channelEvents
  reminders : w.reminders.Retains (fun row row' => row'.status = .pending →
    row.status = .pending) w'.reminders

theorem owed_of_retains {ρ : Type} {t u : Table ρ} {k : ℕ} {P : ρ → Prop}
    (h : t.Retains (fun row row' => P row' → P row) u) (howed : ∀ row ∈ u.get? k, P row) :
    ∀ row ∈ t.get? k, P row := by
  intro row hrow
  obtain ⟨row', hrow', himp⟩ := h k row hrow
  exact himp (howed row' hrow')

namespace Settles

variable {e : Occasion}

theorem owed (h : Settles w w') (howed : e.Owed w') : e.Owed w := by
  cases e with
  | draw id => exact owed_of_retains h.giveaways howed
  | lead id member => exact owed_of_retains h.reminded howed
  | start id => exact owed_of_retains h.upcoming howed
  | outcome id member => exact owed_of_retains h.outcome howed
  | reminder id => exact owed_of_retains h.reminders howed

theorem refl : Settles w w :=
  ⟨.refl fun _ => id, .refl fun _ => id, .refl fun _ => id, .refl fun _ => id, .refl fun _ => id⟩

theorem of_giveaways {giveaways : Table GiveawayRow} (h : w.giveaways.Retains
    (fun row row' => row'.status = .opened → row.status = .opened) giveaways) :
    Settles w { w with giveaways } :=
  ⟨h, .refl fun _ => id, .refl fun _ => id, .refl fun _ => id, .refl fun _ => id⟩

theorem of_reminders {reminders : Table ReminderRow} (h : w.reminders.Retains
    (fun row row' => row'.status = .pending → row.status = .pending) reminders) :
    Settles w { w with reminders } :=
  ⟨.refl fun _ => id, .refl fun _ => id, .refl fun _ => id, .refl fun _ => id, h⟩

theorem of_event {eventId : ℕ} {f : EventRow → EventRow}
    (hreminded : ∀ row, (f row).remindedAt = none → row.remindedAt = none)
    (hupcoming : ∀ row, (f row).status = .upcoming → row.status = .upcoming)
    (houtcome : ∀ row, (f row).outcomeDue → row.outcomeDue) :
    Settles w { w with channelEvents := w.channelEvents.modify eventId f } :=
  ⟨.refl fun _ => id, .modify (fun _ => id) hreminded, .modify (fun _ => id) hupcoming,
    .modify (fun _ => id) houtcome, .refl fun _ => id⟩

theorem change (h : WidgetChange now w l w') : Settles w w' := by
  cases h with
  | voted | entered | replied | pollClosed =>
    exact ⟨.refl fun _ => id, .refl fun _ => id, .refl fun _ => id, .refl fun _ => id,
      .refl fun _ => id⟩
  | giveawayCancelled | drawn | rerolled =>
    refine of_giveaways (.modify (fun _ => id) fun row hopened => ?_)
    split_ifs at hopened
    all_goals exact hopened
  | withdrawn | reminderSent =>
    refine of_reminders (.modify (fun _ => id) fun row hpending => ?_)
    split_ifs at hpending
    exact hpending
  | eventCancelled | started =>
    refine of_event (fun row h => ?_) (fun row h => ?_) fun row h => ?_
    · split_ifs at h <;> exact h
    · split_ifs at h
      exact h
    · split_ifs at h with hupcoming
      · exact .inl hupcoming
      · exact h
  | reminded =>
    refine of_event (fun row h => ?_) (fun row h => ?_) fun row h => ?_
    · split_ifs at h
      exact h
    · split_ifs at h <;> exact h
    · split_ifs at h <;> exact h
  | toldCancelled =>
    refine of_event (fun row h => ?_) (fun row h => ?_) fun row h => ?_
    · split_ifs at h <;> exact h
    · split_ifs at h <;> exact h
    · split_ifs at h
      · exact h.imp id fun h => ⟨h.1, by simp at h⟩
      · exact h

theorem create (h : CreateStep b l b') : Settles b.widgets b'.widgets := by
  cases h with
  | poll hcard hwidgets =>
    rw [hwidgets]
    exact ⟨.refl fun _ => id, .refl fun _ => id, .refl fun _ => id, .refl fun _ => id,
      .refl fun _ => id⟩
  | giveaway hcard hwidgets =>
    rw [hwidgets]
    exact ⟨.insert fun _ => id, .refl fun _ => id, .refl fun _ => id, .refl fun _ => id,
      .refl fun _ => id⟩
  | event hcard hwidgets =>
    rw [hwidgets]
    exact ⟨.refl fun _ => id, .insert fun _ => id, .insert fun _ => id, .insert fun _ => id,
      .refl fun _ => id⟩
  | reminder hhost houtbox hwidgets =>
    rw [hwidgets]
    exact ⟨.refl fun _ => id, .refl fun _ => id, .refl fun _ => id, .refl fun _ => id,
      .insert fun _ => id⟩

end Settles

/-! ## What is told is owed -/

namespace Occasion

variable {e : Occasion} {keys : List PublicKey} {text : String} {message : MessageInfo} {id : ℕ}
  {pk : PublicKey}

theorem marks_of_update {n : CardNotice} (hn : n.isUpdate = true) : e.marks n = false := by
  cases e <;> cases n <;> first | rfl | cases hn

@[simp] theorem marks_draw : e.marks (.newMessage (.draw id) message) = true ↔ e = .draw id := by
  cases e <;> simp [marks]

@[simp] theorem marks_start :
    e.marks (.newMessage (.start id) message) = true ↔ e = .start id := by
  cases e <;> simp [marks]

@[simp] theorem marks_reroll : e.marks (.newMessage (.reroll id) message) = false := by
  cases e <;> rfl

@[simp] theorem marks_lead : e.marks (.dm (.lead id) pk text) = true ↔ e = .lead id pk := by
  cases e <;> simp [marks]

@[simp] theorem marks_started : e.marks (.dm (.start id) pk text) = true ↔ e = .outcome id pk := by
  cases e <;> simp [marks]

@[simp] theorem marks_cancellation :
    e.marks (.dm (.cancellation id) pk text) = true ↔ e = .outcome id pk := by
  cases e <;> simp [marks]

@[simp] theorem marks_reminder :
    e.marks (.dm (.reminder id) pk text) = true ↔ e = .reminder id := by
  cases e <;> simp [marks]

theorem countP_updates (hl : ∀ n ∈ l, n.isUpdate = true) : l.countP e.marks = 0 :=
  List.countP_eq_zero.mpr fun n hn => by simp [marks_of_update (hl n hn)]

theorem countP_dms {subject : Subject} {of : PublicKey → Occasion} (hkeys : keys.Nodup)
    (hmarks : ∀ pk, e.marks (.dm subject pk text) = true ↔ e = of pk)
    (hof : ∀ pk pk', of pk = of pk' → pk = pk') :
    (keys.map fun pk => .dm subject pk text).countP e.marks = 0 ∨
      (keys.map fun pk => .dm subject pk text).countP e.marks ≤ 1 ∧ ∃ pk, e = of pk := by
  by_cases he : ∃ pk, e = of pk
  · obtain ⟨member, he⟩ := he
    refine .inr ⟨?_, member, he⟩
    rw [List.countP_map]
    refine le_trans (List.countP_mono_left (q := fun pk => pk == member) fun pk _ hpk => ?_)
      (List.nodup_iff_count_le_one.mp hkeys member)
    exact beq_iff_eq.mpr (hof _ _ (((hmarks pk).mp hpk).symm.trans he))
  · refine .inl (List.countP_eq_zero.mpr fun n hn => ?_)
    obtain ⟨pk, -, rfl⟩ := List.mem_map.mp hn
    exact fun hpk => he ⟨pk, (hmarks pk).mp hpk⟩

theorem owed_and_not {ρ : Type} {t : Table ρ} {row : ρ} {f : ρ → ρ} {P : ρ → Prop}
    (hrow : t.get? id = some row) (h : P row) (h' : ¬P (f row)) :
    (∀ row ∈ t.get? id, P row) ∧ ¬∀ row ∈ (t.modify id f).get? id, P row := by
  refine ⟨fun row' hrow' => Option.some.inj (hrow.symm.trans hrow') ▸ h, fun hall => h' ?_⟩
  refine hall (f row) ?_
  rw [Table.modify, Table.get?_map, hrow, Option.map_some, if_pos rfl]
  rfl

theorem paid_change (h : WidgetChange now w l w') :
    l.countP e.marks = 0 ∨ l.countP e.marks ≤ 1 ∧ e.Owed w ∧ ¬e.Owed w' := by
  cases h with
  | voted _ hl | entered _ hl | replied _ hl | pollClosed _ hl | giveawayCancelled _ hl
  | eventCancelled _ hl => exact .inl (countP_updates hl)
  | withdrawn => exact .inl rfl
  | rerolled winner hl =>
    refine .inl (List.countP_eq_zero.mpr fun n hn => ?_)
    rcases hl n hn with hupdate | ⟨message, rfl⟩
    · simp [marks_of_update hupdate]
    · cases e <;> simp [marks]
  | @drawn id winner info message hopen =>
    obtain ⟨row, hrow, hopen⟩ := (Option.any_eq_true _ _).mp hopen
    have hopen : row.status = .opened := of_decide_eq_true hopen
    have hupdate : e.marks (.giveawayUpdated info) = false := marks_of_update rfl
    by_cases he : e = .draw id
    · subst he
      refine .inr ⟨by simp [hupdate], owed_and_not hrow hopen ?_⟩
      simp [hopen]
    · exact .inl (by simp [hupdate, he])
  | @reminded id row keys text hrow hnone hkeys =>
    refine (countP_dms hkeys (fun pk => marks_lead) (by simp)).imp_right ?_
    rintro ⟨hle, member, rfl⟩
    exact ⟨hle, owed_and_not hrow hnone (by simp [hnone])⟩
  | @started id row info message keys text hrow hupcoming hkeys =>
    have hupdate : e.marks (.eventUpdated info) = false := marks_of_update rfl
    rw [List.countP_append]
    by_cases he : e = .start id
    · subst he
      refine .inr ⟨?_, owed_and_not hrow hupcoming (by simp [hupcoming])⟩
      have hdms : (keys.map fun pk => .dm (.start id) pk text).countP (marks (.start id)) = 0 :=
        List.countP_eq_zero.mpr fun n hn => by
          obtain ⟨pk, -, rfl⟩ := List.mem_map.mp hn
          simp [marks]
      simp [hupdate, hdms]
    · have hcard : [CardNotice.eventUpdated info, .newMessage (.start id) message].countP
          e.marks = 0 := by simp [hupdate, he]
      rw [hcard, Nat.zero_add]
      refine (countP_dms hkeys (fun pk => marks_started) (by simp)).imp_right ?_
      rintro ⟨hle, member, rfl⟩
      refine ⟨hle, owed_and_not hrow (.inl hupcoming) ?_⟩
      simp [hupcoming, EventRow.outcomeDue]
  | @toldCancelled id row keys text hrow hcancelled hnone hkeys =>
    refine (countP_dms hkeys (fun pk => marks_cancellation) (by simp)).imp_right ?_
    rintro ⟨hle, member, rfl⟩
    refine ⟨hle, owed_and_not hrow (.inr ⟨hcancelled, hnone⟩) ?_⟩
    simp [hcancelled, hnone, EventRow.outcomeDue]
  | @reminderSent id row recipient text hrow hpending =>
    by_cases he : e = .reminder id
    · subst he
      refine .inr ⟨by simp, owed_and_not hrow hpending ?_⟩
      simp [hpending]
    · exact .inl (by simp [he])

theorem allowance_le_one : e.allowance b ≤ 1 := by
  unfold allowance
  split_ifs <;> simp

theorem allowance_le (h : e.Owed b'.widgets → e.Owed b.widgets) :
    e.allowance b' ≤ e.allowance b := by
  unfold allowance
  by_cases howed : e.Owed b'.widgets
  · rw [if_pos howed, if_pos (h howed)]
  · rw [if_neg howed]
    exact Nat.zero_le _

theorem paid_path (h : WidgetPath now b l b') :
    l.countP e.marks + e.allowance b' ≤ e.allowance b := by
  refine h.along (.pays e.allowance e.marks) ?_
  rintro s l t (⟨hl, hwidgets, -, -⟩ | ⟨hchange, -, -⟩)
  · rw [countP_updates hl, Nat.zero_add]
    exact allowance_le fun howed => hwidgets ▸ howed
  · rcases paid_change (e := e) hchange with hzero | ⟨hle, howed, hdone⟩
    · rw [hzero, Nat.zero_add]
      exact allowance_le (Settles.change hchange).owed
    · rw [allowance, allowance, if_neg hdone, if_pos howed]
      exact hle

theorem paid_create (h : CreateStep b l b') :
    l.countP e.marks + e.allowance b' ≤ e.allowance b := by
  have hzero : l.countP e.marks = 0 := by
    cases h <;> cases e <;> rfl
  rw [hzero, Nat.zero_add]
  exact allowance_le (Settles.create h).owed

theorem owed_edit {eventId : ℕ} {row : EventRow} {edit : EventEdit}
    (hrow : w.channelEvents.get? eventId = some row)
    (hkept : ¬e.Rearmed w (w.editEvent eventId edit (edit.startsAt ≠ row.startsAt)))
    (howed : e.Owed (w.editEvent eventId edit (edit.startsAt ≠ row.startsAt))) : e.Owed w := by
  cases e with
  | draw | reminder => exact howed
  | start id =>
    refine owed_of_retains (.modify (fun _ h => h) fun row h => ?_) howed
    split_ifs at h <;> exact h
  | outcome id member =>
    refine owed_of_retains (.modify (fun _ h => h) fun row h => ?_) howed
    split_ifs at h <;> exact h
  | lead id member =>
    intro row' hrow'
    by_cases hid : id = eventId
    · subst hid
      obtain rfl := Option.some.inj (hrow.symm.trans hrow')
      have hrow₁ : (w.editEvent id edit (edit.startsAt ≠ row.startsAt)).channelEvents.get? id =
          some (if row.status = .upcoming then
            { row with
              title := edit.title
              description := edit.description
              location := edit.location
              startsAt := edit.startsAt
              remindLead := edit.remindLead
              remindedAt := if edit.startsAt ≠ row.startsAt then none else row.remindedAt }
          else row) := by
        rw [Widgets.editEvent, Table.modify, Table.get?_map, hrow, Option.map_some, if_pos rfl]
        simp
      have howed := howed _ hrow₁
      have hsame := fun hne => hkept ⟨row, hrow, _, hrow₁, hne⟩
      by_cases hupcoming : row.status = .upcoming
      · rw [if_pos hupcoming] at howed hsame
        rwa [if_neg hsame] at howed
      · rwa [if_neg hupcoming] at howed
    · refine howed row' ?_
      rw [Widgets.editEvent, Table.modify, Table.get?_map, Option.mem_def.mp hrow',
        Option.map_some, if_neg hid]
      rfl

theorem updates_closedByCard {moment : Moment} {messageId : ℕ} :
    ∀ n ∈ b.closedByCard moment messageId, n.isUpdate = true := by
  intro n hn
  unfold Board.closedByCard at hn
  split at hn
  · split_ifs at hn
    · obtain ⟨row, -, rfl⟩ := List.mem_map.mp hn
      rfl
    · exact absurd hn List.not_mem_nil
  · split_ifs at hn
    · obtain ⟨row, -, rfl⟩ := List.mem_map.mp hn
      rfl
    · exact absurd hn List.not_mem_nil
  · split_ifs at hn
    · obtain ⟨row, -, rfl⟩ := List.mem_map.mp hn
      rfl
    · exact absurd hn List.not_mem_nil
  · exact absurd hn List.not_mem_nil

theorem settles_closeByCard {messageId : ℕ} : Settles w (w.closeByCard messageId now) := by
  unfold Widgets.closeByCard
  split
  · exact .change (.pollClosed _ (List.forall_mem_nil _))
  · exact @Settles.change w _ _ now (.giveawayCancelled _ (List.forall_mem_nil _))
  · exact .change (.eventCancelled _ (List.forall_mem_nil _))
  · exact .refl

theorem paid_store {moment : Moment} {op : StoreOp} :
    (b.performStore K moment op).2.countP e.marks + e.allowance (b.performStore K moment op).1 ≤
      e.allowance b := by
  unfold Board.performStore
  split
  · simp
  · cases b.deletedCard K moment op with
    | none => exact le_of_eq (Nat.zero_add _)
    | some id =>
      have hzero : (b.closedByCard moment id).countP e.marks = 0 :=
        countP_updates updates_closedByCard
      show (b.closedByCard moment id).countP e.marks + _ ≤ _
      rw [hzero, Nat.zero_add]
      exact allowance_le fun howed => settles_closeByCard.owed howed

theorem restart_owed {moment : Moment} (h : e.Owed (b.restart K moment).widgets) :
    e.Owed b.widgets := by
  unfold Board.restart at h
  split at h <;> exact h

/-- An operation tells what was owed; only an event that is moved makes anything owed again. -/
theorem paid_perform {moment : Moment} {op : BoardOp} :
    (b.perform K moment op).2.countP e.marks + e.allowance (b.perform K moment op).1 ≤
      e.allowance b + if e.Rearmed b.widgets (b.perform K moment op).1.widgets then 1 else 0 := by
  cases performed K b moment op with
  | path h => exact (paid_path h).trans (Nat.le_add_right _ _)
  | created h => exact (paid_create h).trans (Nat.le_add_right _ _)
  | swept h =>
    have hpaid := paid_path (e := e) h
    exact hpaid.trans (Nat.le_add_right _ _)
  | delivered h =>
    have hpaid := paid_path (e := e) h
    exact hpaid.trans (Nat.le_add_right _ _)
  | dropped => exact (Nat.zero_add _).le.trans (Nat.le_add_right _ _)
  | store => exact paid_store.trans (Nat.le_add_right _ _)
  | restart =>
    have hle : e.allowance (b.restart K moment) ≤ e.allowance b := allowance_le restart_owed
    exact (Nat.zero_add _).le.trans (hle.trans (Nat.le_add_right _ _))
  | @edited member isOwner pick id edit =>
    generalize hx : b.perform K moment (.request member isOwner pick (.editEvent id edit)) = x
    obtain ⟨-, -, hl, hwidgets⟩ := edit_perform hx
    rw [countP_updates hl, Nat.zero_add]
    split_ifs with hrearmed
    · exact allowance_le_one.trans (Nat.le_add_left _ _)
    · refine allowance_le fun howed => ?_
      rcases hwidgets with hsame | ⟨row, edit', hrow, hedited⟩
      · rwa [hsame] at howed
      · rw [hedited] at howed hrearmed
        exact owed_edit hrow hrearmed howed

end Occasion

/-! ## What is sent -/

/-- The messages that a sweep has left are touched by those who send them, and by no one else. -/
theorem outbox_perform {moment : Moment} {op : BoardOp}
    (hop : match op with
      | .sweep _ | .deliver .. | .drop | .restart => False
      | _ => True) : (b.perform K moment op).1.outbox = b.outbox := by
  cases performed K b moment op with
  | path h => exact h.outbox
  | created h =>
    generalize b.perform K moment op = x at h
    obtain ⟨b', l⟩ := x
    cases h with
    | poll hcard | giveaway hcard | event hcard => exact hcard.outbox
    | reminder hhost houtbox => exact houtbox
  | edited =>
    generalize hx : b.perform K moment (.request _ _ _ _) = x
    exact (edit_perform hx).2.1
  | store =>
    show (b.performStore K moment _).1.outbox = b.outbox
    unfold Board.performStore
    split <;> rfl
  | swept | delivered | dropped | restart => exact hop.elim

theorem sent_step {x : Transition Board (Moment × BoardOp)}
    (h : BoardStep K x.pre x.event x.post) :
    (sent x ++ x.post.outbox).Sublist (x.pre.outbox ++ told K x) := by
  obtain ⟨pre, ⟨moment, op⟩, post⟩ := x
  obtain ⟨hadmits, hpost⟩ := h
  dsimp only at hadmits hpost ⊢
  subst hpost
  cases op with
  | sweep chance =>
    have hempty : pre.outbox = [] := hadmits
    show ([] ++ (pre.sweepOnce chance moment.now).2).Sublist (pre.outbox ++ _)
    rw [hempty]
    exact .refl _
  | deliver systemKey ciphertext =>
    have houtbox : (pre.deliver moment systemKey ciphertext).outbox = pre.outbox.tail :=
      deliver_path.outbox
    show (pre.outbox.head?.toList ++ (pre.deliver moment systemKey ciphertext).outbox).Sublist
      (pre.outbox ++ [])
    rw [houtbox, List.append_nil]
    cases pre.outbox <;> exact .refl _
  | drop =>
    show ([] ++ pre.outbox.tail).Sublist (pre.outbox ++ [])
    rw [List.append_nil]
    exact List.tail_sublist _
  | restart =>
    have houtbox : (pre.restart K moment).outbox = [] := by
      unfold Board.restart
      split <;> rfl
    show ([] ++ (pre.restart K moment).outbox).Sublist _
    rw [houtbox]
    exact List.nil_sublist _
  | _ =>
    show ([] ++ (pre.perform K moment _).1.outbox).Sublist (pre.outbox ++ _)
    rw [outbox_perform trivial]
    exact List.sublist_append_left _ _

theorem sent_sublist {tr : List (Transition Board (Moment × BoardOp))} (h : BoardRun K b tr b') :
    (tr.flatMap sent ++ b'.outbox).Sublist (b.outbox ++ tr.flatMap (told K)) := by
  induction h with
  | nil => simp
  | @snoc pre post e tr _ hstep ih =>
    have hlast := sent_step (x := ⟨pre, e, post⟩) hstep
    rw [List.flatMap_append, List.flatMap_singleton, List.flatMap_append, List.flatMap_singleton,
      List.append_assoc, ← List.append_assoc b.outbox]
    refine (hlast.append_left _).trans ?_
    rw [← List.append_assoc]
    exact ih.append_right _

def Occasion.rearms (e : Occasion) (x : Transition Board (Moment × BoardOp)) : Bool :=
  e.Rearmed x.pre.widgets x.post.widgets

/-- In every run, whatever fails in it, the server draws a giveaway at most once, announces the
start of an event at most once, and tells a member each of these at most once: a reminder, how an
event has turned out, and that it is near; this again for each time that the event is moved. -/
theorem told_once {tr : List (Transition Board (Moment × BoardOp))} (h : BoardRun K b tr b')
    (e : Occasion) : (tr.flatMap (told K)).countP e.marks ≤ 1 + tr.countP e.rearms ∧
      (b.outbox = [] → (tr.flatMap sent).countP e.marks ≤ 1 + tr.countP e.rearms) := by
  have hpaid := countP_add_le_of_refilled h e.allowance e.marks e.rearms (told K) fun x hx => by
      have hstep := h.step_of_mem hx
      rw [told, Occasion.rearms, ← hstep.2]
      simpa using Occasion.paid_perform (e := e)
  have hone := Occasion.allowance_le_one (e := e) (b := b)
  have htold : (tr.flatMap (told K)).countP e.marks ≤ 1 + tr.countP e.rearms := by omega
  refine ⟨htold, fun hempty => le_trans ?_ htold⟩
  have hsublist := sent_sublist h
  rw [hempty, List.nil_append] at hsublist
  exact ((List.sublist_append_left _ _).trans hsublist).countP_le

section Sample

open SampleLog SampleHost SampleBoard

def sweeps (s : ℕ) : Moment × BoardOp :=
  (momentAt s, .sweep ⟨fun _ => 0, fun _ => ⟨77⟩, ⟨88⟩, fun _ => false⟩)

/-- The first message of the outbox is sent. -/
def sends (s : ℕ) : Moment × BoardOp := (momentAt s, .deliver ⟨88⟩ "sealed")

/-- Alice comes to the event, is reminded of it, moves it, and is reminded again. -/
def movedParty : List (Moment × BoardOp) :=
  command 10 "event" (.createEvent · ⟨"party", .relative 120, none, none, some 900⟩) ++
    [asks 20 (.rsvpEvent 1 "going"), sweeps 30, sends 31,
      asks 40 (.editEvent 1 ⟨"party", none, none, 1000, some 900⟩), sweeps 500, sends 501,
      sweeps 502]

theorem told_once_moved : ((path movedParty).flatMap (told crypto)).countP
      (Occasion.lead 1 (key alice)).marks = 2 ∧
    ((path movedParty).flatMap (told crypto)).countP (Occasion.lead 1 (key alice)).marks ≤
      1 + (path movedParty).countP (Occasion.lead 1 (key alice)).rearms :=
  ⟨by decide +kernel, (told_once (run_path (by decide +kernel)) _).1⟩

end Sample

end Server
