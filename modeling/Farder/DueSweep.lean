import Farder.Server.MessageRows
import Farder.Server.SampleHub
import Farder.Support.Batches

/-! # Events that are due

An event is started by the first call of the sweep that comes to it. A call takes the events that
are due in the order of their ids, up to a batch; those that it cannot start come again in the next
call, before all others. -/
namespace Server

open EventLog Guarded Permissions Widgets Reports

variable {b b' : Board} {w : Widgets} {chance : Chance} {chances : ℕ → Chance} {now id : ℕ}

namespace Widgets

/-- When and where an event starts, and whether it has. -/
structure Slot where
  id : ℕ
  channelId : ℕ
  status : EventStatus
  startsAt : ℕ
  deriving DecidableEq

def slot (x : ℕ × EventRow) : Slot := ⟨x.1, x.2.channelId, x.2.status, x.2.startsAt⟩

def Slot.due (now : ℕ) (s : Slot) : Bool := s.status = .upcoming ∧ s.startsAt ≤ now

def Slot.begun (s : Slot) : Slot := { s with status := .started }

/-- The events of `l` with these ids begin. -/
def begin (ids : ℕ → Bool) (l : List Slot) : List Slot :=
  l.map fun s => if ids s.id ∧ s.status = .upcoming then s.begun else s

def schedule (w : Widgets) : List Slot := w.channelEvents.rows.map slot

def dueEvents (w : Widgets) (now : ℕ) : List Slot := w.schedule.filter (Slot.due now)

def Started (w : Widgets) (id : ℕ) : Prop :=
  ∃ row ∈ w.channelEvents.get? id, row.status = .started

theorem started_iff : w.Started id ↔ ∃ s ∈ w.schedule, s.id = id ∧ s.status = .started := by
  constructor
  · rintro ⟨row, hrow, hstatus⟩
    exact ⟨slot (id, row), List.mem_map_of_mem (Table.get?_eq_some.mp hrow), rfl, hstatus⟩
  · rintro ⟨s, hs, rfl, hstatus⟩
    obtain ⟨x, hx, rfl⟩ := List.mem_map.mp hs
    exact ⟨x.2, Table.get?_eq_some.mpr hx, hstatus⟩

theorem schedule_sorted : (w.schedule.map Slot.id).Pairwise (· < ·) := by
  rw [schedule, List.map_map]
  exact w.channelEvents.sorted

theorem eq_of_id_eq {s t : Slot} (hs : s ∈ w.schedule) (ht : t ∈ w.schedule) (h : s.id = t.id) :
    s = t :=
  List.inj_on_of_nodup_map (schedule_sorted.imp fun hlt => Nat.ne_of_lt hlt) hs ht h

theorem schedule_modify {f : EventRow → EventRow}
    (hf : ∀ row, slot (id, f row) = slot (id, row)) :
    ({ w with channelEvents := w.channelEvents.modify id f } : Widgets).schedule = w.schedule := by
  show List.map slot (List.map _ _) = List.map slot _
  rw [List.map_map]
  refine List.map_congr_left fun x _ => ?_
  by_cases hid : x.1 = id
  · subst hid
    simpa using hf x.2
  · simp [hid]

theorem startEvent_schedule : (w.startEvent id now).schedule = begin (· = id) w.schedule := by
  show List.map slot (List.map _ _) = List.map _ (List.map _ _)
  rw [List.map_map, List.map_map]
  refine List.map_congr_left fun x _ => ?_
  by_cases hid : x.1 = id <;> by_cases hstatus : x.2.status = .upcoming <;>
    simp [slot, Slot.begun, hid, hstatus]

theorem begin_begin {p q : ℕ → Bool} {l : List Slot} :
    begin q (begin p l) = begin (fun id => p id || q id) l := by
  rw [begin, begin, begin, List.map_map]
  refine List.map_congr_left fun s _ => ?_
  by_cases hstatus : s.status = .upcoming <;> by_cases hp : p s.id = true <;>
    simp [Slot.begun, hstatus, hp]

theorem begin_none {p : ℕ → Bool} {l : List Slot} (h : ∀ s ∈ l, p s.id = false) :
    begin p l = l := by
  refine (List.map_congr_left fun s hs => ?_).trans (List.map_id l)
  simp [h s hs]

theorem filter_due_begin {p : ℕ → Bool} {l : List Slot} :
    (begin p l).filter (Slot.due now) = (l.filter (Slot.due now)).filter fun s => !p s.id := by
  have hdue : (Slot.due now ∘ fun s => if p s.id ∧ s.status = .upcoming then s.begun else s) =
      fun s => !p s.id && s.due now := by
    funext s
    by_cases hp : p s.id = true <;> by_cases hstatus : s.status = .upcoming <;>
      simp [Slot.due, Slot.begun, hp, hstatus]
  rw [begin, List.filter_map, List.filter_filter]
  refine Eq.trans ?_ (List.map_id _)
  rw [hdue]
  refine List.map_congr_left fun s hs => if_neg fun hp => ?_
  simp [hp.1] at hs

theorem take_dueEvents : (w.dueEvents now).take eventDueBatch = (w.listStartDue now).map slot := by
  rw [dueEvents, schedule, List.filter_map, ← List.map_take]
  rfl

end Widgets

/-! ## The other passes -/

namespace Board

/-- What decides which events a call starts is as it was. -/
structure Quiet (b b' : Board) : Prop where
  schedule : b'.widgets.schedule = b.widgets.schedule
  channels : b'.host.db.channels = b.host.db.channels
  community : b'.host.community = b.host.community
  system : b'.system = b.system

theorem Quiet.refl : Quiet b b := ⟨rfl, rfl, rfl, rfl⟩

theorem Quiet.trans (h : Quiet b b') {b'' : Board} (h' : Quiet b' b'') : Quiet b b'' :=
  ⟨h'.schedule.trans h.schedule, h'.channels.trans h.channels, h'.community.trans h.community,
    h'.system.trans h.system⟩

theorem Quiet.of_widgets {widgets : Widgets} (h : widgets.schedule = b.widgets.schedule) :
    Quiet b (b.withWidgets widgets) :=
  ⟨h, rfl, rfl, rfl⟩

theorem announce_eq_ok {author : PublicKey} {channelId messageId : ℕ} {text : String}
    {subject : Subject} {x : Board × CardNotice}
    (h : b.announce now author channelId messageId text subject = .ok x) :
    x.1.widgets = b.widgets ∧ Quiet b x.1 := by
  simp only [announce, Db.insertMessage, Db.insertRow, bind_eq_ok, pure_eq_ok] at h
  obtain ⟨db, ⟨⟨⟩, -, ⟨⟩, -, rfl⟩, message, -, rfl⟩ := h
  exact ⟨rfl, rfl, rfl, rfl, rfl⟩

theorem closeDue_quiet : Quiet b (b.closeDue chance now).1 := by
  unfold closeDue
  split_ifs
  · exact .refl
  · refine Quiet.of_widgets ?_
    generalize (b.widgets.duePolls now).takeWhile _ = done
    suffices h : ∀ w : Widgets, (done.foldl (fun w id => w.closePoll id now) w).schedule =
        w.schedule from h _
    induction done with
    | nil => exact fun _ => rfl
    | cons id done ih => exact fun w => ih _

theorem drawDue_quiet : Quiet b (b.drawDue chance now).1 := by
  refine pass_keeps (P := Quiet b) .refl fun x _ b' hb' y hy => hb'.trans ?_
  obtain ⟨-, hdraw⟩ := inPlaintext_eq_ok.mp hy
  simp only [closeAndDraw, bind_eq_ok, pure_eq_ok] at hdraw
  obtain ⟨⟨⟩, -, announced, hannounce, row, -, rfl⟩ := hdraw
  refine Quiet.trans (.of_widgets ?_) (announce_eq_ok hannounce).2
  rfl

theorem sendReminders_quiet : Quiet b (b.sendReminders chance now).1 := by
  refine pass_keeps (P := Quiet b) .refl fun x _ b' hb' y hy => hb'.trans ?_
  simp only [sendReminder, bind_eq_ok, pure_eq_ok] at hy
  obtain ⟨⟨⟩, -, rfl⟩ := hy
  exact .of_widgets rfl

theorem remindOfStarts_quiet : Quiet b (b.remindOfStarts chance now).1 := by
  refine pass_keeps (P := Quiet b) .refl fun x _ b' hb' y hy => hb'.trans ?_
  simp only [remindOfStart, bind_eq_ok, pure_eq_ok] at hy
  obtain ⟨⟨⟩, -, rfl⟩ := hy
  refine .of_widgets (schedule_modify fun row => ?_)
  split_ifs <;> rfl

theorem notifyCancellations_quiet : Quiet b (b.notifyCancellations chance now).1 := by
  refine pass_keeps (P := Quiet b) .refl fun x _ b' hb' y hy => hb'.trans ?_
  simp only [notifyCancelled, bind_eq_ok, pure_eq_ok] at hy
  obtain ⟨⟨⟩, -, rfl⟩ := hy
  refine .of_widgets (schedule_modify fun row => ?_)
  split_ifs <;> rfl

/-! ## The pass that starts -/

def getsToStart (b : Board) (chance : Chance) (now : ℕ) : Bool :=
  !chance.fails .systemIdentity && !chance.fails (.list .start) &&
    (b.getOrCreateSystemIdentity now chance.systemKey).toOption.isSome

/-- The channel takes the announcement, and nothing fails on the way. -/
def admits (b : Board) (chance : Chance) (s : Slot) : Bool :=
  decide (b.host.db.resolve s.channelId = .plaintext) && !chance.fails (.row .start s.id)

def starts (b : Board) (chance : Chance) (now : ℕ) (s : Slot) : Bool :=
  b.getsToStart chance now && b.admits chance s

theorem announce_total {author : PublicKey} {channelId messageId : ℕ} {text : String}
    {subject : Subject} (hplain : b.host.db.resolve channelId = .plaintext) :
    ∃ x, b.announce now author channelId messageId text subject = .ok x := by
  obtain ⟨db, hdb⟩ := insertMessage_exists author text (some messageId) now hplain
  have hrow := congrArg (fun t => t.get? b.host.db.messages.next) (insertMessage_messages hdb)
  rw [Table.get?_insert, if_pos rfl] at hrow
  have hmessage : ∃ message, ({ b with host := b.host.withDb db } : Board).host.getMessage
      b.host.db.messages.next = some message :=
    ⟨_, Option.map_eq_some_iff.mpr ⟨_, hrow, rfl⟩⟩
  obtain ⟨message, hmessage⟩ := hmessage
  exact ⟨_, bind_eq_ok.mpr ⟨db, hdb, bind_eq_ok.mpr ⟨message, context_eq_ok.mpr hmessage, rfl⟩⟩⟩

theorem startAndAnnounce_total {systemPk : PublicKey} {x : ℕ × EventRow} {row : EventRow}
    (hrow : b.widgets.channelEvents.get? x.1 = some row) (hstatus : row.status = .upcoming)
    (hplain : b.host.db.resolve x.2.channelId = .plaintext) :
    ∃ y, b.startAndAnnounce chance now systemPk x = .ok y := by
  have hupcoming : (b.widgets.channelEvents.get? x.1).any (fun row => row.status = .upcoming) =
      true := by simp [hrow, hstatus]
  obtain ⟨row', hrow'⟩ : ∃ row', (b.widgets.startEvent x.1 now).channelEvents.get? x.1 =
      some row' := ⟨_, (Table.get?_map _).trans (congrArg (Option.map _) hrow)⟩
  obtain ⟨announced, hannounced⟩ :
      ∃ announced, (b.withWidgets (b.widgets.startEvent x.1 now)).announce now systemPk
        x.2.channelId x.2.messageId s!"📅 {x.2.title} is starting now!" (.start x.1) =
        .ok announced := announce_total hplain
  have hget : announced.1.widgets.channelEvents.get? x.1 = some row' := by
    rw [(announce_eq_ok hannounced).1]
    exact hrow'
  exact ⟨_, bind_eq_ok.mpr ⟨(), ensure_eq_ok.mpr hupcoming, bind_eq_ok.mpr
    ⟨announced, hannounced, bind_eq_ok.mpr ⟨row', context_eq_ok.mpr hget, rfl⟩⟩⟩⟩

theorem startAndAnnounce_eq_ok {systemPk : PublicKey} {x : ℕ × EventRow}
    {y : Board × List CardNotice} (h : b.startAndAnnounce chance now systemPk x = .ok y) :
    y.1.widgets = b.widgets.startEvent x.1 now ∧ y.1.host.db.channels = b.host.db.channels := by
  simp only [startAndAnnounce, bind_eq_ok, pure_eq_ok] at h
  obtain ⟨⟨⟩, -, announced, hannounce, row, -, rfl⟩ := h
  obtain ⟨hwidgets, hquiet⟩ := announce_eq_ok hannounce
  exact ⟨hwidgets, hquiet.channels⟩

theorem admits_congr (h : b'.host.db.channels = b.host.db.channels) (s : Slot) :
    b'.admits chance s = b.admits chance s := by
  rw [admits, admits, Db.resolve, Db.resolve, Db.channelRow, Db.channelRow, h]

/-- One event of a batch, as it comes. -/
def startRow (chance : Chance) (now : ℕ) (systemPk : PublicKey) (x : ℕ × EventRow) (b : Board) :
    Board × List CardNotice :=
  if chance.fails (.row .start x.1) then (b, [])
  else b.attempt (inPlaintext x.2.channelId (startAndAnnounce chance now systemPk x))

theorem startRow_spec (chance : Chance) (now : ℕ) (systemPk : PublicKey) {x : ℕ × EventRow}
    (hx : ∃ s ∈ b.widgets.schedule, s.id = x.1 ∧ s.status = .upcoming) :
    (b.startRow chance now systemPk x).1.host.db.channels = b.host.db.channels ∧
      (b.startRow chance now systemPk x).1.widgets.schedule =
        begin (fun id => id = x.1 && b.admits chance (slot x)) b.widgets.schedule := by
  unfold startRow
  by_cases hfails : chance.fails (.row .start x.1) = true
  · rw [if_pos hfails]
    exact ⟨rfl, (begin_none fun s _ => by simp [admits, slot, hfails]).symm⟩
  rw [if_neg hfails]
  by_cases hplain : b.host.db.resolve x.2.channelId = .plaintext
  · obtain ⟨s, hs, hid, hstatus⟩ := hx
    obtain ⟨⟨id, row⟩, hrow, rfl⟩ := List.mem_map.mp hs
    obtain rfl : id = x.1 := hid
    obtain ⟨y, hy⟩ : ∃ y, b.startAndAnnounce chance now systemPk x = .ok y :=
      startAndAnnounce_total (Table.get?_eq_some.mpr hrow) hstatus hplain
    rw [attempt, inPlaintext_eq_ok.mpr ⟨hplain, hy⟩]
    obtain ⟨hwidgets, hchannels⟩ := startAndAnnounce_eq_ok hy
    refine ⟨hchannels, ?_⟩
    have hadmits : b.admits chance (slot x) = true := by simp [admits, slot, hplain, hfails]
    simp only [hwidgets, startEvent_schedule, hadmits, Bool.and_true]
  · have hrefused : ∀ y, inPlaintext x.2.channelId (startAndAnnounce chance now systemPk x) b ≠
        .ok y := fun y hy => hplain (inPlaintext_eq_ok.mp hy).1
    have hsame : b.attempt (inPlaintext x.2.channelId (startAndAnnounce chance now systemPk x)) =
        (b, []) := by
      unfold attempt
      split
      · exact absurd ‹_› (hrefused _)
      · rfl
    rw [hsame]
    exact ⟨rfl, (begin_none fun s _ => by simp [admits, slot, hplain]).symm⟩

theorem startRows_spec {systemPk : PublicKey} {due : List (ℕ × EventRow)}
    (hnodup : (due.map Prod.fst).Nodup)
    (h : ∀ x ∈ due, ∃ s ∈ b.widgets.schedule, s.id = x.1 ∧ s.status = .upcoming) :
    (forEach (startRow chance now systemPk) due b).1.host.db.channels = b.host.db.channels ∧
      (forEach (startRow chance now systemPk) due b).1.widgets.schedule =
        begin (fun id => due.any fun x => id = x.1 && b.admits chance (slot x))
          b.widgets.schedule := by
  induction due generalizing b with
  | nil => exact ⟨rfl, (begin_none fun s _ => by simp).symm⟩
  | cons x due ih =>
    rw [List.map_cons, List.nodup_cons] at hnodup
    obtain ⟨hchannels, hschedule⟩ := startRow_spec chance now systemPk (h x List.mem_cons_self)
    have hrest : ∀ y ∈ due, ∃ s ∈ (b.startRow chance now systemPk x).1.widgets.schedule,
        s.id = y.1 ∧ s.status = .upcoming := by
      intro y hy
      obtain ⟨s, hs, hid, hstatus⟩ := h y (List.mem_cons_of_mem _ hy)
      have hne : s.id ≠ x.1 := by
        rw [hid]
        rintro heq
        exact hnodup.1 (heq ▸ List.mem_map_of_mem hy)
      refine ⟨s, ?_, hid, hstatus⟩
      rw [hschedule]
      exact List.mem_map.mpr ⟨s, hs, by simp [hne]⟩
    obtain ⟨hchannels', hschedule'⟩ := ih hnodup.2 hrest
    refine ⟨hchannels'.trans hchannels, hschedule'.trans ?_⟩
    simp only [hschedule, begin_begin, List.any_cons, admits_congr hchannels]

theorem listStartDue_nodup {w : Widgets} : ((w.listStartDue now).map Prod.fst).Nodup := by
  refine List.Nodup.sublist (((List.take_sublist _ _).trans List.filter_sublist).map _) ?_
  exact w.channelEvents.sorted.imp fun hlt => Nat.ne_of_lt hlt

theorem mem_listStartDue {w : Widgets} {x : ℕ × EventRow} (h : x ∈ w.listStartDue now) :
    slot x ∈ w.schedule ∧ x.2.status = .upcoming := by
  obtain ⟨hx, hdue⟩ := List.mem_filter.mp (List.mem_of_mem_take h)
  exact ⟨List.mem_map_of_mem hx, (of_decide_eq_true hdue).1⟩

theorem startPass_spec (chance : Chance) (now : ℕ) (systemPk : PublicKey)
    {due : List (ℕ × EventRow)} (hdue : due = b.widgets.listStartDue now) :
    let started := (b.passRows chance .start due fun x =>
      inPlaintext x.2.channelId (startAndAnnounce chance now systemPk x)).1
    started.host.db.channels = b.host.db.channels ∧ started.widgets.schedule =
      begin (fun id => due.any fun x => id = x.1 && b.admits chance (slot x))
        b.widgets.schedule := by
  subst hdue
  refine startRows_spec listStartDue_nodup fun x hx => ?_
  exact ⟨slot x, (mem_listStartDue hx).1, rfl, (mem_listStartDue hx).2⟩

theorem startEvents_spec : (b.startEvents chance now).1.host.db.channels = b.host.db.channels ∧
    (b.startEvents chance now).1.widgets.schedule = begin (fun id => b.getsToStart chance now &&
      (b.widgets.listStartDue now).any fun x => id = x.1 && b.admits chance (slot x))
        b.widgets.schedule := by
  unfold startEvents
  dsimp only
  by_cases hlist : chance.fails (.list .start) = true
  · rw [if_pos hlist]
    exact ⟨rfl, (begin_none fun s _ => by simp [getsToStart, hlist]).symm⟩
  rw [if_neg hlist]
  by_cases hnone : b.widgets.listStartDue now = [] ∨ chance.fails .systemIdentity = true
  · rw [if_pos hnone]
    refine ⟨rfl, (begin_none fun s _ => ?_).symm⟩
    rcases hnone with hempty | hfails
    · simp [hempty]
    · simp [getsToStart, hfails]
  rw [if_neg hnone]
  obtain ⟨-, hfails⟩ := not_or.mp hnone
  cases hsystem : b.getOrCreateSystemIdentity now chance.systemKey with
  | error e =>
    have hgets : b.getsToStart chance now = false := by
      simp [getsToStart, hsystem, Except.toOption]
    refine ⟨rfl, (begin_none fun s _ => ?_).symm⟩
    rw [hgets, Bool.false_and]
  | ok x =>
    obtain ⟨hwidgets, hdb⟩ := systemIdentity_eq_ok hsystem
    have hgets : b.getsToStart chance now = true := by
      simp [getsToStart, hlist, hfails, hsystem, Except.toOption]
    obtain ⟨hchannels, hschedule⟩ := startPass_spec (b := x.1) chance now x.2
      (congrArg (·.listStartDue now) hwidgets.symm)
    refine ⟨hchannels.trans (congrArg Db.channels hdb), hschedule.trans ?_⟩
    simp only [hwidgets, hgets, Bool.true_and, admits_congr (congrArg Db.channels hdb)]

theorem Quiet.starts (h : Quiet b b') (s : Slot) :
    b'.starts chance now s = b.starts chance now s := by
  have hidentity : (b'.getOrCreateSystemIdentity now chance.systemKey).toOption.isSome =
      (b.getOrCreateSystemIdentity now chance.systemKey).toOption.isSome := by
    unfold getOrCreateSystemIdentity
    rw [h.system, h.community]
    cases b.system with
    | none => cases b.host.community.registerMember chance.systemKey systemBotLabel true now <;> rfl
    | some pk =>
      dsimp only
      split_ifs
      · cases b.host.community.registerMember pk systemBotLabel true now <;> rfl
      · rfl
  rw [Board.starts, Board.starts, admits_congr h.channels, getsToStart, getsToStart, hidentity]

theorem Quiet.dueEvents (h : Quiet b b') : b'.widgets.dueEvents now = b.widgets.dueEvents now := by
  rw [Widgets.dueEvents, Widgets.dueEvents, h.schedule]

def startedBy (b : Board) (chance : Chance) (now : ℕ) (id : ℕ) : Bool :=
  ((b.widgets.dueEvents now).take eventDueBatch).any fun s => id = s.id && b.starts chance now s

theorem startEvents_schedule : (b.startEvents chance now).1.widgets.schedule =
    begin (b.startedBy chance now) b.widgets.schedule := by
  rw [startEvents_spec.2]
  congr 1
  funext id
  rw [startedBy, take_dueEvents, List.any_map]
  cases hgets : b.getsToStart chance now with
  | false => simp [starts, hgets]
  | true =>
    simp only [starts, hgets, Bool.true_and]
    rfl

theorem sweepOnce_spec : (b.sweepOnce chance now).1.host.db.channels = b.host.db.channels ∧
    (b.sweepOnce chance now).1.widgets.schedule =
      begin (b.startedBy chance now) b.widgets.schedule := by
  obtain ⟨before, hbefore, heq⟩ : ∃ before, Quiet b before ∧ (b.sweepOnce chance now).1 =
      ((before.startEvents chance now).1.notifyCancellations chance now).1 :=
    ⟨_, ((closeDue_quiet.trans drawDue_quiet).trans sendReminders_quiet).trans
      remindOfStarts_quiet, rfl⟩
  have hstarted : before.startedBy chance now = b.startedBy chance now := by
    funext id
    simp only [startedBy, hbefore.dueEvents, hbefore.starts]
  have hafter : Quiet (before.startEvents chance now).1
      ((before.startEvents chance now).1.notifyCancellations chance now).1 :=
    notifyCancellations_quiet
  rw [heq]
  refine ⟨hafter.channels.trans (startEvents_spec.1.trans hbefore.channels), ?_⟩
  rw [hafter.schedule, startEvents_schedule, hstarted, hbefore.schedule]

/-- The state after `n` calls of the sweep, with nothing in between. -/
def sweeps (b : Board) (chances : ℕ → Chance) (now : ℕ) : ℕ → Board
  | 0 => b
  | n + 1 => ((b.sweeps chances now n).sweepOnce (chances n) now).1

def startsIn (b : Board) (chances : ℕ → Chance) (now n : ℕ) (s : Slot) : Bool :=
  (b.sweeps chances now n).starts (chances n) now s

theorem sweeps_channels {n : ℕ} :
    (b.sweeps chances now n).host.db.channels = b.host.db.channels := by
  induction n with
  | zero => rfl
  | succ n ih => exact sweepOnce_spec.1.trans ih

theorem dueEvents_sorted : ((b.widgets.dueEvents now).map Slot.id).Pairwise (· < ·) :=
  schedule_sorted.sublist (List.filter_sublist.map _)

theorem startedBy_eq {s : Slot} (hs : s ∈ b.widgets.schedule) : b.startedBy chance now s.id =
    decide (s ∈ (b.widgets.dueEvents now).take eventDueBatch ∧ b.starts chance now s) := by
  rw [startedBy, Bool.eq_iff_iff, List.any_eq_true, decide_eq_true_iff]
  constructor
  · rintro ⟨t, ht, hstarts⟩
    simp only [Bool.and_eq_true, decide_eq_true_iff] at hstarts
    obtain ⟨hid, hstarts⟩ := hstarts
    obtain rfl := eq_of_id_eq hs (List.mem_filter.mp (List.mem_of_mem_take ht)).1 hid
    exact ⟨ht, hstarts⟩
  · rintro ⟨hbatch, hstarts⟩
    exact ⟨s, hbatch, by simp [hstarts]⟩

theorem sweepOnce_dueEvents : (b.sweepOnce chance now).1.widgets.dueEvents now =
    Batches.left eventDueBatch (b.starts chance now) (b.widgets.dueEvents now) := by
  rw [Widgets.dueEvents, sweepOnce_spec.2, filter_due_begin]
  refine List.filter_congr fun s hs => ?_
  rw [startedBy_eq (List.mem_filter.mp hs).1]

theorem sweeps_dueEvents {n : ℕ} : (b.sweeps chances now n).widgets.dueEvents now =
    Batches.leftAfter eventDueBatch (b.startsIn chances now) (b.widgets.dueEvents now) n := by
  induction n with
  | zero => rfl
  | succ n ih =>
    rw [Batches.leftAfter, ← ih]
    exact sweepOnce_dueEvents

theorem mem_schedule_sweeps {s : Slot} {n : ℕ} (h : s ∈ b.widgets.schedule) :
    s ∈ (b.sweeps chances now n).widgets.schedule ∨
      s.begun ∈ (b.sweeps chances now n).widgets.schedule := by
  induction n with
  | zero => exact .inl h
  | succ n ih =>
    rw [sweeps, sweepOnce_spec.2]
    rcases ih with hs | hs
    · have hmem := List.mem_map_of_mem (f := fun s => if (b.sweeps chances now n).startedBy
        (chances n) now s.id ∧ s.status = .upcoming then s.begun else s) hs
      split_ifs at hmem
      · exact .inr hmem
      · exact .inl hmem
    · exact .inr (List.mem_map.mpr ⟨s.begun, hs, if_neg fun hnew => nomatch hnew.2⟩)

theorem started_sweeps_iff {s : Slot} {n : ℕ} (h : s ∈ b.widgets.dueEvents now) :
    (b.sweeps chances now n).widgets.Started s.id ↔
      s ∉ (b.sweeps chances now n).widgets.dueEvents now := by
  obtain ⟨hs, hdue⟩ := List.mem_filter.mp h
  rw [started_iff]
  constructor
  · rintro ⟨t, ht, hid, hstatus⟩ hmem
    obtain ⟨hs', hdue'⟩ := List.mem_filter.mp hmem
    obtain rfl := eq_of_id_eq hs' ht hid.symm
    simp [Slot.due, hstatus] at hdue'
  · intro hgone
    have hmem : s ∈ (b.sweeps chances now n).widgets.schedule ∨
        s.begun ∈ (b.sweeps chances now n).widgets.schedule := mem_schedule_sweeps hs
    rcases hmem with hkept | hbegun
    · exact absurd (List.mem_filter.mpr ⟨hkept, hdue⟩) hgone
    · exact ⟨s.begun, hbegun, rfl, rfl⟩

theorem split_due {s : Slot} (h : s ∈ b.widgets.dueEvents now) :
    ∃ before after, b.widgets.dueEvents now = before ++ s :: after ∧
      before.length = (b.widgets.dueEvents now).countP (·.id < s.id) ∧
      ∀ p : Slot → Bool, before.countP p =
        (b.widgets.dueEvents now).countP fun t => t.id < s.id ∧ p t := by
  obtain ⟨before, after, hsplit⟩ := List.append_of_mem h
  have hsorted : ((b.widgets.dueEvents now).map Slot.id).Pairwise (· < ·) := dueEvents_sorted
  rw [hsplit, List.map_append, List.map_cons, List.pairwise_append, List.pairwise_cons] at hsorted
  obtain ⟨-, ⟨hafter, -⟩, hbefore⟩ := hsorted
  have hless (t : Slot) (ht : t ∈ before) : t.id < s.id :=
    hbefore _ (List.mem_map_of_mem ht) _ List.mem_cons_self
  have hmore (t : Slot) (ht : t ∈ s :: after) : ¬t.id < s.id := by
    rcases List.mem_cons.mp ht with rfl | ht
    · exact Nat.lt_irrefl _
    · exact Nat.lt_asymm (hafter _ (List.mem_map_of_mem ht))
  have hcount (p : Slot → Bool) : before.countP p =
      (before ++ s :: after).countP fun t => t.id < s.id ∧ p t := by
    have hnone : (s :: after).countP (fun t => decide (t.id < s.id ∧ p t = true)) = 0 :=
      List.countP_eq_zero.mpr fun t ht => by simp [hmore t ht]
    rw [List.countP_append, hnone, Nat.add_zero]
    exact List.countP_congr fun t ht => by simp [hless t ht]
  refine ⟨before, after, hsplit, ?_, fun p => hsplit ▸ hcount p⟩
  rw [hsplit]
  simpa using hcount fun _ => true

/-- How many batches `k` events are. -/
def callsFor (k : ℕ) : ℕ := (k + eventDueBatch - 1) / eventDueBatch

/-- Every due event of a channel that takes content of the server starts within so many calls. -/
def Prompt (b : Board) (chances : ℕ → Chance) (now : ℕ) : Prop :=
  ∀ s ∈ b.widgets.dueEvents now, b.host.db.resolve s.channelId = .plaintext →
    (b.sweeps chances now (callsFor (b.widgets.dueEvents now).length)).widgets.Started s.id

def NeverStarves (b : Board) (chances : ℕ → Chance) (now : ℕ) : Prop :=
  ∀ s ∈ b.widgets.dueEvents now, (∀ n, b.startsIn chances now n s) →
    ∃ n, (b.sweeps chances now n).widgets.Started s.id

/-- What fails in one call fails in all of them. -/
def SteadyFaults (b : Board) (chances : ℕ → Chance) (now : ℕ) : Prop :=
  ∀ n, ∀ s ∈ b.widgets.dueEvents now, b.startsIn chances now n s = b.startsIn chances now 0 s

/-- How many of the due events the first `n` calls come to, if those that stay come again. -/
def comeTo (b : Board) (now : ℕ) (stays : Slot → Bool) (n : ℕ) : ℕ :=
  Batches.reach eventDueBatch stays (b.widgets.dueEvents now) n

/-- How many due events come before one, by their ids. -/
def ahead (b : Board) (now : ℕ) (s : Slot) : ℕ :=
  (b.widgets.dueEvents now).countP fun t => t.id < s.id

theorem started_of_comeTo {s : Slot} {n : ℕ} (h : s ∈ b.widgets.dueEvents now)
    (hstarts : ∀ i < n, b.startsIn chances now i s)
    (hahead : b.ahead now s < b.comeTo now (fun t => ∃ i < n, b.startsIn chances now i t = false) n) :
    (b.sweeps chances now n).widgets.Started s.id := by
  obtain ⟨before, after, hsplit, hlength, -⟩ := split_due h
  rw [started_sweeps_iff h, sweeps_dueEvents]
  rw [ahead, ← hlength, comeTo] at hahead
  rw [hsplit] at hahead ⊢
  refine Batches.not_mem_leftAfter (fun t _ ht i hi => ?_) ?_ hahead
  · by_contra hfails
    exact of_decide_eq_false ht ⟨i, hi, eq_false_of_ne_true hfails⟩
  · refine decide_eq_false ?_
    rintro ⟨i, hi, hfails⟩
    rw [hstarts i hi] at hfails
    cases hfails

theorem started_iff_comeTo {s : Slot} {n : ℕ} (hsteady : b.SteadyFaults chances now)
    (h : s ∈ b.widgets.dueEvents now) : (b.sweeps chances now n).widgets.Started s.id ↔
      b.startsIn chances now 0 s = true ∧
        b.ahead now s < b.comeTo now (fun t => !b.startsIn chances now 0 t) n := by
  obtain ⟨before, after, hsplit, hlength, -⟩ := split_due h
  have hnodup : (b.widgets.dueEvents now).Nodup :=
    List.Nodup.of_map _ (dueEvents_sorted.imp fun hlt => Nat.ne_of_lt hlt)
  rw [started_sweeps_iff h, sweeps_dueEvents, ahead, ← hlength, comeTo]
  rw [SteadyFaults] at hsteady
  rw [hsplit] at hnodup hsteady ⊢
  have hsame : ∀ t ∈ before ++ s :: after, ∀ i < n,
      b.startsIn chances now i t = !(!b.startsIn chances now 0 t) := by
    intro t ht i _
    rw [Bool.not_not]
    exact hsteady i t ht
  refine (Batches.not_mem_leftAfter_iff hnodup hsame).trans ?_
  rw [Bool.not_eq_false']

theorem exists_started_iff {s : Slot} (hsteady : b.SteadyFaults chances now)
    (h : s ∈ b.widgets.dueEvents now) (hstarts : b.startsIn chances now 0 s = true) :
    (∃ n, (b.sweeps chances now n).widgets.Started s.id) ↔
      (b.widgets.dueEvents now).countP (fun t => t.id < s.id ∧ b.startsIn chances now 0 t = false) <
        eventDueBatch := by
  obtain ⟨before, after, hsplit, hlength, hcount⟩ := split_due h
  have hbefore := hcount fun t => !b.startsIn chances now 0 t
  simp only [Bool.not_eq_true'] at hbefore
  have hreach : (∃ n, before.length < Batches.reach eventDueBatch
      (fun t => !b.startsIn chances now 0 t) (before ++ s :: after) n) ↔
      before.countP (fun t => !b.startsIn chances now 0 t) < eventDueBatch :=
    Batches.exists_reach_iff
  rw [← hbefore, ← hreach, ← hsplit, hlength]
  refine exists_congr fun n => ?_
  rw [started_iff_comeTo hsteady h, and_iff_right hstarts]
  rfl

theorem not_started_of_full {s : Slot} {stays : Slot → Bool} (h : s ∈ b.widgets.dueEvents now)
    (hstays : ∀ t ∈ b.widgets.dueEvents now, stays t → ∀ n, b.startsIn chances now n t = false)
    (hfull : eventDueBatch ≤
      (b.widgets.dueEvents now).countP fun t => t.id < s.id ∧ stays t) (n : ℕ) :
    ¬(b.sweeps chances now n).widgets.Started s.id := by
  obtain ⟨before, after, hsplit, -, hcount⟩ := split_due h
  have hnodup : (b.widgets.dueEvents now).Nodup :=
    List.Nodup.of_map _ (dueEvents_sorted.imp fun hlt => Nat.ne_of_lt hlt)
  rw [started_sweeps_iff h, not_not, sweeps_dueEvents]
  rw [← hcount stays] at hfull
  rw [hsplit] at hnodup hstays ⊢
  exact Batches.mem_leftAfter hnodup (fun t ht hs i _ => hstays t ht hs i)
    (.inr (Batches.reach_le_of_full hfull))

theorem startsIn_eq_false {s : Slot} {n : ℕ} (h : b.host.db.resolve s.channelId ≠ .plaintext) :
    b.startsIn chances now n s = false := by
  have hadmits : (b.sweeps chances now n).admits (chances n) s = false := by
    rw [admits_congr sweeps_channels, admits, decide_eq_false h, Bool.false_and]
  rw [startsIn, starts, hadmits, Bool.and_false]

/-- An event is started as soon as the calls come to it; and when the faults are steady, the sweep is
prompt exactly if it comes to all events of plaintext channels in time and starts them, and no event
starves exactly if fewer than a batch of those before it stay due. -/
theorem due_events_start : (∀ n, ∀ s ∈ b.widgets.dueEvents now,
      (∀ i < n, b.startsIn chances now i s) →
      b.ahead now s < b.comeTo now (fun t => ∃ i < n, b.startsIn chances now i t = false) n →
      (b.sweeps chances now n).widgets.Started s.id) ∧
    (b.SteadyFaults chances now →
      (b.Prompt chances now ↔ ∀ s ∈ b.widgets.dueEvents now,
        b.host.db.resolve s.channelId = .plaintext → b.startsIn chances now 0 s = true ∧
          b.ahead now s < b.comeTo now (fun t => !b.startsIn chances now 0 t)
            (callsFor (b.widgets.dueEvents now).length)) ∧
      (b.NeverStarves chances now ↔ ∀ s ∈ b.widgets.dueEvents now,
        b.startsIn chances now 0 s = true → (b.widgets.dueEvents now).countP
          (fun t => t.id < s.id ∧ b.startsIn chances now 0 t = false) < eventDueBatch)) := by
  refine ⟨fun n s hs => started_of_comeTo hs, fun hsteady => ⟨?_, ?_⟩⟩
  · refine forall₂_congr fun s hs => ?_
    rw [started_iff_comeTo hsteady hs]
  · refine forall₂_congr fun s hs => ?_
    have hserved : (∀ n, b.startsIn chances now n s = true) ↔
        b.startsIn chances now 0 s = true :=
      ⟨fun h => h 0, fun h n => (hsteady n s hs).trans h⟩
    rw [hserved]
    exact forall_congr' fun hstarts => exists_started_iff hsteady hs hstarts

/-! ## Servers with an identity -/

/-- The server has its identity, and a row for it among the members. -/
def HasIdentity (b : Board) : Prop :=
  ∃ pk, b.system = some pk ∧ b.host.community.getMember pk ≠ none

namespace HasIdentity

theorem get (h : b.HasIdentity) (now : ℕ) (key : PublicKey) :
    ∃ pk, b.getOrCreateSystemIdentity now key = .ok (b, pk) := by
  obtain ⟨pk, hsystem, hmember⟩ := h
  refine ⟨pk, ?_⟩
  rw [getOrCreateSystemIdentity, hsystem]
  exact if_neg hmember

theorem of_quiet (h : b.HasIdentity) (hquiet : Quiet b b') : b'.HasIdentity := by
  rwa [HasIdentity, hquiet.system, hquiet.community]

theorem startEvents (h : b.HasIdentity) : (b.startEvents chance now).1.HasIdentity := by
  unfold Board.startEvents
  dsimp only
  split_ifs
  · exact h
  · exact h
  · obtain ⟨pk, hget⟩ := h.get now chance.systemKey
    rw [hget]
    refine passRows_keeps h fun x _ b' hb' y hy => ?_
    simp only [inPlaintext_eq_ok, startAndAnnounce, bind_eq_ok, pure_eq_ok] at hy
    obtain ⟨-, ⟨⟩, -, announced, hannounce, row, -, rfl⟩ := hy
    have hstarted : (b'.withWidgets (b'.widgets.startEvent x.1 now)).HasIdentity := hb'
    exact hstarted.of_quiet (announce_eq_ok hannounce).2

theorem sweepOnce (h : b.HasIdentity) : (b.sweepOnce chance now).1.HasIdentity := by
  have hquiet : Quiet b (andThen (closeDue · chance now) (andThen (drawDue · chance now)
      (andThen (sendReminders · chance now) (remindOfStarts · chance now))) b).1 :=
    ((closeDue_quiet.trans drawDue_quiet).trans sendReminders_quiet).trans remindOfStarts_quiet
  exact (h.of_quiet hquiet).startEvents.of_quiet notifyCancellations_quiet

theorem sweeps (h : b.HasIdentity) {n : ℕ} : (b.sweeps chances now n).HasIdentity := by
  induction n with
  | zero => exact h
  | succ n ih => exact ih.sweepOnce

theorem getsToStart_eq (h : b.HasIdentity) : b.getsToStart chance now =
    (!chance.fails .systemIdentity && !chance.fails (.list .start)) := by
  obtain ⟨pk, hget⟩ := h.get now chance.systemKey
  rw [getsToStart, hget]
  exact Bool.and_true _

theorem steady (h : b.HasIdentity) (chance : Chance) (now : ℕ) :
    b.SteadyFaults (fun _ => chance) now := by
  intro n s _
  rw [startsIn, startsIn, starts, starts, h.sweeps.getsToStart_eq, h.sweeps.getsToStart_eq,
    admits_congr sweeps_channels, admits_congr sweeps_channels]

end HasIdentity

/-! ## A batch that is full -/

section Sample

open SampleLog SampleBoard
open SampleHost (momentAt)

def calm : Chance := ⟨fun _ => 0, fun _ => ⟨7⟩, ⟨8⟩, fun _ => false⟩

/-- One event has been started, and another one is due. -/
def secondParty : Board :=
  boardAfter (party ++ (momentAt 135, .sweep calm) ::
    command 140 "event" (.createEvent · ⟨"second party", .relative 120, none, none, none⟩))

theorem due_events_start_party : secondParty.SteadyFaults (fun _ => calm) 300 ∧
    (secondParty.widgets.dueEvents 300).length = 1 ∧
    secondParty.Prompt (fun _ => calm) 300 ∧ secondParty.NeverStarves (fun _ => calm) 300 := by
  have hidentity : secondParty.HasIdentity := by
    refine ⟨⟨8⟩, ?_, ?_⟩ <;> decide +kernel
  have hsteady : secondParty.SteadyFaults (fun _ => calm) 300 := hidentity.steady calm 300
  obtain ⟨hprompt, hstarves⟩ := due_events_start.2 hsteady
  exact ⟨hsteady, by decide +kernel, hprompt.mpr (by decide +kernel),
    hstarves.mpr (by decide +kernel)⟩

/-- An event of the channel, which starts after a minute. -/
def meeting (channelId : ℕ) : EventRow :=
  ⟨channelId, 1, key alice, "meeting", none, none, 60, none, none, .upcoming, none, none, none, 0⟩

/-- A full batch of events in an encrypted channel, and one event in the first channel. -/
def crowded : Board :=
  let db := start.host.db
  let meetings : Table EventRow :=
    (List.range eventDueBatch).foldl (fun t _ => Table.insert t (meeting 2)) .empty
  { start with
    host := start.host.withDb { db with
      channels := db.channels ++ [⟨2, "secret", .text, 1, none, false, some .e2ee⟩] }
    widgets := { start.widgets with channelEvents := meetings.insert (meeting 1) } }

theorem event_starves : ¬crowded.Prompt (fun _ => calm) 100 ∧
    crowded.host.db.resolve (meeting 1).channelId = .plaintext ∧
    ∀ n, ¬(crowded.sweeps (fun _ => calm) 100 n).widgets.Started (slot (201, meeting 1)).id := by
  have hdue : slot (201, meeting 1) ∈ crowded.widgets.dueEvents 100 := by decide +kernel
  have hplain : crowded.host.db.resolve (slot (201, meeting 1)).channelId = .plaintext := by
    decide +kernel
  have hstays : ∀ t ∈ crowded.widgets.dueEvents 100, decide (t.channelId = 2) = true →
      ∀ n, crowded.startsIn (fun _ => calm) 100 n t = false := by
    intro t _ ht n
    refine startsIn_eq_false ?_
    rw [of_decide_eq_true ht]
    decide +kernel
  have hfull : eventDueBatch ≤ (crowded.widgets.dueEvents 100).countP fun t =>
      t.id < (slot (201, meeting 1)).id ∧ decide (t.channelId = 2) = true := by decide +kernel
  have hnever := not_started_of_full hdue hstays hfull
  exact ⟨fun hprompt => hnever _ (hprompt (slot (201, meeting 1)) hdue hplain), hplain, hnever⟩

end Sample

end Board
end Server
