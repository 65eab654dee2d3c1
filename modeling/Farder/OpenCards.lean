import Farder.Server.BoardSteps
import Farder.Server.SampleHub

/-! # Open widgets and their cards

Whoever deletes a card closes its widget. Two operations delete messages without a look at what
they are cards of: the retention sweep, and the deletion of a channel for good. But for these, a
widget that is open has its card. -/
namespace Server

open EventLog Guarded Permissions Widgets Reports View

variable {K : Crypto} {b b' : Board} {moment : Moment} {w w' : Widgets} {l : List CardNotice}
  {ref : WidgetRef} {now : ℕ} {tr : List (Transition Board (Moment × BoardOp))}

namespace Board

/-- The widget has its card: a message of its channel that no event has posted and that points
back to it. -/
def HasCard (b : Board) (ref : WidgetRef) : Prop :=
  ∃ x ∈ b.widgets.place ref, b.host.db.view.Posted x.1 x.2 ∧
    b.widgets.widget.lookup x.1 = some ref

def Carded (b : Board) : Prop := ∀ ref, b.widgets.isOpen ref = true → b.HasCard ref

/-- The message is deleted, and nobody asks what it is the card of. -/
def Sweeps (b : Board) (now : ℕ) (x : ℕ × MessageRow) : BoardOp → Prop
  | .store (.host .purgeExpiredMessages) =>
    (b.host.db.purgeExpiredMessages now).isOk ∧ b.host.db.expires now x.2 = true
  | .store (.hardDeleteChannel channelId) =>
    (b.host.hardDeleteChannel channelId).isOk ∧ x.2.channelId = channelId
  | _ => False

def TakesCard (b : Board) (e : Moment × BoardOp) : Prop :=
  ∃ ref, b.widgets.isOpen ref = true ∧ ∃ x ∈ b.widgets.place ref, ∃ row,
    (x.1, row) ∈ b.host.db.messages ∧ b.Sweeps e.1.now (x.1, row) e.2

end Board

/-- What is open was open before, in the same place, and the cards point to what they did. -/
structure Stays (w w' : Widgets) : Prop where
  isOpen : ∀ ref, w'.isOpen ref = true → w.isOpen ref = true
  place : ∀ ref, w'.place ref = w.place ref
  widget : w'.widget = w.widget

namespace Stays

theorem of_eq (hpolls : w'.polls = w.polls) (hgiveaways : w'.giveaways = w.giveaways)
    (hevents : w'.channelEvents = w.channelEvents) (hwidget : w'.widget = w.widget) :
    Stays w w' where
  isOpen := by
    rintro (id | id | id) <;> simp only [Widgets.isOpen, hpolls, hgiveaways, hevents] <;>
      exact fun h => h
  place := by
    rintro (id | id | id) <;> simp only [Widgets.place, hpolls, hgiveaways, hevents]
  widget := hwidget

variable {ρ : Type} {t : Table ρ} {f : ρ → ρ} {k id : ℕ}

theorem any_of_modify {p : ρ → Bool} (hp : ∀ row, p (f row) = true → p row = true)
    (h : ((t.modify k f).get? id).any p = true) : (t.get? id).any p = true := by
  rw [Table.modify, Table.get?_map, Option.any_map] at h
  obtain ⟨row, hrow, h⟩ := (Option.any_eq_true _ _).mp h
  refine (Option.any_eq_true _ _).mpr ⟨row, hrow, ?_⟩
  split_ifs at h
  · exact hp row h
  · exact h

theorem map_modify {α : Type} {g : ρ → α} (hg : ∀ row, g (f row) = g row) :
    ((t.modify k f).get? id).map g = (t.get? id).map g := by
  rw [Table.modify, Table.get?_map, Option.map_map]
  refine Option.map_congr fun row _ => ?_
  dsimp only [Function.comp_apply]
  split_ifs
  · exact hg row
  · rfl

theorem of_polls {f : PollRow → PollRow}
    (hopen : ∀ row, (f row).closedAt = none → row.closedAt = none)
    (hplace : ∀ row, (f row).messageId = row.messageId ∧ (f row).channelId = row.channelId) :
    Stays w { w with polls := w.polls.modify k f } where
  isOpen := by
    rintro (id | id | id) h
    · exact any_of_modify (fun row hrow => by simpa using hopen row (by simpa using hrow)) h
    · exact h
    · exact h
  place := by
    rintro (id | id | id)
    · exact map_modify fun row => by rw [(hplace row).1, (hplace row).2]
    · rfl
    · rfl
  widget := rfl

theorem of_giveaways {f : GiveawayRow → GiveawayRow}
    (hopen : ∀ row, (f row).status = .opened → row.status = .opened)
    (hplace : ∀ row, (f row).messageId = row.messageId ∧ (f row).channelId = row.channelId) :
    Stays w { w with giveaways := w.giveaways.modify k f } where
  isOpen := by
    rintro (id | id | id) h
    · exact h
    · exact any_of_modify (fun row hrow => by simpa using hopen row (by simpa using hrow)) h
    · exact h
  place := by
    rintro (id | id | id)
    · rfl
    · exact map_modify fun row => by rw [(hplace row).1, (hplace row).2]
    · rfl
  widget := rfl

theorem of_events {f : EventRow → EventRow}
    (hopen : ∀ row, (f row).status = .upcoming → row.status = .upcoming)
    (hplace : ∀ row, (f row).messageId = row.messageId ∧ (f row).channelId = row.channelId) :
    Stays w { w with channelEvents := w.channelEvents.modify k f } where
  isOpen := by
    rintro (id | id | id) h
    · exact h
    · exact h
    · exact any_of_modify (fun row hrow => by simpa using hopen row (by simpa using hrow)) h
  place := by
    rintro (id | id | id)
    · rfl
    · rfl
    · exact map_modify fun row => by rw [(hplace row).1, (hplace row).2]
  widget := rfl

theorem change (h : WidgetChange now w l w') : Stays w w' := by
  cases h with
  | voted | entered | replied | withdrawn | reminderSent => exact of_eq rfl rfl rfl rfl
  | pollClosed =>
    refine of_polls (fun row h => ?_) fun row => ?_
    · split_ifs at h
      exact h
    · split_ifs <;> exact ⟨rfl, rfl⟩
  | giveawayCancelled | drawn | rerolled =>
    refine of_giveaways (fun row h => ?_) fun row => ?_
    · split_ifs at h
      all_goals exact h
    · split_ifs <;> exact ⟨rfl, rfl⟩
  | eventCancelled | started =>
    refine of_events (fun row h => ?_) fun row => ?_
    · split_ifs at h
      exact h
    · split_ifs <;> exact ⟨rfl, rfl⟩
  | reminded | toldCancelled =>
    refine of_events (fun row h => ?_) fun row => ?_
    · split_ifs at h <;> exact h
    · split_ifs <;> exact ⟨rfl, rfl⟩

theorem edit {eventId : ℕ} {edit : EventEdit} {rearm : Bool} :
    Stays w (w.editEvent eventId edit rearm) := by
  refine of_events (fun row h => ?_) fun row => ?_
  · split_ifs at h <;> exact h
  · split_ifs <;> exact ⟨rfl, rfl⟩

theorem closeByCard {messageId : ℕ} : Stays w (w.closeByCard messageId now) := by
  unfold Widgets.closeByCard
  split
  · exact change (.pollClosed _ (List.forall_mem_nil _))
  · exact @change w _ _ now (.giveawayCancelled _ (List.forall_mem_nil _))
  · exact change (.eventCancelled _ (List.forall_mem_nil _))
  · exact of_eq rfl rfl rfl rfl

end Stays

theorem any_modify_self {ρ : Type} {t : Table ρ} {f : ρ → ρ} {id : ℕ} {p : ρ → Bool}
    (hp : ∀ row, p (f row) = false) : ((t.modify id f).get? id).any p = false := by
  rw [Table.modify, Table.get?_map, Option.any_map]
  cases t.get? id with
  | none => rfl
  | some row => simpa using hp row

theorem isOpen_closeByCard {messageId : ℕ} (h : w.widget.lookup messageId = some ref) :
    (w.closeByCard messageId now).isOpen ref = false := by
  unfold Widgets.closeByCard
  rw [h]
  cases ref with
  | poll id | giveaway id | event id =>
    refine any_modify_self fun row => ?_
    split_ifs with hopen <;> simp [hopen]

theorem posted_lt {v : View} {messageId channelId : ℕ} (h : v.Posted messageId channelId) :
    messageId < v.messages.next := by
  obtain ⟨row, hrow, -, -⟩ := h
  exact Table.key_lt hrow

namespace Board

theorem HasCard.of_stays (h : b.HasCard ref) (hstays : Stays b.widgets b'.widgets)
    (hkept : Keeps b.host.db.view b'.host.db.view) : b'.HasCard ref := by
  obtain ⟨x, hx, hposted, hlink⟩ := h
  exact ⟨x, hstays.place ref ▸ hx, hkept.posted_of hposted, hstays.widget ▸ hlink⟩

theorem Carded.of_stays (h : b.Carded) (hstays : Stays b.widgets b'.widgets)
    (hkept : Keeps b.host.db.view b'.host.db.view) : b'.Carded := fun ref hopen =>
  (h ref (hstays.isOpen ref hopen)).of_stays hstays hkept

theorem Carded.path (h : b.Carded) (hpath : WidgetPath now b l b') : b'.Carded := by
  have hchain : Chain fun (b : Board) (_ : List CardNotice) b' => b.Carded → b'.Carded :=
    .of_trans (E := fun b b' : Board => b.Carded → b'.Carded) (fun _ => id)
      fun _ _ _ h h' => h' ∘ h
  refine hpath.along hchain ?_ h
  rintro s l t (⟨-, hwidgets, hdb, -⟩ | ⟨hchange, hdb, -⟩) hcarded
  · refine hcarded.of_stays ?_ hdb
    rw [hwidgets]
    exact .of_eq rfl rfl rfl rfl
  · exact hcarded.of_stays (.change hchange) hdb

theorem Carded.insert {new : WidgetRef} {messageId channelId : ℕ} (h : b.Carded)
    (hcard : PostsCard b b' messageId channelId)
    (hlink : b'.widgets.widget = b.widgets.widget.insert messageId new)
    (hnew : b'.widgets.place new = some (messageId, channelId))
    (hothers : ∀ ref, ref ≠ new → (b'.widgets.isOpen ref = true → b.widgets.isOpen ref = true) ∧
      b'.widgets.place ref = b.widgets.place ref) : b'.Carded := by
  intro ref hopen
  by_cases href : ref = new
  · subst href
    exact ⟨_, hnew, hcard.posted, hlink ▸ Finmap.lookup_insert _⟩
  · obtain ⟨hwas, hplace⟩ := hothers ref href
    obtain ⟨x, hx, hposted, hlooked⟩ := h ref (hwas hopen)
    have hne : x.1 ≠ messageId := by
      have hlt := posted_lt hposted
      rw [hcard.fresh]
      exact hlt.ne
    refine ⟨x, hplace ▸ hx, hcard.kept.posted_of hposted, ?_⟩
    rw [hlink, Finmap.lookup_insert_of_ne _ hne]
    exact hlooked

theorem get?_insert_next {ρ : Type} {t : Table ρ} {row : ρ} :
    (t.insert row).get? t.next = some row := by
  rw [Table.get?_insert, if_pos rfl]

theorem Carded.create (h : b.Carded) (hcreate : CreateStep b l b') : b'.Carded := by
  cases hcreate with
  | @poll row info message _ hcard hwidgets =>
    refine h.insert hcard (congrArg Widgets.widget hwidgets) ?_ ?_
    · simp [hwidgets, Widgets.place, get?_insert_next]
    · rintro (id | id | id) hne
      · have hid : id ≠ b.widgets.polls.next := fun heq => hne (heq ▸ rfl)
        simp [hwidgets, Widgets.isOpen, Widgets.place, Table.get?_insert, hid]
      all_goals
        rw [hwidgets]
        exact ⟨fun h => h, rfl⟩
  | @giveaway row info message _ hcard hwidgets =>
    refine h.insert hcard (congrArg Widgets.widget hwidgets) ?_ ?_
    · simp [hwidgets, Widgets.place, get?_insert_next]
    · rintro (id | id | id) hne
      case giveaway =>
        have hid : id ≠ b.widgets.giveaways.next := fun heq => hne (heq ▸ rfl)
        simp [hwidgets, Widgets.isOpen, Widgets.place, Table.get?_insert, hid]
      all_goals
        rw [hwidgets]
        exact ⟨fun h => h, rfl⟩
  | @event row info message _ hcard hwidgets =>
    refine h.insert hcard (congrArg Widgets.widget hwidgets) ?_ ?_
    · simp [hwidgets, Widgets.place, get?_insert_next]
    · rintro (id | id | id) hne
      case event =>
        have hid : id ≠ b.widgets.channelEvents.next := fun heq => hne (heq ▸ rfl)
        simp [hwidgets, Widgets.isOpen, Widgets.place, Table.get?_insert, hid]
      all_goals
        rw [hwidgets]
        exact ⟨fun h => h, rfl⟩
  | reminder hhost houtbox hwidgets =>
    refine h.of_stays ?_ (.of_eq (congrArg (fun host : Host => host.db.view) hhost))
    rw [hwidgets]
    exact .of_eq rfl rfl rfl rfl

/-! ## Operations of the store -/

theorem deleteMessage_refused {host : Host} {member : PublicKey} {isOwner : Bool} {id : ℕ}
    (h : ¬host.Accepts K (moment, .request member isOwner (.message (.deleteMessage id)))) :
    (host.perform K moment (.request member isOwner (.message (.deleteMessage id)))).1 = host := by
  have hdispatch : (¬∃ answer, (host.deleteMessage member isOwner moment id).2 = .ok answer) →
      (host.deleteMessage member isOwner moment id).1 = host := by
    unfold Host.deleteMessage
    dsimp only
    split
    · exact fun _ => rfl
    · exact fun hanswer => absurd ⟨_, rfl⟩ hanswer
  simp only [Host.Accepts, Host.perform, Host.handleRequest] at h ⊢
  split_ifs at h ⊢
  · split at h
    · rfl
    · exact hdispatch h
  · exact hdispatch h

/-- The card of a widget that is open afterwards is not among what the operation deletes. -/
theorem posted_performStore {op : StoreOp} {host : Host} {x : ℕ × ℕ} {row : MessageRow}
    (hkeeps : ¬b.TakesCard (moment, .store op)) (hopen : b.widgets.isOpen ref = true)
    (hplace : x ∈ b.widgets.place ref) (hrow : (x.1, row) ∈ b.host.db.messages)
    (hhash : row.eventHash = none) (hchannel : row.channelId = x.2)
    (hdeleted : b.deletedCard K moment op ≠ some x.1)
    (hhost : b.host.performStore K moment op = .ok host) : host.db.view.Posted x.1 x.2 := by
  have hstill : b.host.db.view.Posted x.1 x.2 := ⟨row, hrow, hchannel, hhash⟩
  replace hkeeps : ¬b.Sweeps moment.now (x.1, row) (.store op) := fun hsweeps =>
    hkeeps ⟨ref, hopen, x, hplace, row, hrow, hsweeps⟩
  by_cases hgone : op.gone b.host moment.now (x.1, row)
  · unfold StoreOp.gone at hgone
    split at hgone
    · next member isOwner id =>
      obtain rfl : x.1 = id := hgone
      obtain rfl := Except.ok.inj hhost
      rw [deleteMessage_refused fun haccepts => hdeleted (if_pos haccepts)]
      exact hstill
    · obtain rfl := Except.ok.inj hhost
      simp only [Host.perform, Host.sweep]
      cases hpurge : b.host.db.purgeExpiredMessages moment.now with
      | ok db => exact absurd ⟨by rw [hpurge]; rfl, hgone⟩ hkeeps
      | error failure => exact hstill
    · next channelId =>
      have hdelete : b.host.hardDeleteChannel channelId = .ok host := hhost
      exact absurd ⟨by rw [hdelete]; rfl, hgone⟩ hkeeps
    · exact hgone.elim
  · exact (performStore_cards hhost).posted hrow hchannel hhash hgone

theorem lookup_dropLinks {db : Db} {messageId : ℕ} (hlink : w.widget.lookup messageId = some ref)
    {channelId : ℕ} (hposted : db.view.Posted messageId channelId) :
    (w.dropLinks db).widget.lookup messageId = some ref := by
  obtain ⟨row, hrow, -, -⟩ := hposted
  refine (FiniteMap.lookup_retain_eq_some _ _ _ _).mpr ⟨hlink, ?_⟩
  exact Option.isSome_iff_exists.mpr ⟨row, Table.get?_eq_some.mpr hrow⟩

/-- An operation of the store leaves each open widget its card, unless it takes one. -/
theorem Carded.store {op : StoreOp} (h : b.Carded) (hkeeps : ¬b.TakesCard (moment, .store op)) :
    (b.performStore K moment op).1.Carded := by
  unfold performStore
  split
  · exact h
  · next host hhost =>
    dsimp only
    generalize hcard : b.deletedCard K moment op = card
    have hstays : Stays b.widgets
        ((card.map fun id => b.widgets.closeByCard id moment.now).getD b.widgets) := by
      cases card with
      | none => exact .of_eq rfl rfl rfl rfl
      | some id => exact .closeByCard
    intro ref hopen
    replace hopen : ((card.map fun id => b.widgets.closeByCard id moment.now).getD
      b.widgets).isOpen ref = true := hopen
    have hwas := hstays.isOpen ref hopen
    obtain ⟨x, hx, ⟨row, hrow, hchannel, hhash⟩, hlink⟩ := h ref hwas
    have hposted : host.db.view.Posted x.1 x.2 := by
      refine posted_performStore hkeeps hwas hx hrow hhash hchannel (fun hdeleted => ?_) hhost
      obtain rfl := hcard.symm.trans hdeleted
      exact Bool.false_ne_true ((isOpen_closeByCard hlink).symm.trans hopen)
    exact ⟨x, hstays.place ref ▸ hx, hposted, lookup_dropLinks (hstays.widget ▸ hlink) hposted⟩

theorem Carded.restart (h : b.Carded) : (b.restart K moment).Carded := by
  unfold Board.restart
  split
  · next host hhost =>
    intro ref hopen
    obtain ⟨x, hx, hposted, hlink⟩ := h ref hopen
    replace hposted := Keeps.posted_of (performStore_cards hhost) hposted
    exact ⟨x, hx, hposted, lookup_dropLinks hlink hposted⟩
  · exact h

theorem Carded.perform {e : Moment × BoardOp} (h : b.Carded) (hkeeps : ¬b.TakesCard e) :
    (b.perform K e.1 e.2).1.Carded := by
  obtain ⟨moment, op⟩ := e
  cases performed K b moment op with
  | path hpath => exact h.path hpath
  | created hcreate => exact h.create hcreate
  | swept hpath =>
    have hcarded := h.path hpath
    exact hcarded
  | delivered hpath =>
    have hbefore : Carded { b with outbox := b.outbox.tail } := h
    exact hbefore.path hpath
  | dropped => exact h
  | store => exact h.store hkeeps
  | restart => exact h.restart
  | @edited member isOwner pick id edit =>
    generalize hx : b.perform K moment (.request member isOwner pick (.editEvent id edit)) = x
    obtain ⟨hdb, -, -, hwidgets⟩ := edit_perform hx
    refine h.of_stays ?_ (.of_eq (congrArg Db.view hdb))
    rcases hwidgets with hsame | ⟨row, edit', -, hedited⟩
    · rw [hsame]
      exact .of_eq rfl rfl rfl rfl
    · rw [hedited]
      exact .edit

/-! ## Cards that are taken -/

theorem messages_hardDelete {host host' : Host} {channelId : ℕ}
    (h : host.hardDeleteChannel channelId = .ok host') :
    host'.db.messages = host.db.messages.delete fun x => x.2.channelId = channelId := by
  simp only [Host.hardDeleteChannel, bind_eq_ok, pure_eq_ok] at h
  obtain ⟨db, hdelete, ⟨⟩, -, rfl⟩ := h
  exact Db.hardDelete_messages hdelete

theorem not_carded_of_gone {op : StoreOp} {host : Host} {x : ℕ × ℕ}
    (hopen : b.widgets.isOpen ref = true) (hplace : x ∈ b.widgets.place ref)
    (hcard : b.deletedCard K moment op = none)
    (hhost : b.host.performStore K moment op = .ok host)
    (hgone : ∀ row, (x.1, row) ∉ host.db.messages) :
    ¬(b.performStore K moment op).1.Carded := by
  have hpost : (b.performStore K moment op).1 =
      { b with host, widgets := b.widgets.dropLinks host.db } := by
    unfold performStore
    rw [hhost, hcard]
    rfl
  intro hcarded
  rw [hpost] at hcarded
  obtain ⟨y, hy, ⟨row, hrow, -, -⟩, -⟩ := hcarded ref hopen
  obtain rfl := Option.mem_unique hplace hy
  exact hgone row hrow

theorem not_carded_of_takes {e : Moment × BoardOp} (h : b.TakesCard e) :
    ¬(b.perform K e.1 e.2).1.Carded := by
  obtain ⟨moment, op⟩ := e
  obtain ⟨ref, hopen, x, hx, row, hrow, hsweeps⟩ := h
  unfold Sweeps at hsweeps
  split at hsweeps
  · next hop =>
    obtain rfl : op = _ := hop
    obtain ⟨hok, hexpires⟩ := hsweeps
    cases hpurge : b.host.db.purgeExpiredMessages moment.now with
    | error failure => simp [hpurge, Except.isOk, Except.toBool] at hok
    | ok db =>
      have hswept : b.host.performStore K moment (.host .purgeExpiredMessages) =
          .ok (b.host.withDb db) := by
        simp only [Host.performStore, Host.perform, Host.sweep, hpurge]
      have hmessages : (b.host.withDb db).db.messages =
          b.host.db.messages.delete fun x => b.host.db.expires moment.now x.2 :=
        congrArg View.messages (view_purgeExpiredMessages hpurge)
      refine not_carded_of_gone hopen hx rfl hswept fun row' hrow' => ?_
      rw [hmessages] at hrow'
      obtain ⟨hbefore, hkept⟩ := Table.mem_delete.mp hrow'
      obtain rfl := Table.row_eq hbefore hrow
      exact Bool.false_ne_true (hkept.symm.trans hexpires)
  · next channelId hop =>
    obtain rfl : op = _ := hop
    obtain ⟨hok, hchannel⟩ := hsweeps
    cases hdelete : b.host.hardDeleteChannel channelId with
    | error failure => simp [hdelete, Except.isOk, Except.toBool] at hok
    | ok host =>
      refine not_carded_of_gone hopen hx rfl hdelete fun row' hrow' => ?_
      rw [messages_hardDelete hdelete] at hrow'
      obtain ⟨hbefore, hkept⟩ := Table.mem_delete.mp hrow'
      obtain rfl := Table.row_eq hbefore hrow
      exact absurd hchannel (of_decide_eq_false hkept)
  · exact hsweeps.elim

end Board

/-- In every run, each open widget has its card at every point, exactly if neither the retention
sweep nor the deletion of a channel for good ever takes the card of an open widget. -/
theorem open_cards_iff (h : BoardRun K b tr b') (hstart : b.Carded) :
    (∀ x ∈ tr, x.post.Carded) ↔ ∀ x ∈ tr, ¬x.pre.TakesCard x.event := by
  constructor
  · intro hcarded x hx htakes
    have hpost := hcarded x hx
    rw [← (h.step_of_mem hx).2] at hpost
    exact Board.not_carded_of_takes htakes hpost
  · intro hkeeps x hx
    exact (h.kept (Q := Board.Carded) hstart (fun y hy hstep hpre => by
      rw [← hstep.2]
      exact hpre.perform (hkeeps y hy)) x hx).2

section Sample

open SampleLog SampleHost SampleBoard

/-- Messages of the channel are to be kept for ten seconds. -/
def keptBriefly : Moment × BoardOp :=
  (momentAt 25, .store (.host (.request (key alice) true
    (.channel (.updateChannel 1 ⟨none, none, none, none, some (some 10), none, none⟩)))))

def swept : Moment × BoardOp := (momentAt 40, .store (.host .purgeExpiredMessages))

/-- The sweep takes the card of a giveaway that goes on for half a minute. -/
theorem raffle_without_card :
    ¬∀ x ∈ path (raffle ++ [keptBriefly] ++ [swept]), x.post.Carded := by
  have hstart : start.Carded := by
    rintro (id | id | id) hopen <;> cases hopen
  rw [open_cards_iff (run_path (by decide +kernel)) hstart, path_snoc]
  obtain ⟨row, hrow⟩ : ∃ row, (1, row) ∈ (boardAfter (raffle ++ [keptBriefly])).host.db.messages ∧
      (boardAfter (raffle ++ [keptBriefly])).host.db.expires (momentAt 40).now row = true := by
    obtain ⟨row, hrow, hexpires⟩ := (Option.any_eq_true _ _).mp
      (show (((boardAfter (raffle ++ [keptBriefly])).host.db.messages.get? 1).any fun row =>
        (boardAfter (raffle ++ [keptBriefly])).host.db.expires (momentAt 40).now row) = true
        by decide +kernel)
    exact ⟨row, Table.get?_eq_some.mp hrow, hexpires⟩
  intro hkeeps
  exact hkeeps _ (List.mem_append_right _ (List.mem_singleton_self _)) ⟨.giveaway 1,
    by decide +kernel, (1, 1), by decide +kernel, row, hrow.1, by decide +kernel, hrow.2⟩

end Sample

end Server
