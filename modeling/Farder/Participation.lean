import Farder.Server.SampleHub
import Farder.Support.History

/-! # Participation that is over

Votes, entries and replies are taken until a deadline. The requests look at the deadline themselves:
the sweep that closes a widget comes later. -/
namespace Server

open EventLog Guarded Permissions Widgets Reports

variable {K : Crypto} {b b' : Board} {member : PublicKey} {isOwner : Bool} {moment : Moment}
  {w w' w'' : Widgets} {ref : WidgetRef} {now : ℕ}

namespace Widgets

/-- The deadline for participation has come. -/
def Over (w : Widgets) (now : ℕ) : WidgetRef → Prop
  | .poll id => ∃ row ∈ w.polls.get? id, row.closedAt ≠ none ∨ ∃ t ∈ row.closesAt, t ≤ now
  | .giveaway id => ∃ row ∈ w.giveaways.get? id, row.endsAt ≤ now
  | .event id => ∃ row ∈ w.channelEvents.get? id, row.startsAt ≤ now

instance (w : Widgets) (now : ℕ) (ref : WidgetRef) : Decidable (w.Over now ref) :=
  match ref with
  | .poll _ => inferInstanceAs (Decidable (∃ row ∈ _, _ ∨ ∃ t ∈ _, _))
  | .giveaway _ => inferInstanceAs (Decidable (∃ row ∈ _, _))
  | .event _ => inferInstanceAs (Decidable (∃ row ∈ _, _))

/-- Nobody's participation is another. -/
def SameTakers (w w' : Widgets) : WidgetRef → Prop
  | .poll id => ∀ pk, w'.pollVotes.lookup (id, pk) = w.pollVotes.lookup (id, pk)
  | .giveaway id => ∀ pk, w'.giveawayEntries.lookup (id, pk) = w.giveawayEntries.lookup (id, pk)
  | .event id => ∀ pk, w'.rsvps.lookup (id, pk) = w.rsvps.lookup (id, pk)

/-- Widgets stay, with their deadlines; only an event may be moved. -/
structure Steady (w w' : Widgets) : Prop where
  polls : w.polls.Retains (fun row row' => row'.closesAt = row.closesAt ∧
    (row.closedAt ≠ none → row'.closedAt ≠ none)) w'.polls
  giveaways : w.giveaways.Retains (fun row row' => row'.endsAt = row.endsAt) w'.giveaways

/-- Nobody takes part, and nothing is moved. -/
structure Still (w w' : Widgets) : Prop extends Steady w w' where
  votes : w'.pollVotes = w.pollVotes
  entries : w'.giveawayEntries = w.giveawayEntries
  rsvps : w'.rsvps = w.rsvps
  events : w.channelEvents.Retains (fun row row' => row'.startsAt = row.startsAt) w'.channelEvents

theorem Steady.of_eq (hpolls : w'.polls = w.polls) (hgiveaways : w'.giveaways = w.giveaways) :
    Steady w w' where
  polls := by
    rw [hpolls]
    exact .refl fun _ => ⟨rfl, id⟩
  giveaways := by
    rw [hgiveaways]
    exact .refl fun _ => rfl

theorem Steady.trans (h : Steady w w') (h' : Steady w' w'') : Steady w w'' where
  polls := h.polls.trans (fun _ _ _ hab hbc => ⟨hbc.1.trans hab.1, hbc.2 ∘ hab.2⟩) h'.polls
  giveaways := h.giveaways.trans (fun _ _ _ hab hbc => hbc.trans hab) h'.giveaways

namespace Still

theorem refl : Still w w := ⟨.of_eq rfl rfl, rfl, rfl, rfl, .refl fun _ => rfl⟩

theorem trans (h : Still w w') (h' : Still w' w'') : Still w w'' where
  toSteady := h.toSteady.trans h'.toSteady
  votes := h'.votes.trans h.votes
  entries := h'.entries.trans h.entries
  rsvps := h'.rsvps.trans h.rsvps
  events := h.events.trans (fun _ _ _ hab hbc => hbc.trans hab) h'.events

theorem same (h : Still w w') (ref : WidgetRef) : SameTakers w w' ref := by
  cases ref with
  | poll id => exact fun pk => by rw [h.votes]
  | giveaway id => exact fun pk => by rw [h.entries]
  | event id => exact fun pk => by rw [h.rsvps]

theorem of_polls {polls : Table PollRow} (h : w.polls.Retains (fun row row' =>
    row'.closesAt = row.closesAt ∧ (row.closedAt ≠ none → row'.closedAt ≠ none)) polls) :
    Still w { w with polls } :=
  ⟨⟨h, .refl fun _ => rfl⟩, rfl, rfl, rfl, .refl fun _ => rfl⟩

theorem of_giveaways {giveaways : Table GiveawayRow}
    (h : w.giveaways.Retains (fun row row' => row'.endsAt = row.endsAt) giveaways) :
    Still w { w with giveaways } :=
  ⟨⟨.refl fun _ => ⟨rfl, id⟩, h⟩, rfl, rfl, rfl, .refl fun _ => rfl⟩

theorem of_events {channelEvents : Table EventRow}
    (h : w.channelEvents.Retains (fun row row' => row'.startsAt = row.startsAt) channelEvents) :
    Still w { w with channelEvents } :=
  ⟨.of_eq rfl rfl, rfl, rfl, rfl, h⟩

theorem of_others {reminders : Table ReminderRow} {widget : FiniteMap ℕ WidgetRef} :
    Still w { w with reminders, widget } :=
  ⟨.of_eq rfl rfl, rfl, rfl, rfl, .refl fun _ => rfl⟩

theorem closePoll {id : ℕ} : Still w (w.closePoll id now) := by
  refine of_polls (.modify (fun _ => ⟨rfl, fun h => h⟩) fun row => ?_)
  split_ifs with hclosed
  · exact ⟨rfl, fun h => absurd hclosed h⟩
  · exact ⟨rfl, fun h => h⟩

theorem cancelGiveaway {id : ℕ} : Still w (w.cancelGiveaway id) :=
  of_giveaways (.modify (fun _ => rfl) fun row => by split_ifs <;> rfl)

theorem endGiveaway {id : ℕ} {winner : Option PublicKey} : Still w (w.endGiveaway id winner) :=
  of_giveaways (.modify (fun _ => rfl) fun row => by split_ifs <;> rfl)

theorem rerollWinner {id : ℕ} {winner : PublicKey} : Still w (w.rerollWinner id winner) :=
  of_giveaways (.modify (fun _ => rfl) fun row => by split_ifs <;> rfl)

theorem cancelEvent {id : ℕ} : Still w (w.cancelEvent id now) :=
  of_events (.modify (fun _ => rfl) fun row => by split_ifs <;> rfl)

theorem startEvent {id : ℕ} : Still w (w.startEvent id now) :=
  of_events (.modify (fun _ => rfl) fun row => by split_ifs <;> rfl)

theorem markReminded {id : ℕ} : Still w (w.markReminded id now) :=
  of_events (.modify (fun _ => rfl) fun row => by split_ifs <;> rfl)

theorem markCancelNotified {id : ℕ} : Still w (w.markCancelNotified id now) :=
  of_events (.modify (fun _ => rfl) fun row => by split_ifs <;> rfl)

theorem closeByCard {messageId : ℕ} : Still w (w.closeByCard messageId now) := by
  unfold Widgets.closeByCard
  split
  · exact closePoll
  · exact cancelGiveaway
  · exact cancelEvent
  · exact refl

end Still

end Widgets

theorem attempt_still {write : Board → Checked (Board × List CardNotice)}
    (h : ∀ x, write b = .ok x → Still b.widgets x.1.widgets) :
    Still b.widgets (b.attempt write).1.widgets :=
  Board.attempt_keeps (P := fun b' => Still b.widgets b'.widgets) .refl h

theorem chain_still : Chain fun (b : Board) (_ : List CardNotice) b' =>
    Still b.widgets b'.widgets :=
  .of_trans (fun _ => .refl) fun _ _ _ h h' => h.trans h'

theorem passRows_still {ρ : Type} {chance : Chance} {kind : SweepPass} {due : List (ℕ × ρ)}
    {step : ℕ × ρ → Board → Checked (Board × List CardNotice)}
    (h : ∀ x b b', step x b = .ok b' → Still b.widgets b'.1.widgets) :
    Still b.widgets (b.passRows chance kind due step).1.widgets :=
  Board.passRows_keeps (P := fun b' => Still b.widgets b'.widgets) .refl
    fun x _ b' hb' y hy => hb'.trans (h x b' y hy)

theorem pass_still {ρ : Type} {chance : Chance} {kind : SweepPass} {due : List (ℕ × ρ)}
    {step : ℕ × ρ → Board → Checked (Board × List CardNotice)}
    (h : ∀ x b b', step x b = .ok b' → Still b.widgets b'.1.widgets) :
    Still b.widgets (b.pass chance kind due step).1.widgets :=
  Board.pass_keeps (P := fun b' => Still b.widgets b'.widgets) .refl
    fun x _ b' hb' y hy => hb'.trans (h x b' y hy)

theorem inPlaintext_still {channelId : ℕ} {write : Board → Checked (Board × List CardNotice)}
    (h : ∀ b', write b = .ok b' → Still b.widgets b'.1.widgets) {x : Board × List CardNotice}
    (hx : Board.inPlaintext channelId write b = .ok x) : Still b.widgets x.1.widgets :=
  h x (Board.inPlaintext_eq_ok.mp hx).2

theorem announce_widgets {author : PublicKey} {channelId messageId : ℕ} {text : String}
    {subject : Subject} {x : Board × CardNotice}
    (h : b.announce now author channelId messageId text subject = .ok x) :
    x.1.widgets = b.widgets := by
  simp only [Board.announce, bind_eq_ok, pure_eq_ok] at h
  obtain ⟨db, -, message, -, rfl⟩ := h
  rfl

theorem still_of_eq (h : b'.widgets = b.widgets) : Still b.widgets b'.widgets := by
  rw [h]
  exact .refl

theorem closeDue_still {chance : Chance} :
    Still b.widgets (b.closeDue chance now).1.widgets := by
  unfold Board.closeDue
  split_ifs
  · exact .refl
  · show Still b.widgets (List.foldl _ b.widgets _)
    generalize (b.widgets.duePolls now).takeWhile _ = done
    suffices h : ∀ w, Still b.widgets w →
        Still b.widgets (done.foldl (fun w id => w.closePoll id now) w) from h _ .refl
    induction done with
    | nil => exact fun w h => h
    | cons id done ih => exact fun w h => ih _ (h.trans .closePoll)

theorem closeAndDraw_still {chance : Chance} {x : ℕ × GiveawayRow}
    {y : Board × List CardNotice} (h : b.closeAndDraw chance now x = .ok y) :
    Still b.widgets y.1.widgets := by
  simp only [Board.closeAndDraw, bind_eq_ok, pure_eq_ok] at h
  obtain ⟨⟨⟩, -, announced, hannounce, row, -, rfl⟩ := h
  rw [announce_widgets hannounce]
  exact .endGiveaway

theorem sendReminder_still {x : ℕ × ReminderRow} {y : Board × List CardNotice}
    (h : b.sendReminder now x = .ok y) : Still b.widgets y.1.widgets := by
  simp only [Board.sendReminder, bind_eq_ok, pure_eq_ok] at h
  obtain ⟨⟨⟩, -, rfl⟩ := h
  exact .of_others

theorem remindOfStart_still {chance : Chance} {x : ℕ × EventRow} {y : Board × List CardNotice}
    (h : b.remindOfStart chance now x = .ok y) : Still b.widgets y.1.widgets := by
  simp only [Board.remindOfStart, bind_eq_ok, pure_eq_ok] at h
  obtain ⟨⟨⟩, -, rfl⟩ := h
  exact .markReminded

theorem startAndAnnounce_still {chance : Chance} {systemPk : PublicKey} {x : ℕ × EventRow}
    {y : Board × List CardNotice} (h : b.startAndAnnounce chance now systemPk x = .ok y) :
    Still b.widgets y.1.widgets := by
  simp only [Board.startAndAnnounce, bind_eq_ok, pure_eq_ok] at h
  obtain ⟨⟨⟩, -, announced, hannounce, row, -, rfl⟩ := h
  rw [announce_widgets hannounce]
  exact .startEvent

theorem notifyCancelled_still {chance : Chance} {x : ℕ × EventRow} {y : Board × List CardNotice}
    (h : b.notifyCancelled chance now x = .ok y) : Still b.widgets y.1.widgets := by
  simp only [Board.notifyCancelled, bind_eq_ok, pure_eq_ok] at h
  obtain ⟨⟨⟩, -, rfl⟩ := h
  exact .markCancelNotified

theorem startEvents_still {chance : Chance} :
    Still b.widgets (b.startEvents chance now).1.widgets := by
  unfold Board.startEvents
  dsimp only
  split_ifs
  · exact .refl
  · exact .refl
  · split
    · exact .refl
    · next opened systemPk hsystem =>
      rw [← (Board.systemIdentity_eq_ok hsystem).1]
      exact passRows_still fun x b b' => inPlaintext_still fun y h => startAndAnnounce_still h

theorem sweepOnce_still {chance : Chance} :
    Still b.widgets (b.sweepOnce chance now).1.widgets := by
  refine chain_still.andThen closeDue_still ?_
  refine chain_still.andThen (pass_still fun x b b' => inPlaintext_still fun y =>
    closeAndDraw_still) ?_
  refine chain_still.andThen (pass_still fun x b b' => sendReminder_still) ?_
  refine chain_still.andThen (pass_still fun x b b' => remindOfStart_still) ?_
  exact chain_still.andThen startEvents_still (pass_still fun x b b' => notifyCancelled_still)

namespace KeyedRows

variable {κ ν : Type} [DecidableEq κ] {t : KeyedRows κ ν} {k k' : κ} {v : ν}

theorem lookup_replace_ne (h : k ≠ k') : (t.replace k' v).lookup k = t.lookup k := by
  show List.dlookup k (List.kreplace k' v t.entries) = List.dlookup k t.entries
  induction t.entries with
  | nil => rfl
  | cons x l ih =>
    obtain ⟨i, u⟩ := x
    by_cases hi : k' = i
    · subst hi
      rw [List.kreplace, List.lookmap_cons_some _ _ (dif_pos rfl), List.dlookup_cons_ne _ _ h,
        List.dlookup_cons_ne _ _ h]
    · rw [List.kreplace, List.lookmap_cons_none _ _ (dif_neg hi)]
      by_cases hk : k = i
      · subst hk
        rw [List.dlookup_cons_eq, List.dlookup_cons_eq]
      · rw [List.dlookup_cons_ne _ _ hk, List.dlookup_cons_ne _ _ hk]
        exact ih

theorem lookup_upsert_ne (h : k ≠ k') : (t.upsert k' v).lookup k = t.lookup k := by
  unfold upsert
  split_ifs
  · exact lookup_replace_ne h
  · exact AList.lookup_insert_ne h

theorem lookup_insertOrIgnore_ne (h : k ≠ k') :
    (t.insertOrIgnore k' v).lookup k = t.lookup k := by
  unfold insertOrIgnore
  split_ifs
  · rfl
  · exact AList.lookup_insert_ne h

end KeyedRows

namespace Board

/-- What a request that is limited writes, if it is let through. -/
def taken (b : Board) (member : PublicKey) (moment : Moment)
    (write : Board → Checked (Board × List CardNotice)) : Option (Board × List CardNotice) :=
  if moment.admitted then
    match b.host.contentBlockReason member with
    | some _ => none
    | none =>
      let b := b.expireTimeout member moment
      match b.host.requireNotTimedOut member moment.nowMs with
      | .ok _ => (write b).toOption
      | .error _ => none
  else none

def leaving (b : Board) (e : Moment × BoardOp) : Option (ℕ × PublicKey) :=
  match e.2 with
  | .request member isOwner _ (.leaveGiveaway id) =>
    (b.taken member e.1 (·.leaveGiveaway member isOwner id)).map fun _ => (id, member)
  | _ => none

def editing (b : Board) (e : Moment × BoardOp) : Option ℕ :=
  match e.2 with
  | .request member isOwner _ (.editEvent id edit) =>
    (b.taken member e.1 (·.editEvent member isOwner e.1 id edit)).map fun _ => id
  | _ => none

/-- A member who has entered leaves a giveaway whose end has come. -/
def LateLeave (b : Board) (e : Moment × BoardOp) : Prop :=
  ∃ x ∈ b.leaving e, b.widgets.Over e.1.now (.giveaway x.1) ∧ x ∈ b.widgets.giveawayEntries

instance (b : Board) (e : Moment × BoardOp) : Decidable (b.LateLeave e) :=
  inferInstanceAs (Decidable (∃ x ∈ _, _ ∧ _))

def LateEdit (b : Board) (e : Moment × BoardOp) : Prop :=
  ∃ id ∈ b.editing e, b.widgets.Over e.1.now (.event id)

instance (b : Board) (e : Moment × BoardOp) : Decidable (b.LateEdit e) :=
  inferInstanceAs (Decidable (∃ id ∈ _, _))

end Board

variable {write : Board → Checked (Board × List CardNotice)} {x : Board × List CardNotice}

theorem interactLimited_widgets : (b.interactLimited member moment write).1.widgets =
    ((b.taken member moment write).map fun x => x.1.widgets).getD b.widgets := by
  unfold Board.interactLimited Board.interact Board.taken
  split_ifs
  · cases b.host.contentBlockReason member with
    | some reason => rfl
    | none =>
      dsimp only [Board.attempt]
      cases (b.expireTimeout member moment).host.requireNotTimedOut member moment.nowMs with
      | error failure => rfl
      | ok _ =>
        dsimp only [bind, Except.bind]
        cases write (b.expireTimeout member moment) <;> rfl
  · rfl

theorem write_of_taken (h : b.taken member moment write = some x) :
    write (b.expireTimeout member moment) = .ok x := by
  unfold Board.taken at h
  split_ifs at h
  split at h
  · cases h
  · dsimp only at h
    split at h
    · cases hwrite : write (b.expireTimeout member moment) with
      | error failure => simp [hwrite, Except.toOption] at h
      | ok y => simpa [hwrite, Except.toOption] using h
    · cases h

/-- What holds when nothing is written, and of what is written, holds after the request. -/
theorem interact_effect {P : Widgets → Prop} (hnone : P b.widgets)
    (hwrite : ∀ x, write (b.expireTimeout member moment) = .ok x → P x.1.widgets) :
    P (b.interact member moment write).1.widgets := by
  unfold Board.interact
  split
  · exact hnone
  · unfold Board.attempt
    split
    · next x hx =>
      simp only [bind_eq_ok] at hx
      obtain ⟨⟨⟩, -, hx⟩ := hx
      exact hwrite x hx
    · exact hnone

theorem interactLimited_effect {P : Widgets → Prop} (hnone : P b.widgets)
    (hwrite : ∀ x, write (b.expireTimeout member moment) = .ok x → P x.1.widgets) :
    P (b.interactLimited member moment write).1.widgets := by
  unfold Board.interactLimited
  split_ifs
  · exact interact_effect hnone hwrite
  · exact hnone

/-- What becomes of the widgets when nobody leaves a giveaway, and no event is moved: somebody may take
part where it is not over. -/
inductive TakeStep (now : ℕ) (w w' : Widgets) : Prop
  | still (h : Still w w')
  | voted {id : ℕ} (hopen : ¬w.Over now (.poll id)) (pollVotes : KeyedRows (ℕ × PublicKey) ℕ)
      (hothers : ∀ i pk, i ≠ id → pollVotes.lookup (i, pk) = w.pollVotes.lookup (i, pk))
      (hw : w' = { w with pollVotes })
  | entered {id : ℕ} (hopen : ¬w.Over now (.giveaway id))
      (giveawayEntries : KeyedRows (ℕ × PublicKey) ℕ)
      (hothers : ∀ i pk, i ≠ id →
        giveawayEntries.lookup (i, pk) = w.giveawayEntries.lookup (i, pk))
      (hw : w' = { w with giveawayEntries })
  | replied {id : ℕ} (hopen : ¬w.Over now (.event id)) (rsvps : KeyedRows (ℕ × PublicKey) Rsvp)
      (hothers : ∀ i pk, i ≠ id → rsvps.lookup (i, pk) = w.rsvps.lookup (i, pk))
      (hw : w' = { w with rsvps })

theorem visibleRow_row {ρ : Type} {table : Table ρ} {channelId : ρ → ℕ} {notFound : String}
    {id : ℕ} {row : ρ} (h : b.visibleRow member isOwner table channelId notFound id = .ok row) :
    table.get? id = some row := by
  simp only [Board.visibleRow, bind_eq_ok, context_eq_ok, pure_eq_ok] at h
  obtain ⟨_, hrow, -, -, rfl⟩ := h
  exact hrow

theorem not_over_poll {id : ℕ} {row : PollRow} (hrow : w.polls.get? id = some row)
    (h : Board.requireOpenPoll moment row = .ok ()) : ¬w.Over moment.now (.poll id) := by
  obtain ⟨hopen, hcloses⟩ := ensure_eq_ok.mp h
  rintro ⟨row', hrow', hover⟩
  obtain rfl := Option.some.inj (hrow.symm.trans hrow')
  rcases hover with hclosed | ⟨t, ht, hle⟩
  · exact hclosed hopen
  · exact absurd (hcloses t ht) (not_lt.mpr hle)

theorem not_over_event {id : ℕ} {row : EventRow} (hrow : w.channelEvents.get? id = some row)
    (h : Board.requireNotStarted moment row = .ok ()) : ¬w.Over moment.now (.event id) := by
  simp only [Board.requireNotStarted, bind_eq_ok, ensure_eq_ok] at h
  obtain ⟨-, -, -, hbefore⟩ := h
  rintro ⟨row', hrow', hover⟩
  obtain rfl := Option.some.inj (hrow.symm.trans hrow')
  exact absurd hbefore (not_lt.mpr hover)

theorem erase_others {ν : Type} {t : KeyedRows (ℕ × PublicKey) ν} {id : ℕ} (i : ℕ)
    (pk : PublicKey) (h : i ≠ id) : (t.erase (id, member)).lookup (i, pk) = t.lookup (i, pk) :=
  AList.lookup_erase_ne fun heq => h (congrArg Prod.fst heq)

theorem takeStep_request {pick : ℕ} {request : WidgetRequest}
    (hleave : b.leaving (moment, .request member isOwner pick request) = none)
    (hedit : b.editing (moment, .request member isOwner pick request) = none) :
    TakeStep moment.now b.widgets
      (b.handleWidgetRequest K member isOwner moment pick request).1.widgets := by
  cases request with
  | votePoll id i =>
    refine interactLimited_effect (.still .refl) fun x hx => ?_
    simp only [Board.votePoll, bind_eq_ok, pure_eq_ok] at hx
    obtain ⟨row, hrow, ⟨⟩, hopen, ⟨⟩, -, rfl⟩ := hx
    exact .voted (not_over_poll (visibleRow_row hrow) hopen) _
      (fun i pk h => KeyedRows.lookup_upsert_ne fun heq => h (congrArg Prod.fst heq)) rfl
  | retractVote id =>
    refine interactLimited_effect (.still .refl) fun x hx => ?_
    simp only [Board.retractVote, bind_eq_ok, pure_eq_ok] at hx
    obtain ⟨row, hrow, ⟨⟩, hopen, rfl⟩ := hx
    exact .voted (not_over_poll (visibleRow_row hrow) hopen) _ erase_others rfl
  | closePoll id =>
    refine interact_effect (.still .refl) fun x hx => ?_
    simp only [Board.closePoll, bind_eq_ok, pure_eq_ok] at hx
    obtain ⟨row, -, ⟨⟩, -, ⟨⟩, -, row', -, rfl⟩ := hx
    exact .still .closePoll
  | enterGiveaway id =>
    refine interactLimited_effect (.still .refl) fun x hx => ?_
    simp only [Board.enterGiveaway, bind_eq_ok, ensure_eq_ok, pure_eq_ok] at hx
    obtain ⟨row, hrow, ⟨⟩, -, ⟨⟩, ⟨-, hbefore⟩, rfl⟩ := hx
    refine .entered ?_ _ (fun i pk h =>
      KeyedRows.lookup_insertOrIgnore_ne fun heq => h (congrArg Prod.fst heq)) rfl
    rintro ⟨row', hrow', hover⟩
    obtain rfl := Option.some.inj ((visibleRow_row hrow).symm.trans hrow')
    exact absurd hbefore (not_lt.mpr hover)
  | leaveGiveaway id =>
    have hnone := Option.map_eq_none_iff.mp hleave
    refine .still ?_
    show Still b.widgets (b.interactLimited member moment _).1.widgets
    rw [interactLimited_widgets, hnone]
    exact .refl
  | cancelGiveaway id =>
    refine interact_effect (.still .refl) fun x hx => ?_
    simp only [Board.cancelGiveaway, bind_eq_ok, pure_eq_ok] at hx
    obtain ⟨row, -, ⟨⟩, -, ⟨⟩, -, row', -, rfl⟩ := hx
    exact .still .cancelGiveaway
  | rerollGiveaway id =>
    refine .still ?_
    show Still b.widgets (b.rerollGiveaway K member isOwner moment id pick).1.widgets
    unfold Board.rerollGiveaway
    dsimp only
    split
    · exact .rerollWinner
    · exact .refl
  | rsvpEvent id response =>
    refine interactLimited_effect (.still .refl) fun x hx => ?_
    simp only [Board.rsvpEvent, bind_eq_ok, pure_eq_ok] at hx
    obtain ⟨row, hrow, ⟨⟩, -, ⟨⟩, hopen, rfl⟩ := hx
    exact .replied (not_over_event (visibleRow_row hrow) hopen) _
      (fun i pk h => KeyedRows.lookup_upsert_ne fun heq => h (congrArg Prod.fst heq)) rfl
  | clearRsvp id =>
    refine interactLimited_effect (.still .refl) fun x hx => ?_
    simp only [Board.clearRsvp, bind_eq_ok, pure_eq_ok] at hx
    obtain ⟨row, hrow, ⟨⟩, hopen, rfl⟩ := hx
    exact .replied (not_over_event (visibleRow_row hrow) hopen) _ erase_others rfl
  | cancelEvent id =>
    refine interactLimited_effect (.still .refl) fun x hx => ?_
    simp only [Board.cancelEvent, bind_eq_ok, pure_eq_ok] at hx
    obtain ⟨row, -, ⟨⟩, -, ⟨⟩, -, row', -, rfl⟩ := hx
    exact .still .cancelEvent
  | editEvent id edit =>
    have hnone := Option.map_eq_none_iff.mp hedit
    refine .still ?_
    show Still b.widgets (b.interactLimited member moment _).1.widgets
    rw [interactLimited_widgets, hnone]
    exact .refl
  | cancelReminder id =>
    refine .still ?_
    show Still b.widgets (b.cancelReminder member id).1.widgets
    unfold Board.cancelReminder
    split
    · exact .refl
    · exact .of_others

theorem postAs_widgets {cmd : PendingCommand} {author : PublicKey} {content : String}
    {write : ℕ → Widgets → Widgets} {x : Board × MessageInfo}
    (h : b.postAs moment cmd author content write = .ok x) :
    x.1.widgets = write b.host.db.messages.next b.widgets := by
  simp only [Board.postAs, bind_eq_ok, pure_eq_ok] at h
  obtain ⟨db, -, message, -, rfl⟩ := h
  rfl

theorem performStore_still {op : StoreOp} :
    Still b.widgets (b.performStore K moment op).1.widgets := by
  unfold Board.performStore
  split
  · exact .refl
  · have hclosed : Still b.widgets ((Option.map (fun id => b.widgets.closeByCard id moment.now)
        (b.deletedCard K moment op)).getD b.widgets) := by
      cases b.deletedCard K moment op with
      | none => exact .refl
      | some id => exact .closeByCard
    exact hclosed.trans .of_others

theorem deliver_still {systemKey : PublicKey} {ciphertext : String} :
    Still b.widgets (b.deliver moment systemKey ciphertext).widgets := by
  unfold Board.deliver
  split
  · exact .refl
  · split
    · next sent hsent =>
      simp only [Board.sendSystemDm, bind_eq_ok, pure_eq_ok] at hsent
      obtain ⟨⟨opened, systemPk⟩, hsystem, channel, -, db, -, rfl⟩ := hsent
      have hwidgets : opened.widgets = b.widgets := (Board.systemIdentity_eq_ok hsystem).1
      show Still b.widgets opened.widgets
      rw [hwidgets]
      exact .refl
    · exact .refl
  · exact .refl

theorem restart_still : Still b.widgets (b.restart K moment).widgets := by
  unfold Board.restart
  split
  · exact .of_others
  · exact .refl

theorem command_still {op : BoardOp} (h : ∀ pk o pick request, op ≠ .request pk o pick request) :
    Still b.widgets (b.perform K moment op).1.widgets := by
  cases op with
  | store op => exact performStore_still
  | request pk o pick request => exact absurd rfl (h pk o pick request)
  | runCommand member isOwner channelId =>
    show Still _ (b.admitCommand member isOwner moment channelId).1.widgets
    unfold Board.admitCommand
    split
    · exact .refl
    split_ifs
    swap
    · exact .refl
    · refine attempt_still (b := b.expireTimeout member moment) fun x hx => ?_
      simp only [bind_eq_ok, pure_eq_ok] at hx
      obtain ⟨⟨⟩, -, rfl⟩ := hx
      exact .refl
  | findCommand cmd trigger =>
    refine attempt_still fun x hx => ?_
    simp only [Board.findCommand, bind_eq_ok, pure_eq_ok] at hx
    obtain ⟨⟨⟩, -, row, -, rfl⟩ := hx
    exact .refl
  | checkModerator cmd =>
    refine attempt_still fun x hx => ?_
    simp only [Board.checkModerator, bind_eq_ok, pure_eq_ok] at hx
    obtain ⟨⟨⟩, -, ⟨⟩, -, rfl⟩ := hx
    exact .refl
  | reply cmd content =>
    refine attempt_still fun x hx => ?_
    simp only [Board.reply, bind_eq_ok, pure_eq_ok] at hx
    obtain ⟨⟨⟩, -, row, -, posted, hposted, rfl⟩ := hx
    exact still_of_eq (postAs_widgets hposted)
  | createPoll cmd parsed =>
    refine attempt_still fun x hx => ?_
    simp only [Board.createPollCard, bind_eq_ok, pure_eq_ok] at hx
    obtain ⟨⟨⟩, -, posted, hposted, row, -, rfl⟩ := hx
    rw [postAs_widgets hposted]
    exact (Still.of_polls (.insert fun _ => ⟨rfl, fun h => h⟩)).trans .of_others
  | createGiveaway cmd parsed =>
    refine attempt_still fun x hx => ?_
    simp only [Board.createGiveawayCard, bind_eq_ok, pure_eq_ok] at hx
    obtain ⟨⟨⟩, -, ⟨⟩, -, posted, hposted, row, -, rfl⟩ := hx
    rw [postAs_widgets hposted]
    exact (Still.of_giveaways (.insert fun _ => rfl)).trans .of_others
  | createEvent cmd parsed =>
    refine attempt_still fun x hx => ?_
    simp only [Board.createEventCard, bind_eq_ok, pure_eq_ok] at hx
    obtain ⟨⟨⟩, -, startsAt, -, posted, hposted, row, -, rfl⟩ := hx
    rw [postAs_widgets hposted]
    exact (Still.of_events (.insert fun _ => rfl)).trans .of_others
  | createReminder cmd parsed =>
    refine attempt_still fun x hx => ?_
    simp only [Board.createReminder, bind_eq_ok, pure_eq_ok] at hx
    obtain ⟨⟨⟩, -, ⟨⟩, -, rfl⟩ := hx
    exact .of_others
  | sweep chance => exact sweepOnce_still
  | deliver systemKey ciphertext => exact deliver_still
  | drop => exact .refl
  | restart => exact restart_still

theorem takeStep_perform {e : Moment × BoardOp} (hleave : b.leaving e = none)
    (hedit : b.editing e = none) :
    TakeStep e.1.now b.widgets (b.perform K e.1 e.2).1.widgets := by
  obtain ⟨moment, op⟩ := e
  by_cases hrequest : ∃ pk o pick request, op = .request pk o pick request
  · obtain ⟨pk, o, pick, request, rfl⟩ := hrequest
    exact takeStep_request hleave hedit
  · refine .still (command_still fun pk o pick request heq => ?_)
    exact hrequest ⟨pk, o, pick, request, heq⟩

theorem leaving_perform {e : Moment × BoardOp} {x : ℕ × PublicKey} (h : x ∈ b.leaving e) :
    (b.perform K e.1 e.2).1.widgets =
      { b.widgets with giveawayEntries := b.widgets.giveawayEntries.erase x } := by
  obtain ⟨moment, op⟩ := e
  unfold Board.leaving at h
  split at h
  · next member isOwner pick id heq =>
    obtain rfl : op = _ := heq
    obtain ⟨y, htaken, rfl⟩ := Option.map_eq_some_iff.mp h
    have hwrite := write_of_taken htaken
    simp only [Board.leaveGiveaway, bind_eq_ok, pure_eq_ok] at hwrite
    obtain ⟨row, -, ⟨⟩, -, ⟨⟩, -, rfl⟩ := hwrite
    show (b.interactLimited member moment _).1.widgets = _
    rw [interactLimited_widgets, htaken]
    rfl
  · cases h

theorem editing_perform {e : Moment × BoardOp} {id : ℕ} (h : id ∈ b.editing e) :
    ∃ edit rearm, (b.perform K e.1 e.2).1.widgets = b.widgets.editEvent id edit rearm := by
  obtain ⟨moment, op⟩ := e
  unfold Board.editing at h
  split at h
  · next member isOwner pick id' edit heq =>
    obtain rfl : op = _ := heq
    obtain ⟨y, htaken, rfl⟩ := Option.map_eq_some_iff.mp h
    have hwrite := write_of_taken htaken
    simp only [Board.editEvent, bind_eq_ok, pure_eq_ok] at hwrite
    obtain ⟨row, -, ⟨⟩, -, ⟨⟩, -, ⟨⟩, -, startsAt, -, ⟨⟩, -, row', -, rfl⟩ := hwrite
    refine ⟨{ edit with
      title := trim edit.title
      description := Board.trimmed edit.description
      location := Board.trimmed edit.location }, decide (edit.startsAt ≠ row.startsAt), ?_⟩
    show (b.interactLimited member moment _).1.widgets = _
    rw [interactLimited_widgets, htaken]
    rfl
  · cases h

/-! ## Over is over -/

theorem over_of_steady (h : Steady w w')
    (hevents : ∀ id, ref = .event id → w.channelEvents.Retains
      (fun row row' => row'.startsAt = row.startsAt) w'.channelEvents)
    (hover : w.Over now ref) : w'.Over now ref := by
  cases ref with
  | poll id =>
    obtain ⟨row, hrow, hover⟩ := hover
    obtain ⟨row', hrow', hcloses, hclosed⟩ := h.polls id row hrow
    exact ⟨row', hrow', hover.imp hclosed fun hle => hcloses ▸ hle⟩
  | giveaway id =>
    obtain ⟨row, hrow, hover⟩ := hover
    obtain ⟨row', hrow', hends⟩ := h.giveaways id row hrow
    exact ⟨row', hrow', hends ▸ hover⟩
  | event id =>
    obtain ⟨row, hrow, hover⟩ := hover
    obtain ⟨row', hrow', hstarts⟩ := hevents id rfl id row hrow
    exact ⟨row', hrow', hstarts ▸ hover⟩

theorem TakeStep.over {since : ℕ} (h : TakeStep now w w') (hover : w.Over since ref) :
    w'.Over since ref := by
  cases h with
  | still h => exact over_of_steady h.toSteady (fun _ _ => h.events) hover
  | voted _ _ _ hw | entered _ _ _ hw | replied _ _ _ hw =>
    subst hw
    exact hover

theorem TakeStep.same (h : TakeStep now w w') (hover : w.Over now ref) : SameTakers w w' ref := by
  cases h with
  | still h => exact h.same ref
  | @voted id hopen pollVotes hothers hw =>
    subst hw
    cases ref with
    | poll i => exact fun pk => hothers i pk fun heq => hopen (heq ▸ hover)
    | giveaway i | event i => exact fun pk => rfl
  | @entered id hopen giveawayEntries hothers hw =>
    subst hw
    cases ref with
    | giveaway i => exact fun pk => hothers i pk fun heq => hopen (heq ▸ hover)
    | poll i | event i => exact fun pk => rfl
  | @replied id hopen rsvps hothers hw =>
    subst hw
    cases ref with
    | event i => exact fun pk => hothers i pk fun heq => hopen (heq ▸ hover)
    | poll i | giveaway i => exact fun pk => rfl

theorem over_mono {later : ℕ} (h : w.Over now ref) (hle : now ≤ later) : w.Over later ref := by
  cases ref with
  | poll id =>
    obtain ⟨row, hrow, hover⟩ := h
    exact ⟨row, hrow, hover.imp_right fun ⟨t, ht, hlt⟩ => ⟨t, ht, hlt.trans hle⟩⟩
  | giveaway id | event id =>
    obtain ⟨row, hrow, hover⟩ := h
    exact ⟨row, hrow, hover.trans hle⟩

/-- Nobody's participation in what is over changes, exactly if nobody leaves it late. -/
theorem same_perform_iff {e : Moment × BoardOp} :
    (∀ ref, b.widgets.Over e.1.now ref →
        SameTakers b.widgets (b.perform K e.1 e.2).1.widgets ref) ↔ ¬b.LateLeave e := by
  cases hleave : b.leaving e with
  | some x =>
    have hwidgets := leaving_perform (K := K) hleave
    rw [hwidgets]
    constructor
    · rintro hsame ⟨y, hy, hover, hentered⟩
      obtain rfl := Option.some.inj (hleave.symm.trans hy)
      have hkept := hsame (.giveaway x.1) hover x.2
      have hgone : (b.widgets.giveawayEntries.erase x).lookup x = none := AList.lookup_erase ..
      rw [hgone, eq_comm, AList.lookup_eq_none] at hkept
      exact hkept hentered
    · intro hlate ref hover
      cases ref with
      | poll id | event id => exact fun pk => rfl
      | giveaway id =>
        intro pk
        by_cases heq : (id, pk) = x
        · subst heq
          have hout : (id, pk) ∉ b.widgets.giveawayEntries := fun hin =>
            hlate ⟨(id, pk), hleave, hover, hin⟩
          rw [AList.lookup_erase, AList.lookup_eq_none.mpr hout]
        · exact AList.lookup_erase_ne heq
  | none =>
    have hnot : ¬b.LateLeave e := by
      rintro ⟨x, hx, -⟩
      rw [hleave] at hx
      cases hx
    refine iff_of_true (fun ref hover => ?_) hnot
    cases hedit : b.editing e with
    | none => exact (takeStep_perform hleave hedit).same hover
    | some id =>
      obtain ⟨edit, rearm, hwidgets⟩ := editing_perform (K := K) hedit
      rw [hwidgets]
      cases ref <;> exact fun pk => rfl

theorem over_perform {e : Moment × BoardOp} {since : ℕ} (hcare : ¬b.LateEdit e)
    (hsince : since ≤ e.1.now) (hover : b.widgets.Over since ref) :
    (b.perform K e.1 e.2).1.widgets.Over since ref := by
  cases hleave : b.leaving e with
  | some x =>
    rw [leaving_perform hleave]
    exact hover
  | none =>
    cases hedit : b.editing e with
    | none => exact (takeStep_perform hleave hedit).over hover
    | some id =>
      obtain ⟨edit, rearm, hwidgets⟩ := editing_perform (K := K) hedit
      rw [hwidgets]
      cases ref with
      | poll i | giveaway i => exact hover
      | event i =>
        obtain ⟨row, hrow, hstarted⟩ := hover
        have hne : i ≠ id := by
          rintro rfl
          exact hcare ⟨i, hedit, row, hrow, hstarted.trans hsince⟩
        refine ⟨row, ?_, hstarted⟩
        rw [Widgets.editEvent, Table.modify, Table.get?_map, Option.mem_def.mp hrow,
          Option.map_some, if_neg hne]
        rfl

/-- From when the deadline of a widget has come, nobody's participation in it changes. -/
def Frozen (tr : List (Transition Board (Moment × BoardOp))) : Prop :=
  ∀ a x c, tr = a ++ x :: c → ∀ ref, x.pre.widgets.Over x.event.1.now ref →
    ∀ y ∈ x :: c, SameTakers y.pre.widgets y.post.widgets ref

/-- An operation changes nobody's participation in what is over, exactly if it is not a late leave;
and participation is frozen, if no event is edited late either and the clock is not set back. -/
theorem participation_frozen {tr : List (Transition Board (Moment × BoardOp))}
    (h : BoardRun K b tr b') :
    (∀ x ∈ tr, (∀ ref, x.pre.widgets.Over x.event.1.now ref →
        SameTakers x.pre.widgets x.post.widgets ref) ↔ ¬x.pre.LateLeave x.event) ∧
      ((tr.Pairwise fun x y => x.event.1.now ≤ y.event.1.now) →
        (∀ x ∈ tr, ¬x.pre.LateLeave x.event ∧ ¬x.pre.LateEdit x.event) → Frozen tr) := by
  have hsame (x : Transition Board (Moment × BoardOp)) (hx : x ∈ tr) :
      (∀ ref, x.pre.widgets.Over x.event.1.now ref →
        SameTakers x.pre.widgets x.post.widgets ref) ↔ ¬x.pre.LateLeave x.event := by
    rw [← (h.step_of_mem hx).2]
    exact same_perform_iff
  refine ⟨hsame, ?_⟩
  rintro hclock hcare a x c rfl ref hover y hy
  have hlater : ∀ y ∈ x :: c, x.event.1.now ≤ y.event.1.now := by
    intro y hy
    rcases List.mem_cons.mp hy with rfl | hy
    · exact le_rfl
    · exact List.rel_of_pairwise_cons (List.pairwise_append.mp hclock).2.1 hy
  obtain ⟨-, hx, hc⟩ := h.split_at
  have hrun : BoardRun K x.pre (x :: c) b' := (Execution.single hx).trans hc
  have hkept := hrun.kept (Q := fun b => b.widgets.Over x.event.1.now ref) hover
    fun y hy hstep hpre => by
      rw [← hstep.2]
      exact over_perform (hcare y (List.mem_append_right _ hy)).2 (hlater y hy) hpre
  have hmem : y ∈ a ++ x :: c := List.mem_append_right _ hy
  exact (hsame y hmem).mpr (hcare y hmem).1 ref (over_mono (hkept y hy).1 (hlater y hy))

section Sample

open SampleLog SampleBoard
open SampleHost (momentAt)

/-- When the end has come, Alice tries to enter again, and then the sweep draws. -/
def drawn : List (Moment × BoardOp) :=
  raffle ++ [asks 71 (.enterGiveaway 1),
    (momentAt 75, .sweep ⟨fun _ => 0, fun _ => ⟨7⟩, ⟨8⟩, fun _ => false⟩)]

theorem participation_frozen_raffle :
    Frozen (path drawn) ∧ (boardAfter raffle).widgets.Over 71 (.giveaway 1) ∧
      key alice ∈ (boardAfter drawn).widgets.entrants 1 :=
  ⟨(participation_frozen (run_path (by decide +kernel))).2 (by decide +kernel)
    (by decide +kernel), by decide +kernel, by decide +kernel⟩

theorem path_snoc {ops : List (Moment × BoardOp)} {e : Moment × BoardOp} :
    path (ops ++ [e]) = path ops ++ [⟨boardAfter ops, e, perform (boardAfter ops) e⟩] := by
  rw [path, Execution.path_append]
  rfl

/-- Alice leaves the giveaway when its end has come, and no sweep has been made. -/
def leavesLate : Moment × BoardOp := asks 71 (.leaveGiveaway 1)

/-- Alice moves the event when it has begun, and replies to it. -/
def movesLate : Moment × BoardOp := asks 131 (.editEvent 1 ⟨"party", none, none, 1000, none⟩)

def replies : Moment × BoardOp := asks 140 (.rsvpEvent 1 "going")

theorem participation_changes :
    (BoardRun crypto start (path (raffle ++ [leavesLate])) (boardAfter (raffle ++ [leavesLate])) ∧
      ¬Frozen (path (raffle ++ [leavesLate]))) ∧
    BoardRun crypto start (path (party ++ [movesLate] ++ [replies]))
        (boardAfter (party ++ [movesLate] ++ [replies])) ∧
      ¬Frozen (path (party ++ [movesLate] ++ [replies])) := by
  refine ⟨⟨run_path (by decide +kernel), fun h => ?_⟩, run_path (by decide +kernel), fun h => ?_⟩
  · have hsame := h (path raffle) _ [] path_snoc (.giveaway 1) (by decide +kernel) _
      (List.mem_singleton_self _) (key alice)
    revert hsame
    decide +kernel
  · rw [path_snoc, path_snoc, List.append_assoc] at h
    have hsame := h (path party) _ _ rfl (.event 1) (by decide +kernel) _
      (List.mem_cons_of_mem _ (List.mem_singleton_self _)) (key alice)
    revert hsame
    decide +kernel

end Sample

end Server
