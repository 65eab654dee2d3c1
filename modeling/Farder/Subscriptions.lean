import Farder.Server.HubWiring
import Farder.Server.SampleHub
import Farder.Server.SightKept

/-! # Subscriptions

The set of those to whom the events of a channel go is filtered when it is written, and again when
an access change is announced. It shows nobody what it may not see, but for what is on its way to be
announced, and for what is never announced. -/
namespace Server

open EventLog EventLog.LogState Guarded Permissions

variable {K : Crypto} {host host' : Host} {hub hub' : Hub} {moment : Moment}
  {member m : PublicKey} {isOwner : Bool} {channelId task : ℕ} {op : HubOp}

/-- A duty that will take the subscriptions of whoever does not see a channel. -/
def Duty.restores : Duty → Bool
  | .revalidate _ => true
  | .announce b => b.notice.changesAccess
  | _ => false

namespace Hub

/-- Every subscriber of a channel sees it. -/
def AllSeen (hub : Hub) : Prop :=
  ∀ x ∈ hub.subscriptions, hub.visible x.2 (hub.host.owner = some x.2) x.1 = true

/-- A revalidation is under way. -/
def Pending (hub : Hub) : Prop := ∃ task, ∃ duty ∈ hub.duties task, duty.restores = true

/-- Who is entered among the subscribers still sees the channels. -/
def Warranted (hub : Hub) : Duty → Prop
  | .insertSubscriptions member channelIds => ∀ id ∈ channelIds,
    hub.visible member (hub.host.owner = some member) id = true
  | _ => True

instance (duty : Duty) : Decidable (hub.Warranted duty) := by
  unfold Warranted
  split <;> infer_instance

/-- An orderly operation of the server; and what a `Subscribe` was allowed is entered while it can
still be seen. -/
def Orderly (hub : Hub) : HubOp → Prop
  | .connect _ moment member displayName credentials genesis _ =>
    hub.host.Orderly (moment, .handshake member displayName credentials genesis)
  | .request task moment (.server request) => ∀ c ∈ hub.connections task,
    hub.host.Orderly (moment, .request c.member c.isOwner request)
  | .other moment op => hub.host.Orderly (moment, op)
  | .act task => ∀ duty ∈ (hub.duties task).head?, hub.Warranted duty
  | _ => True

instance (op : HubOp) : Decidable (hub.Orderly op) :=
  decidable_of_iff ((match op with
    | .connect _ moment member displayName credentials genesis _ =>
      decide (hub.host.Orderly (moment, .handshake member displayName credentials genesis))
    | .request task moment (.server request) => decide (∀ c ∈ hub.connections task,
      hub.host.Orderly (moment, .request c.member c.isOwner request))
    | .other moment op => decide (hub.host.Orderly (moment, op))
    | .act task => decide (∀ duty ∈ (hub.duties task).head?, hub.Warranted duty)
    | _ => true) = true) (by
      unfold Orderly
      split
      · exact decide_eq_true_iff
      · exact decide_eq_true_iff
      · exact decide_eq_true_iff
      · exact decide_eq_true_iff
      · exact iff_of_true rfl trivial)

/-- The invariant: every subscriber sees the channel, or a revalidation is under way. A revalidation
that has been prepared knows the owner, unless there was none. -/
structure Sound (hub : Hub) : Prop where
  fresh : hub.host.db.NextIsFresh
  owners : ∀ task owner, .revalidate owner ∈ hub.duties task →
    owner = none ∨ owner = hub.host.owner
  sound : hub.AllSeen ∨ hub.Pending

theorem visible_of_member (h : hub.visible m false channelId = true) (isOwner : Bool) :
    hub.visible m isOwner channelId = true := by
  simp only [visible, decide_eq_true_eq] at h ⊢
  obtain ⟨hgate, hstands, hvisible⟩ := h
  refine ⟨hgate, hstands, ?_⟩
  obtain ⟨ch, hch, hshown⟩ := channelVisible_iff.mp hvisible
  refine channelVisible_iff.mpr ⟨ch, hch, ?_⟩
  split_ifs at hshown ⊢
  · exact hshown
  · rw [resolve_bit_iff (by decide), isOwner_of] at hshown ⊢
    refine hshown.elim (fun h => absurd h (by simp)) fun h => .inr ?_
    exact h

theorem AllSeen.of_keeps (h : hub.AllSeen) (hkeeps : KeepsSight hub.host hub'.host)
    (hsubscriptions : hub'.subscriptions ⊆ hub.subscriptions) : hub'.AllSeen :=
  fun x hx => hkeeps x.2 x.1 (h x (hsubscriptions hx))

theorem AllSeen.of_eq (h : hub.AllSeen) (hhost : hub'.host = hub.host)
    (hsubscriptions : hub'.subscriptions = hub.subscriptions) : hub'.AllSeen :=
  h.of_keeps (hhost ▸ .refl) hsubscriptions.subset

end Hub

open Hub

theorem pending_step (hstep : HubStep K hub op hub') (h : hub.Pending) : hub'.Pending ∨
    ∃ task owner rest, op = .act task ∧ hub.duties task = .revalidate owner :: rest := by
  obtain ⟨task, duty, hduty, hrestores⟩ := h
  have htask : TaskStep K hub task op _ _ := task_step hstep
  generalize hub'.connections task = c' at htask
  generalize hduties' : hub'.duties task = duties' at htask
  cases htask with
  | connect _ hidle => exact absurd hduty (hidle ▸ List.not_mem_nil)
  | request _ _ hidle => exact absurd hduty (hidle ▸ List.not_mem_nil)
  | background _ hidle => exact absurd hduty (hidle ▸ List.not_mem_nil)
  | idle => exact .inl ⟨task, duty, hduties' ▸ hduty, hrestores⟩
  | @fail c =>
    refine .inl ⟨task, .announce ⟨.all, .server (.memberLeft c.member)⟩, ?_, rfl⟩
    rw [hduties', Connection.teardown, cleanupSession]
    simp
  | continueCommand hduties =>
    rw [hduties] at hduty
    rcases List.mem_cons.mp hduty with rfl | hrest
    · exact absurd hrestores (by simp [Duty.restores])
    · exact .inl ⟨task, duty, hduties' ▸ List.mem_append_right _ hrest, hrestores⟩
  | @act head rest hduties =>
    rw [hduties] at hduty
    rcases List.mem_cons.mp hduty with rfl | hrest
    · cases duty with
      | revalidate owner => exact .inr ⟨task, owner, rest, rfl, hduties⟩
      | announce b =>
        have hchanges : b.notice.changesAccess = true := hrestores
        refine .inl ⟨task, .revalidate hub.host.owner, ?_, rfl⟩
        simp [hduties', carryOut, hchanges]
      | _ => exact absurd hrestores (by simp [Duty.restores])
    · exact .inl ⟨task, duty, hduties' ▸ List.mem_append_right _ hrest, hrestores⟩

theorem carryOut_seen {duty : Duty} (h : hub.AllSeen)
    (hwarranted : hub.Warranted duty) : (hub.carryOut task duty).1.AllSeen := by
  cases duty with
  | insertSubscriptions member channelIds =>
    intro x hx
    simp only [carryOut, Finset.mem_union, Finset.mem_filter, List.mem_toFinset, List.mem_map] at hx
    rcases hx with ⟨hx, -⟩ | ⟨id, hid, rfl⟩
    · exact h x hx
    · exact hwarranted id hid
  | revalidate owner => exact h.of_keeps .refl (Finset.filter_subset _ _)
  | dropSubscriptions member => exact h.of_keeps .refl (Finset.filter_subset _ _)
  | dropClient member =>
    simp only [carryOut, dropClient]
    split_ifs
    · exact h.of_keeps (sameSight_frame.clientProtocol hub.host _).keeps (Finset.Subset.refl _)
    · exact h
  | cleanupOrphanedFile fileId =>
    exact h.of_keeps (keepsSight_withDb (Db.catalogue_cleanupOrphanedFile fileId))
      (Finset.Subset.refl _)
  | _ => exact h.of_eq rfl rfl

theorem revalidate_seen {owner : Option PublicKey} (h : owner = none ∨ owner = hub.host.owner) :
    (hub.carryOut task (.revalidate owner)).1.AllSeen := by
  intro x hx
  have hvisible := (Finset.mem_filter.mp hx).2
  rcases h with rfl | rfl
  · have hmember : hub.visible x.2 false x.1 = true := by simpa using hvisible
    exact visible_of_member hmember _
  · exact hvisible

theorem tells_pending {request : Request} {answer : Answer}
    (hanswer : (host.perform K moment (.request member isOwner request)).2 = .ok answer)
    (hduties : hub.duties task = afterRequest member isOwner request answer)
    (h : ∃ b ∈ answer.events, b.event.changesAccess = true) : hub.Pending := by
  obtain ⟨b, hb, hchanges⟩ := h
  refine ⟨task, .announce b.broadcast, ?_, hchanges⟩
  rw [hduties]
  unfold afterRequest
  split
  · obtain rfl := runCommand_answer hanswer
    exact absurd hb List.not_mem_nil
  · exact List.mem_cons_of_mem _ (List.mem_append_left _ (List.mem_map_of_mem hb))

theorem handle_kept {request : SessionRequest} (hstream : ∀ r, request ≠ .server r) :
    (hub.handle K member isOwner moment request).1.host = hub.host ∧
      (hub.handle K member isOwner moment request).1.subscriptions = hub.subscriptions := by
  cases request with
  | server r => exact absurd rfl (hstream r)
  | updatePresence presence limited =>
    simp only [Hub.handle, Hub.handleStream]
    split
    · exact ⟨rfl, rfl⟩
    · split_ifs <;> exact ⟨rfl, rfl⟩
  | _ =>
    simp only [Hub.handle]
    split <;> exact ⟨rfl, rfl⟩

/-- What every subscriber sees stays so, or a change is on its way to be announced. -/
theorem seen_step (hstep : HubStep K hub op hub') (horderly : hub.Orderly op)
    (hbounded : hub.host.db.IdsBounded) (h : hub.AllSeen) :
    hub'.AllSeen ∨ hub'.Pending := by
  obtain ⟨henabled, rfl⟩ := hstep
  cases op with
  | connect task moment member displayName credentials genesis handle =>
    exact .inl (h.of_keeps (perform_keeps horderly nofun) (Finset.Subset.refl _))
  | request task moment request =>
    obtain ⟨c, hc, -, -⟩ := enabled_request henabled
    simp only [Hub.next, hc]
    by_cases hserver : ∃ r, request = .server r
    · obtain ⟨r, rfl⟩ := hserver
      have horderly : hub.host.Orderly (moment, .request c.member c.isOwner r) := horderly c hc
      rcases @request_accounted K _ _ _ _ _ hbounded horderly with hkeeps | ⟨a, ha, htells⟩
      · exact .inl (h.of_keeps hkeeps (Finset.Subset.refl _))
      · refine .inr (@tells_pending K _ _ _ _ _ task _ _ ha ?_ htells)
        simp only [Hub.handle, ha, Hub.assign, Function.update_self]
    · obtain ⟨hhost, hsubscriptions⟩ := handle_kept (not_exists.mp hserver)
      exact .inl (h.of_eq hhost hsubscriptions)
  | act task =>
    obtain ⟨duty, rest, hduties, -⟩ := enabled_act henabled
    simp only [Hub.next, hduties]
    have hwarranted : hub.Warranted duty := horderly duty (by simp [hduties])
    exact .inl ((carryOut_seen h hwarranted).of_eq rfl rfl)
  | continueCommand task moment outcome =>
    obtain ⟨command, rest, hduties⟩ := enabled_continueCommand henabled
    have hkeeps : KeepsSight hub.host
        (hub.host.perform K moment (.continueCommand command outcome)).1 :=
      perform_keeps trivial (by simp)
    simp only [Hub.next, hduties]
    exact .inl (h.of_keeps hkeeps (Finset.Subset.refl _))
  | fail task =>
    obtain ⟨c, hc, -⟩ := any_eq_some.mp henabled.1
    simp only [Hub.next, hc]
    exact .inl (h.of_eq rfl rfl)
  | datagram source raw nowMs admitted =>
    simp only [Hub.next, Hub.processInboundVoiceFrame]
    split
    · exact .inl h
    · split
      · exact .inl (h.of_eq rfl rfl)
      · exact .inl h
  | other moment op =>
    refine .inl (h.of_keeps (perform_keeps horderly ?_) (Finset.Subset.refl _))
    rintro member isOwner request rfl
    exact henabled
  | _ => exact .inl (h.of_eq rfl rfl)

theorem perform_fresh {op : HostOp} (h : host.db.NextIsFresh) :
    (host.perform K moment op).1.db.NextIsFresh :=
  (@perform_ids K host (moment, op)).nextIsFresh h

theorem carryOut_host {duty : Duty} (h : hub.host.db.NextIsFresh) :
    (hub.carryOut task duty).1.host.db.NextIsFresh ∧
      (hub.carryOut task duty).1.host.owner = hub.host.owner := by
  cases duty with
  | dropClient member =>
    simp only [carryOut, dropClient]
    split_ifs <;> exact ⟨h, rfl⟩
  | cleanupOrphanedFile fileId =>
    have htable := @Db.catalogue_cleanupOrphanedFile hub.host.db fileId
    refine ⟨?_, rfl⟩
    simp only [carryOut, Host.withDb, Host.db, Db.NextIsFresh, Db.IdsBounded, Db.channelIds,
      Db.channels_eq htable, Db.nextChannel_eq htable]
    exact h
  | _ => exact ⟨h, rfl⟩

theorem host_step (hstep : HubStep K hub op hub') (horderly : hub.Orderly op)
    (h : hub.host.db.NextIsFresh) : hub'.host.db.NextIsFresh ∧
      (hub'.host.owner = hub.host.owner ∨ hub.host.owner = none) := by
  obtain ⟨henabled, rfl⟩ := hstep
  cases op with
  | connect task moment member displayName credentials genesis handle =>
    exact ⟨perform_fresh h, perform_owner horderly⟩
  | request task moment request =>
    obtain ⟨c, hc, -, -⟩ := enabled_request henabled
    simp only [Hub.next, hc]
    by_cases hserver : ∃ r, request = .server r
    · obtain ⟨r, rfl⟩ := hserver
      have horderly : hub.host.Orderly (moment, .request c.member c.isOwner r) := horderly c hc
      exact ⟨@perform_fresh K hub.host moment (.request c.member c.isOwner r) h,
        perform_owner horderly⟩
    · obtain ⟨hhost, -⟩ := @handle_kept K hub moment c.member c.isOwner _ (not_exists.mp hserver)
      rw [Hub.assign, hhost]
      exact ⟨h, .inl rfl⟩
  | act task =>
    obtain ⟨duty, rest, hduties, -⟩ := enabled_act henabled
    simp only [Hub.next, hduties]
    exact (carryOut_host h).imp_right .inl
  | continueCommand task moment outcome =>
    obtain ⟨command, rest, hduties⟩ := enabled_continueCommand henabled
    have howner : (hub.host.perform K moment (.continueCommand command outcome)).1.owner =
        hub.host.owner ∨ hub.host.owner = none := perform_owner trivial
    simp only [Hub.next, hduties]
    exact ⟨perform_fresh h, howner⟩
  | fail task =>
    obtain ⟨c, hc, -⟩ := any_eq_some.mp henabled.1
    simp only [Hub.next, hc]
    exact ⟨h, .inl rfl⟩
  | datagram source raw nowMs admitted =>
    simp only [Hub.next, Hub.processInboundVoiceFrame]
    split
    · exact ⟨h, .inl rfl⟩
    · split <;> exact ⟨h, .inl rfl⟩
  | other moment op => exact ⟨perform_fresh h, perform_owner horderly⟩
  | _ => exact ⟨h, .inl rfl⟩

theorem revalidate_step (hstep : HubStep K hub op hub') {owner : Option PublicKey}
    (h : .revalidate owner ∈ hub'.duties task) :
    .revalidate owner ∈ hub.duties task ∨ owner = hub'.host.owner := by
  have htask : TaskStep K hub task op _ _ := task_step hstep
  generalize hub'.connections task = c' at htask
  generalize hduties' : hub'.duties task = duties' at htask h
  cases htask with
  | connect =>
    unfold enter at h
    split at h <;> simp [cleanupSession] at h
  | @request moment request c => exact (handle_answers (K := K) _ h).elim
  | background => simp at h
  | idle => exact .inl (hduties' ▸ h)
  | @fail c => simp [Connection.teardown, cleanupSession] at h
  | @act duty rest hduties =>
    rw [hduties]
    rcases List.mem_append.mp h with hadded | hrest
    · obtain ⟨b, rfl, -⟩ := carryOut_added hadded
      simp only [carryOut] at hadded
      split_ifs at hadded
      · right
        have howner : owner = hub.host.owner := by simpa using hadded
        obtain ⟨-, rfl⟩ := hstep
        simp only [howner, Hub.next, hduties, carryOut, Hub.assign]
      · simp at hadded
    · exact .inl (List.mem_cons_of_mem _ hrest)
  | continueCommand hduties =>
    rcases List.mem_append.mp h with hadded | hrest
    · exact (@afterCommand_answers ⟨0⟩ _ _ hadded).elim
    · exact .inl (hduties ▸ List.mem_cons_of_mem _ hrest)

namespace Hub.Sound

theorem start (hfresh : host.db.NextIsFresh) : (Hub.start host).Sound where
  fresh := hfresh
  owners _ _ h := absurd h List.not_mem_nil
  sound := .inl fun _ hx => absurd hx (Finset.notMem_empty _)

theorem step (h : hub.Sound) (hstep : HubStep K hub op hub') (horderly : hub.Orderly op) :
    hub'.Sound := by
  obtain ⟨hfresh, howner⟩ := host_step hstep horderly h.fresh
  refine ⟨hfresh, fun task owner hduty => ?_, ?_⟩
  · rcases revalidate_step hstep hduty with hold | hnow
    · rcases h.owners task owner hold with hnone | hsame
      · exact .inl hnone
      · exact howner.symm.imp hsame.trans fun heq => hsame.trans heq.symm
    · exact .inr hnow
  · rcases h.sound with hseen | hpending
    · exact seen_step hstep horderly h.fresh.1 hseen
    · rcases pending_step hstep hpending with hpending | ⟨task, owner, rest, rfl, hduties⟩
      · exact .inr hpending
      · left
        have howners := h.owners task owner (by simp [hduties])
        obtain ⟨-, rfl⟩ := hstep
        simp only [Hub.next, hduties]
        have hseen := @revalidate_seen hub task owner howners
        exact hseen.of_eq rfl rfl

end Hub.Sound

theorem sound_of_run {tr : List (Transition Hub HubOp)} (hfresh : host.db.NextIsFresh)
    (h : HubRun K (.start host) tr hub) (horderly : ∀ x ∈ tr, x.pre.Orderly x.event) :
    hub.Sound := by
  have hrun : Execution (fun hub op hub' => HubStep K hub op hub' ∧ hub.Orderly op) (.start host)
      tr hub := h.of_steps fun x hx hstep => ⟨hstep, horderly x hx⟩
  exact hrun.invariant (I := Hub.Sound) (.start hfresh)
    fun _ _ _ hsound hstep => hsound.step hstep.1 hstep.2

/-- In every run of orderly operations, at each moment, a revalidation is under way, or every
subscriber of a channel sees it, and an event for the subscribers of a channel goes to no one
else. -/
theorem subscribers_see {tr : List (Transition Hub HubOp)} (hfresh : host.db.NextIsFresh)
    (h : HubRun K (.start host) tr hub) (horderly : ∀ x ∈ tr, x.pre.Orderly x.event) :
    hub.Pending ∨ hub.AllSeen ∧ ∀ (b : Broadcast) (task : ℕ) (c : Connection),
      b.target = .subscribers channelId → hub.recipient b task = some c →
        hub.visible c.member (hub.host.owner = some c.member) channelId = true := by
  refine (sound_of_run hfresh h horderly).sound.symm.imp_right fun hseen => ⟨hseen, ?_⟩
  intro b task c htarget hrecipient
  obtain ⟨-, -, -, haddressed, -⟩ := recipient_eq_some.mp hrecipient
  simp only [addressed, htarget, decide_eq_true_eq] at haddressed
  exact hseen _ haddressed

open SampleLog SampleHost SampleHub

def subscriberKicked : List HubOp :=
  connects 1 10 alice ++ connects 2 11 bob ++ asks 2 12 (.subscribe [1]) 2 ++
    asks 1 13 (.server (.member (.kickMember (key bob)))) 9

theorem subscribers_see_bob :
    (hubAfter subscriberKicked).Pending ∨ (hubAfter subscriberKicked).AllSeen ∧
      ∀ (b : Broadcast) (task : ℕ) (c : Connection), b.target = .subscribers 1 →
        (hubAfter subscriberKicked).recipient b task = some c →
          (hubAfter subscriberKicked).visible c.member
            ((hubAfter subscriberKicked).host.owner = some c.member) 1 = true :=
  subscribers_see (nextIsFresh_of_run (SampleHost.run_path joined))
    (SampleHub.run_path (by decide +kernel)) (by decide +kernel)

/-- Bob is kicked, and all is announced, between the two halves of his subscription. -/
def kickedMeanwhile : List HubOp :=
  connects 1 10 alice ++ connects 2 11 bob ++ [.request 2 (momentAt 12) (.subscribe [1])] ++
    asks 1 13 (.server (.member (.kickMember (key bob)))) 9 ++ acts 2 2

theorem subscribed_late :
    (∀ x ∈ SampleHub.path kickedMeanwhile, x.pre.Enabled crypto x.event) ∧
      (1, key bob) ∈ (hubAfter kickedMeanwhile).subscriptions ∧
      (hubAfter kickedMeanwhile).visible (key bob) false 1 = false ∧
      ∀ task ∈ [1, 2], (hubAfter kickedMeanwhile).duties task = [] := by
  decide +kernel

end Server
