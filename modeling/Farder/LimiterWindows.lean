import Farder.Server.Limits
import Mathlib.Data.List.Perm.Basic

/-! # The limits are what the history says

Queues are cut and forgotten on the way, and guards go in any order. What a limiter says is
nevertheless what the calls that it has let through, all of them, make it say. -/
namespace Server

open SlidingWindow

variable {κ : Type} [DecidableEq κ] {history : List (Option (κ × ℕ))} {k : κ} {now window : ℕ}

/-- Of the calls of a history, with the key and the time of those that were admitted, how many of
a key lie in the window before an instant. -/
def admittedWithin (history : List (Option (κ × ℕ))) (k : κ) (now window : ℕ) : ℕ :=
  history.countP fun call => call.any fun x => x.1 = k ∧ now - x.2 < window

def admittedAt (history : List (Option (κ × ℕ))) (k : κ) : List ℕ :=
  history.filterMap fun call => call.bind fun x => if x.1 = k then some x.2 else none

theorem length_recent_admittedAt (history : List (Option (κ × ℕ))) (k : κ) (now window : ℕ) :
    ((Expiry.within window).recent now (admittedAt history k)).length =
      admittedWithin history k now window := by
  rw [Expiry.recent, ← List.countP_eq_length_filter, admittedAt, List.countP_filterMap]
  refine List.countP_congr fun call _ => ?_
  cases call with
  | none => simp
  | some x =>
    by_cases hk : x.1 = k
    · simp [hk, Expiry.within]
    · simp [hk]

theorem admittedAt_snoc_none : admittedAt (history ++ [none]) = admittedAt history := by
  funext k
  simp [admittedAt]

theorem admittedAt_snoc_some (history : List (Option (κ × ℕ))) (k : κ) (now : ℕ) :
    admittedAt (history ++ [some (k, now)]) =
      Function.update (admittedAt history) k (admittedAt history k ++ [now]) := by
  funext k'
  by_cases hk : k' = k
  · subst hk
    simp [admittedAt]
  · rw [Function.update_of_ne hk]
    simp [admittedAt, Ne.symm hk]

structure RateCall (κ : Type) where
  user : κ
  now : ℕ
  allowed : Bool

def RateCall.admitted (call : RateCall κ) : Option (κ × ℕ) :=
  if call.allowed then some (call.user, call.now) else none

/-- A call, no earlier than the one before. -/
def Allows (s : RateLimiter κ × ℕ) (call : RateCall κ) (s' : RateLimiter κ × ℕ) : Prop :=
  s.2 ≤ call.now ∧ s.1.allow call.user call.now = (s'.1, call.allowed) ∧ s'.2 = call.now

abbrev RateRun (κ : Type) [DecidableEq κ] := Execution (Allows (κ := κ))

variable {s s' : RateLimiter κ × ℕ} {call : RateCall κ} {maxPerWindow windowSecs : ℕ}
  {calls : List (Transition (RateLimiter κ × ℕ) (RateCall κ))}

/-- The limits that were set, and queues that remember the history. -/
structure RateLimiter.Follows (maxPerWindow windowSecs : ℕ) (history : List (Option (κ × ℕ)))
    (s : RateLimiter κ × ℕ) : Prop where
  maxPerWindow_eq : s.1.maxPerWindow = maxPerWindow
  windowSecs_eq : s.1.windowSecs = windowSecs
  remembers : Remembers (.within windowSecs) s.2 s.1.users (admittedAt history)

theorem allows_follows (hs : RateLimiter.Follows maxPerWindow windowSecs history s)
    (hstep : Allows s call s') :
    (call.allowed = true ↔ admittedWithin history call.user call.now windowSecs < maxPerWindow) ∧
    RateLimiter.Follows maxPerWindow windowSecs (history ++ [call.admitted]) s' := by
  obtain ⟨hclock, hallow, hnow⟩ := hstep
  obtain ⟨hlimiter, hallowed⟩ := Prod.mk.inj hallow
  have hremembers := hs.remembers.mono hclock
  obtain ⟨hverdict, hafter⟩ := hremembers.admitCall maxPerWindow call.user
  rw [hs.maxPerWindow_eq, hs.windowSecs_eq] at hlimiter hallowed
  rw [hallowed, length_recent_admittedAt] at hverdict
  refine ⟨by rw [hverdict, decide_eq_true_iff], ?_, ?_, ?_⟩
  · rw [← hlimiter]
  · rw [← hlimiter]
  · rw [hnow, ← hlimiter]
    rw [hallowed] at hafter
    unfold RateCall.admitted
    cases hcall : call.allowed with
    | true =>
      rw [hcall, if_pos rfl] at hafter
      rw [if_pos rfl, admittedAt_snoc_some]
      exact hafter
    | false =>
      rw [hcall, if_neg Bool.false_ne_true] at hafter
      rw [if_neg Bool.false_ne_true, admittedAt_snoc_none]
      exact hafter

theorem rateRun_follows (hrun : RateRun κ (.new maxPerWindow windowSecs, 0) calls s) :
    RateLimiter.Follows maxPerWindow windowSecs (calls.map (·.event.admitted)) s := by
  induction calls using List.reverseRecOn generalizing s with
  | nil =>
    obtain rfl := hrun.nil_eq
    exact ⟨rfl, rfl, remembers_empty⟩
  | append_singleton calls x ih =>
    obtain ⟨hbefore, hstep, rfl⟩ := hrun.of_snoc
    rw [List.map_append]
    exact (allows_follows (ih hbefore) hstep).2

/-- The relay at its door: the limiter, the guards that are alive, and the last reading of the
clock. Each guard has a name of its own. -/
structure Gate (κ : Type) where
  limiter : ConnectionLimiter κ
  guards : List ℕ
  issued : ℕ
  clock : ℕ

def Gate.new (maxConnections : UInt64) (ratePerWindow window : ℕ) : Gate κ :=
  ⟨.new maxConnections ratePerWindow window, [], 0, 0⟩

inductive GateOp (κ : Type) where
  | tryAdmit (ip : κ) (now : ℕ) (guard : Option ℕ)
  | drop (guard : ℕ)

def GateOp.admitted : GateOp κ → Option (κ × ℕ)
  | .tryAdmit ip now (some _) => some (ip, now)
  | _ => none

/-- Connections come, no earlier than those before, and guards are dropped in any order. -/
def GateStep (s : Gate κ) (op : GateOp κ) (s' : Gate κ) : Prop :=
  match op with
  | .tryAdmit ip now guard => s.clock ≤ now ∧
      guard = (if (s.limiter.tryAdmit ip now).2 then some s.issued else none) ∧
      s' = ⟨(s.limiter.tryAdmit ip now).1, guard.toList ++ s.guards, s.issued + 1, now⟩
  | .drop guard => guard ∈ s.guards ∧
      s' = { s with limiter := s.limiter.release, guards := s.guards.erase guard }

abbrev GateRun (κ : Type) [DecidableEq κ] := Execution (GateStep (κ := κ))

variable {g g' : Gate κ} {op : GateOp κ} {maxConnections : UInt64} {ratePerWindow : ℕ}
  {ops : List (Transition (Gate κ) (GateOp κ))}

/-- The limits that were set, a count of the guards, and queues that remember the history. -/
structure Gate.Follows (maxConnections : UInt64) (ratePerWindow window : ℕ)
    (history : List (Option (κ × ℕ))) (g : Gate κ) : Prop where
  maxConnections_eq : g.limiter.maxConnections = maxConnections
  ratePerWindow_eq : g.limiter.ratePerWindow = ratePerWindow
  window_eq : g.limiter.window = window
  active : g.limiter.active.toNat = g.guards.length
  capped : g.guards.length ≤ maxConnections.toNat
  remembers : Remembers (.within window) g.clock g.limiter.perIp (admittedAt history)

theorem toNat_succ {n limit : UInt64} (h : n < limit) : (n + 1).toNat = n.toNat + 1 := by
  have hlt := UInt64.lt_iff_toNat_lt.mp h
  have hlimit := limit.toNat_lt
  rw [UInt64.toNat_add]
  exact Nat.mod_eq_of_lt (by simp only [UInt64.toNat_one]; omega)

theorem tryAdmit_follows (hg : g.Follows maxConnections ratePerWindow window history) {ip : κ}
    (hclock : g.clock ≤ now) :
    ((g.limiter.tryAdmit ip now).2 = true ↔ admittedWithin history ip now window < ratePerWindow ∧
      g.guards.length < maxConnections.toNat) ∧
    (g.limiter.tryAdmit ip now).1.active =
      (if (g.limiter.tryAdmit ip now).2 then g.limiter.active + 1 else g.limiter.active) ∧
    (g.limiter.tryAdmit ip now).1.maxConnections = maxConnections ∧
    (g.limiter.tryAdmit ip now).1.ratePerWindow = ratePerWindow ∧
    (g.limiter.tryAdmit ip now).1.window = window ∧
    Remembers (.within window) now (g.limiter.tryAdmit ip now).1.perIp (admittedAt
      (history ++ [if (g.limiter.tryAdmit ip now).2 then some (ip, now) else none])) := by
  have hremembers := hg.remembers.mono hclock
  have hcap : g.limiter.active ≥ maxConnections ↔ ¬g.guards.length < maxConnections.toNat := by
    rw [ge_iff_le, UInt64.le_iff_toNat_le, hg.active, Nat.not_lt]
  unfold ConnectionLimiter.tryAdmit
  dsimp only
  rw [hg.maxConnections_eq, hg.ratePerWindow_eq, hg.window_eq]
  by_cases hfull : g.limiter.active ≥ maxConnections
  · rw [if_pos hfull]
    dsimp only
    simp only [Bool.false_eq_true, if_false, false_iff, not_and]
    refine ⟨fun _ => hcap.mp hfull, UInt64.add_sub_cancel _ _, trivial, trivial, trivial, ?_⟩
    rw [admittedAt_snoc_none]
    exact hremembers
  · rw [if_neg hfull]
    have hroom : g.guards.length < maxConnections.toNat := not_not.mp (mt hcap.mpr hfull)
    obtain ⟨hverdict, hafter⟩ := hremembers.dropIdle.admitCall ratePerWindow ip
    rw [length_recent_admittedAt] at hverdict
    cases hadmitted : (admitCall (.within window) ratePerWindow
        (dropIdle (.within window) now g.limiter.perIp) ip now).2 with
    | false =>
      rw [hadmitted] at hverdict hafter
      simp only [if_true, Bool.false_eq_true, if_false, false_iff, not_and]
      refine ⟨fun hlt => absurd hlt (of_decide_eq_false hverdict.symm),
        UInt64.add_sub_cancel _ _, trivial, trivial, trivial, ?_⟩
      rw [admittedAt_snoc_none]
      exact hafter
    | true =>
      rw [hadmitted] at hverdict hafter
      simp only [Bool.true_eq_false, if_false, if_true, true_iff]
      refine ⟨⟨of_decide_eq_true hverdict.symm, hroom⟩, trivial, trivial, trivial, trivial, ?_⟩
      rw [admittedAt_snoc_some]
      exact hafter

theorem gateStep_follows (hg : g.Follows maxConnections ratePerWindow window history)
    (hstep : GateStep g op g') :
    g'.Follows maxConnections ratePerWindow window (history ++ [op.admitted]) := by
  cases op with
  | tryAdmit ip now guard =>
    obtain ⟨hclock, hguard, rfl⟩ := hstep
    obtain ⟨hverdict, hactive, hmax, hrate, hwindow, hremembers⟩ := tryAdmit_follows hg hclock
    cases hadmitted : (g.limiter.tryAdmit ip now).2 with
    | false =>
      rw [hadmitted] at hguard hactive hremembers
      subst hguard
      refine ⟨hmax, hrate, hwindow, ?_, hg.capped, hremembers⟩
      exact (congrArg UInt64.toNat hactive).trans hg.active
    | true =>
      rw [hadmitted] at hguard hactive hremembers
      subst hguard
      have hroom := (hverdict.mp hadmitted).2
      have hlt : g.limiter.active < maxConnections := by
        rw [UInt64.lt_iff_toNat_lt, hg.active]
        exact hroom
      refine ⟨hmax, hrate, hwindow, ?_, hroom, hremembers⟩
      calc (g.limiter.tryAdmit ip now).1.active.toNat
          = (g.limiter.active + 1).toNat := congrArg UInt64.toNat hactive
        _ = g.limiter.active.toNat + 1 := toNat_succ hlt
        _ = g.guards.length + 1 := by rw [hg.active]
  | drop guard =>
    obtain ⟨hguard, rfl⟩ := hstep
    have hlength := List.length_erase_of_mem hguard
    have hpos := List.length_pos_of_mem hguard
    have hactive := hg.active
    have hone : (1 : UInt64) ≤ g.limiter.active := by
      rw [UInt64.le_iff_toNat_le, UInt64.toNat_one]
      omega
    refine ⟨hg.maxConnections_eq, hg.ratePerWindow_eq, hg.window_eq, ?_, ?_, ?_⟩
    · have hsub : (g.limiter.active - 1).toNat = g.limiter.active.toNat - 1 :=
        UInt64.toNat_sub_of_le _ _ hone
      exact hsub.trans (by rw [hg.active, hlength])
    · have hcapped := hg.capped
      dsimp only
      omega
    · have hnone : (GateOp.drop guard : GateOp κ).admitted = none := rfl
      rw [hnone, admittedAt_snoc_none]
      exact hg.remembers

theorem gateRun_follows (hrun : GateRun κ (.new maxConnections ratePerWindow window) ops g) :
    g.Follows maxConnections ratePerWindow window (ops.map (·.event.admitted)) := by
  induction ops using List.reverseRecOn generalizing g with
  | nil =>
    obtain rfl := hrun.nil_eq
    exact ⟨rfl, rfl, rfl, rfl, Nat.zero_le _, remembers_empty⟩
  | append_singleton ops x ih =>
    obtain ⟨hbefore, hstep, rfl⟩ := hrun.of_snoc
    rw [List.map_append]
    exact gateStep_follows (ih hbefore) hstep

/-- The guards that are alive can go in any order, and the count goes with them. -/
theorem gate_drains (hg : g.Follows maxConnections ratePerWindow window history) {order : List ℕ}
    (horder : order.Perm g.guards) : ∃ drops g', GateRun κ g drops g' ∧
      drops.map Transition.event = order.map GateOp.drop ∧ g'.limiter.active = 0 := by
  induction order generalizing g history with
  | nil =>
    refine ⟨[], g, .nil g, rfl, ?_⟩
    rw [← UInt64.toNat_inj, hg.active, horder.symm.eq_nil]
    rfl
  | cons guard order ih =>
    have hmem : guard ∈ g.guards := horder.subset List.mem_cons_self
    have hstep : GateStep g (.drop guard)
        { g with limiter := g.limiter.release, guards := g.guards.erase guard } := ⟨hmem, rfl⟩
    have hrest : order.Perm (g.guards.erase guard) := by
      have herased := horder.erase guard
      rwa [List.erase_cons_head] at herased
    obtain ⟨drops, g', hdrops, hevents, hzero⟩ := ih (gateStep_follows hg hstep) hrest
    exact ⟨_, g', (Execution.single hstep).trans hdrops, by simp [hevents], hzero⟩

/-- What the limiters say is what the calls that they have let through make it, the count of the
relay is that of the guards that are alive, and it goes back to zero with them. -/
theorem limiters_follow_history (maxPerWindow windowSecs : ℕ) (maxConnections : UInt64)
    (ratePerWindow window : ℕ) :
    (∀ calls s, RateRun κ (.new maxPerWindow windowSecs, 0) calls s →
      ∀ before x after, calls = before ++ x :: after → (x.event.allowed = true ↔
        admittedWithin (before.map (·.event.admitted)) x.event.user x.event.now windowSecs <
          maxPerWindow)) ∧
    ∀ ops g, GateRun κ (.new maxConnections ratePerWindow window) ops g →
      (∀ before x after ip now guard, ops = before ++ x :: after →
        x.event = .tryAdmit ip now guard →
        (guard.isSome = true ↔
          admittedWithin (before.map (·.event.admitted)) ip now window < ratePerWindow ∧
          x.pre.guards.length < maxConnections.toNat) ∧
        (guard = none → x.post.guards = x.pre.guards ∧
          x.post.limiter.active = x.pre.limiter.active)) ∧
      (∀ x ∈ ops, x.post.limiter.active.toNat = x.post.guards.length) ∧
      ∀ order : List ℕ, order.Perm g.guards → ∃ drops g', GateRun κ g drops g' ∧
        drops.map Transition.event = order.map GateOp.drop ∧ g'.limiter.active = 0 := by
  refine ⟨?_, fun ops g hrun => ⟨?_, fun x hx => ?_, fun order horder =>
    gate_drains (gateRun_follows hrun) horder⟩⟩
  · rintro calls s hrun before x after rfl
    obtain ⟨hbefore, hstep, -⟩ := hrun.split_at
    exact (allows_follows (rateRun_follows hbefore) hstep).1
  · rintro before x after ip now guard rfl hevent
    obtain ⟨hbefore, hstep, -⟩ := hrun.split_at
    rw [hevent] at hstep
    obtain ⟨hclock, hguard, hpost⟩ := hstep
    obtain ⟨hverdict, hactive, -⟩ := tryAdmit_follows (gateRun_follows hbefore) hclock
    subst hguard
    rw [← hverdict, hpost]
    cases hadmitted : (x.pre.limiter.tryAdmit ip now).2 with
    | false =>
      rw [hadmitted] at hactive
      exact ⟨by simp, fun _ => ⟨rfl, hactive⟩⟩
    | true => exact ⟨by simp, fun hnone => nomatch hnone⟩
  · obtain ⟨before, after, rfl⟩ := List.append_of_mem hx
    have hsplit : before ++ x :: after = (before ++ [x]) ++ after := by simp
    rw [hsplit] at hrun
    obtain ⟨mid, hmid, -⟩ := hrun.split
    obtain ⟨-, -, rfl⟩ := hmid.of_snoc
    exact (gateRun_follows hmid).active

/-! ## One call, and one connection -/

section Sample

def callAt (s : RateLimiter ℕ × ℕ) (now : ℕ) (allowed : Bool) :
    Transition (RateLimiter ℕ × ℕ) (RateCall ℕ) :=
  ⟨s, ⟨7, now, allowed⟩, ((s.1.allow 7 now).1, now)⟩

/-- A member who may make one call in ten seconds makes one, and another one three seconds
later. -/
def calledTwice : List (Transition (RateLimiter ℕ × ℕ) (RateCall ℕ)) :=
  let first := callAt (.new 1 10, 0) 2 true
  [first, callAt first.post 5 false]

def admitAt (g : Gate ℕ) (ip now : ℕ) (guard : Option ℕ) : Transition (Gate ℕ) (GateOp ℕ) :=
  ⟨g, .tryAdmit ip now guard,
    ⟨(g.limiter.tryAdmit ip now).1, guard.toList ++ g.guards, g.issued + 1, now⟩⟩

/-- A relay with room for one connection has it taken, and refuses another address. -/
def admittedOnce : List (Transition (Gate ℕ) (GateOp ℕ)) :=
  let first := admitAt (.new 1 5 10) 1 2 (some 0)
  [first, admitAt first.post 2 3 none]

theorem limiters_follow_history_twice :
    (∃ s, RateRun ℕ (.new 1 10, 0) calledTwice s) ∧
    (∀ before x after, calledTwice = before ++ x :: after → (x.event.allowed = true ↔
      admittedWithin (before.map (·.event.admitted)) x.event.user x.event.now 10 < 1)) ∧
    ∃ g, GateRun ℕ (.new 1 5 10) admittedOnce g ∧ g.guards = [0] ∧
      ∃ drops g', GateRun ℕ g drops g' ∧ drops.map Transition.event = [GateOp.drop 0] ∧
        g'.limiter.active = 0 := by
  have hcalls : RateRun ℕ (.new 1 10, 0) calledTwice _ :=
    (Execution.single ⟨by decide, rfl, rfl⟩).snoc ⟨by decide, rfl, rfl⟩
  have hgate : GateRun ℕ (.new 1 5 10) admittedOnce _ :=
    (Execution.single ⟨by decide, rfl, rfl⟩).snoc ⟨by decide, rfl, rfl⟩
  obtain ⟨hrate, hconnections⟩ := limiters_follow_history (κ := ℕ) 1 10 1 5 10
  exact ⟨⟨_, hcalls⟩, hrate _ _ hcalls, _, hgate, rfl, (hconnections _ _ hgate).2.2 [0] (.refl _)⟩

end Sample

end Server
