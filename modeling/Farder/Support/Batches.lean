import Mathlib.Data.List.Nodup
import Mathlib.Data.List.Count
import Mathlib.Tactic.Common

/-! # Batches from the front of a queue

A call looks at the first few items of a queue, and takes out those that it can serve. An item
that it cannot serve stays where it is, in front of all that come after it, and the next call looks
at it again. So what stays uses up the batch, and when it fills the batch nothing else is served. -/
namespace Batches

variable {α : Type*} {size n : ℕ} {serves : ℕ → α → Bool} {stays : α → Bool}
  {l before after : List α} {x y : α}

/-- How far down the queue the calls come, if the items that stay are never served. -/
def reach (size : ℕ) (stays : α → Bool) (l : List α) : ℕ → ℕ
  | 0 => 0
  | n + 1 => reach size stays l n + (size - (l.take (reach size stays l n)).countP stays)

theorem take_reach_succ : l.take (reach size stays l (n + 1)) =
    l.take (reach size stays l n) ++ (l.drop (reach size stays l n)).take
      (size - (l.take (reach size stays l n)).countP stays) := by
  rw [reach, List.take_add]

theorem reach_le_of_full (h : size ≤ before.countP stays) :
    reach size stays (before ++ after) n ≤ before.length := by
  induction n with
  | zero => exact Nat.zero_le _
  | succ n ih =>
    have hsplit : before.countP stays =
        (before.take (reach size stays (before ++ after) n)).countP stays +
          (before.drop (reach size stays (before ++ after) n)).countP stays := by
      rw [← List.countP_append, List.take_append_drop]
    have hrest := List.countP_le_length (p := stays)
      (l := before.drop (reach size stays (before ++ after) n))
    rw [List.length_drop] at hrest
    rw [reach, List.take_append_of_le_length ih]
    omega

theorem le_reach (h : before.countP stays < size) :
    min n (before.length + 1) ≤ reach size stays (before ++ after) n := by
  induction n with
  | zero => exact Nat.zero_le _
  | succ n ih =>
    rw [reach]
    by_cases hlt : before.length < reach size stays (before ++ after) n
    · omega
    · rw [List.take_append_of_le_length (Nat.le_of_not_lt hlt)]
      have hfew := (List.take_sublist (reach size stays (before ++ after) n) before).countP_le
        (p := stays)
      omega

/-- The calls come to an item some time, exactly if what stays in front of it does not fill the
batch. -/
theorem exists_reach_iff : (∃ n, before.length < reach size stays (before ++ after) n) ↔
    before.countP stays < size := by
  constructor
  · rintro ⟨n, hn⟩
    by_contra hfull
    exact absurd hn (Nat.not_lt.mpr (reach_le_of_full (Nat.le_of_not_lt hfull)))
  · intro h
    refine ⟨before.length + 1, ?_⟩
    have hle : min (before.length + 1) (before.length + 1) ≤
        reach size stays (before ++ after) (before.length + 1) := le_reach h
    omega

section Calls

variable [DecidableEq α]

/-- What a call leaves of the queue. -/
def left (size : ℕ) (serves : α → Bool) (l : List α) : List α :=
  l.filter fun x => !(x ∈ l.take size ∧ serves x)

/-- What is left after `n` calls, each of which may serve others. -/
def leftAfter (size : ℕ) (serves : ℕ → α → Bool) (l : List α) : ℕ → List α
  | 0 => l
  | n + 1 => left size (serves n) (leftAfter size serves l n)

theorem mem_left : x ∈ left size stays l ↔ x ∈ l ∧ (x ∈ l.take size → stays x = false) := by
  simp [left, imp_iff_not_or]

theorem leftAfter_eq_filter (size : ℕ) (serves : ℕ → α → Bool) (l : List α) (n : ℕ) :
    ∃ p : α → Bool, leftAfter size serves l n = l.filter p := by
  induction n with
  | zero => exact ⟨fun _ => true, (List.filter_true l).symm⟩
  | succ n ih =>
    obtain ⟨p, hp⟩ := ih
    rw [leftAfter, left, hp, List.filter_filter]
    exact ⟨_, rfl⟩

theorem stays_of_left (h : ∀ y ∈ l, stays y = false → ∀ j < n, serves j y = true)
    (hmem : y ∈ l.take (reach size stays l n)) (hleft : y ∈ leftAfter size serves l n) :
    stays y = true := by
  induction n generalizing y with
  | zero => simp [reach] at hmem
  | succ n ih =>
    have ih {z : α} := @ih z fun y hy hstays j hj => h y hy hstays j (Nat.lt_succ_of_lt hj)
    obtain ⟨hold, hunserved⟩ := mem_left.mp hleft
    by_cases hin : y ∈ l.take (reach size stays l n)
    · exact ih hin hold
    by_contra hgoes
    have hserved : serves n y = true :=
      h y (List.mem_of_mem_take hmem) (eq_false_of_ne_true hgoes) n (Nat.lt_succ_self n)
    -- Only what stays is left of what the calls have come to, so there is room for the rest.
    obtain ⟨p, hp⟩ := leftAfter_eq_filter size serves l n
    have hfew : ((l.take (reach size stays l n)).filter p).length ≤
        (l.take (reach size stays l n)).countP stays := by
      rw [← List.countP_eq_length_filter]
      refine List.countP_mono_left fun z hz hpz => ih hz ?_
      rw [hp]
      exact List.mem_filter.mpr ⟨List.mem_of_mem_take hz, hpz⟩
    have hnew : y ∈ (l.drop (reach size stays l n)).take
        (size - (l.take (reach size stays l n)).countP stays) := by
      rw [take_reach_succ, List.mem_append] at hmem
      exact hmem.resolve_left hin
    have hroom : ((l.take (reach size stays l (n + 1))).filter p).length ≤ size := by
      have hpos := List.length_pos_of_mem hnew
      have hrest := List.length_filter_le p ((l.drop (reach size stays l n)).take
        (size - (l.take (reach size stays l n)).countP stays))
      rw [take_reach_succ, List.filter_append, List.length_append]
      rw [List.length_take] at hpos hrest
      omega
    have hbatch : y ∈ (leftAfter size serves l n).take size := by
      rw [hp, ← List.take_append_drop (reach size stays l (n + 1)) l, List.filter_append,
        List.take_append]
      refine List.mem_append_left _ ?_
      rw [List.take_of_length_le hroom]
      exact List.mem_filter.mpr ⟨hmem, (List.mem_filter.mp (hp ▸ hold)).2⟩
    rw [hunserved hbatch] at hserved
    exact Bool.false_ne_true hserved

theorem left_of_stays (hnodup : l.Nodup)
    (h : ∀ y ∈ l, stays y = true → ∀ j < n, serves j y = false) (hmem : y ∈ l)
    (hy : stays y = true ∨ y ∈ l.drop (reach size stays l n)) :
    y ∈ leftAfter size serves l n := by
  induction n generalizing y with
  | zero => exact hmem
  | succ n ih =>
    have ih {z : α} := @ih z fun y hy hstays j hj => h y hy hstays j (Nat.lt_succ_of_lt hj)
    rcases hy with hstays | hdrop
    · exact mem_left.mpr ⟨ih hmem (.inl hstays), fun _ => h y hmem hstays n (Nat.lt_succ_self n)⟩
    have hfurther {z : α} (hz : z ∈ l.drop (reach size stays l (n + 1))) :
        z ∈ l.drop (reach size stays l n) :=
      List.mem_of_mem_drop (i := size - (l.take (reach size stays l n)).countP stays)
        (by rwa [List.drop_drop])
    refine mem_left.mpr ⟨ih hmem (.inr (hfurther hdrop)), fun hbatch => absurd hbatch ?_⟩
    -- What stays and what the call comes to next fill the batch.
    obtain ⟨p, hp⟩ := leftAfter_eq_filter size serves l n
    have hkept {z : α} (hz : z ∈ l) (hleft : stays z = true ∨ z ∈ l.drop (reach size stays l n)) :
        p z = true := (List.mem_filter.mp (hp ▸ ih hz hleft)).2
    have hmany : (l.take (reach size stays l n)).countP stays ≤
        ((l.take (reach size stays l n)).filter p).length := by
      rw [← List.countP_eq_length_filter]
      exact List.countP_mono_left fun z hz hstays => hkept (List.mem_of_mem_take hz) (.inl hstays)
    have hall : ((l.drop (reach size stays l n)).take
        (size - (l.take (reach size stays l n)).countP stays)).filter p =
        (l.drop (reach size stays l n)).take
          (size - (l.take (reach size stays l n)).countP stays) :=
      List.filter_eq_self.mpr fun z hz => hkept (List.mem_of_mem_drop (List.mem_of_mem_take hz))
        (.inr (List.mem_of_mem_take hz))
    have hfull : size ≤ ((l.take (reach size stays l (n + 1))).filter p).length := by
      have hpos := List.length_pos_of_mem hdrop
      rw [List.length_drop, reach] at hpos
      rw [take_reach_succ, List.filter_append, List.length_append, hall, List.length_take,
        List.length_drop]
      omega
    rw [hp, ← List.take_append_drop (reach size stays l (n + 1)) l, List.filter_append,
      List.take_append_of_le_length hfull]
    intro hbatch
    have hfront := (List.mem_filter.mp (List.mem_of_mem_take hbatch)).1
    exact List.disjoint_take_drop hnodup (Nat.le_refl _) hfront hdrop

theorem not_mem_leftAfter (h : ∀ y ∈ before ++ x :: after, stays y = false →
      ∀ j < n, serves j y = true) (hgoes : stays x = false)
    (hreach : before.length < reach size stays (before ++ x :: after) n) :
    x ∉ leftAfter size serves (before ++ x :: after) n := by
  intro hleft
  have htake : x ∈ (before ++ x :: after).take (reach size stays (before ++ x :: after) n) := by
    rw [List.take_append, List.take_of_length_le (Nat.le_of_lt hreach)]
    refine List.mem_append_right _ ?_
    obtain ⟨k, hk⟩ := Nat.exists_eq_add_of_lt hreach
    rw [hk, Nat.add_assoc, Nat.add_sub_cancel_left]
    exact List.mem_cons_self
  rw [stays_of_left h htake hleft] at hgoes
  cases hgoes

theorem mem_leftAfter (hnodup : (before ++ x :: after).Nodup)
    (h : ∀ y ∈ before ++ x :: after, stays y = true → ∀ j < n, serves j y = false)
    (hfar : stays x = true ∨ reach size stays (before ++ x :: after) n ≤ before.length) :
    x ∈ leftAfter size serves (before ++ x :: after) n := by
  refine left_of_stays hnodup h (List.mem_append_right _ List.mem_cons_self) ?_
  refine hfar.imp_right fun hle => ?_
  rw [List.drop_append_of_le_length hle]
  exact List.mem_append_right _ List.mem_cons_self

/-- When the calls serve the same items, an item is served as soon as they come to it. -/
theorem not_mem_leftAfter_iff (hnodup : (before ++ x :: after).Nodup)
    (h : ∀ y ∈ before ++ x :: after, ∀ j < n, serves j y = !stays y) :
    x ∉ leftAfter size serves (before ++ x :: after) n ↔
      stays x = false ∧ before.length < reach size stays (before ++ x :: after) n := by
  constructor
  · intro hserved
    have hstays (y : α) (hy : y ∈ before ++ x :: after) (hys : stays y = true) (j : ℕ)
        (hj : j < n) : serves j y = false := by rw [h y hy j hj, hys, Bool.not_true]
    constructor
    · by_contra hx
      exact hserved (mem_leftAfter hnodup hstays (.inl (eq_true_of_ne_false hx)))
    · by_contra hfar
      exact hserved (mem_leftAfter hnodup hstays (.inr (Nat.le_of_not_lt hfar)))
  · rintro ⟨hgoes, hreach⟩
    refine not_mem_leftAfter (fun y hy hys j hj => ?_) hgoes hreach
    rw [h y hy j hj, hys, Bool.not_false]

end Calls

end Batches
