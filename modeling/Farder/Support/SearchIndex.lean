import Farder.Support.Guarded
import Mathlib.Data.List.Nodup
import Mathlib.Logic.Function.Basic

/-! # A search index that is kept by hand

An index holds entries, each a key with the content that was indexed for it. It is changed by
commands only, and a command that takes an entry out names the entry. Whoever keeps the index
has to know which content each key was indexed with. -/
namespace SearchIndex

variable {κ γ : Type*} {index : List (κ × γ)} {content : κ → Option γ}

/-- The index holds one entry for each key with content, and no other entry. -/
structure Tracks (index : List (κ × γ)) (content : κ → Option γ) : Prop where
  once : (index.map Prod.fst).Nodup
  mem_iff : ∀ key c, (key, c) ∈ index ↔ content key = some c

theorem Tracks.nil : Tracks ([] : List (κ × γ)) fun _ => none :=
  ⟨List.nodup_nil, by simp⟩

theorem Tracks.congr {content' : κ → Option γ} (h : Tracks index content)
    (hcontent : ∀ k, content' k = content k) : Tracks index content' := by
  obtain rfl : content' = content := funext hcontent
  exact h

inductive Command (κ γ : Type*) where
  | insert (key : κ) (content : γ)
  | delete (key : κ) (content : γ)
  deriving DecidableEq

variable [DecidableEq κ] [DecidableEq γ]

def Command.run (index : List (κ × γ)) : Command κ γ → List (κ × γ)
  | .insert key content => index ++ [(key, content)]
  | .delete key content => index.erase (key, content)

def run (index : List (κ × γ)) (commands : List (Command κ γ)) : List (κ × γ) :=
  commands.foldl Command.run index

def Command.Valid (index : List (κ × γ)) : Command κ γ → Prop
  | .insert _ _ => True
  | .delete key content => (key, content) ∈ index

instance (index : List (κ × γ)) : DecidablePred (Command.Valid index)
  | .insert _ _ => isTrue trivial
  | .delete key content => inferInstanceAs (Decidable ((key, content) ∈ index))

def Valid : List (κ × γ) → List (Command κ γ) → Prop
  | _, [] => True
  | index, c :: cs => c.Valid index ∧ Valid (c.run index) cs

instance instDecidableValid : ∀ (index : List (κ × γ)) (commands : List (Command κ γ)),
    Decidable (Valid index commands)
  | _, [] => isTrue trivial
  | index, c :: cs =>
    have := instDecidableValid (c.run index) cs
    inferInstanceAs (Decidable (c.Valid index ∧ Valid (c.run index) cs))

variable {key : κ} {c : γ}
  {commands commands' : List (Command κ γ)}

@[simp] theorem run_nil : run index ([] : List (Command κ γ)) = index := rfl

@[simp] theorem run_cons (command : Command κ γ) :
    run index (command :: commands) = run (command.run index) commands := rfl

theorem run_append : run index (commands ++ commands') = run (run index commands) commands' :=
  List.foldl_append

@[simp] theorem valid_nil : Valid index ([] : List (Command κ γ)) := trivial

@[simp] theorem valid_cons (command : Command κ γ) : Valid index (command :: commands) ↔
    command.Valid index ∧ Valid (command.run index) commands := Iff.rfl

theorem valid_append : Valid index (commands ++ commands') ↔
    Valid index commands ∧ Valid (run index commands) commands' := by
  induction commands generalizing index with
  | nil => simp
  | cons command commands ih => simp [ih, and_assoc]

theorem Tracks.insert (h : Tracks index content) (hkey : content key = none) :
    Tracks ((Command.insert key c).run index) (Function.update content key (some c)) where
  once := by
    rw [Command.run, List.map_append, List.nodup_append]
    refine ⟨h.once, List.nodup_singleton _, ?_⟩
    rintro a ha b hb rfl
    obtain rfl : a = key := by simpa using hb
    obtain ⟨⟨k, d⟩, hmem, rfl⟩ := List.mem_map.mp ha
    simp [(h.mem_iff k d).mp hmem] at hkey
  mem_iff k d := by
    rw [Command.run, List.mem_append, h.mem_iff]
    by_cases hk : k = key
    · subst hk
      simp [hkey, eq_comm]
    · simp [hk]

theorem Tracks.delete (h : Tracks index content) (hkey : content key = some c) :
    Tracks ((Command.delete key c).run index) (Function.update content key none) where
  once := h.once.sublist (List.erase_sublist.map Prod.fst)
  mem_iff k d := by
    rw [Command.run, (h.once.of_map Prod.fst).mem_erase_iff, h.mem_iff]
    by_cases hk : k = key
    · subst hk
      simp only [hkey, Function.update_self, Option.some.injEq, ne_eq, Prod.mk.injEq, true_and]
      exact ⟨fun ⟨hne, heq⟩ => absurd heq.symm hne, nofun⟩
    · simp [hk]

/-! ## Many keys at once -/

variable {α : Type*} {f : α → κ} {g : α → γ} {as : List α}

theorem Tracks.deletes (h : Tracks index content) (hkeys : (as.map f).Nodup)
    (has : ∀ a ∈ as, content (f a) = some (g a)) :
    Valid index (as.map fun a => .delete (f a) (g a)) ∧
      Tracks (run index (as.map fun a => .delete (f a) (g a)))
        fun k => if k ∈ as.map f then none else content k := by
  induction as generalizing index content with
  | nil => exact ⟨trivial, by simpa using h⟩
  | cons a as ih =>
    rw [List.map_cons, List.nodup_cons] at hkeys
    have hhead := has a (by simp)
    have hrest : ∀ b ∈ as, Function.update content (f a) none (f b) =
        some (g b) := by
      intro b hb
      have hne : f b ≠ f a := fun heq => hkeys.1 (heq ▸ List.mem_map_of_mem hb)
      rw [Function.update_of_ne hne]
      exact has b (by simp [hb])
    obtain ⟨hvalid, htracks⟩ := ih (h.delete hhead) hkeys.2 hrest
    refine ⟨⟨(h.mem_iff _ _).mpr hhead, hvalid⟩, htracks.congr fun k => ?_⟩
    by_cases hk : k = f a
    · simp [hk]
    · simp [hk]

/-- The commands that put new content in the place of old. -/
def replace (key : κ) (old new : γ) : List (Command κ γ) := [.delete key old, .insert key new]

theorem Tracks.replace {old : γ} (h : Tracks index content) (hkey : content key = some old) :
    Valid index (replace key old c) ∧
      Tracks (run index (SearchIndex.replace key old c))
        (Function.update content key (some c)) := by
  refine ⟨⟨(h.mem_iff _ _).mpr hkey, trivial, trivial⟩, ?_⟩
  have hinsert := (h.delete hkey).insert (c := c) (Function.update_self key none content)
  exact hinsert.congr fun k => by simp

theorem Tracks.replaces {d : γ} (h : Tracks index content) (hkeys : (as.map f).Nodup)
    (has : ∀ a ∈ as, content (f a) = some (g a)) :
    Valid index (as.flatMap fun a => SearchIndex.replace (f a) (g a) d) ∧
      Tracks (run index (as.flatMap fun a => SearchIndex.replace (f a) (g a) d))
        fun k => if k ∈ as.map f then some d else content k := by
  induction as generalizing index content with
  | nil => exact ⟨trivial, by simpa using h⟩
  | cons a as ih =>
    rw [List.map_cons, List.nodup_cons] at hkeys
    obtain ⟨hfirst, hreplaced⟩ := h.replace (c := d) (has a (by simp))
    have hrest : ∀ b ∈ as, Function.update content (f a) (some d) (f b) =
        some (g b) := by
      intro b hb
      have hne : f b ≠ f a := fun heq => hkeys.1 (heq ▸ List.mem_map_of_mem hb)
      rw [Function.update_of_ne hne]
      exact has b (by simp [hb])
    obtain ⟨hvalid, htracks⟩ := ih hreplaced hkeys.2 hrest
    rw [List.flatMap_cons]
    refine ⟨valid_append.mpr ⟨hfirst, hvalid⟩, ?_⟩
    rw [run_append]
    refine htracks.congr fun k => ?_
    by_cases hk : k = f a
    · simp [hk]
    · simp [hk]

open Guarded

variable {σ β : Type} {report : σ → β → List (Command κ γ)} {step : σ → β → Checked σ}

end SearchIndex
