import Mathlib.Data.List.Basic
import Mathlib.Tactic.Common

/-! # Permissions

Permissions are the bits of a 64-bit word. A member's word for a channel is resolved from its
roles and then from two layers of overrides, each of which denies before it allows; the owner
and an administrator hold everything. -/
namespace Permissions

abbrev Bits := BitVec 64

def viewChannel : Bits := 1#64 <<< 0
def readMessages : Bits := 1#64 <<< 1
def sendMessages : Bits := 1#64 <<< 2
def manageMessages : Bits := 1#64 <<< 3
def connect : Bits := 1#64 <<< 4
def speak : Bits := 1#64 <<< 5
def stream : Bits := 1#64 <<< 6
def manageChannel : Bits := 1#64 <<< 7
def manageRoles : Bits := 1#64 <<< 8
def manageServer : Bits := 1#64 <<< 9
def kickMembers : Bits := 1#64 <<< 10
def banMembers : Bits := 1#64 <<< 11
def admin : Bits := 1#64 <<< 12
def createInvites : Bits := 1#64 <<< 13
def timeoutMembers : Bits := 1#64 <<< 14

def allPermissions : Bits :=
  viewChannel ||| readMessages ||| sendMessages ||| manageMessages ||| connect ||| speak |||
    stream ||| manageChannel ||| manageRoles ||| manageServer ||| kickMembers ||| banMembers |||
    admin ||| createInvites ||| timeoutMembers

def defaultEveryone : Bits := viewChannel ||| readMessages ||| sendMessages ||| createInvites

structure Override where
  allow : Bits
  deny : Bits
  deriving DecidableEq, Repr

structure ResolutionContext where
  everyonePermissions : Bits
  rolePermissions : List Bits
  categoryOverrides : List Override
  channelOverrides : List Override
  isOwner : Bool

def has (permissions permission : Bits) : Bool := permissions &&& permission = permission

def union (words : List Bits) : Bits := words.foldl (· ||| ·) 0

/-- One layer of overrides: all that is denied goes, then all that is allowed comes. -/
def applyOverrides (permissions : Bits) (overrides : List Override) : Bits :=
  permissions &&& ~~~union (overrides.map Override.deny) ||| union (overrides.map Override.allow)

namespace ResolutionContext

/-- What the roles give, before any override. -/
def base (ctx : ResolutionContext) : Bits :=
  ctx.rolePermissions.foldl (· ||| ·) ctx.everyonePermissions

def overridden (ctx : ResolutionContext) : Bits :=
  applyOverrides (applyOverrides ctx.base ctx.categoryOverrides) ctx.channelOverrides

end ResolutionContext

/-- No override takes `ADMIN` from a member that has it by role. -/
def resolve (ctx : ResolutionContext) : Bits :=
  if ctx.isOwner then allPermissions
  else
    let permissions := if has ctx.base admin then ctx.overridden ||| admin else ctx.overridden
    if has permissions admin then allPermissions else permissions

variable {p q : Bits} {words : List Bits} {overrides : List Override} {ctx : ResolutionContext}
  {i : ℕ}

theorem has_shiftLeft (hi : i < 64) : has p (1#64 <<< i) = p.getLsbD i := by
  have hne : (0#64 : Bits) ≠ BitVec.twoPow 64 i := by
    intro h
    have hbit := congrArg (fun w => w.getLsbD i) h
    simp [hi] at hbit
  rw [has, ← BitVec.twoPow_eq, BitVec.and_twoPow]
  cases hp : p.getLsbD i <;> simp [hne]

theorem has_admin : has p admin = p.getLsbD 12 := has_shiftLeft (by decide)

theorem getLsbD_foldl_or :
    (words.foldl (· ||| ·) p).getLsbD i = true ↔ p.getLsbD i = true ∨ ∃ w ∈ words, w.getLsbD i := by
  induction words generalizing p with
  | nil => simp
  | cons w words ih => simp [ih, or_assoc]

@[simp] theorem getLsbD_union : (union words).getLsbD i = true ↔ ∃ w ∈ words, w.getLsbD i := by
  simp [union, getLsbD_foldl_or]

def Allowed (overrides : List Override) (i : ℕ) : Prop := ∃ o ∈ overrides, o.allow.getLsbD i = true

/-- No override denies the permission. -/
def Spared (overrides : List Override) (i : ℕ) : Prop := ∀ o ∈ overrides, o.deny.getLsbD i = false

/-- A permission survives a layer unless it is denied there, and allowed ones are added. -/
theorem getLsbD_applyOverrides (hi : i < 64) : (applyOverrides p overrides).getLsbD i = true ↔
    p.getLsbD i = true ∧ Spared overrides i ∨ Allowed overrides i := by
  have hdeny : (union (overrides.map Override.deny)).getLsbD i = false ↔
      ∀ o ∈ overrides, o.deny.getLsbD i = false := by
    rw [← Bool.not_eq_true, getLsbD_union]
    simp
  simp only [applyOverrides, BitVec.getLsbD_or, BitVec.getLsbD_and, BitVec.getLsbD_not, hi,
    decide_true, Bool.true_and, Bool.or_eq_true, Bool.and_eq_true, Bool.not_eq_true', hdeny,
    getLsbD_union, List.mem_map, exists_exists_and_eq_and, Allowed, Spared]

namespace ResolutionContext

def Administers (ctx : ResolutionContext) : Prop :=
  ctx.isOwner = true ∨ has ctx.base admin = true ∨ has ctx.overridden admin = true

instance (ctx : ResolutionContext) : Decidable ctx.Administers :=
  inferInstanceAs (Decidable (_ ∨ _ ∨ _))

end ResolutionContext

theorem has_admin_or : has (p ||| admin) admin = true := by
  rw [has_admin]
  simp [admin]

theorem resolve_eq :
    resolve ctx = if ctx.Administers then allPermissions else ctx.overridden := by
  unfold resolve
  by_cases howner : ctx.isOwner = true
  · have hadm : ctx.Administers := .inl howner
    rw [if_pos howner, if_pos hadm]
  · rw [if_neg howner]
    by_cases hbase : has ctx.base admin = true
    · have hadm : ctx.Administers := .inr (.inl hbase)
      simp only [if_pos hbase, has_admin_or, if_true, if_pos hadm]
    · have hadm : ctx.Administers ↔ has ctx.overridden admin = true := by
        simp only [ResolutionContext.Administers, howner, hbase, Bool.false_eq_true, false_or]
      simp only [if_neg hbase, hadm]

namespace ResolutionContext

/-- What the category leaves of the roles' permissions, and adds to them. -/
def Inherits (ctx : ResolutionContext) (i : ℕ) : Prop :=
  Allowed ctx.categoryOverrides i ∨ Spared ctx.categoryOverrides i ∧ ctx.base.getLsbD i = true

/-- The roles and the overrides give the permission; no override takes `ADMIN` from a role. -/
def Gives (ctx : ResolutionContext) (i : ℕ) : Prop :=
  Allowed ctx.channelOverrides i ∨ Spared ctx.channelOverrides i ∧ ctx.Inherits i ∨
    i = 12 ∧ ctx.base.getLsbD i = true

end ResolutionContext

theorem gives_iff (hi : i < 64) :
    ctx.Gives i ↔ ctx.overridden.getLsbD i = true ∨ i = 12 ∧ ctx.base.getLsbD i = true := by
  simp only [ResolutionContext.Gives, ResolutionContext.Inherits, ResolutionContext.overridden,
    getLsbD_applyOverrides hi]
  tauto

theorem lt_of_permission (hi : allPermissions.getLsbD i = true) : i < 64 :=
  BitVec.lt_of_getLsbD hi

/-- Somebody has a permission as the owner, as an administrator, or as it is given. -/
theorem resolve_bit_iff (hi : allPermissions.getLsbD i = true) :
    (resolve ctx).getLsbD i = true ↔ ctx.isOwner = true ∨ ctx.Gives 12 ∨ ctx.Gives i := by
  have hadmin : ctx.Gives 12 ↔ has ctx.overridden admin = true ∨ has ctx.base admin = true := by
    rw [gives_iff (by decide), has_admin, has_admin]
    simp only [true_and]
  rw [resolve_eq]
  by_cases h : ctx.Administers
  · rw [if_pos h]
    simp only [hi, true_iff]
    rcases h with howner | hbase | hover
    · exact .inl howner
    · exact .inr (.inl (hadmin.mpr (.inr hbase)))
    · exact .inr (.inl (hadmin.mpr (.inl hover)))
  · rw [if_neg h]
    have hno : ¬ctx.Gives 12 := fun hgives => h (.inr ((hadmin.mp hgives).symm))
    have howner : ¬ctx.isOwner = true := fun howner => h (.inl howner)
    rw [or_iff_right howner, or_iff_right hno, gives_iff (lt_of_permission hi)]
    refine ⟨.inl, fun hgives => hgives.resolve_right ?_⟩
    rintro ⟨rfl, hbase⟩
    exact hno ((gives_iff (by decide)).mpr (.inr ⟨rfl, hbase⟩))

theorem base_bit_iff : ctx.base.getLsbD i = true ↔
    ctx.everyonePermissions.getLsbD i = true ∨
      ∃ w ∈ ctx.rolePermissions, w.getLsbD i = true :=
  getLsbD_foldl_or

/-- No layer of overrides denies the permission; `ADMIN` cannot be denied. -/
def ResolutionContext.Unopposed (ctx : ResolutionContext) (i : ℕ) : Prop :=
  i = 12 ∨ Spared ctx.categoryOverrides i ∧ Spared ctx.channelOverrides i

/-- Under the same overrides only roles give more, and only what is not denied. -/
theorem gives_gained {ctx' : ResolutionContext} {P : Prop} (h : ctx'.Gives i)
    (hchannel : ctx'.channelOverrides = ctx.channelOverrides)
    (hcategory : ctx'.categoryOverrides = ctx.categoryOverrides)
    (hbase : ctx'.base.getLsbD i = true → ctx.base.getLsbD i = true ∨ P) :
    ctx.Gives i ∨ P ∧ ctx.Unopposed i := by
  simp only [ResolutionContext.Gives, ResolutionContext.Inherits, ResolutionContext.Unopposed,
    hchannel, hcategory] at h ⊢
  tauto

/-! ## Overrides of roles -/

section Layers

variable {roleIds : List ℕ} {f f' : ℕ → Option Override} {id : ℕ} {o : Override}

theorem allowed_filterMap : Allowed (roleIds.filterMap f) i ↔
    ∃ r ∈ roleIds, ∃ o ∈ f r, o.allow.getLsbD i = true := by
  simp only [Allowed, List.mem_filterMap, Option.mem_def]
  exact ⟨fun ⟨o, ⟨r, hr, ho⟩, hbit⟩ => ⟨r, hr, o, ho, hbit⟩,
    fun ⟨r, hr, o, ho, hbit⟩ => ⟨o, ⟨r, hr, ho⟩, hbit⟩⟩

theorem spared_filterMap : Spared (roleIds.filterMap f) i ↔
    ∀ r ∈ roleIds, ∀ o ∈ f r, o.deny.getLsbD i = false := by
  simp only [Spared, List.mem_filterMap, Option.mem_def]
  exact ⟨fun h r hr o ho => h o ⟨r, hr, ho⟩, fun h o ⟨r, hr, ho⟩ => h r hr o ho⟩

theorem allowed_added {roleIds' : List ℕ} {P : Prop}
    (h : ∀ r, r ∈ roleIds' ↔ r ∈ roleIds ∨ P ∧ r = id) : Allowed (roleIds'.filterMap f) i ↔
      Allowed (roleIds.filterMap f) i ∨ P ∧ ∃ o ∈ f id, o.allow.getLsbD i = true := by
  simp only [allowed_filterMap, h, or_and_right, exists_or, and_assoc, exists_and_left,
    exists_eq_left]

theorem spared_added {roleIds' : List ℕ} {P : Prop}
    (h : ∀ r, r ∈ roleIds' ↔ r ∈ roleIds ∨ P ∧ r = id) : Spared (roleIds'.filterMap f) i ↔
      Spared (roleIds.filterMap f) i ∧ (P → ∀ o ∈ f id, o.deny.getLsbD i = false) := by
  simp only [spared_filterMap, h, or_imp, forall_and, and_imp]
  refine and_congr_right fun _ => ⟨fun h hP => h id hP rfl, ?_⟩
  rintro h r hP rfl
  exact h hP

theorem allowed_rewritten (h : Allowed (roleIds.filterMap (Function.update f id (some o))) i) :
    Allowed (roleIds.filterMap f) i ∨ id ∈ roleIds ∧ o.allow.getLsbD i = true := by
  rw [allowed_filterMap] at h ⊢
  obtain ⟨r, hr, o', ho, hbit⟩ := h
  by_cases hid : r = id
  · subst hid
    rw [Function.update_self] at ho
    obtain rfl := Option.mem_some_iff.mp ho
    exact .inr ⟨hr, hbit⟩
  · rw [Function.update_of_ne hid] at ho
    exact .inl ⟨r, hr, o', ho, hbit⟩

/-- What an override of one role no longer denies, if no other role is denied it. -/
theorem spared_rewritten (h : Spared (roleIds.filterMap (Function.update f id (some o))) i) :
    Spared (roleIds.filterMap f) i ∨
      id ∈ roleIds ∧ o.deny.getLsbD i = false ∧ (∃ o ∈ f id, o.deny.getLsbD i = true) ∧
        ∀ r ∈ roleIds, r ≠ id → ∀ o ∈ f r, o.deny.getLsbD i = false := by
  rw [spared_filterMap] at h ⊢
  have hothers : ∀ r ∈ roleIds, r ≠ id → ∀ o ∈ f r, o.deny.getLsbD i = false := by
    intro r hr hne o' ho
    exact h r hr o' (by rwa [Function.update_of_ne hne])
  by_cases hdenied : id ∈ roleIds ∧ ∃ o ∈ f id, o.deny.getLsbD i = true
  · obtain ⟨hid, hdenied⟩ := hdenied
    exact .inr ⟨hid, h id hid o (by simp), hdenied, hothers⟩
  · refine .inl fun r hr o' ho => ?_
    by_cases hid : r = id
    · subst hid
      exact Bool.eq_false_iff.mpr fun hbit => hdenied ⟨hr, o', ho, hbit⟩
    · exact hothers r hr hid o' ho

end Layers

end Permissions
