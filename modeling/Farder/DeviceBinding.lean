import Farder.LogInvariant
import Farder.SampleLog

/-! # Device binding

The log keeps two indices of devices: the record of each device names its identity, and each
identity lists its devices. Authorization checks the certificate, but not whether the device
is already recorded for somebody else; the record is then overwritten and the old listing
stays. Bindings are permanent, and the indices agree, exactly in the runs where no device
is authorized a second time for another identity. -/
namespace DeviceBinding

open EventLog EventLog.LogState

variable {K : Crypto} {g : Genesis} {s t : LogState} {e : Event}
  {tr : List (Transition LogState Event)} {d : DeviceId} {pk key : PublicKey} {m : LogState}

def boundTo (s : LogState) (d : DeviceId) : Option PublicKey :=
  (s.devices.lookup d).map DeviceRecord.identity

/-- The event authorizes its own device for its author. -/
def binds (e : Event) : Bool :=
  match e.core.payload with
  | .deviceAuthorized _ => true
  | _ => false

/-- Once a device is bound, it stays bound to the same identity. -/
def Permanent (tr : List (Transition LogState Event)) : Prop :=
  tr.Pairwise fun x y =>
    binds x.event → boundTo y.post x.event.core.device = some x.event.core.author

instance (tr : List (Transition LogState Event)) : Decidable (Permanent tr) :=
  inferInstanceAs (Decidable (tr.Pairwise _))

def IndicesAgree (s : LogState) : Prop :=
  ∀ d pk, d ∈ s.devicesOf pk ↔ boundTo s d = some pk

def FreshBinding (x : Transition LogState Event) : Prop :=
  binds x.event → ∀ pk ∈ boundTo x.pre x.event.core.device, pk = x.event.core.author

instance (x : Transition LogState Event) : Decidable (FreshBinding x) :=
  inferInstanceAs (Decidable (_ → _))

/-! ## What one event does to the indices -/

theorem indices_cases (h : Effect K s e key m) :
    (∃ cert, e.core.payload = .deviceAuthorized cert ∧ m = s.authorizeDevice e cert key ∧
        (s.liveDevices e.core.author e.core.timestamp).card < maxLiveDevicesPerIdentity) ∨
      ¬binds e ∧ m.devices = s.devices ∧ m.devicesByIdentity = s.devicesByIdentity := by
  cases h with
  | deviceAuthorized cert hp hlive => exact .inl ⟨cert, hp, rfl, hlive⟩
  | _ => exact .inr ⟨by simp [binds, *], rfl, rfl⟩

theorem boundTo_step (h : Step K s e t) (d : DeviceId) :
    boundTo t d = if binds e ∧ d = e.core.device then some e.core.author else boundTo s d := by
  obtain ⟨key, m, -, heff, rfl⟩ := apply_cases h
  rcases indices_cases heff with ⟨cert, hp, rfl, -⟩ | ⟨hb, hdevices, -⟩
  · have hb : binds e := by simp [binds, hp]
    show ((s.devices.insert e.core.device _).lookup d).map DeviceRecord.identity = _
    by_cases hd : d = e.core.device <;> simp [hb, hd, boundTo]
  · have hkept : boundTo (m.recordAccepted K e) d = boundTo s d :=
      congrArg (fun devices => (devices.lookup d).map DeviceRecord.identity) hdevices
    simp [hb, hkept]

theorem mem_devicesOf_step (h : Step K s e t) :
    d ∈ t.devicesOf pk ↔
      d ∈ s.devicesOf pk ∨ binds e ∧ d = e.core.device ∧ pk = e.core.author := by
  obtain ⟨key, m, -, heff, rfl⟩ := apply_cases h
  rcases indices_cases heff with ⟨cert, hp, rfl, -⟩ | ⟨hb, -, hlists⟩
  · have hb : binds e := by simp [binds, hp]
    show d ∈ (s.authorizeDevice e cert key).devicesOf pk ↔ _
    rw [devicesOf_authorizeDevice]
    split_ifs with hpk <;> simp [hb, hpk, or_comm]
  · have hkept : (m.recordAccepted K e).devicesOf pk = s.devicesOf pk :=
      congrArg (fun lists => (lists.lookup pk).getD ∅) hlists
    simp [hb, hkept]

theorem bound_by (h : Run K g tr t) (hb : boundTo t d = some pk) :
    ∃ y ∈ tr, binds y.event ∧ d = y.event.core.device ∧ y.event.core.author = pk := by
  rcases h.persists (fun s => boundTo s d ≠ some pk) (by simp [boundTo, fromGenesis]) with
    hend | ⟨y, hy, hpre, hpost⟩
  · exact absurd hb hend
  · rw [boundTo_step (h.step_of_mem hy)] at hpost
    split_ifs at hpost with hbinds
    · exact ⟨y, hy, hbinds.1, hbinds.2, by simpa using hpost⟩
    · exact absurd hpre hpost

/-- In a run of fresh bindings every binding of the run is still in force at its end. -/
theorem bound_of_fresh (h : Execution (Step K) s tr t) (hfresh : ∀ x ∈ tr, FreshBinding x) :
    ∀ y ∈ tr, binds y.event → boundTo t y.event.core.device = some y.event.core.author := by
  induction h with
  | nil => simp
  | @snoc t u e tr _ hstep ih =>
    intro y hy hb
    rw [boundTo_step hstep]
    rcases List.mem_append.mp hy with hy | hy
    · have hy := ih (fun x hx => hfresh x (by simp [hx])) y hy hb
      split_ifs with hbind
      · have hnew := hfresh ⟨t, e, u⟩ (by simp) hbind.1 y.event.core.author (hbind.2 ▸ hy)
        rw [hnew]
      · exact hy
    · obtain rfl := List.mem_singleton.mp hy
      simp [hb]

theorem permanent_iff (h : Run K g tr t) : Permanent tr ↔ ∀ x ∈ tr, FreshBinding x := by
  generalize hs : fromGenesis K g = s at h
  induction h with
  | nil => simp [Permanent]
  | @snoc t u e tr htr hstep ih =>
    subst hs
    rw [Permanent, List.pairwise_append] at *
    simp only [List.pairwise_singleton, List.forall_mem_singleton, List.forall_mem_append,
      true_and]
    constructor
    · -- A last binding that is not fresh overwrites one made earlier in the run.
      rintro ⟨hperm, hlast⟩
      refine ⟨ih.mp hperm, fun hb pk hpk => ?_⟩
      obtain ⟨y, hy, hyb, hdev, rfl⟩ := bound_by htr hpk
      have hu := hlast y hy hyb
      rw [boundTo_step hstep, if_pos ⟨hb, hdev.symm⟩] at hu
      exact (Option.some.inj hu).symm
    · rintro ⟨hfresh, hlast⟩
      refine ⟨ih.mpr hfresh, fun y hy hyb => ?_⟩
      refine bound_of_fresh (htr.snoc hstep) ?_ y (by simp [hy]) hyb
      simpa [or_imp, forall_and] using ⟨hfresh, hlast⟩

theorem indicesAgree_step_iff (hs : IndicesAgree s) (h : Step K s e t) :
    IndicesAgree t ↔ FreshBinding ⟨s, e, t⟩ := by
  constructor
  · intro ht hb pk hpk
    have hmem : e.core.device ∈ t.devicesOf pk :=
      (mem_devicesOf_step h).mpr (.inl ((hs _ _).mpr hpk))
    have hbound := (ht _ _).mp hmem
    rw [boundTo_step h, if_pos ⟨hb, rfl⟩] at hbound
    exact (Option.some.inj hbound).symm
  · intro hfresh d pk
    rw [mem_devicesOf_step h, boundTo_step h, hs]
    split_ifs with hb
    · obtain ⟨hb, rfl⟩ := hb
      have hown : boundTo s e.core.device = some pk → pk = e.core.author := hfresh hb pk
      simp only [hb, true_and, Option.some.injEq, eq_comm (a := pk)] at hown ⊢
      tauto
    · simp only [← and_assoc, hb, false_and, or_false]

theorem indicesAgree_genesis : IndicesAgree (fromGenesis K g) := by
  simp [IndicesAgree, boundTo, devicesOf, fromGenesis]

/-- In every run, bindings are permanent exactly when no device is authorized for a second
identity, and just then the two indices agree in all states of the run. -/
theorem binding_permanent_iff (h : Run K g tr t) :
    (Permanent tr ↔ ∀ x ∈ tr, FreshBinding x) ∧
      ((∀ x ∈ tr, IndicesAgree x.post) ↔ ∀ x ∈ tr, FreshBinding x) :=
  ⟨permanent_iff h, h.forall_post_iff IndicesAgree FreshBinding (I := fun _ => True) trivial
    indicesAgree_genesis (fun _ _ _ _ _ => trivial) fun _ _ _ hs hstep =>
      indicesAgree_step_iff hs hstep⟩

open SampleLog

theorem binding_permanent_twoMembers :
    Permanent (accepted crypto genesis (signed twoMembers)) ∧
      ∀ x ∈ accepted crypto genesis (signed twoMembers), IndicesAgree x.post := by
  have hfresh : ∀ x ∈ accepted crypto genesis (signed twoMembers), FreshBinding x := by
    decide +kernel
  exact ⟨(binding_permanent_iff (run_accepted _)).1.mpr hfresh,
    (binding_permanent_iff (run_accepted _)).2.mpr hfresh⟩

/-- Alice's device, certified a second time by Bob. -/
def sharedDevice : List Entry :=
  [⟨alice, a0, 1, cert alice a0 none⟩, ⟨bob, a0, 1, cert bob a0 none⟩]

/-- Both authorizations are accepted: the device is then recorded for Bob, while Alice's
listing keeps it. -/
theorem binding_overwritten :
    Run crypto genesis (accepted crypto genesis (signed sharedDevice)) (stateOf sharedDevice) ∧
      (accepted crypto genesis (signed sharedDevice)).length = 2 ∧
      ¬Permanent (accepted crypto genesis (signed sharedDevice)) ∧
      ¬IndicesAgree (stateOf sharedDevice) := by
  refine ⟨run_accepted _, by decide +kernel, by decide +kernel, fun h => ?_⟩
  have hlisted : device a0 ∈ (stateOf sharedDevice).devicesOf (key alice) := by decide +kernel
  have hbound : boundTo (stateOf sharedDevice) (device a0) = some (key bob) := by decide +kernel
  exact absurd (hbound.symm.trans ((h _ _).mp hlisted)) (by decide +kernel)

end DeviceBinding
