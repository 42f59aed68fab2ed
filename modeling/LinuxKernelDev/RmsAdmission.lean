import LinuxKernelDev.RmsStateInvariant
import Mathlib.Algebra.Order.BigOperators.Group.List
import Mathlib.Algebra.Order.Field.Rat
import Mathlib.Tactic.Linarith
import Mathlib.Tactic.NormNum
import Mathlib.Tactic.Ring

/-!
# Admission control

`taskregister` adds up utilizations in thousandths, each rounded down, and
converts the numbers of the user to `unsigned long` first.  The real bound is
kept when no rounding takes place and no period is negative; it is lost in
both other cases.
-/

namespace LinuxKernelDev.Rms

open Function Transition

/-- The `int` that was converted to an `unsigned long`. -/
def signedLong (value : Nat) : Int := Int.bmod value 18446744073709551616

namespace Pcb

/-- The period the user wrote. -/
def writtenPeriod (pcb : Pcb) : Int := signedLong pcb.period

/-- The computation time the user wrote. -/
def writtenCompTime (pcb : Pcb) : Int := signedLong pcb.compTime

/-- The rounded utilization of a PCB, in thousandths. -/
def thousandths (pcb : Pcb) : Nat := utilization pcb.compTime pcb.period

/-- Positive parameters whose utilization is a whole number of thousandths. -/
structure Whole (pcb : Pcb) : Prop where
  periodPos : 0 < pcb.period
  periodLt : pcb.period < 2147483648
  compTimePos : 0 < pcb.compTime
  compTimeLt : pcb.compTime < 2147483648
  divides : pcb.period ∣ 1000 * pcb.compTime

namespace Whole

variable {pcb : Pcb}

theorem writtenPeriod_eq (whole : Whole pcb) :
    pcb.writtenPeriod = pcb.period := by
  have upper := whole.periodLt
  unfold writtenPeriod signedLong
  exact Int.bmod_eq_of_le_mul_two (by omega) (by omega)

theorem writtenCompTime_eq (whole : Whole pcb) :
    pcb.writtenCompTime = pcb.compTime := by
  have upper := whole.compTimeLt
  unfold writtenCompTime signedLong
  exact Int.bmod_eq_of_le_mul_two (by omega) (by omega)

/-- A whole utilization is not rounded. -/
theorem div_eq (whole : Whole pcb) :
    (pcb.writtenCompTime : ℚ) / pcb.writtenPeriod =
      (pcb.thousandths : ℚ) / 1000 := by
  have upper := whole.compTimeLt
  obtain ⟨quotient, product⟩ := whole.divides
  have rounded : pcb.thousandths = quotient := by
    unfold thousandths utilization
    rw [Nat.mul_comm pcb.compTime, Nat.mod_eq_of_lt (by omega), product]
    exact Nat.mul_div_cancel_left _ whole.periodPos
  have nonzero : (pcb.period : ℚ) ≠ 0 := by
    exact_mod_cast whole.periodPos.ne'
  have exactProduct : (1000 : ℚ) * pcb.compTime = pcb.period * quotient := by
    exact_mod_cast product
  rw [whole.writtenPeriod_eq, whole.writtenCompTime_eq, rounded]
  push_cast
  rw [div_eq_div_iff nonzero (by norm_num)]
  linarith

end Whole

end Pcb

/-- The exact utilization demanded by the tasks on the list. -/
def Sched.demand (s : Sched) : ℚ :=
  (s.mp2listhead.map fun node =>
    ((s.pcb node).writtenCompTime : ℚ) / (s.pcb node).writtenPeriod).sum

/-- The sum of the rounded utilizations, as `taskregister` takes it. -/
def Sched.thousandths (s : Sched) : Nat :=
  (s.mp2listhead.map fun node => (s.pcb node).thousandths).sum

theorem sumUtilization_eq {pcb : Nat → Pcb} {pid : Int32} {nodes : List Nat}
    {start usum : Nat}
    (admitted : Sched.sumUtilization pcb pid start nodes = some usum)
    (bounded : start + (nodes.map fun node => (pcb node).thousandths).sum <
      18446744073709551616) :
    usum = start + (nodes.map fun node => (pcb node).thousandths).sum := by
  induction nodes generalizing start with
  | nil =>
      obtain rfl := Option.some.inj admitted
      simp
  | cons temp nodes ih =>
      simp only [List.map_cons, List.sum_cons] at bounded ⊢
      unfold Sched.sumUtilization at admitted
      simp only at admitted
      split_ifs at admitted
      rw [← Pcb.thousandths, Nat.mod_eq_of_lt (by omega)] at admitted
      rw [ih admitted (by omega), Nat.add_assoc]

/-- The tasks on the list have whole utilizations that add up to at most
693 thousandths. -/
structure Admitted (s : Sched) : Prop where
  whole : ∀ node ∈ s.mp2listhead, (s.pcb node).Whole
  total : s.thousandths ≤ 693

namespace Admitted

variable {s next : Sched}

theorem initial : Admitted Sched.initial := by
  constructor <;> simp [Sched.initial, Sched.thousandths]

/-- Taking tasks off the list and changing other fields of PCBs keeps the
bound. -/
theorem of_sublist (admitted : Admitted s)
    (sublist : next.mp2listhead.Sublist s.mp2listhead)
    (period : ∀ node ∈ next.mp2listhead,
      (next.pcb node).period = (s.pcb node).period)
    (compTime : ∀ node ∈ next.mp2listhead,
      (next.pcb node).compTime = (s.pcb node).compTime) : Admitted next := by
  constructor
  · intro node member
    have whole := admitted.whole node (sublist.subset member)
    constructor
    · rw [period node member]
      exact whole.periodPos
    · rw [period node member]
      exact whole.periodLt
    · rw [compTime node member]
      exact whole.compTimePos
    · rw [compTime node member]
      exact whole.compTimeLt
    · rw [period node member, compTime node member]
      exact whole.divides
  · have same : (next.mp2listhead.map fun node => (next.pcb node).thousandths) =
        next.mp2listhead.map fun node => (s.pcb node).thousandths := by
      apply List.map_congr_left
      intro node member
      unfold Pcb.thousandths
      rw [period node member, compTime node member]
    calc
      next.thousandths = (next.mp2listhead.map fun node =>
          (s.pcb node).thousandths).sum := congrArg List.sum same
      _ ≤ s.thousandths := (sublist.map _).sum_le_sum fun _ _ => Nat.zero_le _
      _ ≤ 693 := admitted.total

theorem demand_le (admitted : Admitted s) : s.demand ≤ 693 / 1000 := by
  have exactSum : s.demand = (s.thousandths : ℚ) / 1000 := by
    unfold Sched.demand Sched.thousandths
    rw [List.map_congr_left fun node member =>
      (admitted.whole node member).div_eq]
    induction s.mp2listhead with
    | nil => simp
    | cons node nodes ih =>
        simp only [List.map_cons, List.sum_cons, ih]
        push_cast
        ring
  have total : (s.thousandths : ℚ) ≤ 693 := by exact_mod_cast admitted.total
  rw [exactSum]
  linarith

end Admitted

section Conversion

variable {period compTime : Int32}

theorem unsignedLong_of_nonneg (nonneg : 0 ≤ period.toInt) :
    (unsignedLong period : Int) = period.toInt := by
  have upper := period.toInt_lt
  unfold unsignedLong
  omega

/-- A negative computation time gives a huge utilization, which is rejected
without wrapping. -/
theorem utilization_of_neg (positive : 0 < period.toInt)
    (negative : compTime.toInt < 0) :
    693 < utilization (unsignedLong compTime) (unsignedLong period) ∧
      utilization (unsignedLong compTime) (unsignedLong period) + 693 <
        18446744073709551616 := by
  have lower := compTime.le_toInt
  have upper := period.toInt_lt
  have periodEq := unsignedLong_of_nonneg positive.le
  have numerator : ((unsignedLong compTime * 1000 % 18446744073709551616 :
      Nat) : Int) = 18446744073709551616 + 1000 * compTime.toInt := by
    unfold unsignedLong
    omega
  unfold utilization
  generalize unsignedLong compTime * 1000 % 18446744073709551616 = product
    at numerator
  generalize unsignedLong period = divisor at periodEq
  have quotientLe := Nat.div_le_self product divisor
  have quotientGe : 694 ≤ product / divisor := by
    rw [Nat.le_div_iff_mul_le (by omega)]
    omega
  omega

theorem utilization_of_nonneg (nonneg : 0 ≤ compTime.toInt) :
    utilization (unsignedLong compTime) (unsignedLong period) + 693 <
      18446744073709551616 := by
  have upper := compTime.toInt_lt
  have compTimeEq := unsignedLong_of_nonneg nonneg
  have quotientLe := Nat.div_le_self (unsignedLong compTime * 1000)
    (unsignedLong period)
  unfold utilization
  rw [Nat.mod_eq_of_lt (by omega)]
  omega

theorem utilization_add_lt (positive : 0 < period.toInt) :
    utilization (unsignedLong compTime) (unsignedLong period) + 693 <
      18446744073709551616 := by
  rcases lt_or_ge compTime.toInt 0 with negative | nonnegative
  · exact (utilization_of_neg positive negative).2
  · exact utilization_of_nonneg nonnegative

/-- An admitted computation time is positive. -/
theorem compTime_pos (positive : 0 < period.toInt)
    (nonzero : unsignedLong compTime ≠ 0)
    (admitted : utilization (unsignedLong compTime) (unsignedLong period) ≤
      693) : 0 < compTime.toInt := by
  rcases lt_trichotomy compTime.toInt 0 with negative | zero | positive
  · have huge := (utilization_of_neg positive negative).1
    omega
  · have compTimeEq := unsignedLong_of_nonneg zero.ge
    omega
  · exact positive

end Conversion

/-- No negative period is registered, and the utilization of a task with
positive numbers is a whole number of thousandths. -/
def WholeRegistration (_ : Sched) : Event → Prop
  | .register _ _ period compTime _ =>
      0 ≤ period.toInt ∧ (0 < period.toInt → 0 < compTime.toInt →
        period.toInt ∣ 1000 * compTime.toInt)
  | _ => True

namespace Admitted

variable {s : Sched}

theorem taskregister (admitted : Admitted s) (invariant : Invariant s)
    {curnode : Option Nat} (fresh : s.Fresh curnode) (pid : Int32)
    {period compTime : Int32} (jiffies : Nat)
    (nonneg : 0 ≤ period.toInt)
    (divides : 0 < period.toInt → 0 < compTime.toInt →
      period.toInt ∣ 1000 * compTime.toInt) :
    Admitted (s.taskregister curnode pid (unsignedLong period)
      (unsignedLong compTime) jiffies).1 := by
  have unlisted : ∀ node ∈ curnode, ∀ other ∈ s.mp2listhead, other ≠ node := by
    rintro node allocated other member rfl
    exact fresh other allocated (invariant.listed other member)
  rcases s.taskregister_cases curnode pid (unsignedLong period)
    (unsignedLong compTime) jiffies with
      unchanged | ⟨node, -, leaked⟩ | ⟨node, allocated, rejected⟩ |
        ⟨node, allocated, usum, ⟨periodNe, compTimeNe⟩, summed, usumLe,
          registered⟩
  · rw [unchanged]
    exact admitted
  · rw [leaked]
    exact ⟨admitted.whole, admitted.total⟩
  · rw [rejected]
    refine admitted.of_sublist (List.Sublist.refl s.mp2listhead :)
      (fun other member => ?_) (fun other member => ?_)
    · simp [Sched.setPcb, unlisted node allocated other member]
    · simp [Sched.setPcb, unlisted node allocated other member]
  · have kept : ∀ other ∈ s.mp2listhead, update s.pcb node (Pcb.fresh pid
        (unsignedLong period) (unsignedLong compTime) jiffies) other =
          s.pcb other := fun other member =>
      update_of_ne (unlisted node allocated other member) _ _
    have sumEq : (s.mp2listhead.map fun other => (update s.pcb node (Pcb.fresh
        pid (unsignedLong period) (unsignedLong compTime) jiffies)
          other).thousandths).sum = s.thousandths :=
      congrArg List.sum (List.map_congr_left fun other member => by
        rw [kept other member])
    have total := admitted.total
    have periodEq := unsignedLong_of_nonneg nonneg
    have periodPos : 0 < period.toInt := by omega
    have noWrap := @utilization_add_lt period compTime periodPos
    have usumEq := sumUtilization_eq summed (by rw [sumEq]; omega)
    rw [sumEq] at usumEq
    have compTimePos := compTime_pos periodPos compTimeNe (by omega)
    have compTimeEq := unsignedLong_of_nonneg compTimePos.le
    have periodLt := period.toInt_lt
    have compTimeLt := compTime.toInt_lt
    rw [registered]
    constructor
    · intro other member
      rcases List.mem_append.mp member with old | new
      · simp only [Sched.setPcb, kept other old]
        exact admitted.whole other old
      · rw [List.mem_singleton.mp new]
        simp only [Sched.setPcb, update_self]
        have whole := divides periodPos compTimePos
        rw [← periodEq, ← compTimeEq] at whole
        exact ⟨by simp only [Pcb.fresh]; omega,
          by simp only [Pcb.fresh]; omega, by simp only [Pcb.fresh]; omega,
          by simp only [Pcb.fresh]; omega, by exact_mod_cast whole⟩
    · unfold Sched.thousandths
      simp only [Sched.setPcb, List.map_append, List.sum_append,
        List.map_singleton, List.sum_singleton, update_self, sumEq]
      unfold Pcb.thousandths
      simp only [Pcb.fresh]
      omega

theorem setPcb (admitted : Admitted s) {node : Nat} {pcb : Pcb}
    (period : pcb.period = (s.pcb node).period)
    (compTime : pcb.compTime = (s.pcb node).compTime) :
    Admitted (s.setPcb node pcb) := by
  refine admitted.of_sublist (List.Sublist.refl s.mp2listhead :)
    (fun other _ => ?_) (fun other _ => ?_)
  · by_cases same : other = node
    · simp [Sched.setPcb, same, period]
    · simp [Sched.setPcb, same]
  · by_cases same : other = node
    · simp [Sched.setPcb, same, compTime]
    · simp [Sched.setPcb, same]

theorem step (admitted : Admitted s) (invariant : Invariant s)
    {msecsToJiffies : Nat → Nat} {event : Event} {next : Sched}
    (whole : WholeRegistration s event)
    (taken : s.step msecsToJiffies event = some next) : Admitted next := by
  cases event with
  | register curnode pid period compTime jiffies =>
      simp only [Sched.step, Option.ite_none_right_eq_some,
        Option.some.injEq] at taken
      obtain ⟨fresh, rfl⟩ := taken
      exact admitted.taskregister invariant fresh pid jiffies whole.1 whole.2
  | deregister pid =>
      obtain rfl := Option.some.inj taken
      unfold Sched.deregister
      cases s.lookup pid with
      | none => exact admitted
      | some target =>
          exact admitted.of_sublist List.erase_sublist (fun _ _ => rfl)
            (fun _ _ => rfl)
  | cancel target =>
      simp only [Sched.step, Option.ite_none_right_eq_some,
        Option.some.injEq] at taken
      obtain ⟨-, rfl⟩ := taken
      exact admitted.setPcb rfl rfl
  | release target =>
      simp only [Sched.step, Option.ite_none_right_eq_some,
        Option.some.injEq] at taken
      obtain ⟨-, rfl⟩ := taken
      exact ⟨admitted.whole, admitted.total⟩
  | yield pid =>
      obtain rfl := Option.some.inj taken
      unfold Sched.taskyield
      cases s.lookup pid with
      | none => exact admitted
      | some curr =>
          have written : Admitted (s.setPcb curr
              ((s.pcb curr).yielded msecsToJiffies)) :=
            admitted.setPcb rfl rfl
          exact ⟨written.whole, written.total⟩
  | dispatch =>
      obtain rfl := Option.some.inj taken
      obtain ⟨listEq, -, -, states⟩ := s.dispatcher_frame
      refine admitted.of_sublist (listEq ▸ List.Sublist.refl _)
        (fun node _ => ?_) (fun node _ => ?_)
      · obtain ⟨state, pcbEq⟩ := states node
        rw [pcbEq]
      · obtain ⟨state, pcbEq⟩ := states node
        rw [pcbEq]
  | timer temp =>
      simp only [Sched.step, Option.ite_none_right_eq_some,
        Option.some.injEq] at taken
      obtain ⟨-, rfl⟩ := taken
      exact admitted.setPcb rfl rfl

end Admitted

/-- If every registration has a nonnegative period and a whole utilization,
all numbers on the list are positive and the exact demand is at most
`693 / 1000`. -/
theorem demand_of_wholeRegistrations (msecsToJiffies : Nat → Nat)
    (events : List Event) (s : Sched)
    (whole : Permits (Sched.step msecsToJiffies) WholeRegistration
      Sched.initial events)
    (reached : run (Sched.step msecsToJiffies) Sched.initial events = some s) :
    (∀ node ∈ s.mp2listhead, 0 < (s.pcb node).writtenPeriod ∧
      0 < (s.pcb node).writtenCompTime) ∧ s.demand ≤ 693 / 1000 := by
  have both : Invariant s ∧ Admitted s :=
    invariant_of_permits (fun s => Invariant s ∧ Admitted s)
      (fun _ _ _ kept whole taken =>
        ⟨kept.1.step taken, kept.2.step kept.1 whole taken⟩)
      ⟨Invariant.initial, Admitted.initial⟩ whole reached
  refine ⟨fun node member => ?_, both.2.demand_le⟩
  have parameters := both.2.whole node member
  rw [parameters.writtenPeriod_eq, parameters.writtenCompTime_eq]
  exact ⟨by exact_mod_cast parameters.periodPos,
    by exact_mod_cast parameters.compTimePos⟩

theorem demand_of_two_tasks :
    ∃ s, run (Sched.step id) Sched.initial
        [.register (some 0) 1 1000 300 0, .register (some 1) 2 50 10 0] =
        some s ∧
      s.mp2listhead = [0, 1] ∧ s.demand ≤ 693 / 1000 := by
  refine ⟨_, rfl, by decide, (demand_of_wholeRegistrations id
    [.register (some 0) 1 1000 300 0, .register (some 1) 2 50 10 0] _ ?_
    rfl).2⟩
  exact ⟨⟨by decide, fun _ _ => by decide⟩,
    ⟨by decide, fun _ _ => by decide⟩, trivial⟩

/-- `R,1,10000,6939` is admitted although it exceeds the bound, and so is
`R,1,-1,1` with its negative period. -/
theorem demand_exceeded :
    (∃ s, run (Sched.step id) Sched.initial
        [.register (some 0) 1 10000 6939 0] = some s ∧
      s.demand = 6939 / 10000 ∧ 693 / 1000 < s.demand) ∧
    ∃ s, run (Sched.step id) Sched.initial
        [.register (some 0) 1 (-1) 1 0] = some s ∧
      s.mp2listhead = [0] ∧ (s.pcb 0).writtenPeriod = -1 := by
  refine ⟨⟨_, rfl, ?_, ?_⟩, _, rfl, ?_, ?_⟩
  all_goals decide +kernel

end LinuxKernelDev.Rms
