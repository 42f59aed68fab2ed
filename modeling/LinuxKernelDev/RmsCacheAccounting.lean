import LinuxKernelDev.RmsStateInvariant
import Mathlib.Data.List.Count

/-!
# The objects of the PCB cache

Every PCB that is allocated from `mp2cache` and not yet freed is on the list,
or has been unlinked by a `deregister` that is about to free it, or is lost.
A PCB is lost when `taskregister` returns because the period or the
computation time is zero: it has been allocated by then, and this is the only
exit that does not free it.  Since `cleanuplist` frees what is on the list, the
lost PCBs are still live when the cache is destroyed.
-/

namespace LinuxKernelDev.Rms

open Function Transition

/-- A call of `taskregister` with any arguments, or an event of the state
machine. -/
inductive Operation where
  | taskregister (curnode : Option Nat) (pid : Int32)
      (period compTime jiffies : Nat)
  | event (event : Event)
  deriving DecidableEq

namespace Sched

def operate (msecsToJiffies : Nat → Nat) (s : Sched) :
    Operation → Option Sched
  | .taskregister curnode pid period compTime jiffies =>
      if s.Fresh curnode then
        some (s.taskregister curnode pid period compTime jiffies).1
      else
        none
  | .event event => s.step msecsToJiffies event

/-- One turn of the loop of `cleanuplist`. -/
def cleanup (s : Sched) (cur : Nat) : Sched :=
  ({ s with mp2listhead := s.mp2listhead.erase cur }.delTimer cur).free cur

def cleanuplist (s : Sched) : Sched :=
  s.mp2listhead.foldl cleanup s

/-- A `taskregister` that returns `NULL` leaves the list, `currtask` and all
PCBs other than the one it has allocated as they are. -/
def FailsCleanly (s : Sched) : Prop :=
  ∀ (curnode : Option Nat) (pid : Int32) (period compTime jiffies : Nat),
    (s.taskregister curnode pid period compTime jiffies).2 = none →
      (s.taskregister curnode pid period compTime jiffies).1.mp2listhead =
          s.mp2listhead ∧
        (s.taskregister curnode pid period compTime jiffies).1.currtask =
          s.currtask ∧
        ∀ node, curnode ≠ some node →
          (s.taskregister curnode pid period compTime jiffies).1.pcb node =
              s.pcb node ∧
            (node ∈ (s.taskregister curnode pid period compTime
              jiffies).1.allocated ↔ node ∈ s.allocated)

theorem failsCleanly (s : Sched) : s.FailsCleanly := by
  intro curnode pid period compTime jiffies failed
  rcases s.taskregister_outcome curnode pid period compTime jiffies with
    ⟨-, result⟩ | ⟨node, rfl, -, result⟩ | ⟨node, rfl, -, result⟩ |
      ⟨node, rfl, usum, -, -, -, result⟩ <;>
    rw [result] at failed ⊢
  · exact ⟨rfl, rfl, fun node _ => ⟨rfl, Iff.rfl⟩⟩
  · refine ⟨rfl, rfl, fun other different => ⟨rfl, ?_⟩⟩
    have notNode : other ≠ node := fun same => different (by rw [same])
    rw [List.mem_cons, or_iff_right notNode]
  · refine ⟨rfl, rfl, fun other different => ⟨?_, Iff.rfl⟩⟩
    have notNode : other ≠ node := fun same => different (by rw [same])
    exact update_of_ne notNode _ _
  · cases failed

end Sched

/-- The PCB that a call of `taskregister` allocates and forgets. -/
def forgotten (curnode : Option Nat) (period compTime : Nat) : List Nat :=
  if period = 0 ∨ compTime = 0 then curnode.toList else []

namespace Operation

/-- The PCBs that are lost by an operation. -/
def lost : Operation → List Nat
  | .taskregister curnode _ period compTime _ =>
      forgotten curnode period compTime
  | .event (.register curnode _ period compTime _) =>
      forgotten curnode (unsignedLong period) (unsignedLong compTime)
  | .event _ => []

/-- A `taskregister` whose allocation succeeds and whose period or computation
time is zero. -/
def Leaks : Operation → Prop
  | .taskregister curnode _ period compTime _ =>
      curnode.isSome = true ∧ (period = 0 ∨ compTime = 0)
  | .event (.register curnode _ period compTime _) =>
      curnode.isSome = true ∧
        (unsignedLong period = 0 ∨ unsignedLong compTime = 0)
  | .event _ => False

end Operation

theorem forgotten_eq_nil_iff {curnode : Option Nat} {period compTime : Nat} :
    forgotten curnode period compTime = [] ↔
      ¬(curnode.isSome = true ∧ (period = 0 ∨ compTime = 0)) := by
  unfold forgotten
  cases curnode <;> simp

theorem Operation.lost_eq_nil_iff {operation : Operation} :
    operation.lost = [] ↔ ¬operation.Leaks := by
  cases operation with
  | taskregister => exact forgotten_eq_nil_iff
  | event event =>
      cases event with
      | register => exact forgotten_eq_nil_iff
      | _ => exact iff_of_true rfl id

/-- Every PCB that is allocated is on the list, unlinked or lost. -/
def Accounted (s : Sched) (lost : List Nat) : Prop :=
  ∀ node, s.allocated.count node =
    s.mp2listhead.count node + s.unlinked.count node + lost.count node

namespace Accounted

variable {s : Sched} {lost : List Nat}

theorem initial : Accounted Sched.initial [] := fun _ => rfl

/-- Only the three lists matter. -/
theorem of_frame {next : Sched} (accounted : Accounted s lost)
    (allocated : next.allocated = s.allocated)
    (listed : next.mp2listhead = s.mp2listhead)
    (unlinked : next.unlinked = s.unlinked) : Accounted next lost := by
  intro node
  rw [allocated, listed, unlinked]
  exact accounted node

theorem taskregister (accounted : Accounted s lost) (curnode : Option Nat)
    (pid : Int32) (period compTime jiffies : Nat) :
    Accounted (s.taskregister curnode pid period compTime jiffies).1
      (lost ++ forgotten curnode period compTime) := by
  intro other
  have before := accounted other
  rcases s.taskregister_outcome curnode pid period compTime jiffies with
    ⟨rfl, result⟩ | ⟨node, rfl, zero, result⟩ | ⟨node, rfl, nonzero, result⟩ |
      ⟨node, rfl, usum, nonzero, -, -, result⟩ <;>
    rw [result]
  · simpa [forgotten] using before
  · simp only [forgotten, if_pos zero, Option.toList_some, List.count_append,
      List.count_cons, List.count_nil]
    omega
  · simpa [forgotten, nonzero, Sched.setPcb] using before
  · simp only [forgotten, nonzero, or_self, if_false, List.append_nil,
      Sched.setPcb, List.count_append, List.count_cons, List.count_nil]
    omega

/-- An unlinked PCB is moved from one list to the other. -/
theorem deregister (accounted : Accounted s lost) (pid : Int32) :
    Accounted (s.deregister pid).1 lost := by
  unfold Sched.deregister
  cases found : s.lookup pid with
  | none => exact accounted
  | some target =>
      intro node
      have before := accounted node
      have listed := List.count_pos_iff.mpr (Sched.mem_of_lookup found)
      simp only [Sched.clearCurrtask, List.count_erase, List.count_cons,
        beq_iff_eq]
      split_ifs with same
      · subst same
        omega
      · omega

theorem release (accounted : Accounted s lost) {target : Nat}
    (unlinked : target ∈ s.unlinked) : Accounted (s.release target) lost := by
  intro node
  have before := accounted node
  have counted := List.count_pos_iff.mpr unlinked
  simp only [Sched.release, Sched.free, List.count_erase, beq_iff_eq]
  split_ifs with same
  · subst same
    omega
  · omega

theorem step (accounted : Accounted s lost) {msecsToJiffies : Nat → Nat}
    {event : Event} {next : Sched}
    (taken : s.step msecsToJiffies event = some next) :
    Accounted next (lost ++ (Operation.event event).lost) := by
  have kept : ∀ {t : Sched}, Accounted t lost → Accounted t (lost ++ []) :=
    fun same => (List.append_nil lost).symm ▸ same
  cases event with
  | register curnode pid period compTime jiffies =>
      simp only [Sched.step, Option.ite_none_right_eq_some,
        Option.some.injEq] at taken
      obtain ⟨-, rfl⟩ := taken
      exact accounted.taskregister curnode pid _ _ jiffies
  | deregister pid =>
      obtain rfl := Option.some.inj taken
      exact kept (accounted.deregister pid)
  | cancel target =>
      simp only [Sched.step, Option.ite_none_right_eq_some,
        Option.some.injEq] at taken
      obtain ⟨-, rfl⟩ := taken
      exact kept (accounted.of_frame rfl rfl rfl)
  | release target =>
      simp only [Sched.step, Option.ite_none_right_eq_some,
        Option.some.injEq] at taken
      obtain ⟨unlinked, rfl⟩ := taken
      exact kept (accounted.release unlinked)
  | yield pid =>
      obtain rfl := Option.some.inj taken
      unfold Sched.taskyield
      cases s.lookup pid with
      | none => exact kept accounted
      | some curr => exact kept (accounted.of_frame rfl rfl rfl)
  | dispatch =>
      obtain rfl := Option.some.inj taken
      obtain ⟨listed, allocated, unlinked, -⟩ := s.dispatcher_frame
      exact kept (accounted.of_frame allocated listed unlinked)
  | timer temp =>
      simp only [Sched.step, Option.ite_none_right_eq_some,
        Option.some.injEq] at taken
      obtain ⟨-, rfl⟩ := taken
      exact kept (accounted.of_frame rfl rfl rfl)

theorem operate (accounted : Accounted s lost) {msecsToJiffies : Nat → Nat}
    {operation : Operation} {next : Sched}
    (taken : s.operate msecsToJiffies operation = some next) :
    Accounted next (lost ++ operation.lost) := by
  cases operation with
  | taskregister curnode pid period compTime jiffies =>
      simp only [Sched.operate, Option.ite_none_right_eq_some,
        Option.some.injEq] at taken
      obtain ⟨-, rfl⟩ := taken
      exact accounted.taskregister curnode pid period compTime jiffies
  | event event => exact accounted.step taken

theorem of_reached {msecsToJiffies : Nat → Nat} {operations : List Operation}
    (reached : run (Sched.operate msecsToJiffies) Sched.initial operations =
      some s) : Accounted s (operations.flatMap Operation.lost) :=
  history_of_run Accounted Operation.lost
    (fun _ _ _ _ accounted taken => accounted.operate taken) initial reached

end Accounted

/-- The loop of `cleanuplist` frees the PCBs it comes to. -/
theorem foldl_cleanup_allocated (s : Sched) (nodes : List Nat) :
    (nodes.foldl Sched.cleanup s).allocated = s.allocated.diff nodes := by
  induction nodes generalizing s with
  | nil => rfl
  | cons node nodes ih =>
      rw [List.foldl_cons, ih, List.diff_cons]
      rfl

/-- With no `deregister` in progress, `cleanuplist` leaves the lost PCBs. -/
theorem Accounted.count_cleanuplist {s : Sched} {lost : List Nat}
    (accounted : Accounted s lost) (idle : s.unlinked = []) (node : Nat) :
    s.cleanuplist.allocated.count node = lost.count node := by
  have before := accounted node
  rw [idle, List.count_nil] at before
  rw [Sched.cleanuplist, foldl_cleanup_allocated, List.count_diff]
  omega

/-- After any operations, with no `deregister` in progress, the allocated PCBs
are those on the list, and none is left by `cleanuplist`, exactly if no
`taskregister` whose allocation succeeded was called with a zero. -/
theorem cacheAccounted_iff (msecsToJiffies : Nat → Nat)
    (operations : List Operation) (s : Sched)
    (reached : run (Sched.operate msecsToJiffies) Sched.initial operations =
      some s) (idle : s.unlinked = []) :
    (s.allocated.Perm s.mp2listhead ∧ (∀ t : Sched, t.FailsCleanly) ∧
        s.cleanuplist.allocated = []) ↔
      ∀ operation ∈ operations, ¬operation.Leaks := by
  have accounted := Accounted.of_reached reached
  have noneLost : operations.flatMap Operation.lost = [] ↔
      ∀ operation ∈ operations, ¬operation.Leaks := by
    simp only [List.flatMap_eq_nil_iff, Operation.lost_eq_nil_iff]
  rw [← noneLost]
  constructor
  · rintro ⟨-, -, empty⟩
    rw [List.eq_nil_iff_forall_not_mem]
    intro node
    rw [← List.count_eq_zero, ← accounted.count_cleanuplist idle, empty,
      List.count_nil]
  · intro nothing
    refine ⟨List.perm_iff_count.mpr fun node => ?_, Sched.failsCleanly, ?_⟩
    · have counted := accounted node
      rwa [nothing, idle, List.count_nil, Nat.add_zero] at counted
    · rw [List.eq_nil_iff_forall_not_mem]
      intro node
      rw [← List.count_eq_zero, accounted.count_cleanuplist idle, nothing,
        List.count_nil]

/-- A registration, a duplicate that is rejected, a registration without
memory, and a complete deregistration. -/
def rejections : List Operation :=
  [.taskregister (some 0) 10 100 20 0, .taskregister (some 1) 10 50 10 0,
    .taskregister none 11 50 10 0, .taskregister (some 1) 11 50 10 0,
    .event (.deregister 10), .event (.cancel 0), .event (.release 0)]

theorem cacheAccounted_rejections :
    ∃ s, run (Sched.operate id) Sched.initial rejections = some s ∧
      s.mp2listhead = [1] ∧ s.allocated.Perm s.mp2listhead ∧
        s.cleanuplist.allocated = [] := by
  refine ⟨_, rfl, by decide, ?_⟩
  have accounted := (cacheAccounted_iff id rejections _ rfl (by decide)).mpr
    (by simp [rejections, Operation.Leaks])
  exact ⟨accounted.1, accounted.2.2⟩

/-- The PCB of a task with period zero stays allocated. -/
theorem leaked_zeroPeriod :
    ∃ s, run (Sched.operate id) Sched.initial
        [.taskregister (some 0) 10 0 20 0] = some s ∧
      s.unlinked = [] ∧ ¬s.allocated.Perm s.mp2listhead ∧
      s.cleanuplist.allocated = [0] :=
  ⟨_, rfl, rfl, by decide, rfl⟩

end LinuxKernelDev.Rms
