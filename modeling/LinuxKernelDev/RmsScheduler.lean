import LinuxKernelDev.TransitionRuns
import Mathlib.Logic.Function.Basic

/-!
# The rate-monotonic scheduler

A translation of the data structures and critical sections of `mp2.c`.  PCBs
live at addresses of the slab cache `mp2cache`; the list, `currtask` and the
timers refer to them by address.  Every function below that changes the state
is one section under `mp2mutex`, or the body of a timer callback.

An `unsigned long` is a natural number below `2 ^ 64` and arithmetic on it is
taken modulo `2 ^ 64`.  A Linux task is identified by its pid, which is how
`find_task_by_pid` and `current->pid` relate the two.
-/

namespace LinuxKernelDev.Rms

open Function

inductive RmsState where
  | sleeping
  | ready
  | running
  deriving DecidableEq, Repr

/-- `struct mp2pcb`, with the expiry time of its timer while that is
pending. -/
structure Pcb where
  pid : Int32
  compTime : Nat
  period : Nat
  nxtWakeUpTime : Nat
  rmsState : RmsState
  linuxTask : Int32
  timer : Option Nat
  deriving DecidableEq

/-- The global state of the module.  `unlinked` holds the PCBs that a
`deregister` has taken off the list but not yet freed. -/
structure Sched where
  pcb : Nat → Pcb
  allocated : List Nat
  mp2listhead : List Nat
  currtask : Option Nat
  unlinked : List Nat

/-- Conversion of a C `int` to `unsigned long`. -/
def unsignedLong (value : Int32) : Nat :=
  (value.toInt % 18446744073709551616).toNat

/-- `(comp_time * 1000) / period`. -/
def utilization (compTime period : Nat) : Nat :=
  compTime * 1000 % 18446744073709551616 / period

/-- A PCB as `taskregister` fills it in. -/
def Pcb.fresh (pid : Int32) (period compTime jiffies : Nat) : Pcb where
  pid := pid
  compTime := compTime
  period := period
  nxtWakeUpTime := jiffies
  rmsState := .sleeping
  linuxTask := pid
  timer := none

/-- A PCB after a yield: asleep until the start of its next period.  The timer
is armed for that time even if it has passed. -/
def Pcb.yielded (msecsToJiffies : Nat → Nat) (pcb : Pcb) : Pcb :=
  let wake := (pcb.nxtWakeUpTime + msecsToJiffies pcb.period) %
    18446744073709551616
  { pcb with rmsState := .sleeping, nxtWakeUpTime := wake, timer := some wake }

namespace Sched

/-- The state after `mp2_init`. -/
def initial : Sched where
  pcb _ := Pcb.fresh 0 0 0 0
  allocated := []
  mp2listhead := []
  currtask := none
  unlinked := []

def setPcb (s : Sched) (node : Nat) (pcb : Pcb) : Sched :=
  { s with pcb := update s.pcb node pcb }

/-- `atomic_set(&node->RMSstate, state)`. -/
def setState (s : Sched) (node : Nat) (state : RmsState) : Sched :=
  s.setPcb node { s.pcb node with rmsState := state }

/-- `kmem_cache_free`. -/
def free (s : Sched) (node : Nat) : Sched :=
  { s with allocated := s.allocated.erase node }

/-- The list walk of `taskregister`: adds up utilizations, and stops at a PCB
with the same pid. -/
def sumUtilization (pcb : Nat → Pcb) (pid : Int32) :
    Nat → List Nat → Option Nat
  | usum, [] => some usum
  | usum, temp :: rest =>
      let usum := (usum + utilization (pcb temp).compTime (pcb temp).period) %
        18446744073709551616
      if (pcb temp).pid = pid then none else sumUtilization pcb pid usum rest

/-- `taskregister`.  `curnode` is the result of the allocation.  Returns the
state and the result. -/
def taskregister (s : Sched) (curnode : Option Nat) (pid : Int32)
    (period compTime jiffies : Nat) : Sched × Option Nat :=
  match curnode with
  | none => (s, none)
  | some node =>
      let s := { s with allocated := node :: s.allocated }
      if period = 0 ∨ compTime = 0 then
        (s, none)
      else
        let s := s.setPcb node (Pcb.fresh pid period compTime jiffies)
        match sumUtilization s.pcb pid (utilization compTime period)
            s.mp2listhead with
        | none => (s.free node, none)
        | some usum =>
            if 693 < usum then
              (s.free node, none)
            else
              ({ s with mp2listhead := s.mp2listhead ++ [node] }, some node)

/-- The first PCB on the list with a given pid. -/
def lookup (s : Sched) (pid : Int32) : Option Nat :=
  s.mp2listhead.find? fun curr => decide ((s.pcb curr).pid = pid)

/-- `if (curr == currtask) currtask = NULL;`. -/
def clearCurrtask (s : Sched) (curr : Nat) : Sched :=
  { s with currtask := if s.currtask = some curr then none else s.currtask }

/-- The critical section of `deregister`.  Returns the state and `target`. -/
def deregister (s : Sched) (pid : Int32) : Sched × Option Nat :=
  match s.lookup pid with
  | none => (s, none)
  | some target =>
      ({ s.clearCurrtask target with
          mp2listhead := s.mp2listhead.erase target
          unlinked := target :: s.unlinked }, some target)

/-- `del_timer_sync(&target->timer)`. -/
def delTimer (s : Sched) (target : Nat) : Sched :=
  s.setPcb target { s.pcb target with timer := none }

/-- The end of `deregister` for an unlinked PCB: `kmem_cache_free`. -/
def release (s : Sched) (target : Nat) : Sched :=
  { s.free target with unlinked := s.unlinked.erase target }

/-- The critical section of `taskyield`, if the task is on the list. -/
def taskyield (msecsToJiffies : Nat → Nat) (s : Sched) (pid : Int32) :
    Option Sched :=
  (s.lookup pid).map fun curr =>
    (s.setPcb curr ((s.pcb curr).yielded msecsToJiffies)).clearCurrtask curr

/-- `timercb`, up to the wake-up of the dispatcher thread. -/
def timercb (s : Sched) (temp : Nat) : Sched :=
  s.setPcb temp { s.pcb temp with rmsState := .ready, timer := none }

/-- One iteration of the loop of `dispatcher` that selects `nexttask`. -/
def selectNext (s : Sched) (nexttask : Option Nat) (curr : Nat) : Option Nat :=
  if (s.pcb curr).rmsState ≠ .ready then
    nexttask
  else
    match nexttask with
    | none => some curr
    | some next =>
        if (s.pcb curr).period < (s.pcb next).period then some curr
        else some next

def nexttask (s : Sched) : Option Nat :=
  s.mp2listhead.foldl s.selectNext none

/-- What `dispatcher` still has to do after its critical section. -/
structure Switch where
  protaskptr : Option Int32
  demtaskptr : Option Int32
  deriving DecidableEq

/-- `currtask = next`, set to `RUNNING`. -/
def start (s : Sched) (next : Nat) : Sched :=
  { s.setState next .running with currtask := some next }

/-- The critical section of `dispatcher`. -/
def dispatcher (s : Sched) : Sched × Switch :=
  match s.currtask, s.nexttask with
  | none, none => (s, ⟨none, none⟩)
  | none, some next => (s.start next, ⟨some (s.pcb next).linuxTask, none⟩)
  | some _, none => (s, ⟨none, none⟩)
  | some curr, some next =>
      match (s.pcb curr).rmsState with
      | .sleeping => (s.start next, ⟨some (s.pcb next).linuxTask, none⟩)
      | .running =>
          if (s.pcb next).period < (s.pcb curr).period then
            ((s.setState curr .ready).start next,
              ⟨some (s.pcb next).linuxTask, some (s.pcb curr).linuxTask⟩)
          else
            (s, ⟨none, none⟩)
      | .ready => (s, ⟨none, none⟩)

end Sched

end LinuxKernelDev.Rms
