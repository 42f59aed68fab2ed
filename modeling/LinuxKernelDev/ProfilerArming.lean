import LinuxKernelDev.TransitionRuns
import Mathlib.Data.List.Basic

/-!
# Arming the profiler

The page fault profiler of `mp3.c` samples from a delayed work item.  Each of
`taskregister`, `deregister` and `workhandler` first runs a section under
`mp3mutex` and then, as a separate step, a work queue operation.  Sampling
stays armed as long as no cancellation overtakes the registration of a new
first task.
-/

namespace LinuxKernelDev.Profiler

open Transition

/-- Progress of the running `workhandler`, of which there is at most one. -/
inductive Handler where
  | idle
  | entered
  | sampled
  deriving DecidableEq, Repr

/-- The registered PIDs, the delayed work, and the numbers of calls between
their critical section and the following work queue operation. -/
structure State where
  mp3head : List Int32
  pending : Bool
  handler : Handler
  queueing : Nat
  cancelling : Nat
  deriving DecidableEq

/-- The steps of the module.  `scan` is the critical section of `workhandler`
and lists the PIDs for which `get_cpu_use` fails. -/
inductive Action where
  | register (pid : Int32)
  | queue
  | deregister (pid : Int32)
  | cancel
  | fire
  | scan (dead : List Int32)
  | rearm
  deriving DecidableEq

namespace State

/-- The state after `mp3_init`. -/
def initial : State := ⟨[], false, .idle, 0, 0⟩

/-- The critical section of `taskregister`. -/
def taskregister (s : State) (pid : Int32) : State :=
  if pid ≤ 0 ∨ pid ∈ s.mp3head then
    s
  else
    { s with
      mp3head := s.mp3head ++ [pid]
      queueing := if s.mp3head = [] then s.queueing + 1 else s.queueing }

/-- The critical section of `deregister`. -/
def deregister (s : State) (pid : Int32) : State :=
  if pid ∈ s.mp3head then
    { s with
      mp3head := s.mp3head.erase pid
      cancelling :=
        if s.mp3head.erase pid = [] then s.cancelling + 1 else s.cancelling }
  else
    s

/-- The critical section of `workhandler`: dead tasks leave the list, and the
work is armed again if a task is left. -/
def workhandler (s : State) (dead : List Int32) : State :=
  let alive := s.mp3head.filter fun pid => decide (pid ∉ dead)
  { s with
    mp3head := alive
    handler := if alive = [] then .idle else .sampled }

/-- One step.  `cancel_delayed_work_sync` returns only when no handler
runs. -/
def step (s : State) : Action → Option State
  | .register pid => some (s.taskregister pid)
  | .queue =>
      if 0 < s.queueing then
        some { s with queueing := s.queueing - 1, pending := true }
      else
        none
  | .deregister pid => some (s.deregister pid)
  | .cancel =>
      if 0 < s.cancelling ∧ s.handler = .idle then
        some { s with cancelling := s.cancelling - 1, pending := false }
      else
        none
  | .fire =>
      if s.pending = true ∧ s.handler = .idle then
        some { s with pending := false, handler := .entered }
      else
        none
  | .scan dead =>
      if s.handler = .entered then some (s.workhandler dead) else none
  | .rearm =>
      if s.handler = .sampled then
        some { s with handler := .idle, pending := true }
      else
        none

/-- No call is in progress. -/
def Quiet (s : State) : Prop :=
  s.handler = .idle ∧ s.queueing = 0 ∧ s.cancelling = 0

instance (s : State) : Decidable s.Quiet :=
  inferInstanceAs (Decidable (_ ∧ _))

end State

/-- A cancellation takes effect while the list is empty, or while a
registration has yet to queue the work. -/
def TimelyCancel (s : State) : Action → Prop
  | .cancel => s.mp3head = [] ∨ 0 < s.queueing
  | _ => True

instance (s : State) (action : Action) : Decidable (TimelyCancel s action) :=
  match action with
  | .cancel => inferInstanceAs (Decidable (_ ∨ _))
  | .register _ | .queue | .deregister _ | .fire | .scan _ | .rearm =>
      inferInstanceAs (Decidable True)

/-- With a task on the list, the work is pending or a step that makes it
pending is still to come. -/
def Armed (s : State) : Prop :=
  s.mp3head ≠ [] → s.pending = true ∨ 0 < s.queueing ∨ s.handler ≠ .idle

namespace Armed

variable {s next : State}

theorem taskregister (armed : Armed s) (pid : Int32) :
    Armed (s.taskregister pid) := by
  unfold State.taskregister
  by_cases ignored : pid ≤ 0 ∨ pid ∈ s.mp3head
  · rwa [if_pos ignored]
  · rw [if_neg ignored]
    intro _
    by_cases first : s.mp3head = []
    · right
      left
      simp [first]
    · simpa [first] using armed first

theorem deregister (armed : Armed s) (pid : Int32) :
    Armed (s.deregister pid) := by
  unfold State.deregister
  by_cases listed : pid ∈ s.mp3head
  · rw [if_pos listed]
    exact fun _ => armed (List.ne_nil_of_mem listed)
  · rwa [if_neg listed]

/-- Every step with timely cancellation keeps sampling armed. -/
theorem step (armed : Armed s) {action : Action}
    (timely : TimelyCancel s action) (taken : s.step action = some next) :
    Armed next := by
  cases action with
  | register pid =>
      obtain rfl := Option.some.inj taken
      exact armed.taskregister pid
  | queue =>
      simp only [State.step, Option.ite_none_right_eq_some,
        Option.some.injEq] at taken
      obtain ⟨-, rfl⟩ := taken
      exact fun _ => .inl rfl
  | deregister pid =>
      obtain rfl := Option.some.inj taken
      exact armed.deregister pid
  | cancel =>
      simp only [State.step, Option.ite_none_right_eq_some,
        Option.some.injEq] at taken
      obtain ⟨-, rfl⟩ := taken
      rcases timely with empty | queueing
      · exact fun nonempty => absurd empty nonempty
      · exact fun _ => .inr (.inl queueing)
  | fire =>
      simp only [State.step, Option.ite_none_right_eq_some,
        Option.some.injEq] at taken
      obtain ⟨-, rfl⟩ := taken
      exact fun _ => .inr (.inr nofun)
  | scan dead =>
      simp only [State.step, Option.ite_none_right_eq_some,
        Option.some.injEq] at taken
      obtain ⟨-, rfl⟩ := taken
      intro nonempty
      right
      right
      simp only [State.workhandler, ne_eq] at nonempty ⊢
      rw [if_neg nonempty]
      exact nofun
  | rearm =>
      simp only [State.step, Option.ite_none_right_eq_some,
        Option.some.injEq] at taken
      obtain ⟨-, rfl⟩ := taken
      exact fun _ => .inl rfl

end Armed

/-- If every cancellation is timely, the work is pending whenever a task is
registered and no call is in progress. -/
theorem pending_of_timelyCancels (actions : List Action) (s : State)
    (timely : Permits State.step TimelyCancel State.initial actions)
    (reached : run State.step State.initial actions = some s)
    (quiet : s.Quiet) (nonempty : s.mp3head ≠ []) : s.pending = true := by
  have armed : Armed s :=
    invariant_of_permits Armed (fun _ _ _ armed timely taken =>
      armed.step timely taken) (fun empty => absurd rfl empty) timely reached
  obtain ⟨idle, noQueueing, -⟩ := quiet
  rcases armed nonempty with pending | queueing | running
  · exact pending
  · omega
  · exact absurd idle running

theorem pending_after_restart :
    run State.step State.initial [.register 1, .queue, .deregister 1,
        .register 2, .cancel, .queue] = some ⟨[2], true, .idle, 0, 0⟩ ∧
      (⟨[2], true, .idle, 0, 0⟩ : State).pending = true :=
  ⟨by decide, pending_of_timelyCancels
    [.register 1, .queue, .deregister 1, .register 2, .cancel, .queue] _
    ⟨by decide, by decide, by decide, by decide, by decide, by decide,
      trivial⟩ (by decide) (by decide) (by decide)⟩

/-- A cancellation overtaken by the registration of a new first task leaves
that task unsampled. -/
theorem not_pending_after_overtaken_cancel :
    ∃ s, run State.step State.initial [.register 1, .queue, .deregister 1,
        .register 2, .queue, .cancel] = some s ∧
      s.Quiet ∧ s.mp3head = [2] ∧ s.pending = false :=
  ⟨⟨[2], false, .idle, 0, 0⟩, by decide⟩

end LinuxKernelDev.Profiler
