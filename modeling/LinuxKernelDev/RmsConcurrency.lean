import LinuxKernelDev.RmsStateInvariant

/-!
# Concurrent execution of the scheduler

The functions of `mp2.c` run in parallel: the dispatcher thread, timer
callbacks, and calls of `taskregister`, `deregister` and `taskyield` by user
processes.  Here each of them is split at its lock boundaries and around every
operation on the state of another task.  `set_current_state` followed by
`schedule` blocks only if no wake-up arrived in between, and
`wake_up_process` changes nothing about a task that has not set its state.
-/

namespace LinuxKernelDev.Rms

open Function Transition Sched

/-- Progress of the dispatcher thread in `threadfunc`.  The constructors say
what comes next: the critical section of `dispatcher`, `promote_task`,
`demote_task`, `set_current_state` or `schedule`. -/
inductive Thread where
  | start
  | promoting (switch : Switch)
  | demoting (demtaskptr : Option Int32)
  | returned
  | waiting (interruptible : Bool)
  | blocked
  deriving DecidableEq

/-- Progress of a user process in a call of the module.  The first four
constructors after `idle` belong to `deregister`, the others to `taskyield`. -/
inductive Call where
  | idle
  | unlinked (target : Nat)
  | demoted (target : Nat)
  | cancelled (target : Nat)
  | freed
  | yielded
  | notified
  | waiting (uninterruptible : Bool)
  | blocked
  deriving DecidableEq

/-- The module together with the tasks that execute it.  `callbacks` holds the
PCBs whose timer callback has yet to wake the dispatcher thread, and `fifo` the
tasks at `SCHED_FIFO`. -/
structure System where
  sched : Sched
  jiffies : Nat
  thread : Thread
  calls : Int32 → Call
  callbacks : List Nat
  fifo : Int32 → Bool

inductive Action where
  | tick (ticks : Nat)
  | register (curnode : Option Nat) (pid period compTime : Int32)
  | unlink (caller pid : Int32) (target : Nat)
  | demoteTarget (caller : Int32) (target : Nat)
  | cancelTimer (caller : Int32) (target : Nat)
  | freeTarget (caller : Int32) (target : Nat)
  | wakeAfterFree (caller : Int32)
  | yieldCritical (task : Int32)
  | yieldWake (task : Int32)
  | yieldSetState (task : Int32)
  | yieldSchedule (task : Int32) (uninterruptible : Bool)
  | timerFire (temp : Nat)
  | timerWake (temp : Nat)
  | dispatch
  | promote (switch : Switch)
  | demote (demtaskptr : Option Int32)
  | threadSetState
  | threadSchedule (interruptible : Bool)
  deriving DecidableEq

/-- `wake_up_process` on the dispatcher thread. -/
def Thread.wake : Thread → Thread
  | .waiting _ => .waiting false
  | .blocked => .start
  | thread => thread

/-- `wake_up_process` on a task in a call of the module. -/
def Call.wake : Call → Call
  | .waiting _ => .waiting false
  | .blocked => .idle
  | call => call

/-- The PCB that a `deregister` in progress has to free. -/
def Call.target : Call → Option Nat
  | .unlinked target | .demoted target | .cancelled target => some target
  | _ => none

@[simp]
theorem Call.target_wake (call : Call) : call.wake.target = call.target := by
  cases call <;> rfl

namespace System

/-- The system after `mp2_init`, at any time. -/
def initial (jiffies : Nat) : System where
  sched := Sched.initial
  jiffies := jiffies
  thread := .start
  calls _ := .idle
  callbacks := []
  fifo _ := false

def setCall (s : System) (task : Int32) (call : Call) : System :=
  { s with calls := update s.calls task call }

def wakethread (s : System) : System := { s with thread := s.thread.wake }

/-- `promote_task`. -/
def promoteTask (s : System) (intask : Option Int32) : System :=
  match intask with
  | none => s
  | some task =>
      { s.setCall task (s.calls task).wake with
        fifo := update s.fifo task true }

/-- `demote_task`. -/
def demoteTask (s : System) (intask : Option Int32) : System :=
  match intask with
  | none => s
  | some task => { s with fifo := update s.fifo task false }

/-- `jiffies` has reached an expiry time, in the sense of `time_after_eq`. -/
def Expired (s : System) (expires : Nat) : Prop :=
  (s.jiffies + 18446744073709551616 - expires) % 18446744073709551616 <
    9223372036854775808

instance (s : System) (expires : Nat) : Decidable (s.Expired expires) :=
  inferInstanceAs (Decidable (_ < _))

/-- The states in which an action can be taken.  `del_timer_sync` waits for a
running callback of the timer. -/
def Enabled (s : System) : Action → Prop
  | .tick _ => True
  | .register curnode _ _ _ => s.sched.Fresh curnode
  | .unlink caller pid target =>
      s.calls caller = .idle ∧ s.sched.lookup pid = some target
  | .demoteTarget caller target => s.calls caller = .unlinked target
  | .cancelTimer caller target =>
      s.calls caller = .demoted target ∧ target ∉ s.callbacks
  | .freeTarget caller target => s.calls caller = .cancelled target
  | .wakeAfterFree caller => s.calls caller = .freed
  | .yieldCritical task =>
      s.calls task = .idle ∧ (s.sched.lookup task).isSome = true
  | .yieldWake task => s.calls task = .yielded
  | .yieldSetState task => s.calls task = .notified
  | .yieldSchedule task uninterruptible =>
      s.calls task = .waiting uninterruptible
  | .timerFire temp =>
      (∃ expires ∈ (s.sched.pcb temp).timer, s.Expired expires) ∧
        temp ∉ s.callbacks
  | .timerWake temp => temp ∈ s.callbacks
  | .dispatch => s.thread = .start
  | .promote switch => s.thread = .promoting switch
  | .demote demtaskptr => s.thread = .demoting demtaskptr
  | .threadSetState => s.thread = .returned
  | .threadSchedule interruptible => s.thread = .waiting interruptible

instance (s : System) (action : Action) : Decidable (s.Enabled action) :=
  match action with
  | .tick _ => inferInstanceAs (Decidable True)
  | .register curnode _ _ _ =>
      inferInstanceAs (Decidable (s.sched.Fresh curnode))
  | .unlink _ _ _ | .cancelTimer _ _ | .yieldCritical _ | .timerFire _ =>
      inferInstanceAs (Decidable (_ ∧ _))
  | .demoteTarget _ _ | .freeTarget _ _ | .wakeAfterFree _ | .yieldWake _
  | .yieldSetState _ | .yieldSchedule _ _ =>
      inferInstanceAs (Decidable ((_ : Call) = _))
  | .timerWake temp => inferInstanceAs (Decidable (temp ∈ s.callbacks))
  | .dispatch | .promote _ | .demote _ | .threadSetState
  | .threadSchedule _ => inferInstanceAs (Decidable (s.thread = _))

/-- The effect of an enabled action. -/
def apply (msecsToJiffies : Nat → Nat) (s : System) : Action → System
  | .tick ticks =>
      { s with jiffies := (s.jiffies + ticks) % 18446744073709551616 }
  | .register curnode pid period compTime =>
      { s with sched := (s.sched.taskregister curnode pid
          (unsignedLong period) (unsignedLong compTime) s.jiffies).1 }
  | .unlink caller pid target =>
      { s.setCall caller (.unlinked target) with
        sched := (s.sched.deregister pid).1 }
  | .demoteTarget caller target =>
      (s.demoteTask (some (s.sched.pcb target).linuxTask)).setCall caller
        (.demoted target)
  | .cancelTimer caller target =>
      { s.setCall caller (.cancelled target) with
        sched := s.sched.delTimer target }
  | .freeTarget caller target =>
      { s.setCall caller .freed with sched := s.sched.release target }
  | .wakeAfterFree caller =>
      if s.sched.currtask = none then (s.setCall caller .idle).wakethread
      else s.setCall caller .idle
  | .yieldCritical task =>
      { s.setCall task .yielded with
        sched := (s.sched.taskyield msecsToJiffies task).getD s.sched }
  | .yieldWake task => (s.setCall task .notified).wakethread
  | .yieldSetState task => s.setCall task (.waiting true)
  | .yieldSchedule task uninterruptible =>
      s.setCall task (if uninterruptible then .blocked else .idle)
  | .timerFire temp =>
      { s with
        sched := s.sched.timercb temp
        callbacks := temp :: s.callbacks }
  | .timerWake temp =>
      { s.wakethread with callbacks := s.callbacks.erase temp }
  | .dispatch =>
      { s with
        sched := s.sched.dispatcher.1
        thread := .promoting s.sched.dispatcher.2 }
  | .promote switch =>
      { s.promoteTask switch.protaskptr with
        thread := .demoting switch.demtaskptr }
  | .demote demtaskptr =>
      { s.demoteTask demtaskptr with thread := .returned }
  | .threadSetState => { s with thread := .waiting true }
  | .threadSchedule interruptible =>
      { s with thread := if interruptible then .blocked else .start }

def step (msecsToJiffies : Nat → Nat) (s : System) (action : Action) :
    Option System :=
  if s.Enabled action then some (s.apply msecsToJiffies action) else none

theorem step_eq_some_iff {msecsToJiffies : Nat → Nat} {s next : System}
    {action : Action} :
    s.step msecsToJiffies action = some next ↔
      s.Enabled action ∧ s.apply msecsToJiffies action = next := by
  unfold step
  rw [Option.ite_none_right_eq_some, Option.some.injEq]

section Frame

variable (s : System)

@[simp]
theorem promoteTask_sched (intask : Option Int32) :
    (s.promoteTask intask).sched = s.sched := by
  cases intask <;> rfl

@[simp]
theorem promoteTask_callbacks (intask : Option Int32) :
    (s.promoteTask intask).callbacks = s.callbacks := by
  cases intask <;> rfl

theorem promoteTask_calls (intask : Option Int32) (task : Int32) :
    (s.promoteTask intask).calls task =
      if intask = some task then (s.calls task).wake else s.calls task := by
  cases intask with
  | none => rfl
  | some promoted =>
      by_cases same : task = promoted
      · subst same
        simp [promoteTask, setCall]
      · simp [promoteTask, setCall, same, Ne.symm same]

@[simp]
theorem demoteTask_sched (intask : Option Int32) :
    (s.demoteTask intask).sched = s.sched := by
  cases intask <;> rfl

@[simp]
theorem demoteTask_callbacks (intask : Option Int32) :
    (s.demoteTask intask).callbacks = s.callbacks := by
  cases intask <;> rfl

@[simp]
theorem demoteTask_thread (intask : Option Int32) :
    (s.demoteTask intask).thread = s.thread := by
  cases intask <;> rfl

@[simp]
theorem demoteTask_calls (intask : Option Int32) :
    (s.demoteTask intask).calls = s.calls := by
  cases intask <;> rfl

/-- The last step of `deregister` wakes the dispatcher thread if nothing
runs. -/
theorem apply_wakeAfterFree (msecsToJiffies : Nat → Nat) (caller : Int32) :
    (s.apply msecsToJiffies (.wakeAfterFree caller)).sched = s.sched ∧
      (s.apply msecsToJiffies (.wakeAfterFree caller)).calls =
        update s.calls caller .idle ∧
      (s.apply msecsToJiffies (.wakeAfterFree caller)).callbacks =
        s.callbacks ∧
      (s.apply msecsToJiffies (.wakeAfterFree caller)).thread =
        if s.sched.currtask = none then s.thread.wake else s.thread := by
  simp only [apply]
  split_ifs <;> exact ⟨rfl, rfl, rfl, rfl⟩

end Frame

/-- No call of the module and no timer callback is in progress.  A task may be
blocked in `taskyield`. -/
def Quiet (s : System) : Prop :=
  s.callbacks = [] ∧ ∀ task, s.calls task = .idle ∨ s.calls task = .blocked

end System

/-- Every `deregister` in progress holds an unlinked PCB of its own. -/
structure Linked (unlinked : List Nat) (calls : Int32 → Call) : Prop where
  targets : ∀ caller target, (calls caller).target = some target →
    target ∈ unlinked
  distinct : ∀ caller other target, (calls caller).target = some target →
    (calls other).target = some target → caller = other

namespace Linked

variable {unlinked : List Nat} {calls : Int32 → Call}

theorem update (linked : Linked unlinked calls) {caller : Int32} {call : Call}
    (kept : ∀ target, call.target = some target →
      (calls caller).target = some target) :
    Linked unlinked (update calls caller call) := by
  have before : ∀ task target,
      (Function.update calls caller call task).target = some target →
        (calls task).target = some target := by
    intro task target held
    by_cases same : task = caller
    · subst same
      rw [update_self] at held
      exact kept target held
    · rwa [update_of_ne same] at held
  exact ⟨fun task target held => linked.targets task target
      (before task target held),
    fun task other target held otherHeld => linked.distinct task other target
      (before task target held) (before other target otherHeld)⟩

theorem unlink (linked : Linked unlinked calls) (caller : Int32)
    {target : Nat} (fresh : target ∉ unlinked) :
    Linked (target :: unlinked)
      (Function.update calls caller (.unlinked target)) := by
  have before : ∀ task held,
      (Function.update calls caller (.unlinked target) task).target =
        some held →
        (task = caller ∧ held = target) ∨
          (task ≠ caller ∧ (calls task).target = some held) := by
    intro task held isHeld
    by_cases same : task = caller
    · subst same
      rw [update_self] at isHeld
      exact .inl ⟨rfl, (Option.some.inj isHeld).symm⟩
    · rw [update_of_ne same] at isHeld
      exact .inr ⟨same, isHeld⟩
  constructor
  · intro task held isHeld
    rcases before task held isHeld with ⟨-, rfl⟩ | ⟨-, old⟩
    · exact List.mem_cons_self
    · exact List.mem_cons_of_mem _ (linked.targets task held old)
  · intro task other held isHeld otherHeld
    rcases before task held isHeld with ⟨rfl, rfl⟩ | ⟨-, old⟩
    · rcases before other held otherHeld with ⟨rfl, -⟩ | ⟨-, otherOld⟩
      · rfl
      · exact absurd (linked.targets other held otherOld) fresh
    · rcases before other held otherHeld with ⟨-, rfl⟩ | ⟨-, otherOld⟩
      · exact absurd (linked.targets task held old) fresh
      · exact linked.distinct task other held old otherOld

theorem free (linked : Linked unlinked calls) {caller : Int32} {target : Nat}
    (held : (calls caller).target = some target) :
    Linked (unlinked.erase target) (Function.update calls caller .freed) := by
  have released : Linked unlinked (Function.update calls caller .freed) :=
    linked.update nofun
  refine ⟨fun task other otherHeld => ?_, released.distinct⟩
  have old := released.targets task other otherHeld
  have notCaller : task ≠ caller := by
    rintro rfl
    rw [update_self] at otherHeld
    cases otherHeld
  rw [update_of_ne notCaller] at otherHeld
  have different : other ≠ target := by
    rintro rfl
    exact notCaller (linked.distinct task caller other otherHeld held)
  exact (List.mem_erase_of_ne different).mpr old

end Linked

namespace System

/-- The state machine invariant, and the link between unlinked PCBs and calls
of `deregister`. -/
structure Sound (s : System) : Prop where
  sched : Invariant s.sched
  linked : Linked s.sched.unlinked s.calls

variable {msecsToJiffies : Nat → Nat} {s : System}

theorem Sound.initial (jiffies : Nat) : Sound (System.initial jiffies) :=
  ⟨Invariant.initial, nofun, nofun⟩

/-- An enabled action is invisible to the module state, or an event of the
state machine. -/
theorem Sound.exists_event (sound : Sound s) {action : Action}
    (enabled : s.Enabled action) :
    (s.apply msecsToJiffies action).sched = s.sched ∨
      ∃ event, s.sched.step msecsToJiffies event =
        some (s.apply msecsToJiffies action).sched := by
  cases action with
  | register curnode pid period compTime =>
      refine .inr ⟨.register curnode pid period compTime s.jiffies, ?_⟩
      exact if_pos enabled
  | unlink caller pid target => exact .inr ⟨.deregister pid, rfl⟩
  | demoteTarget caller target => exact .inl rfl
  | cancelTimer caller target =>
      refine .inr ⟨.cancel target, if_pos ?_⟩
      exact sound.linked.targets caller target (by rw [enabled.1]; rfl)
  | freeTarget caller target =>
      refine .inr ⟨.release target, if_pos ?_⟩
      exact sound.linked.targets caller target (by rw [enabled]; rfl)
  | wakeAfterFree caller => exact .inl (s.apply_wakeAfterFree msecsToJiffies caller).1
  | yieldCritical task => exact .inr ⟨.yield task, rfl⟩
  | timerFire temp =>
      obtain ⟨⟨expires, armed, -⟩, -⟩ := enabled
      refine .inr ⟨.timer temp, if_pos ?_⟩
      rw [Option.mem_def.mp armed]
      rfl
  | dispatch => exact .inr ⟨.dispatch, rfl⟩
  | promote switch => exact .inl (promoteTask_sched s _)
  | demote demtaskptr => exact .inl (demoteTask_sched s _)
  | _ => exact .inl rfl

theorem Sound.apply_linked (sound : Sound s) {action : Action}
    (enabled : s.Enabled action) :
    Linked (s.apply msecsToJiffies action).sched.unlinked
      (s.apply msecsToJiffies action).calls := by
  have linked := sound.linked
  cases action with
  | register curnode pid period compTime =>
      have same : (s.sched.taskregister curnode pid (unsignedLong period)
          (unsignedLong compTime) s.jiffies).1.unlinked =
            s.sched.unlinked := by
        rcases s.sched.taskregister_cases curnode pid (unsignedLong period)
          (unsignedLong compTime) s.jiffies with
            result | ⟨_, -, result⟩ | ⟨_, -, result⟩ |
              ⟨_, -, _, -, -, -, result⟩ <;> rw [result] <;> rfl
      exact same ▸ linked
  | unlink caller pid target =>
      have notUnlinked : target ∉ s.sched.unlinked := fun member =>
        (sound.sched.unlinked target member).2 (mem_of_lookup enabled.2)
      have result : (s.sched.deregister pid).1.unlinked =
          target :: s.sched.unlinked := by
        simp [deregister, enabled.2]
      exact result ▸ linked.unlink caller notUnlinked
  | demoteTarget caller target =>
      exact linked.update fun held isHeld => by rw [enabled]; exact isHeld
  | cancelTimer caller target =>
      exact linked.update fun held isHeld => by rw [enabled.1]; exact isHeld
  | freeTarget caller target =>
      exact linked.free (by rw [enabled]; rfl)
  | wakeAfterFree caller =>
      obtain ⟨schedEq, callsEq, -⟩ :=
        s.apply_wakeAfterFree msecsToJiffies caller
      rw [schedEq, callsEq]
      exact linked.update nofun
  | yieldCritical task =>
      have same : ((s.sched.taskyield msecsToJiffies task).getD
          s.sched).unlinked = s.sched.unlinked := by
        unfold taskyield
        cases s.sched.lookup task <;> rfl
      exact same ▸ linked.update nofun
  | yieldWake task => exact linked.update nofun
  | yieldSetState task => exact linked.update nofun
  | yieldSchedule task uninterruptible =>
      cases uninterruptible <;> exact linked.update nofun
  | dispatch =>
      obtain ⟨-, -, unlinkedEq, -⟩ := s.sched.dispatcher_frame
      exact unlinkedEq ▸ linked
  | promote switch =>
      rw [show (s.apply msecsToJiffies (.promote switch)).sched = s.sched from
        promoteTask_sched s _]
      cases task : switch.protaskptr with
      | none =>
          simp only [apply, task, promoteTask]
          exact linked
      | some promoted =>
          simp only [apply, task, promoteTask, setCall]
          exact linked.update fun held isHeld =>
            (Call.target_wake _).symm.trans isHeld
  | demote demtaskptr => simpa [apply] using linked
  | _ => exact linked

theorem Sound.step (sound : Sound s) {action : Action} {next : System}
    (taken : s.step msecsToJiffies action = some next) : Sound next := by
  obtain ⟨enabled, rfl⟩ := step_eq_some_iff.mp taken
  refine ⟨?_, sound.apply_linked enabled⟩
  rcases sound.exists_event enabled with same | ⟨event, happened⟩
  · exact same ▸ sound.sched
  · exact sound.sched.step happened

/-- The concurrent system refines the state machine of atomic events. -/
theorem exists_events_of_reached {jiffies : Nat} {actions : List Action}
    (reached : run (System.step msecsToJiffies) (System.initial jiffies)
      actions = some s) :
    ∃ events, run (Sched.step msecsToJiffies) Sched.initial events =
      some s.sched := by
  refine exists_projected_run Sound System.sched
    (fun _ _ _ sound taken => sound.step taken) ?_ (Sound.initial jiffies)
    reached
  intro state action next sound taken
  obtain ⟨enabled, rfl⟩ := step_eq_some_iff.mp taken
  rcases sound.exists_event enabled with same | ⟨event, happened⟩
  · exact ⟨[], congrArg some same.symm⟩
  · exact ⟨[event], run_cons_eq_some_iff.mpr ⟨_, happened, rfl⟩⟩

end System

end LinuxKernelDev.Rms
