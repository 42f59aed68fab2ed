import LinuxKernelDev.RmsConcurrency

/-!
# Loading and unloading the scheduler

`mp2_exit` stops the dispatcher thread, takes every PCB off the list and frees
it, and destroys the cache.  Meanwhile timers fire, callbacks run, and calls
that user processes have made of the module go on.  Here these steps are added
to the concurrent system, with the tests of `kthread_should_stop` by the
dispatcher thread.  The first invariant says where `mp2_exit`, the thread and
the unloading process can be at one time.

Two calls of `mp2_exit` are left out: `mutex_destroy`, which has no effect
unless mutexes are debugged, and `proc_remove`, with which it ends after the
cache is destroyed, and which waits for the calls of the status file in
progress.
-/

namespace LinuxKernelDev.Rms

open Function Transition Sched

/-- Progress of `mp2_exit` up to `kmem_cache_destroy`: not called yet, inside
`kthread_stop`, before `dispathread = NULL`, in the loop of `cleanuplist`,
before and after `kmem_cache_destroy`. -/
inductive Exit where
  | loaded
  | stopping
  | stopped
  | cleaning
  | cleaned
  | destroyed
  deriving DecidableEq

/-- `dispathread` is `NULL`. -/
def Exit.threadCleared : Exit → Bool
  | .cleaning | .cleaned | .destroyed => true
  | _ => false

def Exit.afterCleanup : Exit → Bool
  | .cleaned | .destroyed => true
  | _ => false

theorem Exit.afterCleanup_of_threadCleared {exit : Exit}
    (cleared : exit.threadCleared = true) (notCleaning : exit ≠ .cleaning) :
    exit.afterCleanup = true := by
  cases exit with
  | cleaned | destroyed => rfl
  | cleaning => exact absurd rfl notCleaning
  | loaded | stopping | stopped => cases cleared

theorem Exit.threadCleared_of_afterCleanup {exit : Exit}
    (after : exit.afterCleanup = true) : exit.threadCleared = true := by
  cases exit <;> first | rfl | cases after

/-- The module from its initialization to its removal by the process `rmmod`.
`passed` says that `threadfunc` has found `kthread_should_stop` false at the
place where it is, and `returned` that it has returned.  In a turn of the loop
of `cleanuplist`, `rmmod` makes the progress of a `deregister`. -/
structure Module where
  system : System
  rmmod : Int32
  passed : Bool
  returned : Bool
  exit : Exit

inductive ModuleAction where
  | act (action : Action)
  | threadTest
  | kthreadStop
  | kthreadJoin
  | lockList
  | listDel (cur : Nat)
  | demoteCur (cur : Nat)
  | delTimerSync (cur : Nat)
  | freeCur (cur : Nat)
  | unlockList
  | cacheDestroy
  deriving DecidableEq

def ModuleAction.registers : ModuleAction → Bool
  | .act (.register _ _ _ _) => true
  | _ => false

namespace Action

/-- The process in whose call an action is taken. -/
def caller : Action → Option Int32
  | .unlink caller _ _ | .demoteTarget caller _ | .cancelTimer caller _
  | .freeTarget caller _ | .wakeAfterFree caller | .yieldCritical caller
  | .yieldWake caller | .yieldSetState caller | .yieldSchedule caller _ =>
      some caller
  | _ => none

def ofThread : Action → Bool
  | .dispatch | .promote _ | .demote _ | .threadSetState
  | .threadSchedule _ => true
  | _ => false

/-- `threadfunc` tests `kthread_should_stop` right before the action. -/
def tested : Action → Bool
  | .dispatch | .threadSchedule _ => true
  | _ => false

/-- The action needs `mp2mutex`.  A `taskregister` that fails early does not
come to lock it. -/
def locks : Action → Bool
  | .register curnode _ period compTime =>
      curnode.isSome && unsignedLong period != 0 && unsignedLong compTime != 0
  | .unlink _ _ _ | .yieldCritical _ | .dispatch => true
  | _ => false

theorem locks_register {node : Nat} {pid period compTime : Int32}
    (nonzero : unsignedLong period ≠ 0 ∧ unsignedLong compTime ≠ 0) :
    (Action.register (some node) pid period compTime).locks = true := by
  change (true && unsignedLong period != 0 && unsignedLong compTime != 0) =
    true
  simp [nonzero]

end Action

/-- The two places where `threadfunc` tests `kthread_should_stop`. -/
def Thread.tests : Thread → Bool
  | .start | .waiting _ => true
  | _ => false

/-- `list_del(&cur->node)`. -/
def Sched.listDel (s : Sched) (cur : Nat) : Sched :=
  { s with
    mp2listhead := s.mp2listhead.erase cur
    unlinked := cur :: s.unlinked }

namespace Module

def initial (rmmod : Int32) (jiffies : Nat) : Module :=
  ⟨System.initial jiffies, rmmod, false, false, .loaded⟩

/-- The states in which an action can be taken.  The process `rmmod` makes no
call of the module while it removes it. -/
def Enabled (m : Module) : ModuleAction → Prop
  | .act action =>
      m.system.Enabled action ∧
        (m.exit = .loaded ∨ action.caller ≠ some m.rmmod) ∧
        (action.ofThread = true → m.returned = false) ∧
        (action.tested = true → m.passed = true) ∧
        (action.locks = true → m.exit ≠ .cleaning)
  | .threadTest =>
      m.returned = false ∧ m.passed = false ∧ m.system.thread.tests = true
  | .kthreadStop => m.exit = .loaded ∧ m.system.calls m.rmmod = .idle
  | .kthreadJoin => m.exit = .stopping ∧ m.returned = true
  | .lockList => m.exit = .stopped
  | .listDel cur =>
      m.exit = .cleaning ∧ m.system.calls m.rmmod = .idle ∧
        m.system.sched.mp2listhead.head? = some cur
  | .demoteCur cur =>
      m.exit = .cleaning ∧ m.system.Enabled (.demoteTarget m.rmmod cur)
  | .delTimerSync cur =>
      m.exit = .cleaning ∧ m.system.Enabled (.cancelTimer m.rmmod cur)
  | .freeCur cur =>
      m.exit = .cleaning ∧ m.system.Enabled (.freeTarget m.rmmod cur)
  | .unlockList =>
      m.exit = .cleaning ∧ m.system.calls m.rmmod = .idle ∧
        m.system.sched.mp2listhead = []
  | .cacheDestroy => m.exit = .cleaned

instance (m : Module) (action : ModuleAction) :
    Decidable (m.Enabled action) :=
  match action with
  | .act _ | .threadTest | .kthreadStop | .kthreadJoin | .listDel _
  | .demoteCur _ | .delTimerSync _ | .freeCur _ | .unlockList =>
      inferInstanceAs (Decidable (_ ∧ _))
  | .lockList | .cacheDestroy => inferInstanceAs (Decidable (m.exit = _))

/-- The effect of an enabled action.  `wakethread` does nothing once
`dispathread` is `NULL`. -/
def apply (msecsToJiffies : Nat → Nat) (m : Module) : ModuleAction → Module
  | .act action =>
      { m with
        system :=
          { m.system.apply msecsToJiffies action with
            thread :=
              if m.exit.threadCleared = true then m.system.thread
              else (m.system.apply msecsToJiffies action).thread }
        passed := m.passed && !action.tested }
  | .threadTest =>
      if m.exit = .loaded then { m with passed := true }
      else { m with returned := true }
  | .kthreadStop =>
      { m with
        system := m.system.wakethread
        exit := .stopping }
  | .kthreadJoin => { m with exit := .stopped }
  | .lockList => { m with exit := .cleaning }
  | .listDel cur =>
      { m with system :=
          { m.system.setCall m.rmmod (.unlinked cur) with
            sched := m.system.sched.listDel cur } }
  | .demoteCur cur =>
      { m with
        system := m.system.apply msecsToJiffies (.demoteTarget m.rmmod cur) }
  | .delTimerSync cur =>
      { m with
        system := m.system.apply msecsToJiffies (.cancelTimer m.rmmod cur) }
  | .freeCur cur =>
      { m with
        system := (m.system.apply msecsToJiffies
          (.freeTarget m.rmmod cur)).setCall m.rmmod .idle }
  | .unlockList => { m with exit := .cleaned }
  | .cacheDestroy => { m with exit := .destroyed }

def step (msecsToJiffies : Nat → Nat) (m : Module) (action : ModuleAction) :
    Option Module :=
  if m.Enabled action then some (m.apply msecsToJiffies action) else none

theorem step_eq_some_iff {msecsToJiffies : Nat → Nat} {m next : Module}
    {action : ModuleAction} :
    m.step msecsToJiffies action = some next ↔
      m.Enabled action ∧ m.apply msecsToJiffies action = next := by
  unfold step
  rw [Option.ite_none_right_eq_some, Option.some.injEq]

end Module

/-- The states of `rmmod` in a turn of the loop of `cleanuplist`. -/
def Call.InTurn : Call → Prop
  | .idle | .unlinked _ | .demoted _ | .cancelled _ => True
  | _ => False

theorem Thread.wake_ne_blocked (thread : Thread) : thread.wake ≠ .blocked := by
  cases thread <;> exact Thread.noConfusion

theorem Thread.wake_ne_waiting (thread : Thread) :
    thread.wake ≠ .waiting true := by
  cases thread <;> simp [Thread.wake]

theorem Thread.tests_wake {thread : Thread} (tests : thread.tests = true) :
    thread.wake.tests = true := by
  cases thread <;> first | rfl | cases tests

/-- Only the dispatcher thread touches the progress of a call that another
process makes. -/
theorem System.apply_calls_of_caller_ne (msecsToJiffies : Nat → Nat)
    (s : System) {action : Action} {task : Int32}
    (other : action.caller ≠ some task) :
    (s.apply msecsToJiffies action).calls task = s.calls task ∨
      action.ofThread = true ∧
        (s.apply msecsToJiffies action).calls task =
          (s.calls task).wake := by
  cases action with
  | unlink caller _ _ | demoteTarget caller _ | cancelTimer caller _
  | freeTarget caller _ | yieldCritical caller | yieldWake caller
  | yieldSetState caller | yieldSchedule caller _ =>
      exact .inl (update_of_ne (fun same => other (congrArg some same.symm))
        _ _)
  | wakeAfterFree caller =>
      rw [(s.apply_wakeAfterFree msecsToJiffies caller).2.1]
      exact .inl (update_of_ne (fun same => other (congrArg some same.symm))
        _ _)
  | promote switch =>
      simp only [System.apply, System.promoteTask_calls]
      split_ifs
      · exact .inr ⟨rfl, rfl⟩
      · exact .inl rfl
  | demote demtaskptr => exact .inl (congrFun (s.demoteTask_calls _) task)
  | tick | register | timerFire | timerWake | dispatch | threadSetState
  | threadSchedule => exact .inl rfl

namespace Module

/-- Where `mp2_exit`, the dispatcher thread and `rmmod` can be at one time. -/
structure Ordered (m : Module) : Prop where
  tested : m.passed = true → m.system.thread.tests = true
  started : m.exit = .loaded → m.returned = false
  joined : m.exit ≠ .loaded → m.exit ≠ .stopping → m.returned = true
  heard : m.exit = .stopping → m.returned = false →
    m.system.thread ≠ .blocked ∧
      (m.system.thread = .waiting true → m.passed = false)
  idle : m.exit ≠ .loaded → m.exit ≠ .cleaning →
    m.system.calls m.rmmod = .idle
  turn : m.exit = .cleaning → (m.system.calls m.rmmod).InTurn

namespace Ordered

variable {msecsToJiffies : Nat → Nat} {m : Module}

theorem initial (rmmod : Int32) (jiffies : Nat) :
    (Module.initial rmmod jiffies).Ordered where
  tested passed := by cases passed
  started _ := rfl
  joined late := absurd rfl late
  heard late := by cases late
  idle late := absurd rfl late
  turn late := by cases late

/-- The thread is at a test whenever it has passed one. -/
theorem act_tested (ordered : m.Ordered) {action : Action}
    (enabled : m.Enabled (.act action))
    (passed : (m.apply msecsToJiffies (.act action)).passed = true) :
    (m.apply msecsToJiffies (.act action)).system.thread.tests = true := by
  obtain ⟨before, untested⟩ := Bool.and_eq_true_iff.mp passed
  have tests := ordered.tested before
  simp only [Module.apply]
  split_ifs
  · exact tests
  cases action with
  | dispatch | threadSchedule => cases untested
  | promote | demote | threadSetState =>
      have located := enabled.1
      simp only [System.Enabled] at located
      rw [located] at tests
      cases tests
  | wakeAfterFree caller =>
      rw [(m.system.apply_wakeAfterFree msecsToJiffies caller).2.2.2]
      split_ifs
      · exact Thread.tests_wake tests
      · exact tests
  | yieldWake | timerWake => exact Thread.tests_wake tests
  | demoteTarget caller target =>
      simp only [System.apply, System.setCall, System.demoteTask_thread]
      exact tests
  | tick | register | unlink | cancelTimer | freeTarget | yieldCritical
  | yieldSetState | yieldSchedule | timerFire => exact tests

/-- After `kthread_stop` has set its flag, the thread does not block. -/
theorem act_heard (ordered : m.Ordered) {action : Action}
    (enabled : m.Enabled (.act action)) (stopping : m.exit = .stopping)
    (running : m.returned = false) :
    (m.apply msecsToJiffies (.act action)).system.thread ≠ .blocked ∧
      ((m.apply msecsToJiffies (.act action)).system.thread =
          .waiting true →
        (m.apply msecsToJiffies (.act action)).passed = false) := by
  obtain ⟨awake, unpassed⟩ := ordered.heard stopping running
  have same : m.system.thread ≠ .blocked ∧
      (m.system.thread = .waiting true →
        (m.passed && !action.tested) = false) :=
    ⟨awake, fun waits => by rw [unpassed waits, Bool.false_and]⟩
  have woken : m.system.thread.wake ≠ .blocked ∧
      (m.system.thread.wake = .waiting true →
        (m.passed && !action.tested) = false) :=
    ⟨Thread.wake_ne_blocked _, fun waits =>
      absurd waits (Thread.wake_ne_waiting _)⟩
  have uncleared : ¬m.exit.threadCleared = true := by
    rw [stopping]
    exact Bool.false_ne_true
  simp only [Module.apply, if_neg uncleared]
  cases action with
  | dispatch | promote | demote =>
      exact ⟨Thread.noConfusion, fun waits => by cases waits⟩
  | threadSetState =>
      refine ⟨Thread.noConfusion, fun _ => ?_⟩
      have located : m.system.thread = .returned := enabled.1
      have unpassed : m.passed = false := by
        rw [Bool.eq_false_iff]
        intro passed
        have tests := ordered.tested passed
        rw [located] at tests
        cases tests
      rw [unpassed, Bool.false_and]
  | threadSchedule interruptible =>
      have passed : m.passed = true := enabled.2.2.2.1 rfl
      have located : m.system.thread = .waiting interruptible := enabled.1
      cases interruptible with
      | false => exact ⟨Thread.noConfusion, fun waits => by cases waits⟩
      | true =>
          exact absurd ((unpassed located).symm.trans passed)
            Bool.noConfusion
  | wakeAfterFree caller =>
      rw [(m.system.apply_wakeAfterFree msecsToJiffies caller).2.2.2]
      split_ifs
      · exact woken
      · exact same
  | yieldWake | timerWake => exact woken
  | demoteTarget caller target =>
      simp only [System.apply, System.setCall, System.demoteTask_thread]
      exact same
  | tick | register | unlink | cancelTimer | freeTarget | yieldCritical
  | yieldSetState | yieldSchedule | timerFire => exact same

/-- Once the module is being removed, other tasks leave the progress of `rmmod`
alone. -/
theorem act_calls (ordered : m.Ordered) {action : Action}
    (enabled : m.Enabled (.act action)) (late : m.exit ≠ .loaded) :
    (m.apply msecsToJiffies (.act action)).system.calls m.rmmod =
      m.system.calls m.rmmod := by
  have other := enabled.2.1.resolve_left late
  rcases m.system.apply_calls_of_caller_ne msecsToJiffies other with
    same | ⟨ofThread, woken⟩
  · exact same
  · have running := enabled.2.2.1 ofThread
    have stopping : m.exit = .stopping := by
      by_contra joined
      rw [ordered.joined late joined] at running
      cases running
    have isIdle := ordered.idle late (by rw [stopping]; exact Exit.noConfusion)
    refine woken.trans ?_
    rw [isIdle]
    rfl

theorem act (ordered : m.Ordered) {action : Action}
    (enabled : m.Enabled (.act action)) :
    (m.apply msecsToJiffies (.act action)).Ordered where
  tested := ordered.act_tested enabled
  started := ordered.started
  joined := ordered.joined
  heard := ordered.act_heard enabled
  idle late notCleaning :=
    (ordered.act_calls enabled late).trans (ordered.idle late notCleaning)
  turn cleaning := by
    have late : m.exit ≠ .loaded := by
      rw [show m.exit = .cleaning from cleaning]
      exact Exit.noConfusion
    exact (ordered.act_calls enabled late).symm ▸ ordered.turn cleaning

theorem threadTest (ordered : m.Ordered)
    (enabled : m.Enabled .threadTest) :
    (m.apply msecsToJiffies .threadTest).Ordered := by
  simp only [Module.apply]
  split_ifs with loaded
  · exact
      { ordered with
        tested := fun _ => enabled.2.2
        heard := fun stopping => by
          rw [show m.exit = .loaded from loaded] at stopping
          cases stopping }
  · exact
      { ordered with
        started := fun isLoaded => absurd isLoaded loaded
        joined := fun _ _ => rfl
        heard := fun _ running => by cases running }

/-- A step of `mp2_exit` in the loop of `cleanuplist` that leaves the thread
alone. -/
theorem of_turn (ordered : m.Ordered) (cleaning : m.exit = .cleaning)
    {system : System} (thread : system.thread = m.system.thread)
    (turn : (system.calls m.rmmod).InTurn) :
    ({ m with system := system } : Module).Ordered where
  tested passed := thread ▸ ordered.tested passed
  started := ordered.started
  joined := ordered.joined
  heard stopping := by
    rw [show m.exit = .cleaning from cleaning] at stopping
    cases stopping
  idle _ notCleaning := absurd cleaning notCleaning
  turn _ := turn

/-- A step of `mp2_exit` after `kthread_stop`, outside the loop. -/
theorem of_exit (ordered : m.Ordered) (returned : m.returned = true)
    (isIdle : m.system.calls m.rmmod = .idle) {exit : Exit}
    (notLoaded : exit ≠ .loaded) (notStopping : exit ≠ .stopping) :
    ({ m with exit := exit } : Module).Ordered where
  tested := ordered.tested
  started loaded := absurd loaded notLoaded
  joined _ _ := returned
  heard stopping := absurd stopping notStopping
  idle _ _ := isIdle
  turn _ := by
    change (m.system.calls m.rmmod).InTurn
    rw [isIdle]
    trivial

theorem step (ordered : m.Ordered) {action : ModuleAction} {next : Module}
    (taken : m.step msecsToJiffies action = some next) : next.Ordered := by
  obtain ⟨enabled, rfl⟩ := step_eq_some_iff.mp taken
  cases action with
  | act action => exact ordered.act enabled
  | threadTest => exact ordered.threadTest enabled
  | kthreadStop =>
      exact
        { tested := fun passed => Thread.tests_wake (ordered.tested passed)
          started := fun loaded => by cases loaded
          joined := fun _ notStopping => absurd rfl notStopping
          heard := fun _ _ => ⟨Thread.wake_ne_blocked _, fun waits =>
            absurd waits (Thread.wake_ne_waiting _)⟩
          idle := fun _ _ => enabled.2
          turn := fun cleaning => by cases cleaning }
  | kthreadJoin =>
      have isIdle := ordered.idle (by simp [enabled.1]) (by simp [enabled.1])
      exact ordered.of_exit enabled.2 isIdle Exit.noConfusion
        Exit.noConfusion
  | lockList =>
      have stopped : m.exit = .stopped := enabled
      have returned := ordered.joined (by simp [stopped]) (by simp [stopped])
      have isIdle := ordered.idle (by simp [stopped]) (by simp [stopped])
      exact ordered.of_exit returned isIdle Exit.noConfusion Exit.noConfusion
  | listDel cur =>
      refine ordered.of_turn enabled.1 rfl ?_
      simp [System.setCall, Call.InTurn]
  | demoteCur cur =>
      refine ordered.of_turn enabled.1 ?_ ?_ <;>
        simp [System.apply, System.setCall, Call.InTurn]
  | delTimerSync cur =>
      refine ordered.of_turn enabled.1 rfl ?_
      simp [System.apply, System.setCall, Call.InTurn]
  | freeCur cur =>
      refine ordered.of_turn enabled.1 rfl ?_
      simp [System.setCall, Call.InTurn]
  | unlockList =>
      have returned := ordered.joined (by simp [enabled.1])
        (by simp [enabled.1])
      exact ordered.of_exit returned enabled.2.1 Exit.noConfusion
        Exit.noConfusion
  | cacheDestroy =>
      have cleaned : m.exit = .cleaned := enabled
      have returned := ordered.joined (by simp [cleaned]) (by simp [cleaned])
      have isIdle := ordered.idle (by simp [cleaned]) (by simp [cleaned])
      exact ordered.of_exit returned isIdle Exit.noConfusion Exit.noConfusion

theorem returned_of_threadCleared (ordered : m.Ordered)
    (cleared : m.exit.threadCleared = true) : m.returned = true := by
  refine ordered.joined ?_ ?_ <;>
  · intro early
    rw [early] at cleared
    cases cleared

theorem notThread_of_threadCleared (ordered : m.Ordered) {action : Action}
    (enabled : m.Enabled (.act action))
    (cleared : m.exit.threadCleared = true) : action.ofThread = false := by
  rw [Bool.eq_false_iff]
  intro ofThread
  have running := enabled.2.2.1 ofThread
  rw [ordered.returned_of_threadCleared cleared] at running
  cases running

end Ordered

end Module

end LinuxKernelDev.Rms
