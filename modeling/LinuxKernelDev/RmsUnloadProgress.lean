import LinuxKernelDev.RmsModule

/-!
# Progress of unloading the scheduler

`kthread_stop` waits for the dispatcher thread to return, and `del_timer_sync`
waits for a running callback with `mp2mutex` held.  Neither waits for ever: a
rank that steps of the kernel lower bounds what is left to do until
`kmem_cache_destroy` has returned.
-/

namespace LinuxKernelDev.Rms

open Function Transition Sched

/-- An action of the dispatcher thread, of a running callback or of `mp2_exit`,
as opposed to one of a user process, the clock or the timer interrupt. -/
def ModuleAction.ofKernel : ModuleAction → Bool
  | .act (.timerWake _) => true
  | .act action => action.ofThread
  | _ => true

/-- How far `threadfunc` is from the next test of `kthread_should_stop`. -/
def Thread.rank (passed : Bool) : Thread → Nat
  | .start => if passed = true then 5 else 1
  | .promoting _ => 4
  | .demoting _ => 3
  | .returned => 2
  | .waiting _ => if passed = true then 2 else 1
  | .blocked => 0

def Call.rank : Call → Nat
  | .unlinked _ => 3
  | .demoted _ => 2
  | .cancelled _ => 1
  | _ => 0

def Exit.rank : Exit → Nat
  | .loaded => 5
  | .stopping => 4
  | .stopped => 3
  | .cleaning => 2
  | .cleaned => 1
  | .destroyed => 0

/-- The dispatcher thread leaves the list and the callbacks alone. -/
theorem System.apply_ofThread (msecsToJiffies : Nat → Nat) (s : System)
    {action : Action} (ofThread : action.ofThread = true) :
    (s.apply msecsToJiffies action).sched.mp2listhead =
        s.sched.mp2listhead ∧
      (s.apply msecsToJiffies action).callbacks = s.callbacks := by
  cases action with
  | dispatch => exact ⟨s.sched.dispatcher_frame.1, rfl⟩
  | promote switch => simp [apply]
  | demote demtaskptr => simp [apply]
  | threadSetState | threadSchedule => exact ⟨rfl, rfl⟩
  | _ => cases ofThread

namespace Module

variable {msecsToJiffies : Nat → Nat} {m : Module}

/-- A bound on the number of steps that the kernel needs to finish
`mp2_exit`. -/
def rank (m : Module) : Nat :=
  m.exit.rank +
    (if m.returned = true then 0 else m.system.thread.rank m.passed) +
    4 * m.system.sched.mp2listhead.length +
    (m.system.calls m.rmmod).rank + m.system.callbacks.length

theorem rank_exit_lt {exit : Exit} (closer : exit.rank < m.exit.rank) :
    ({ m with exit := exit } : Module).rank < m.rank := by
  simp only [rank]
  omega

theorem rank_act_lt (ordered : m.Ordered) {action : Action}
    (enabled : m.Enabled (.act action)) (late : m.exit ≠ .loaded)
    (ofThread : action.ofThread = true)
    (closer : (m.apply msecsToJiffies (.act action)).system.thread.rank
        (m.apply msecsToJiffies (.act action)).passed <
      m.system.thread.rank m.passed) :
    (m.apply msecsToJiffies (.act action)).rank < m.rank := by
  have running := enabled.2.2.1 ofThread
  have calls : (m.apply msecsToJiffies (.act action)).system.calls m.rmmod =
      m.system.calls m.rmmod := ordered.act_calls enabled late
  obtain ⟨listed, callbacks⟩ :=
    m.system.apply_ofThread msecsToJiffies ofThread
  have exitEq : (m.apply msecsToJiffies (.act action)).exit = m.exit := rfl
  have returnedEq :
      (m.apply msecsToJiffies (.act action)).returned = m.returned := rfl
  have rmmodEq : (m.apply msecsToJiffies (.act action)).rmmod = m.rmmod := rfl
  have listedEq :
      (m.apply msecsToJiffies (.act action)).system.sched.mp2listhead =
        m.system.sched.mp2listhead := listed
  have callbacksEq :
      (m.apply msecsToJiffies (.act action)).system.callbacks =
        m.system.callbacks := callbacks
  unfold rank
  rw [exitEq, returnedEq, rmmodEq, listedEq, callbacksEq, calls, running]
  simp only [Bool.false_eq_true, if_false]
  omega

/-- A step that the kernel can take towards the end of `mp2_exit`. -/
def Advances (msecsToJiffies : Nat → Nat) (m : Module) : Prop :=
  ∃ action, action.ofKernel = true ∧ m.Enabled action ∧
    (m.apply msecsToJiffies action).rank < m.rank

theorem Advances.of_act (ordered : m.Ordered) (stopping : m.exit = .stopping)
    (running : m.returned = false) (action : Action)
    (ofThread : action.ofThread = true) (enabled : m.system.Enabled action)
    (tested : action.tested = true → m.passed = true)
    (closer : (m.system.apply msecsToJiffies action).thread.rank
      (m.passed && !action.tested) < m.system.thread.rank m.passed) :
    m.Advances msecsToJiffies := by
  have noCaller : action.caller = none := by
    cases action <;> first | rfl | cases ofThread
  have allowed : m.Enabled (.act action) :=
    ⟨enabled, .inr (by simp [noCaller]), fun _ => running, tested,
      fun _ => by simp [stopping]⟩
  refine ⟨.act action, ?_, allowed, ?_⟩
  · cases action <;> first | rfl | exact ofThread
  · refine rank_act_lt ordered allowed (by simp [stopping]) ofThread ?_
    simpa [Module.apply, stopping, Exit.threadCleared] using closer

theorem Advances.of_test (stopping : m.exit = .stopping)
    (running : m.returned = false) (unpassed : m.passed = false)
    (tests : m.system.thread.tests = true) : m.Advances msecsToJiffies := by
  refine ⟨.threadTest, rfl, ⟨running, unpassed, tests⟩, ?_⟩
  have late : m.exit ≠ .loaded := by simp [stopping]
  have positive : 0 < m.system.thread.rank m.passed := by
    rw [unpassed]
    cases thread : m.system.thread <;> simp_all [Thread.rank, Thread.tests]
  simp only [Module.apply, if_neg late, rank, running, if_true,
    Bool.false_eq_true, if_false]
  omega

/-- The thread comes to its next test of `kthread_should_stop` and returns. -/
theorem advances_of_stopping (ordered : m.Ordered)
    (stopping : m.exit = .stopping) (running : m.returned = false) :
    m.Advances msecsToJiffies := by
  obtain ⟨awake, heard⟩ := ordered.heard stopping running
  cases located : m.system.thread with
  | start =>
      cases passed : m.passed with
      | false => exact .of_test stopping running passed (by rw [located]; rfl)
      | true =>
          refine .of_act ordered stopping running .dispatch rfl located
            (fun _ => passed) ?_
          simp [located, passed, System.apply, Thread.rank]
  | promoting switch =>
      refine .of_act ordered stopping running (.promote switch) rfl located
        (fun test => by cases test) ?_
      simp [located, System.apply, Thread.rank]
  | demoting demtaskptr =>
      refine .of_act ordered stopping running (.demote demtaskptr) rfl located
        (fun test => by cases test) ?_
      simp [located, System.apply, Thread.rank]
  | returned =>
      have unpassed : m.passed = false :=
        Bool.eq_false_iff.mpr fun passed => by
          have tests := ordered.tested passed
          rw [located] at tests
          cases tests
      refine .of_act ordered stopping running .threadSetState rfl located
        (fun test => by cases test) ?_
      simp [located, unpassed, System.apply, Thread.rank]
  | waiting interruptible =>
      cases passed : m.passed with
      | false => exact .of_test stopping running passed (by rw [located]; rfl)
      | true =>
          cases interruptible with
          | true =>
              exact absurd ((heard located).symm.trans passed)
                Bool.noConfusion
          | false =>
              refine .of_act ordered stopping running (.threadSchedule false)
                rfl located (fun _ => passed) ?_
              simp [located, passed, System.apply, Thread.rank, Action.tested]
  | blocked => exact absurd located awake

/-- Every turn of the loop of `cleanuplist` comes to its end. -/
theorem advances_of_cleaning (ordered : m.Ordered)
    (cleaning : m.exit = .cleaning) : m.Advances msecsToJiffies := by
  have returned : m.returned = true :=
    ordered.returned_of_threadCleared (by rw [cleaning]; rfl)
  have turn := ordered.turn cleaning
  cases located : m.system.calls m.rmmod with
  | idle =>
      cases listed : m.system.sched.mp2listhead with
      | nil =>
          exact ⟨.unlockList, rfl, ⟨cleaning, located, listed⟩,
            rank_exit_lt (by rw [cleaning]; decide)⟩
      | cons cur rest =>
          refine ⟨.listDel cur, rfl, ⟨cleaning, located, by rw [listed]; rfl⟩,
            ?_⟩
          simp [Module.apply, rank, located, listed, Call.rank,
            System.setCall, Sched.listDel]
          omega
  | unlinked cur =>
      refine ⟨.demoteCur cur, rfl, ⟨cleaning, located⟩, ?_⟩
      simp [Module.apply, System.apply, rank, located, returned, Call.rank,
        System.setCall]
  | demoted cur =>
      by_cases running : cur ∈ m.system.callbacks
      · have allowed : m.Enabled (.act (.timerWake cur)) :=
          ⟨running, .inr (by simp [Action.caller]),
            fun ofThread => absurd ofThread Bool.false_ne_true,
            fun tested => absurd tested Bool.false_ne_true,
            fun locks => absurd locks Bool.false_ne_true⟩
        have shorter := List.length_erase_of_mem running
        have positive := List.length_pos_of_mem running
        refine ⟨.act (.timerWake cur), rfl, allowed, ?_⟩
        simp [Module.apply, System.apply, rank, returned, System.wakethread,
          shorter]
        omega
      · refine ⟨.delTimerSync cur, rfl, ⟨cleaning, located, running⟩, ?_⟩
        simp [Module.apply, System.apply, rank, located, returned, Call.rank,
          System.setCall, delTimer, Sched.setPcb]
  | cancelled cur =>
      refine ⟨.freeCur cur, rfl, ⟨cleaning, located⟩, ?_⟩
      simp [Module.apply, System.apply, rank, located, returned, Call.rank,
        System.setCall, Sched.release, Sched.free]
  | freed | yielded | notified | waiting | blocked =>
      rw [located] at turn
      exact turn.elim

theorem exit_ne_loaded {action : ModuleAction} (enabled : m.Enabled action)
    (late : m.exit ≠ .loaded) :
    (m.apply msecsToJiffies action).exit ≠ .loaded := by
  cases action with
  | threadTest =>
      simp only [Module.apply, if_neg late]
      exact late
  | act | listDel | demoteCur | delTimerSync | freeCur => exact late
  | kthreadStop | kthreadJoin | lockList | unlockList | cacheDestroy =>
      exact Exit.noConfusion

/-- Once `mp2_exit` has begun, it can get past `kmem_cache_destroy` from every
state by steps of the dispatcher thread, of running callbacks and of `mp2_exit`
alone: `kthread_stop` is not missed by the thread, and `del_timer_sync` does not
wait for ever with the mutex held. -/
theorem unload_completes (rmmod : Int32) (jiffies : Nat)
    {before : List ModuleAction}
    (reached : run (step msecsToJiffies) (initial rmmod jiffies) before =
      some m) (begun : m.exit ≠ .loaded) :
    ∃ actions final, (∀ action ∈ actions, action.ofKernel = true) ∧
      run (step msecsToJiffies) m actions = some final ∧
      final.exit = .destroyed := by
  have ordered : m.Ordered := invariant_of_run Ordered
    (fun _ _ _ ordered taken => ordered.step taken)
    (Ordered.initial rmmod jiffies) reached
  refine exists_run_of_rank (fun m => m.Ordered ∧ m.exit ≠ .loaded)
    (fun m => m.exit = .destroyed)
    (fun action : ModuleAction => action.ofKernel = true) rank ?_
    ⟨ordered, begun⟩
  intro m ⟨ordered, late⟩
  have advance : m.Advances msecsToJiffies →
      ∃ action next, action.ofKernel = true ∧
        m.step msecsToJiffies action = some next ∧
        (next.Ordered ∧ next.exit ≠ .loaded) ∧ next.rank < m.rank := by
    rintro ⟨action, ofKernel, enabled, lower⟩
    have taken : m.step msecsToJiffies action = some _ := if_pos enabled
    exact ⟨action, _, ofKernel, taken,
      ⟨ordered.step taken, exit_ne_loaded enabled late⟩, lower⟩
  cases exit : m.exit with
  | loaded => exact absurd exit late
  | stopping =>
      refine .inr (advance ?_)
      cases running : m.returned with
      | false => exact advances_of_stopping ordered exit running
      | true =>
          exact ⟨.kthreadJoin, rfl, ⟨exit, running⟩,
            rank_exit_lt (by rw [exit]; decide)⟩
  | stopped =>
      exact .inr (advance ⟨.lockList, rfl, exit,
        rank_exit_lt (by rw [exit]; decide)⟩)
  | cleaning => exact .inr (advance (advances_of_cleaning ordered exit))
  | cleaned =>
      exact .inr (advance ⟨.cacheDestroy, rfl, exit,
        rank_exit_lt (by rw [exit]; decide)⟩)
  | destroyed => exact .inl rfl

/-- The module is removed while the dispatcher thread is blocked. -/
def stoppedAsleep : List ModuleAction :=
  [.threadTest, .act .dispatch, .act (.promote ⟨none, none⟩),
    .act (.demote none), .act .threadSetState, .threadTest,
    .act (.threadSchedule true), .kthreadStop]

theorem unload_completes_stoppedAsleep :
    ∃ m actions final,
      run (step id) (initial 20 0) stoppedAsleep = some m ∧
        m.exit = .stopping ∧
        (∀ action ∈ actions, action.ofKernel = true) ∧
        run (step id) m actions = some final ∧ final.exit = .destroyed := by
  have ran : (run (step id) (initial 20 0) stoppedAsleep).map Module.exit =
      some .stopping := by decide +kernel
  obtain ⟨m, reached, stopping⟩ := Option.map_eq_some_iff.mp ran
  obtain ⟨actions, final, ofKernel, finished, destroyed⟩ :=
    unload_completes 20 0 reached (by simp [stopping])
  exact ⟨m, actions, final, reached, stopping, ofKernel, finished, destroyed⟩

end Module

end LinuxKernelDev.Rms
