import LinuxKernelDev.RmsCacheAccounting
import LinuxKernelDev.RmsLifetime
import LinuxKernelDev.RmsModule

/-!
# What unloading the scheduler leaves behind

A turn of the loop of `cleanuplist` does what `deregister` does, except that it
leaves `currtask` alone, so that `currtask` may end up pointing to a freed PCB.
Nothing reads it any more at that time, and the invariants of the running
module hold for a `currtask` that is forgotten as soon as its PCB leaves the
list.
-/

namespace LinuxKernelDev.Rms

open Function Transition Sched

/-- The state with a `currtask` that is forgotten when its PCB leaves the
list. -/
def Sched.tidy (s : Sched) : Sched :=
  { s with currtask :=
      s.currtask.filter fun node => decide (node ∈ s.mp2listhead) }

theorem Sched.tidy_of_listed {s : Sched}
    (listed : ∀ node, s.currtask = some node → node ∈ s.mp2listhead) :
    s.tidy = s := by
  unfold tidy
  cases current : s.currtask with
  | none =>
      rw [Option.filter_none, ← current]
  | some node =>
      rw [Option.filter_some, if_pos (decide_eq_true (listed node current)),
        ← current]

/-- Taking the first PCB off the list is the critical section of a
`deregister`, up to `currtask`. -/
theorem Sched.tidy_listDel {s : Sched} {cur : Nat}
    (nodup : s.mp2listhead.Nodup) (first : s.mp2listhead.head? = some cur) :
    s.tidy.lookup (s.pcb cur).pid = some cur ∧
      (s.listDel cur).tidy = (s.tidy.deregister (s.pcb cur).pid).1 := by
  obtain ⟨rest, listEq⟩ := List.head?_eq_some_iff.mp first
  have found : s.tidy.lookup (s.pcb cur).pid = some cur := by
    simp [lookup, tidy, listEq]
  refine ⟨found, ?_⟩
  have current : (s.currtask.filter fun node =>
      decide (node ∈ s.mp2listhead.erase cur)) =
        if s.tidy.currtask = some cur then none else s.tidy.currtask := by
    unfold tidy
    cases s.currtask with
    | none => rfl
    | some node =>
        by_cases isCur : node = cur
        · subst isCur
          have listed : node ∈ s.mp2listhead := List.mem_of_head? first
          simp [Option.filter_some, listed, nodup.mem_erase_iff]
        · by_cases listed : node ∈ s.mp2listhead <;>
            simp [Option.filter_some, listed, isCur, List.mem_erase_of_ne]
  rw [deregister, found, tidy, listDel]
  dsimp only
  rw [current]
  rfl

namespace System

variable {msecsToJiffies : Nat → Nat} {s t : System}

def tidy (s : System) : System := { s with sched := s.sched.tidy }

theorem run_of_enabled {action : Action} (enabled : s.Enabled action) :
    run (System.step msecsToJiffies) s [action] =
      some (s.apply msecsToJiffies action) :=
  run_cons_eq_some_iff.mpr ⟨_, if_pos enabled, rfl⟩

/-- Two states agree on all that the invariants of the running module are
about. -/
structure Agrees (s t : System) : Prop where
  sched : s.sched = t.sched
  calls : s.calls = t.calls
  callbacks : s.callbacks = t.callbacks

theorem Sound.of_agrees (sound : s.Sound) (agrees : s.Agrees t) :
    t.Sound :=
  ⟨agrees.sched ▸ sound.sched,
    agrees.sched ▸ agrees.calls ▸ sound.linked⟩

theorem Alive.of_agrees (alive : s.Alive) (agrees : s.Agrees t) :
    t.Alive := by
  refine ⟨agrees.sched ▸ alive.nodup, fun node active => ?_⟩
  have before : s.Active node := by
    rwa [Active, agrees.sched, agrees.callbacks]
  have watched := alive.active node before
  rwa [Watched, agrees.sched, agrees.calls] at watched

theorem Sound.tidy_eq (sound : s.Sound) : s.tidy = s := by
  unfold tidy
  rw [Sched.tidy_of_listed sound.sched.currtask]

/-- Where the dispatcher thread has returned and the mutex is held, actions do
not depend on `currtask`, apart from the wake-up of the thread. -/
theorem tidy_apply (msecsToJiffies : Nat → Nat) {action : Action}
    (enabled : s.Enabled action) (notThread : action.ofThread = false)
    (lockFree : action.locks = false) :
    s.tidy.Enabled action ∧
      (s.tidy.apply msecsToJiffies action).Agrees
        (s.apply msecsToJiffies action).tidy := by
  cases action with
  | unlink | yieldCritical => cases lockFree
  | dispatch | promote | demote | threadSetState | threadSchedule =>
      cases notThread
  | register curnode pid period compTime =>
      refine ⟨enabled, ?_, rfl, rfl⟩
      cases curnode with
      | none => rfl
      | some node =>
          have zero : unsignedLong period = 0 ∨ unsignedLong compTime = 0 := by
            by_contra nonzero
            rw [Action.locks_register (not_or.mp nonzero)] at lockFree
            cases lockFree
          simp only [tidy, apply, taskregister, if_pos zero]
          rfl
  | wakeAfterFree caller =>
      obtain ⟨schedEq, callsEq, callbacksEq, -⟩ :=
        s.apply_wakeAfterFree msecsToJiffies caller
      obtain ⟨tidySched, tidyCalls, tidyCallbacks, -⟩ :=
        s.tidy.apply_wakeAfterFree msecsToJiffies caller
      refine ⟨enabled, ?_, ?_, ?_⟩
      · rw [tidySched, tidy, tidy, schedEq]
      · rw [tidyCalls, tidy, tidy, callsEq]
      · rw [tidyCallbacks, tidy, tidy, callbacksEq]
  | tick | demoteTarget | cancelTimer | freeTarget | yieldWake
  | yieldSetState | yieldSchedule | timerFire | timerWake =>
      exact ⟨enabled, rfl, rfl, rfl⟩

/-- Nor do they add to the list, or take anything off it. -/
theorem apply_lists (msecsToJiffies : Nat → Nat) (s : System)
    {action : Action} (notThread : action.ofThread = false)
    (lockFree : action.locks = false) :
    (s.apply msecsToJiffies action).sched.mp2listhead =
        s.sched.mp2listhead ∧
      (s.apply msecsToJiffies action).sched.unlinked ⊆ s.sched.unlinked := by
  cases action with
  | unlink | yieldCritical => cases lockFree
  | dispatch | promote | demote | threadSetState | threadSchedule =>
      cases notThread
  | register curnode pid period compTime =>
      rcases s.sched.taskregister_outcome curnode pid (unsignedLong period)
        (unsignedLong compTime) s.jiffies with
          ⟨-, result⟩ | ⟨node, -, -, result⟩ | ⟨node, -, -, result⟩ |
            ⟨node, rfl, usum, nonzero, -, -, result⟩
      · simp [apply, result]
      · simp [apply, result]
      · simp [apply, result, Sched.setPcb]
      · rw [Action.locks_register nonzero] at lockFree
        cases lockFree
  | wakeAfterFree caller =>
      rw [(s.apply_wakeAfterFree msecsToJiffies caller).1]
      exact ⟨rfl, fun _ => id⟩
  | freeTarget => exact ⟨rfl, List.erase_subset⟩
  | demoteTarget | tick | cancelTimer | yieldWake | yieldSetState
  | yieldSchedule | timerFire | timerWake => exact ⟨rfl, fun _ => id⟩

theorem apply_linuxTask (msecsToJiffies : Nat → Nat) (s : System)
    {action : Action} (notThread : action.ofThread = false)
    (lockFree : action.locks = false) (node : Nat) :
    ((s.apply msecsToJiffies action).sched.pcb node).linuxTask =
      (s.sched.pcb node).linuxTask := by
  cases action with
  | unlink | yieldCritical => cases lockFree
  | dispatch | promote | demote | threadSetState | threadSchedule =>
      cases notThread
  | register curnode pid period compTime =>
      rcases s.sched.taskregister_outcome curnode pid (unsignedLong period)
        (unsignedLong compTime) s.jiffies with
          ⟨-, result⟩ | ⟨_, -, -, result⟩ | ⟨_, rfl, nonzero, -⟩ |
            ⟨_, rfl, _, nonzero, -⟩
      · simp [apply, result]
      · simp [apply, result]
      · rw [Action.locks_register nonzero] at lockFree
        cases lockFree
      · rw [Action.locks_register nonzero] at lockFree
        cases lockFree
  | wakeAfterFree caller =>
      rw [(s.apply_wakeAfterFree msecsToJiffies caller).1]
  | cancelTimer caller target =>
      by_cases isTarget : node = target
      · subst isTarget
        simp [apply, delTimer, Sched.setPcb]
      · simp [apply, delTimer, Sched.setPcb, isTarget]
  | timerFire temp =>
      by_cases isTemp : node = temp
      · subst isTemp
        simp [apply, timercb, Sched.setPcb]
      · simp [apply, timercb, Sched.setPcb, isTemp]
  | tick | demoteTarget | freeTarget | yieldWake | yieldSetState
  | yieldSchedule | timerWake => rfl

/-- Only the dispatcher thread raises the priority of a task. -/
theorem fifo_of_apply {action : Action} (notThread : action.ofThread = false)
    {task : Int32}
    (raised : (s.apply msecsToJiffies action).fifo task = true) :
    s.fifo task = true := by
  cases action with
  | dispatch | promote | demote | threadSetState | threadSchedule =>
      cases notThread
  | demoteTarget caller target =>
      simp only [apply, demoteTask, setCall, update_apply] at raised
      split_ifs at raised
      exact raised
  | wakeAfterFree caller =>
      simp only [apply] at raised
      split_ifs at raised <;> exact raised
  | tick | register | unlink | cancelTimer | freeTarget | yieldCritical
  | yieldWake | yieldSetState | yieldSchedule | timerFire | timerWake =>
      exact raised

end System

namespace Module

/-- No `taskregister` is called once `cleanuplist` has returned. -/
def RegistersInTime (m : Module) (action : ModuleAction) : Prop :=
  action.registers = true → m.exit.afterCleanup = false

/-- Moreover no `deregister` has yet to free its PCB when the cache is
destroyed. -/
def CallsDrained (m : Module) (action : ModuleAction) : Prop :=
  m.RegistersInTime action ∧
    (action = .cacheDestroy → m.system.sched.unlinked = [])

instance (m : Module) (action : ModuleAction) :
    Decidable (m.RegistersInTime action) :=
  inferInstanceAs (Decidable (_ → _))

instance (m : Module) (action : ModuleAction) :
    Decidable (m.CallsDrained action) :=
  inferInstanceAs (Decidable (_ ∧ _))

/-- The invariants of the running module, up to a `currtask` that dangles after
its PCB is taken off the list by `cleanuplist`. -/
structure Kept (m : Module) : Prop where
  ordered : m.Ordered
  sound : m.system.tidy.Sound
  alive : m.system.tidy.Alive
  current : m.exit.threadCleared = false → m.system.tidy = m.system
  swept : m.exit.afterCleanup = true → m.system.sched.mp2listhead = []

namespace Kept

variable {msecsToJiffies : Nat → Nat} {m : Module}

theorem initial (rmmod : Int32) (jiffies : Nat) :
    (Module.initial rmmod jiffies).Kept where
  ordered := Ordered.initial rmmod jiffies
  sound := System.Sound.initial jiffies
  alive := System.Alive.initial jiffies
  current _ := rfl
  swept late := by cases late

/-- Once `dispathread` is `NULL`, the thread has returned and no critical
section is entered. -/
theorem late_action (kept : m.Kept) {action : Action}
    (enabled : m.Enabled (.act action))
    (inTime : m.RegistersInTime (.act action))
    (late : m.exit.threadCleared = true) :
    action.ofThread = false ∧ action.locks = false := by
  have notThread := kept.ordered.notThread_of_threadCleared enabled late
  refine ⟨notThread, ?_⟩
  rw [Bool.eq_false_iff]
  intro locks
  have after := Exit.afterCleanup_of_threadCleared late
    (enabled.2.2.2.2 locks)
  have swept := kept.swept after
  cases action with
  | register =>
      have early : m.exit.afterCleanup = false := inTime rfl
      rw [after] at early
      cases early
  | unlink caller pid target =>
      have found := enabled.1.2
      simp [lookup, swept] at found
  | yieldCritical task =>
      have found := enabled.1.2
      simp [lookup, swept] at found
  | dispatch => cases notThread
  | _ => cases locks

/-- A step that the running module could make as well, up to `currtask` and
the thread. -/
theorem of_run (kept : m.Kept) {next : Module} (ordered : next.Ordered)
    {actions : List Action} {below : System}
    (taken : run (System.step msecsToJiffies) m.system.tidy actions =
      some below) (agrees : below.Agrees next.system.tidy)
    (current : next.exit.threadCleared = false →
      next.system.tidy = next.system)
    (swept : next.exit.afterCleanup = true →
      next.system.sched.mp2listhead = []) : next.Kept := by
  have both : below.Sound ∧ below.Alive :=
    invariant_of_run (fun s => s.Sound ∧ s.Alive)
      (fun _ _ _ before taken =>
        ⟨before.1.step taken, before.2.step before.1 taken⟩)
      ⟨kept.sound, kept.alive⟩ taken
  exact ⟨ordered, both.1.of_agrees agrees, both.2.of_agrees agrees, current,
    swept⟩

theorem act (kept : m.Kept) {action : Action}
    (enabled : m.Enabled (.act action))
    (inTime : m.RegistersInTime (.act action)) :
    (m.apply msecsToJiffies (.act action)).Kept := by
  have ordered : (m.apply msecsToJiffies (.act action)).Ordered :=
    kept.ordered.act enabled
  cases cleared : m.exit.threadCleared with
  | true =>
      obtain ⟨notThread, lockFree⟩ := kept.late_action enabled inTime cleared
      obtain ⟨tidyEnabled, agrees⟩ := System.tidy_apply msecsToJiffies
        enabled.1 notThread lockFree
      refine kept.of_run ordered (System.run_of_enabled tidyEnabled)
        ⟨agrees.sched, agrees.calls, agrees.callbacks⟩ (fun early => ?_)
        fun after => ?_
      · exact absurd (cleared.symm.trans early) Bool.noConfusion
      · exact (m.system.apply_lists msecsToJiffies notThread
          lockFree).1.trans (kept.swept after)
  | false =>
      have systemEq : (m.apply msecsToJiffies (.act action)).system =
          m.system.apply msecsToJiffies action := by
        simp only [Module.apply, cleared, Bool.false_eq_true, if_false]
      have same := kept.current cleared
      have sound : m.system.Sound := same ▸ kept.sound
      have tidyNext :
          (m.apply msecsToJiffies (.act action)).system.tidy =
            m.system.apply msecsToJiffies action := by
        rw [systemEq]
        exact (sound.step (if_pos enabled.1)).tidy_eq
      have taken : run (System.step msecsToJiffies) m.system.tidy [action] =
          some (m.system.apply msecsToJiffies action) := by
        rw [same]
        exact System.run_of_enabled enabled.1
      refine kept.of_run ordered taken ?_
        (fun _ => tidyNext.trans systemEq.symm) fun after => ?_
      · rw [tidyNext]
        exact ⟨rfl, rfl, rfl⟩
      · exact absurd (cleared.symm.trans
          (Exit.threadCleared_of_afterCleanup after)) Bool.noConfusion

/-- A step of the loop of `cleanuplist`. -/
theorem of_turn (kept : m.Kept) (cleaning : m.exit = .cleaning)
    {system : System}
    (ordered : ({ m with system := system } : Module).Ordered)
    {actions : List Action} {below : System}
    (taken : run (System.step msecsToJiffies) m.system.tidy actions =
      some below) (agrees : below.Agrees system.tidy) :
    ({ m with system := system } : Module).Kept := by
  refine kept.of_run ordered taken agrees (fun early => ?_) fun after => ?_
  · rw [show m.exit = .cleaning from cleaning] at early
    cases early
  · rw [show m.exit = .cleaning from cleaning] at after
    cases after

/-- A step of `mp2_exit` that leaves the system as it is. -/
theorem of_exit (kept : m.Kept) {exit : Exit}
    (ordered : ({ m with exit := exit } : Module).Ordered)
    (current : exit.threadCleared = false → m.exit.threadCleared = false)
    (swept : exit.afterCleanup = true → m.system.sched.mp2listhead = []) :
    ({ m with exit := exit } : Module).Kept :=
  ⟨ordered, kept.sound, kept.alive, fun early => kept.current (current early),
    swept⟩

theorem step (kept : m.Kept) {action : ModuleAction} {next : Module}
    (inTime : m.RegistersInTime action)
    (taken : m.step msecsToJiffies action = some next) : next.Kept := by
  have ordered := kept.ordered.step taken
  obtain ⟨enabled, rfl⟩ := step_eq_some_iff.mp taken
  cases action with
  | act action => exact kept.act enabled inTime
  | threadTest =>
      simp only [Module.apply] at ordered ⊢
      split_ifs at ordered ⊢ <;>
        exact ⟨ordered, kept.sound, kept.alive, kept.current, kept.swept⟩
  | kthreadStop =>
      have same : m.system.tidy = m.system :=
        kept.current (by rw [enabled.1]; rfl)
      exact ⟨ordered, kept.sound.of_agrees ⟨rfl, rfl, rfl⟩,
        kept.alive.of_agrees ⟨rfl, rfl, rfl⟩,
        fun _ => congrArg System.wakethread same, fun after => by cases after⟩
  | kthreadJoin =>
      exact kept.of_exit ordered (fun _ => by rw [enabled.1]; rfl)
        fun after => by cases after
  | lockList =>
      exact kept.of_exit ordered (fun early => by cases early)
        fun after => by cases after
  | listDel cur =>
      obtain ⟨cleaning, isIdle, first⟩ := enabled
      have nodup : m.system.sched.mp2listhead.Nodup := kept.sound.sched.nodup
      obtain ⟨found, delEq⟩ := Sched.tidy_listDel nodup first
      have unlinks : m.system.tidy.Enabled
          (.unlink m.rmmod (m.system.sched.pcb cur).pid cur) :=
        ⟨isIdle, found⟩
      have taken : run (System.step msecsToJiffies) m.system.tidy _ = _ :=
        System.run_of_enabled unlinks
      exact kept.of_turn cleaning ordered taken ⟨delEq.symm, rfl, rfl⟩
  | demoteCur cur =>
      obtain ⟨tidyEnabled, agrees⟩ := System.tidy_apply msecsToJiffies
        enabled.2 rfl rfl
      exact kept.of_turn enabled.1 ordered
        (System.run_of_enabled tidyEnabled) agrees
  | delTimerSync cur =>
      obtain ⟨tidyEnabled, agrees⟩ := System.tidy_apply msecsToJiffies
        enabled.2 rfl rfl
      exact kept.of_turn enabled.1 ordered
        (System.run_of_enabled tidyEnabled) agrees
  | freeCur cur =>
      obtain ⟨tidyEnabled, -⟩ := System.tidy_apply msecsToJiffies
        enabled.2 rfl rfl
      have freed : (m.system.tidy.apply msecsToJiffies
          (.freeTarget m.rmmod cur)).Enabled (.wakeAfterFree m.rmmod) :=
        update_self _ _ _
      have taken : run (System.step msecsToJiffies) m.system.tidy
          [.freeTarget m.rmmod cur, .wakeAfterFree m.rmmod] = _ :=
        run_cons_eq_some_iff.mpr
          ⟨_, if_pos tidyEnabled, System.run_of_enabled freed⟩
      obtain ⟨schedEq, callsEq, callbacksEq, -⟩ :=
        (m.system.tidy.apply msecsToJiffies
          (.freeTarget m.rmmod cur)).apply_wakeAfterFree msecsToJiffies m.rmmod
      exact kept.of_turn enabled.1 ordered taken
        ⟨schedEq, callsEq, callbacksEq⟩
  | unlockList =>
      exact kept.of_exit ordered (fun early => by cases early)
        fun _ => enabled.2.2
  | cacheDestroy =>
      have cleaned : m.exit = .cleaned := enabled
      exact kept.of_exit ordered (fun early => by cases early)
        fun _ => kept.swept (by rw [cleaned]; rfl)

end Kept

end Module

/-- The PCBs that are lost by an action. -/
def Action.lost : Action → List Nat
  | .register curnode _ period compTime =>
      forgotten curnode (unsignedLong period) (unsignedLong compTime)
  | _ => []

def ModuleAction.lost : ModuleAction → List Nat
  | .act action => action.lost
  | _ => []

/-- The PCBs are accounted for by every action of the concurrent system. -/
theorem Accounted.act {s : System} {lost : List Nat}
    (accounted : Accounted s.sched lost)
    (linked : Linked s.sched.unlinked s.calls) (msecsToJiffies : Nat → Nat)
    {action : Action} (enabled : s.Enabled action) :
    Accounted (s.apply msecsToJiffies action).sched (lost ++ action.lost) := by
  have kept : ∀ {t : Sched}, Accounted t lost → Accounted t (lost ++ []) :=
    fun same => (List.append_nil lost).symm ▸ same
  cases action with
  | register curnode pid period compTime =>
      exact accounted.taskregister curnode pid _ _ s.jiffies
  | unlink caller pid target => exact kept (accounted.deregister pid)
  | freeTarget caller target =>
      have target := linked.targets caller target (by rw [enabled]; rfl)
      exact kept (accounted.release target)
  | wakeAfterFree caller =>
      rw [(s.apply_wakeAfterFree msecsToJiffies caller).1]
      exact kept accounted
  | yieldCritical task =>
      refine kept (accounted.of_frame ?_ ?_ ?_) <;>
      · simp only [System.apply, taskyield]
        cases s.sched.lookup task <;> rfl
  | dispatch =>
      obtain ⟨listed, allocated, unlinked, -⟩ := s.sched.dispatcher_frame
      exact kept (accounted.of_frame allocated listed unlinked)
  | promote switch =>
      refine kept ?_
      simpa [System.apply] using accounted
  | demote demtaskptr =>
      refine kept ?_
      simpa [System.apply] using accounted
  | tick | demoteTarget | cancelTimer | yieldWake | yieldSetState
  | yieldSchedule | timerFire | timerWake | threadSetState
  | threadSchedule => exact kept (accounted.of_frame rfl rfl rfl)

namespace Module

variable {msecsToJiffies : Nat → Nat} {m : Module}

theorem accounted_of_step (kept : m.Kept) {lost : List Nat}
    (accounted : Accounted m.system.sched lost) {action : ModuleAction}
    {next : Module} (taken : m.step msecsToJiffies action = some next) :
    Accounted next.system.sched (lost ++ action.lost) := by
  have linked : Linked m.system.sched.unlinked m.system.calls :=
    kept.sound.linked
  have same : Accounted m.system.sched (lost ++ []) :=
    (List.append_nil lost).symm ▸ accounted
  obtain ⟨enabled, rfl⟩ := step_eq_some_iff.mp taken
  cases action with
  | act action => exact accounted.act linked msecsToJiffies enabled.1
  | threadTest =>
      simp only [Module.apply]
      split_ifs <;> exact same
  | listDel cur =>
      have nodup : m.system.sched.mp2listhead.Nodup := kept.sound.sched.nodup
      obtain ⟨-, delEq⟩ := Sched.tidy_listDel nodup enabled.2.2
      have tidied : Accounted m.system.sched.tidy (lost ++ []) :=
        same.of_frame rfl rfl rfl
      have unlinked := tidied.deregister (m.system.sched.pcb cur).pid
      rw [← delEq] at unlinked
      exact unlinked.of_frame rfl rfl rfl
  | demoteCur cur => exact accounted.act linked msecsToJiffies enabled.2
  | delTimerSync cur => exact accounted.act linked msecsToJiffies enabled.2
  | freeCur cur => exact accounted.act linked msecsToJiffies enabled.2
  | kthreadStop | kthreadJoin | lockList | unlockList | cacheDestroy =>
      exact same

/-- What is known of the module, with the PCBs that have been lost, if the
calls are drained. -/
structure Balanced (m : Module) (lost : List Nat) : Prop where
  kept : m.Kept
  accounted : Accounted m.system.sched lost
  drained : m.exit = .destroyed → m.system.sched.unlinked = []

theorem Balanced.initial (rmmod : Int32) (jiffies : Nat) :
    (Module.initial rmmod jiffies).Balanced [] where
  kept := Kept.initial rmmod jiffies
  accounted := Accounted.initial
  drained late := by cases late

theorem Balanced.step {lost : List Nat} (balanced : m.Balanced lost)
    {action : ModuleAction} (allowed : m.CallsDrained action) {next : Module}
    (taken : m.step msecsToJiffies action = some next) :
    next.Balanced (lost ++ action.lost) := by
  have kept := balanced.kept
  refine ⟨kept.step allowed.1 taken,
    accounted_of_step kept balanced.accounted taken, fun late => ?_⟩
  obtain ⟨enabled, rfl⟩ := step_eq_some_iff.mp taken
  cases action with
  | act action =>
      have destroyed : m.exit = .destroyed := late
      obtain ⟨notThread, lockFree⟩ := kept.late_action enabled allowed.1
        (by rw [destroyed]; rfl)
      have shrinks :=
        (m.system.apply_lists msecsToJiffies notThread lockFree).2
      rw [balanced.drained destroyed] at shrinks
      exact List.eq_nil_of_subset_nil shrinks
  | cacheDestroy => exact allowed.2 rfl
  | threadTest =>
      simp only [Module.apply] at late ⊢
      split_ifs at late ⊢ <;> exact balanced.drained late
  | kthreadStop | kthreadJoin | lockList | unlockList => cases late
  | listDel | demoteCur | delTimerSync | freeCur =>
      have destroyed : m.exit = .destroyed := late
      exact absurd (enabled.1.symm.trans destroyed) Exit.noConfusion

/-- From the load of the module to its removal, timers and callbacks belong to
allocated PCBs.  When the cache is destroyed, provided that the calls are
drained, no timer is pending, no callback is running, and the PCBs that remain
are those lost by registrations with a zero. -/
theorem unload_outcome (rmmod : Int32) (jiffies : Nat)
    (actions : List ModuleAction)
    (permits : Permits (step msecsToJiffies) CallsDrained
      (initial rmmod jiffies) actions)
    (reached : run (step msecsToJiffies) (initial rmmod jiffies) actions =
      some m) :
    (∀ node, m.system.Active node → node ∈ m.system.sched.allocated) ∧
      (m.exit = .destroyed →
        (∀ node, ¬m.system.Active node) ∧ m.system.sched.mp2listhead = [] ∧
          m.system.sched.allocated.Perm
            (actions.flatMap ModuleAction.lost)) := by
  obtain ⟨kept, accounted, drained⟩ := history_of_permits Balanced
    ModuleAction.lost
    (fun _ _ _ _ balanced allowed taken => balanced.step allowed taken)
    (Balanced.initial rmmod jiffies) permits reached
  refine ⟨fun node active =>
    (kept.alive.active node active).mem_allocated kept.sound,
    fun destroyed => ?_⟩
  have swept := kept.swept (by rw [destroyed]; rfl)
  refine ⟨fun node active => ?_, swept, List.perm_iff_count.mpr
    fun node => ?_⟩
  · rcases kept.alive.active node active with listed | ⟨caller, held⟩
    · have listed : node ∈ m.system.sched.mp2listhead := listed
      rw [swept] at listed
      exact List.not_mem_nil listed
    · have unlinked : node ∈ m.system.sched.unlinked :=
        kept.sound.linked.targets caller node
          (Call.target_of_uncancelled held)
      rw [drained destroyed] at unlinked
      exact List.not_mem_nil unlinked
  · have counted := accounted node
    rw [swept, drained destroyed] at counted
    simpa using counted

/-- A task yields and is removed while its timer fires.  The PCB of a second
task, whose period is zero, is lost. -/
def removedAsleep : List ModuleAction :=
  [.act (.register (some 0) 10 100 20), .act (.register (some 1) 11 0 5),
    .act (.yieldCritical 10), .kthreadStop, .threadTest, .kthreadJoin,
    .lockList, .listDel 0, .act (.tick 200), .act (.timerFire 0),
    .demoteCur 0, .act (.timerWake 0), .delTimerSync 0, .freeCur 0,
    .unlockList, .cacheDestroy]

theorem unload_outcome_removedAsleep :
    ∃ m, run (step id) (initial 20 0) removedAsleep = some m ∧
      m.exit = .destroyed ∧ (∀ node, ¬m.system.Active node) ∧
      m.system.sched.allocated.Perm [1] := by
  have ran : (run (step id) (initial 20 0) removedAsleep).map Module.exit =
      some .destroyed := by decide +kernel
  obtain ⟨m, reached, destroyed⟩ := Option.map_eq_some_iff.mp ran
  obtain ⟨inactive, -, remaining⟩ := (unload_outcome 20 0 removedAsleep
    (by decide +kernel) reached).2 destroyed
  exact ⟨m, reached, destroyed, inactive, remaining⟩

/-- What has become of the PCBs that were on the list at some time in the loop
of `cleanuplist`, and of the priorities of their tasks. -/
structure Demotes (start m : Module) : Prop where
  cleared : m.exit.threadCleared = true
  fewer : ∀ task, m.system.fifo task = true → start.system.fifo task = true
  demoted : ∀ node ∈ start.system.sched.mp2listhead,
    m.system.fifo (start.system.sched.pcb node).linuxTask = false ∨
      m.exit = .cleaning ∧
        (node ∈ m.system.sched.mp2listhead ∨
          m.system.calls m.rmmod = .unlinked node) ∧
        (m.system.sched.pcb node).linuxTask =
          (start.system.sched.pcb node).linuxTask

namespace Demotes

variable {start : Module}

/-- A task that is not at `SCHED_FIFO` stays so, and the other PCBs stay in the
loop. -/
theorem of_frame (demotes : start.Demotes m) {next : Module}
    (cleared : next.exit.threadCleared = true)
    (fifo : ∀ task, next.system.fifo task = true →
      m.system.fifo task = true)
    (remains : ∀ node, m.exit = .cleaning →
      (node ∈ m.system.sched.mp2listhead ∨
        m.system.calls m.rmmod = .unlinked node) →
      next.system.fifo (m.system.sched.pcb node).linuxTask = false ∨
        next.exit = .cleaning ∧
          (node ∈ next.system.sched.mp2listhead ∨
            next.system.calls next.rmmod = .unlinked node) ∧
          (next.system.sched.pcb node).linuxTask =
            (m.system.sched.pcb node).linuxTask) : start.Demotes next := by
  refine ⟨cleared, fun task raised => demotes.fewer task (fifo task raised),
    fun node listed => ?_⟩
  rcases demotes.demoted node listed with lowered |
    ⟨cleaning, present, taskEq⟩
  · refine .inl (Bool.eq_false_iff.mpr fun raised => ?_)
    rw [fifo _ raised] at lowered
    cases lowered
  · rw [← taskEq]
    exact remains node cleaning present

theorem act (demotes : start.Demotes m) (ordered : m.Ordered)
    {action : Action} (enabled : m.Enabled (.act action)) :
    start.Demotes (m.apply msecsToJiffies (.act action)) := by
  have cleared := demotes.cleared
  have late : m.exit ≠ .loaded := fun loaded => by
    rw [loaded] at cleared
    cases cleared
  have notThread := ordered.notThread_of_threadCleared enabled cleared
  refine demotes.of_frame cleared
    (fun task raised => System.fifo_of_apply notThread raised)
    fun node cleaning present => .inr ⟨cleaning, ?_, ?_⟩
  all_goals
    have lockFree : action.locks = false :=
      Bool.eq_false_iff.mpr fun locks => enabled.2.2.2.2 locks cleaning
  · refine present.imp (fun listed => ?_) fun held =>
      (ordered.act_calls enabled late).trans held
    rwa [show (m.apply msecsToJiffies (.act action)).system.sched.mp2listhead =
      m.system.sched.mp2listhead from
        (m.system.apply_lists msecsToJiffies notThread lockFree).1]
  · exact m.system.apply_linuxTask msecsToJiffies notThread lockFree node

theorem step (demotes : start.Demotes m) (ordered : m.Ordered)
    {action : ModuleAction} {next : Module}
    (taken : m.step msecsToJiffies action = some next) :
    start.Demotes next := by
  have cleared := demotes.cleared
  obtain ⟨enabled, rfl⟩ := step_eq_some_iff.mp taken
  cases action with
  | act action => exact demotes.act ordered enabled
  | threadTest =>
      have returned := ordered.returned_of_threadCleared cleared
      exact absurd (enabled.1.symm.trans returned) Bool.noConfusion
  | kthreadStop | kthreadJoin =>
      rw [enabled.1] at cleared
      cases cleared
  | lockList =>
      rw [show m.exit = .stopped from enabled] at cleared
      cases cleared
  | listDel cur =>
      obtain ⟨cleaning, isIdle, -⟩ := enabled
      refine demotes.of_frame cleared (fun _ => id)
        fun node _ present => .inr ⟨cleaning, ?_, rfl⟩
      have listed := present.resolve_right (by simp [isIdle])
      by_cases isCur : node = cur
      · subst isCur
        exact .inr (update_self _ _ _)
      · exact .inl ((List.mem_erase_of_ne isCur).mpr listed)
  | demoteCur cur =>
      obtain ⟨cleaning, unlinked⟩ := enabled
      have lowers : ∀ task, (m.system.apply msecsToJiffies
          (.demoteTarget m.rmmod cur)).fifo task = true →
            m.system.fifo task = true := fun _ => System.fifo_of_apply rfl
      refine demotes.of_frame cleared lowers fun node _ present => ?_
      rcases present with listed | held
      · exact .inr ⟨cleaning, .inl listed, rfl⟩
      · obtain rfl : node = cur :=
          Call.unlinked.inj (held.symm.trans unlinked)
        exact .inl (update_self _ _ _)
  | delTimerSync cur =>
      obtain ⟨cleaning, located, -⟩ := enabled
      have taskEq : ∀ node, ((m.system.apply msecsToJiffies
          (.cancelTimer m.rmmod cur)).sched.pcb node).linuxTask =
            (m.system.sched.pcb node).linuxTask :=
        m.system.apply_linuxTask msecsToJiffies rfl rfl
      refine demotes.of_frame cleared (fun _ => id)
        fun node _ present => .inr ⟨cleaning, .inl ?_, taskEq node⟩
      exact present.resolve_right (by simp [located])
  | freeCur cur =>
      obtain ⟨cleaning, located⟩ := enabled
      refine demotes.of_frame cleared (fun _ => id)
        fun node _ present => .inr ⟨cleaning, .inl ?_, rfl⟩
      exact present.resolve_right fun held => by
        cases held.symm.trans located
  | unlockList =>
      obtain ⟨-, isIdle, empty⟩ := enabled
      refine demotes.of_frame rfl (fun _ => id) fun node _ present => ?_
      simp [isIdle, empty] at present
  | cacheDestroy =>
      refine demotes.of_frame rfl (fun _ => id) fun node cleaning _ => ?_
      exact absurd (cleaning.symm.trans enabled) Exit.noConfusion

end Demotes

/-- A task that is at `SCHED_FIFO` after `cleanuplist` was so before, and had
no PCB on the list. -/
theorem unload_demotes (rmmod : Int32) (jiffies : Nat) {start final : Module}
    {before actions : List ModuleAction}
    (reached : run (step msecsToJiffies) (initial rmmod jiffies) before =
      some start) (cleaning : start.exit = .cleaning)
    (finished : run (step msecsToJiffies) start actions = some final)
    (after : final.exit.afterCleanup = true) (task : Int32)
    (raised : final.system.fifo task = true) :
    start.system.fifo task = true ∧
      ∀ node ∈ start.system.sched.mp2listhead,
        (start.system.sched.pcb node).linuxTask ≠ task := by
  have ordered : start.Ordered := invariant_of_run Ordered
    (fun _ _ _ ordered taken => ordered.step taken)
    (Ordered.initial rmmod jiffies) reached
  have begins : start.Demotes start :=
    ⟨by rw [cleaning]; rfl, fun _ => id,
      fun node listed => .inr ⟨cleaning, .inl listed, rfl⟩⟩
  have demotes := (invariant_of_run
    (fun m => m.Ordered ∧ start.Demotes m)
    (fun _ _ _ both taken =>
      ⟨both.1.step taken, both.2.step both.1 taken⟩)
    ⟨ordered, begins⟩ finished).2
  refine ⟨demotes.fewer task raised, fun node listed isTask => ?_⟩
  rcases demotes.demoted node listed with lowered | ⟨still, -⟩
  · rw [isTask, raised] at lowered
    cases lowered
  · rw [still] at after
    cases after

/-- A task is promoted after it has been deregistered, and the module is removed
while another task is registered. -/
def promotedLate : List ModuleAction :=
  [.act (.register (some 0) 10 100 20), .act (.register (some 1) 11 100 20),
    .act (.yieldCritical 10), .act (.tick 200), .act (.timerFire 0),
    .act (.timerWake 0), .threadTest, .act .dispatch,
    .act (.unlink 30 10 0), .act (.demoteTarget 30 0),
    .act (.cancelTimer 30 0), .act (.freeTarget 30 0),
    .act (.promote ⟨some 10, none⟩), .kthreadStop, .act (.demote none),
    .act .threadSetState, .threadTest, .kthreadJoin, .lockList]

theorem unload_demotes_promotedLate :
    ∃ start final, run (step id) (initial 20 0) promotedLate = some start ∧
      run (step id) start [.listDel 1, .demoteCur 1, .delTimerSync 1,
        .freeCur 1, .unlockList] = some final ∧
      final.system.fifo 10 = true ∧
      ∀ node ∈ start.system.sched.mp2listhead,
        (start.system.sched.pcb node).linuxTask ≠ 10 := by
  have ran : ((run (step id) (initial 20 0) promotedLate).bind fun start =>
      (run (step id) start [.listDel 1, .demoteCur 1, .delTimerSync 1,
        .freeCur 1, .unlockList]).map fun final =>
          (start.exit, final.exit, final.system.fifo 10)) =
        some (.cleaning, .cleaned, true) := by decide +kernel
  obtain ⟨start, reached, rest⟩ := Option.bind_eq_some_iff.mp ran
  obtain ⟨final, finished, observed⟩ := Option.map_eq_some_iff.mp rest
  obtain ⟨cleaning, cleaned, raised⟩ : start.exit = .cleaning ∧
      final.exit = .cleaned ∧ final.system.fifo 10 = true := by
    simpa using observed
  have outcome := unload_demotes 20 0 reached cleaning finished
    (by rw [cleaned]; rfl) 10 raised
  exact ⟨start, final, reached, finished, raised, outcome.2⟩

end Module

end LinuxKernelDev.Rms
