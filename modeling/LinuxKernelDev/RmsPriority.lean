import LinuxKernelDev.RmsConcurrency

/-!
# Tasks at real-time priority

`dispatcher` changes scheduling policies after it has released the mutex.  The
task it demotes stays known to the dispatcher thread until then, but the task
it promotes may meanwhile have been deregistered, or may have yielded; it is
then left at `SCHED_FIFO` without being current.
-/

namespace LinuxKernelDev.Rms

open Function Transition Sched

/-- The tasks whose policy the rest of a call of `dispatcher` resets. -/
def Thread.demtaskptr : Thread → Option Int32
  | .promoting switch => switch.demtaskptr
  | .demoting demtaskptr => demtaskptr
  | _ => none

/-- The task that a call of `dispatcher` has yet to promote. -/
def Thread.protaskptr : Thread → Option Int32
  | .promoting switch => switch.protaskptr
  | _ => none

/-- The thread is between the critical section of `dispatcher` and its
return. -/
def Thread.Switching : Thread → Prop
  | .promoting _ | .demoting _ => True
  | _ => False

instance (thread : Thread) : Decidable thread.Switching := by
  cases thread <;> first | exact isTrue trivial | exact isFalse id

@[simp]
theorem Thread.demtaskptr_wake (thread : Thread) :
    thread.wake.demtaskptr = thread.demtaskptr := by
  cases thread <;> rfl

@[simp]
theorem Thread.protaskptr_wake (thread : Thread) :
    thread.wake.protaskptr = thread.protaskptr := by
  cases thread <;> rfl

/-- A `taskyield` that will block unless the task is woken. -/
def Call.Yielding : Call → Prop
  | .yielded | .notified | .waiting true | .blocked => True
  | _ => False

theorem setPcb_linuxTask (s : Sched) (node : Nat) (pcb : Pcb)
    (taskEq : pcb.linuxTask = (s.pcb node).linuxTask) (other : Nat) :
    ((s.setPcb node pcb).pcb other).linuxTask = (s.pcb other).linuxTask := by
  by_cases same : other = node
  · subst same
    simp [Sched.setPcb, taskEq]
  · simp [Sched.setPcb, same]

namespace System

/-- The PCB of a task is `currtask`. -/
def Current (s : System) (task : Int32) : Prop :=
  ∃ node, s.sched.currtask = some node ∧ (s.sched.pcb node).linuxTask = task

/-- Every task at `SCHED_FIFO` is current, or blocked in `taskyield`. -/
def FifoCurrent (s : System) : Prop :=
  ∀ task, s.fifo task = true → s.calls task ≠ .blocked → s.Current task

/-- No critical section for a task is entered while the dispatcher thread is
about to promote that task. -/
def KeepsPromoted (s : System) : Action → Prop
  | .unlink _ pid _ => s.thread.protaskptr ≠ some pid
  | .yieldCritical task => s.thread.protaskptr ≠ some task
  | _ => True

instance (s : System) (action : Action) : Decidable (s.KeepsPromoted action) :=
  match action with
  | .unlink _ pid _ | .yieldCritical pid =>
      inferInstanceAs (Decidable (s.thread.protaskptr ≠ some pid))
  | .tick _ | .register _ _ _ _ | .demoteTarget _ _ | .cancelTimer _ _
  | .freeTarget _ _ | .wakeAfterFree _ | .yieldWake _ | .yieldSetState _
  | .yieldSchedule _ _ | .timerFire _ | .timerWake _ | .dispatch | .promote _
  | .demote _ | .threadSetState | .threadSchedule _ => isTrue trivial

/-- Why a task may be at `SCHED_FIFO`: it is current, or the dispatcher thread
or a `deregister` will reset it, or it is going to sleep. -/
inductive Entitled (s : System) (task : Int32) : Prop where
  | current (current : s.Current task)
  | demoted (pending : s.thread.demtaskptr = some task)
  | deregistered (caller : Int32) (target : Nat)
      (call : s.calls caller = .unlinked target)
      (isTask : (s.sched.pcb target).linuxTask = task)
  | yielding (yielding : (s.calls task).Yielding)

/-- The invariant of runs that keep promoted tasks. -/
structure Prioritized (s : System) : Prop where
  fifo : ∀ task, s.fifo task = true → s.Entitled task
  promoted : ∀ task, s.thread.protaskptr = some task → s.Current task

variable {s next : System} {task : Int32}

/-- Steps that keep `currtask`, the tasks of PCBs and what is pending. -/
theorem Entitled.of_frame (entitled : s.Entitled task)
    (current : s.Current task → next.Current task)
    (pending : s.thread.demtaskptr = some task →
      next.thread.demtaskptr = some task)
    (calls : ∀ caller target, s.calls caller = .unlinked target →
      next.calls caller = .unlinked target)
    (tasks : ∀ caller target, s.calls caller = .unlinked target →
      (next.sched.pcb target).linuxTask = (s.sched.pcb target).linuxTask)
    (yielding : (s.calls task).Yielding → (next.calls task).Yielding) :
    next.Entitled task := by
  cases entitled with
  | current isCurrent => exact .current (current isCurrent)
  | demoted isPending => exact .demoted (pending isPending)
  | deregistered caller target call isTask =>
      exact .deregistered caller target (calls caller target call)
        ((tasks caller target call).trans isTask)
  | yielding isYielding => exact .yielding (yielding isYielding)

namespace Prioritized

variable {msecsToJiffies : Nat → Nat}

theorem initial (jiffies : Nat) : (System.initial jiffies).Prioritized where
  fifo _ high := by cases high
  promoted _ pending := by cases pending

/-- Actions after which `currtask`, the tasks of PCBs, the policies and the
plans of the thread are as before. -/
theorem of_frame (prioritized : s.Prioritized)
    (currtask : next.sched.currtask = s.sched.currtask)
    (tasks : ∀ node, (next.sched.pcb node).linuxTask =
      (s.sched.pcb node).linuxTask)
    (demtaskptr : next.thread.demtaskptr = s.thread.demtaskptr)
    (protaskptr : next.thread.protaskptr = s.thread.protaskptr)
    (fifo : next.fifo = s.fifo)
    (calls : ∀ caller target, s.calls caller = .unlinked target →
      next.calls caller = .unlinked target)
    (yielding : ∀ task, (s.calls task).Yielding →
      (next.calls task).Yielding) : next.Prioritized := by
  have current : ∀ task, s.Current task → next.Current task := by
    rintro task ⟨node, isCurrent, isTask⟩
    exact ⟨node, currtask.trans isCurrent, (tasks node).trans isTask⟩
  constructor
  · intro task high
    rw [fifo] at high
    exact (prioritized.fifo task high).of_frame (current task)
      (fun pending => demtaskptr.trans pending) calls (fun _ target _ =>
        tasks target) (yielding task)
  · intro task pending
    rw [protaskptr] at pending
    exact current task (prioritized.promoted task pending)

/-- A call that moves on and keeps `currtask` and the tasks of PCBs. -/
theorem of_setCall (prioritized : s.Prioritized) {caller : Int32}
    {call : Call} (currtask : next.sched.currtask = s.sched.currtask)
    (tasks : ∀ node, (next.sched.pcb node).linuxTask =
      (s.sched.pcb node).linuxTask)
    (demtaskptr : next.thread.demtaskptr = s.thread.demtaskptr)
    (protaskptr : next.thread.protaskptr = s.thread.protaskptr)
    (fifo : next.fifo = s.fifo)
    (callsEq : next.calls = update s.calls caller call)
    (notUnlinked : ∀ target, s.calls caller ≠ .unlinked target)
    (yielding : (s.calls caller).Yielding → call.Yielding) :
    next.Prioritized := by
  refine prioritized.of_frame currtask tasks demtaskptr protaskptr fifo
    (fun other target held => ?_) fun other isYielding => ?_
  · rw [callsEq, update_of_ne fun same => ?_]
    · exact held
    · exact notUnlinked target (same ▸ held)
  · rw [callsEq]
    by_cases same : other = caller
    · subst same
      rw [update_self]
      exact yielding isYielding
    · rwa [update_of_ne same]

theorem wakethread (prioritized : s.Prioritized) : s.wakethread.Prioritized :=
  prioritized.of_frame rfl (fun _ => rfl) (Thread.demtaskptr_wake _)
    (Thread.protaskptr_wake _) rfl (fun _ _ => id) fun _ => id

theorem register (prioritized : s.Prioritized) (sound : s.Sound)
    {curnode : Option Nat} {pid period compTime : Int32}
    (enabled : s.Enabled (.register curnode pid period compTime)) :
    (s.apply msecsToJiffies
      (.register curnode pid period compTime)).Prioritized := by
  -- The filled PCB is neither current nor held by a `deregister`.
  have filled : ∀ sched : Sched, sched.currtask = s.sched.currtask →
      (∀ node ∈ s.sched.allocated, sched.pcb node = s.sched.pcb node) →
        ({ s with sched := sched } : System).Prioritized := by
    intro sched currtask same
    have current : ∀ task, s.Current task →
        ({ s with sched := sched } : System).Current task := by
      rintro task ⟨node, isCurrent, isTask⟩
      have allocated := sound.sched.listed node
        (sound.sched.currtask node isCurrent)
      exact ⟨node, currtask.trans isCurrent, by rwa [same node allocated]⟩
    refine ⟨fun task high => (prioritized.fifo task high).of_frame
      (current task) id (fun _ _ => id) (fun caller target call => ?_) id,
      fun task pending => current task (prioritized.promoted task pending)⟩
    have unlinked := sound.linked.targets caller target (by rw [call]; rfl)
    rw [same target (sound.sched.unlinked target unlinked).1]
  have fresh : ∀ node, curnode = some node → ∀ pcb,
      ∀ other ∈ s.sched.allocated,
        update s.sched.pcb node pcb other = s.sched.pcb other := by
    intro node isNode pcb other allocated
    refine update_of_ne ?_ _ _
    rintro rfl
    exact enabled other isNode allocated
  rcases s.sched.taskregister_cases curnode pid (unsignedLong period)
    (unsignedLong compTime) s.jiffies with
      result | ⟨node, -, result⟩ | ⟨node, isNode, result⟩ |
        ⟨node, isNode, -, -, -, -, result⟩ <;>
    simp only [System.apply, result]
  · exact prioritized
  · exact filled _ rfl fun _ _ => rfl
  · exact filled _ rfl (fresh node isNode _)
  · exact filled _ rfl (fresh node isNode _)

/-- The task of the PCB that a critical section looks up. -/
theorem linuxTask_of_lookup (sound : s.Sound) {pid : Int32} {node : Nat}
    (found : s.sched.lookup pid = some node) :
    (s.sched.pcb node).linuxTask = pid :=
  (sound.sched.tasks node (mem_of_lookup found)).trans (pid_of_lookup found)

theorem unlink (prioritized : s.Prioritized) (sound : s.Sound)
    {caller pid : Int32} {target : Nat}
    (enabled : s.Enabled (.unlink caller pid target))
    (keeps : s.KeepsPromoted (.unlink caller pid target)) :
    (s.apply msecsToJiffies (.unlink caller pid target)).Prioritized := by
  obtain ⟨idle, found⟩ := enabled
  have isTask := linuxTask_of_lookup sound found
  simp only [System.apply, Sched.deregister, found]
  -- A current task stays current, unless it is the one unlinked.
  have current : ∀ task, s.Current task → task ≠ pid →
      ∃ node, (s.sched.clearCurrtask target).currtask = some node ∧
        (s.sched.pcb node).linuxTask = task := by
    rintro task ⟨node, isCurrent, rfl⟩ different
    refine ⟨node, clearCurrtask_eq_some_iff.mpr ⟨isCurrent, ?_⟩, rfl⟩
    rintro rfl
    exact different isTask
  constructor
  · intro task high
    by_cases same : task = pid
    · subst same
      exact .deregistered caller target (update_self ..) isTask
    · refine (prioritized.fifo task high).of_frame
        (fun isCurrent => current task isCurrent same) id
        (fun other held call => ?_) (fun _ _ _ => rfl) fun yielding => ?_
      · refine (update_of_ne ?_ _ _).trans call
        rintro rfl
        rw [idle] at call
        cases call
      · have notCaller : task ≠ caller := by
          rintro rfl
          rw [idle] at yielding
          exact yielding
        simpa [setCall, notCaller] using yielding
  · intro task pending
    exact current task (prioritized.promoted task pending) fun same =>
      keeps (same ▸ pending)

theorem demoteTarget (prioritized : s.Prioritized) {caller : Int32}
    {target : Nat} (enabled : s.Enabled (.demoteTarget caller target)) :
    (s.apply msecsToJiffies (.demoteTarget caller target)).Prioritized := by
  refine ⟨fun task high => ?_, prioritized.promoted⟩
  have different : task ≠ (s.sched.pcb target).linuxTask := by
    rintro rfl
    simp [System.apply, demoteTask, setCall] at high
  have before : s.fifo task = true := by
    simpa [System.apply, demoteTask, setCall, different] using high
  cases prioritized.fifo task before with
  | current isCurrent => exact .current isCurrent
  | demoted pending => exact .demoted pending
  | deregistered other held call isTask =>
      refine .deregistered other held ((update_of_ne ?_ _ _).trans call) isTask
      rintro rfl
      rw [enabled] at call
      cases call
      exact different isTask.symm
  | yielding yielding =>
      have notCaller : task ≠ caller := by
        rintro rfl
        rw [enabled] at yielding
        exact yielding
      refine .yielding ?_
      simpa [System.apply, demoteTask, setCall, notCaller] using yielding

theorem yieldCritical (prioritized : s.Prioritized) (sound : s.Sound)
    {yielder : Int32} (enabled : s.Enabled (.yieldCritical yielder))
    (keeps : s.KeepsPromoted (.yieldCritical yielder)) :
    (s.apply msecsToJiffies (.yieldCritical yielder)).Prioritized := by
  obtain ⟨idle, isListed⟩ := enabled
  obtain ⟨curr, found⟩ := Option.isSome_iff_exists.mp isListed
  have isTask := linuxTask_of_lookup sound found
  simp only [System.apply, taskyield, found, Option.map_some,
    Option.getD_some]
  have tasks := setPcb_linuxTask s.sched curr
    ((s.sched.pcb curr).yielded msecsToJiffies) rfl
  have current : ∀ task, s.Current task → task ≠ yielder →
      ∃ node, ((s.sched.setPcb curr ((s.sched.pcb curr).yielded
          msecsToJiffies)).clearCurrtask curr).currtask = some node ∧
        ((s.sched.setPcb curr ((s.sched.pcb curr).yielded
          msecsToJiffies)).pcb node).linuxTask = task := by
    rintro task ⟨node, isCurrent, rfl⟩ different
    refine ⟨node, clearCurrtask_eq_some_iff.mpr ⟨isCurrent, ?_⟩, tasks node⟩
    rintro rfl
    exact different isTask
  constructor
  · intro task high
    by_cases same : task = yielder
    · subst same
      refine .yielding ?_
      simp [setCall, Call.Yielding]
    · refine (prioritized.fifo task high).of_frame
        (fun isCurrent => current task isCurrent same) id
        (fun other held call => ?_) (fun _ target _ => tasks target)
        fun yielding => ?_
      · refine (update_of_ne ?_ _ _).trans call
        rintro rfl
        rw [idle] at call
        cases call
      · simpa [setCall, same] using yielding
  · intro task pending
    exact current task (prioritized.promoted task pending) fun same =>
      keeps (same ▸ pending)

/-- The task that `dispatcher` preempts is left to its caller. -/
theorem dispatch (prioritized : s.Prioritized) (sound : s.Sound)
    (enabled : s.Enabled .dispatch) :
    (s.apply msecsToJiffies .dispatch).Prioritized := by
  have noPending : ∀ task, s.thread.demtaskptr ≠ some task := fun task => by
    rw [show s.thread = .start from enabled]
    nofun
  have tasks : ∀ node, (s.sched.dispatcher.1.pcb node).linuxTask =
      (s.sched.pcb node).linuxTask := by
    intro node
    obtain ⟨state, pcbEq⟩ := s.sched.dispatcher_frame.2.2.2 node
    rw [pcbEq]
  have moved : ∀ task, (s.Current task →
      (s.apply msecsToJiffies .dispatch).Entitled task) →
        s.fifo task = true →
          (s.apply msecsToJiffies .dispatch).Entitled task := by
    intro task current high
    cases prioritized.fifo task high with
    | current isCurrent => exact current isCurrent
    | demoted pending => exact absurd pending (noPending task)
    | deregistered caller target call isTask =>
        exact .deregistered caller target call ((tasks target).trans isTask)
    | yielding yielding => exact .yielding yielding
  have dispatches := sound.sched.dispatches
  simp only [System.apply] at moved ⊢
  generalize s.sched.dispatcher = result at dispatches moved tasks ⊢
  cases dispatches with
  | idle | keep =>
      exact ⟨fun task => moved task fun isCurrent => .current isCurrent,
        fun task pending => by cases pending⟩
  | @start next none selected =>
      refine ⟨fun task => moved task ?_, fun task pending => ?_⟩
      · rintro ⟨node, isCurrent, -⟩
        rw [none] at isCurrent
        cases isCurrent
      · exact ⟨next, rfl, (tasks next).trans (Option.some.inj pending)⟩
  | @preempt curr next current running selected shorter =>
      refine ⟨fun task => moved task ?_, fun task pending => ?_⟩
      · rintro ⟨node, isCurrent, rfl⟩
        rw [current, Option.some.injEq] at isCurrent
        subst isCurrent
        exact .demoted rfl
      · exact ⟨next, rfl, (tasks next).trans (Option.some.inj pending)⟩

theorem promote (prioritized : s.Prioritized) {switch : Switch}
    (enabled : s.Enabled (.promote switch)) :
    (s.apply msecsToJiffies (.promote switch)).Prioritized := by
  have isPromoting : s.thread = .promoting switch := enabled
  have current : ∀ task, s.Current task →
      (s.apply msecsToJiffies (.promote switch)).Current task := by
    intro task isCurrent
    simpa [Current, System.apply] using isCurrent
  refine ⟨fun task high => ?_, fun task pending => by cases pending⟩
  by_cases promoted : switch.protaskptr = some task
  · refine .current (current task (prioritized.promoted task ?_))
    rw [isPromoting]
    exact promoted
  · have before : s.fifo task = true := by
      cases isPromoted : switch.protaskptr with
      | none => simpa [System.apply, promoteTask, isPromoted] using high
      | some other =>
          have different : task ≠ other := fun same =>
            promoted (same ▸ isPromoted)
          simpa [System.apply, promoteTask, isPromoted, different] using high
    refine (prioritized.fifo task before).of_frame (current task)
      (fun pending => ?_) (fun caller target call => ?_)
      (fun _ _ _ => by simp [System.apply]) fun yielding => ?_
    · rw [isPromoting] at pending
      exact pending
    · simp only [System.apply, promoteTask_calls, call]
      split_ifs <;> rfl
    · simp only [System.apply, promoteTask_calls, if_neg promoted]
      exact yielding

theorem demote (prioritized : s.Prioritized) {demtaskptr : Option Int32}
    (enabled : s.Enabled (.demote demtaskptr)) :
    (s.apply msecsToJiffies (.demote demtaskptr)).Prioritized := by
  have isDemoting : s.thread = .demoting demtaskptr := enabled
  refine ⟨fun task high => ?_, fun task pending => by cases pending⟩
  have different : demtaskptr ≠ some task := by
    rintro rfl
    simp [System.apply, demoteTask] at high
  have before : s.fifo task = true := by
    cases isDemoted : demtaskptr with
    | none => simpa [System.apply, demoteTask, isDemoted] using high
    | some other =>
        have notOther : task ≠ other := fun same =>
          different (same ▸ isDemoted)
        simpa [System.apply, demoteTask, isDemoted, notOther] using high
  refine (prioritized.fifo task before).of_frame
    (fun isCurrent => by simpa [Current, System.apply] using isCurrent)
    (fun pending => ?_) (fun _ _ call => by simpa [System.apply] using call)
    (fun _ _ _ => by simp [System.apply])
    fun yielding => by simpa [System.apply] using yielding
  rw [isDemoting] at pending
  exact absurd pending different

theorem step (prioritized : s.Prioritized) (sound : s.Sound) {action : Action}
    (keeps : s.KeepsPromoted action)
    (taken : s.step msecsToJiffies action = some next) :
    next.Prioritized := by
  obtain ⟨enabled, rfl⟩ := step_eq_some_iff.mp taken
  cases action with
  | tick ticks =>
      exact prioritized.of_frame rfl (fun _ => rfl) rfl rfl rfl
        (fun _ _ => id) fun _ => id
  | register curnode pid period compTime =>
      exact prioritized.register sound enabled
  | unlink caller pid target => exact prioritized.unlink sound enabled keeps
  | demoteTarget caller target => exact prioritized.demoteTarget enabled
  | cancelTimer caller target =>
      exact prioritized.of_setCall rfl (setPcb_linuxTask _ _ _ rfl) rfl rfl
        rfl rfl (by rw [enabled.1]; rintro _ ⟨⟩)
        (by rw [enabled.1]; exact False.elim)
  | freeTarget caller target =>
      exact prioritized.of_setCall rfl (fun _ => rfl) rfl rfl rfl rfl
        (by rw [enabled]; rintro _ ⟨⟩) (by rw [enabled]; exact False.elim)
  | wakeAfterFree caller =>
      have moved : (s.setCall caller .idle).Prioritized :=
        prioritized.of_setCall rfl (fun _ => rfl) rfl rfl rfl rfl
          (by rw [enabled]; rintro _ ⟨⟩) (by rw [enabled]; exact False.elim)
      simp only [System.apply]
      split_ifs
      · exact moved.wakethread
      · exact moved
  | yieldCritical task => exact prioritized.yieldCritical sound enabled keeps
  | yieldWake task =>
      refine wakethread (s := s.setCall task .notified) ?_
      exact prioritized.of_setCall rfl (fun _ => rfl) rfl rfl rfl rfl
        (by rw [enabled]; rintro _ ⟨⟩) fun _ => trivial
  | yieldSetState task =>
      exact prioritized.of_setCall rfl (fun _ => rfl) rfl rfl rfl rfl
        (by rw [enabled]; rintro _ ⟨⟩) fun _ => trivial
  | yieldSchedule task uninterruptible =>
      refine prioritized.of_setCall rfl (fun _ => rfl) rfl rfl rfl rfl
        (by rw [enabled]; rintro _ ⟨⟩) ?_
      rw [enabled]
      cases uninterruptible with
      | false => exact False.elim
      | true => exact id
  | timerFire temp =>
      exact prioritized.of_frame rfl (setPcb_linuxTask _ _ _ rfl) rfl rfl rfl
        (fun _ _ => id) fun _ => id
  | timerWake temp =>
      exact prioritized.wakethread.of_frame rfl (fun _ => rfl) rfl rfl rfl
        (fun _ _ => id) fun _ => id
  | dispatch => exact prioritized.dispatch sound enabled
  | promote switch => exact prioritized.promote enabled
  | demote demtaskptr => exact prioritized.demote enabled
  | threadSetState =>
      exact prioritized.of_frame rfl (fun _ => rfl) (by rw [enabled]; rfl)
        (by rw [enabled]; rfl) rfl (fun _ _ => id) fun _ => id
  | threadSchedule interruptible =>
      refine prioritized.of_frame rfl (fun _ => rfl) ?_ ?_ rfl
        (fun _ _ => id) fun _ => id
      all_goals rw [enabled]; cases interruptible <;> rfl

end Prioritized

/-- If no task is deregistered or yields between its choice by `dispatcher`
and its promotion, then, with no operation in progress, only the current task
runs at `SCHED_FIFO`. -/
theorem fifoCurrent_of_keepsPromoted (msecsToJiffies : Nat → Nat)
    (jiffies : Nat) (actions : List Action) (s : System)
    (keeps : Permits (System.step msecsToJiffies) KeepsPromoted
      (System.initial jiffies) actions)
    (reached : run (System.step msecsToJiffies) (System.initial jiffies)
      actions = some s)
    (quiet : s.Quiet) (returned : ¬s.thread.Switching) : s.FifoCurrent := by
  have both : s.Sound ∧ s.Prioritized :=
    invariant_of_permits (fun s => s.Sound ∧ s.Prioritized)
      (fun _ _ _ kept keeps taken =>
        ⟨kept.1.step taken, kept.2.step kept.1 keeps taken⟩)
      ⟨Sound.initial jiffies, Prioritized.initial jiffies⟩ keeps reached
  intro task high awake
  cases both.2.fifo task high with
  | current isCurrent => exact isCurrent
  | demoted pending =>
      cases thread : s.thread <;> rw [thread] at pending returned <;>
        first | exact absurd trivial returned | cases pending
  | deregistered caller target call isTask =>
      rcases quiet.2 caller with idle | blocked
      · rw [idle] at call
        cases call
      · rw [blocked] at call
        cases call
  | yielding yielding =>
      rw [(quiet.2 task).resolve_right awake] at yielding
      exact yielding.elim

/-- A task registers, yields, and is chosen after its timer has fired. -/
def firstChoice : List Action :=
  [.register (some 0) 10 100 20, .yieldCritical 10, .yieldWake 10,
    .yieldSetState 10, .yieldSchedule 10 true, .tick 100, .timerFire 0,
    .timerWake 0, .dispatch]

theorem fifoCurrent_firstChoice :
    ∃ s, run (System.step id) (System.initial 0)
        (firstChoice ++ [.promote ⟨some 10, none⟩, .demote none]) = some s ∧
      s.fifo 10 = true ∧ s.sched.currtask = some 0 ∧ s.FifoCurrent := by
  refine ⟨_, rfl, rfl, rfl, ?_⟩
  refine fifoCurrent_of_keepsPromoted id 0
    (firstChoice ++ [.promote ⟨some 10, none⟩, .demote none]) _ (by decide)
    rfl ⟨rfl, fun task => .inl ?_⟩ (by decide)
  by_cases same : task = 10
  · subst same
    rfl
  · simp [System.apply, System.setCall, System.wakethread,
      System.promoteTask, System.initial, same]

/-- The chosen task is deregistered before it is promoted. -/
def deregisteredChoice : List Action :=
  firstChoice ++ [.unlink 20 10 0, .demoteTarget 20 0, .cancelTimer 20 0,
    .freeTarget 20 0, .wakeAfterFree 20, .promote ⟨some 10, none⟩,
    .demote none]

/-- A second task, with a shorter period, preempts the first and then yields.
The first one is chosen again, but yields before it is promoted. -/
def yieldedChoice : List Action :=
  firstChoice ++ [.promote ⟨some 10, none⟩, .demote none, .threadSetState,
    .threadSchedule true, .register (some 1) 11 50 10, .yieldCritical 11,
    .yieldWake 11, .yieldSetState 11, .yieldSchedule 11 true, .dispatch,
    .promote ⟨none, none⟩, .demote none, .threadSetState,
    .threadSchedule true, .tick 50, .timerFire 1, .timerWake 1, .dispatch,
    .promote ⟨some 11, some 10⟩, .demote (some 10), .threadSetState,
    .threadSchedule true, .yieldCritical 11, .yieldWake 11,
    .yieldSetState 11, .yieldSchedule 11 true, .dispatch,
    .yieldCritical 10, .yieldWake 10, .yieldSetState 10,
    .yieldSchedule 10 true, .promote ⟨some 10, none⟩, .demote none]

/-- Both runs end with a task that is at `SCHED_FIFO` and not current, and with
no operation in progress. -/
theorem not_fifoCurrent :
    (∃ s, run (System.step id) (System.initial 0) deregisteredChoice =
        some s ∧ s.Quiet ∧ ¬s.thread.Switching ∧ ¬s.FifoCurrent) ∧
    ∃ s, run (System.step id) (System.initial 0) yieldedChoice = some s ∧
      s.Quiet ∧ ¬s.thread.Switching ∧ ¬s.FifoCurrent := by
  constructor
  · refine ⟨_, rfl, ⟨rfl, fun task => .inl ?_⟩, by decide, fun only => ?_⟩
    · by_cases isTask : task = 10
      · subst isTask
        rfl
      · by_cases isCaller : task = 20
        · subst isCaller
          rfl
        · simp [System.apply, System.setCall, System.wakethread,
            System.promoteTask, System.demoteTask, System.initial,
            apply_ite System.calls, isTask, isCaller]
    · obtain ⟨node, current, -⟩ := only 10 rfl (by decide)
      cases current
  · refine ⟨_, rfl, ⟨rfl, fun task => ?_⟩, by decide, fun only => ?_⟩
    · by_cases isFirst : task = 10
      · subst isFirst
        exact .inl rfl
      · by_cases isSecond : task = 11
        · subst isSecond
          exact .inr rfl
        · left
          simp [System.apply, System.setCall, System.wakethread,
            System.promoteTask, System.demoteTask, System.initial, isFirst,
            isSecond]
    · obtain ⟨node, current, -⟩ := only 10 rfl (by decide)
      cases current

end System

end LinuxKernelDev.Rms
