import LinuxKernelDev.RmsConcurrency

/-!
# Wake-ups of yielding tasks

A yielding task arms its timer, lets the dispatcher run and then sleeps until
`promote_task` wakes it.  It sleeps for good if it is promoted before it has
announced that it will sleep, or if another process deregisters it.  In all
other runs a sleeping task is registered and is either waiting for its timer or
ready to be dispatched.
-/

namespace LinuxKernelDev.Rms

open Function Transition Sched

/-- A task past the critical section of `taskyield` that has not been woken. -/
def Call.Asleep : Call → Prop
  | .yielded | .notified | .waiting true | .blocked => True
  | .idle | .unlinked _ | .demoted _ | .cancelled _ | .freed
  | .waiting false => False

instance (call : Call) : Decidable call.Asleep :=
  match call with
  | .yielded | .notified | .waiting true | .blocked => isTrue trivial
  | .idle | .unlinked _ | .demoted _ | .cancelled _ | .freed
  | .waiting false => isFalse id

/-- A PCB that will be dispatched, or that the dispatcher thread is about to
promote. -/
def Attends (pcb : Pcb) (thread : Thread) : Prop :=
  (pcb.rmsState = .sleeping ∧ pcb.timer.isSome = true) ∨
    pcb.rmsState = .ready ∨
    (pcb.rmsState = .running ∧
      ∃ demtaskptr, thread = .promoting ⟨some pcb.pid, demtaskptr⟩)

/-- Every task asleep in `taskyield` has a PCB that brings it back. -/
def Watched (s : System) : Prop :=
  ∀ task, (s.calls task).Asleep →
    ∃ node ∈ s.sched.mp2listhead, (s.sched.pcb node).pid = task ∧
      Attends (s.sched.pcb node) s.thread

/-- A yielding task is not promoted before it has set its state, and not
deregistered before it is woken. -/
def UndisturbedYield (s : System) : Action → Prop
  | .promote switch => ∀ task ∈ switch.protaskptr,
      s.calls task ≠ .yielded ∧ s.calls task ≠ .notified
  | .unlink _ pid _ => ¬(s.calls pid).Asleep
  | _ => True

instance (s : System) (action : Action) :
    Decidable (UndisturbedYield s action) :=
  match action with
  | .promote switch => inferInstanceAs (Decidable (∀ task ∈ switch.protaskptr,
      s.calls task ≠ .yielded ∧ s.calls task ≠ .notified))
  | .unlink _ pid _ => inferInstanceAs (Decidable (¬(s.calls pid).Asleep))
  | .tick _ | .register _ _ _ _ | .demoteTarget _ _ | .cancelTimer _ _
  | .freeTarget _ _ | .wakeAfterFree _ | .yieldCritical _ | .yieldWake _
  | .yieldSetState _ | .yieldSchedule _ _ | .timerFire _ | .timerWake _
  | .dispatch | .demote _ | .threadSetState | .threadSchedule _ =>
      isTrue trivial

/-- The dispatcher leaves a PCB that is not running as it is, or starts it and
promotes its task. -/
theorem Invariant.dispatcher_pcb {s : Sched} (invariant : Invariant s)
    {node : Nat} (notRunning : (s.pcb node).rmsState ≠ .running) :
    s.dispatcher.1.pcb node = s.pcb node ∨
      ((s.dispatcher.1.pcb node).rmsState = .running ∧
        s.dispatcher.2.protaskptr = some (s.pcb node).linuxTask) := by
  have dispatches := invariant.dispatches
  generalize s.dispatcher = result at dispatches ⊢
  cases dispatches with
  | idle | keep => exact .inl rfl
  | @start next current selected =>
      by_cases isNext : node = next
      · subst isNext
        exact .inr ⟨by simp [Sched.start, setState, setPcb], rfl⟩
      · exact .inl (update_of_ne isNext _ _)
  | @preempt curr next current running selected shorter =>
      have notCurr : node ≠ curr := by
        rintro rfl
        exact notRunning running
      by_cases isNext : node = next
      · subst isNext
        exact .inr ⟨by simp [Sched.start, setState, setPcb], rfl⟩
      · left
        simp [Sched.start, setState, setPcb, isNext, notCurr]

namespace Attends

variable {pcb : Pcb} {thread : Thread}

theorem of_not_promoting (attends : Attends pcb thread)
    (notPromoting : ∀ switch, thread ≠ .promoting switch) (other : Thread) :
    Attends pcb other := by
  rcases attends with asleep | ready | ⟨-, demtaskptr, promoting⟩
  · exact .inl asleep
  · exact .inr (.inl ready)
  · exact absurd promoting (notPromoting _)

theorem wake (attends : Attends pcb thread) : Attends pcb thread.wake := by
  cases thread with
  | promoting switch => exact attends
  | start | demoting _ | returned | waiting _ | blocked =>
      exact attends.of_not_promoting nofun _

end Attends

namespace Watched

variable {s : System} {msecsToJiffies : Nat → Nat}

theorem initial (jiffies : Nat) : Watched (System.initial jiffies) := nofun

/-- If the calls, the thread and the PCBs of sleeping tasks do not change for
the worse, all tasks stay watched. -/
theorem of_frame {next : System} (watched : Watched s)
    (calls : ∀ task, (next.calls task).Asleep → (s.calls task).Asleep)
    (kept : ∀ node ∈ s.sched.mp2listhead,
      (s.calls (s.sched.pcb node).pid).Asleep →
      (next.calls (s.sched.pcb node).pid).Asleep →
      Attends (s.sched.pcb node) s.thread →
        node ∈ next.sched.mp2listhead ∧
          (next.sched.pcb node).pid = (s.sched.pcb node).pid ∧
            Attends (next.sched.pcb node) next.thread) : Watched next := by
  intro task asleep
  obtain ⟨node, listed, rfl, attends⟩ := watched task (calls task asleep)
  obtain ⟨stillListed, pidEq, stillAttends⟩ :=
    kept node listed (calls _ asleep) asleep attends
  exact ⟨node, stillListed, pidEq, stillAttends⟩

theorem setCall (watched : Watched s) (task : Int32) (call : Call)
    (asleep : call.Asleep → (s.calls task).Asleep) :
    Watched (s.setCall task call) := by
  refine watched.of_frame (fun other otherAsleep => ?_)
    (fun node listed _ _ attends => ⟨listed, rfl, attends⟩)
  by_cases same : other = task
  · subst same
    simp only [System.setCall, update_self] at otherAsleep
    exact asleep otherAsleep
  · simpa [System.setCall, same] using otherAsleep

/-- Changes of the module state that keep the PCBs on the list. -/
theorem setSched (watched : Watched s) {sched : Sched}
    (kept : ∀ node ∈ s.sched.mp2listhead,
      node ∈ sched.mp2listhead ∧ sched.pcb node = s.sched.pcb node) :
    Watched { s with sched := sched } := by
  refine watched.of_frame (fun _ => id) (fun node listed _ _ attends => ?_)
  obtain ⟨stillListed, same⟩ := kept node listed
  exact ⟨stillListed, by simp only [same], by simp only [same]; exact attends⟩

theorem wakethread (watched : Watched s) : Watched s.wakethread :=
  watched.of_frame (fun _ => id)
    (fun _ listed _ _ attends => ⟨listed, rfl, attends.wake⟩)

theorem demoteTask (watched : Watched s) (intask : Option Int32) :
    Watched (s.demoteTask intask) := by
  cases intask <;> exact watched

theorem register (watched : Watched s) (invariant : Invariant s.sched)
    {curnode : Option Nat} (fresh : s.sched.Fresh curnode)
    (pid period compTime : Int32) :
    Watched (s.apply msecsToJiffies
      (.register curnode pid period compTime)) := by
  apply watched.setSched
  intro node listed
  have different : ∀ other ∈ curnode, node ≠ other := by
    rintro other allocated rfl
    exact fresh node allocated (invariant.listed node listed)
  rcases s.sched.taskregister_cases curnode pid (unsignedLong period)
    (unsignedLong compTime) s.jiffies with
      result | ⟨other, -, result⟩ | ⟨other, allocated, result⟩ |
        ⟨other, allocated, _, -, -, -, result⟩
  · rw [result]
    exact ⟨listed, rfl⟩
  · rw [result]
    exact ⟨listed, rfl⟩
  · rw [result]
    exact ⟨listed, update_of_ne (different other allocated) _ _⟩
  · rw [result]
    exact ⟨List.mem_append_left _ listed,
      update_of_ne (different other allocated) _ _⟩

theorem unlink (watched : Watched s) {caller pid : Int32} {target : Nat}
    (enabled : s.Enabled (.unlink caller pid target))
    (undisturbed : ¬(s.calls pid).Asleep) :
    Watched (s.apply msecsToJiffies (.unlink caller pid target)) := by
  have moved := watched.setCall caller (.unlinked target) False.elim
  refine moved.of_frame (fun _ => id) (fun node listed _ asleep attends => ?_)
  have different : node ≠ target := by
    rintro rfl
    have pidEq := pid_of_lookup enabled.2
    refine undisturbed ?_
    by_cases same : pid = caller
    · subst same
      simp [System.apply, System.setCall, pidEq, Call.Asleep] at asleep
    · simpa [System.setCall, System.apply, pidEq, same] using asleep
  simp only [System.apply, deregister, enabled.2]
  exact ⟨(List.mem_erase_of_ne different).mpr listed, rfl, attends⟩

theorem cancelTimer (watched : Watched s) (sound : s.Sound) {caller : Int32}
    {target : Nat} (enabled : s.Enabled (.cancelTimer caller target)) :
    Watched (s.apply msecsToJiffies (.cancelTimer caller target)) := by
  have unlinked := sound.linked.targets caller target (by rw [enabled.1]; rfl)
  have notListed := (sound.sched.unlinked target unlinked).2
  have moved := watched.setCall caller (.cancelled target) False.elim
  apply moved.setSched
  intro node listed
  have different : node ≠ target := fun equal => notListed (equal ▸ listed)
  exact ⟨listed, update_of_ne different _ _⟩

theorem yieldCritical (watched : Watched s) {task : Int32}
    (enabled : s.Enabled (.yieldCritical task)) :
    Watched (s.apply msecsToJiffies (.yieldCritical task)) := by
  obtain ⟨curr, found⟩ := Option.isSome_iff_exists.mp enabled.2
  have pidEq := pid_of_lookup found
  have result : (s.sched.taskyield msecsToJiffies task).getD s.sched =
      (s.sched.setPcb curr ((s.sched.pcb curr).yielded
        msecsToJiffies)).clearCurrtask curr := by
    simp [taskyield, found]
  intro other asleep
  by_cases same : other = task
  · subst same
    refine ⟨curr, ?_, ?_, .inl ?_⟩
    · have listed := mem_of_lookup found
      simp only [System.apply, result]
      exact listed
    · simp [System.apply, result, clearCurrtask, setPcb, Pcb.yielded, pidEq]
    · simp [System.apply, result, clearCurrtask, setPcb, Pcb.yielded]
  · simp only [System.apply, System.setCall, update_of_ne same] at asleep
    obtain ⟨node, listed, nodePid, attends⟩ := watched other asleep
    have different : node ≠ curr := by
      rintro rfl
      exact same (nodePid.symm.trans pidEq)
    have kept : ((s.sched.taskyield msecsToJiffies task).getD s.sched).pcb
        node = s.sched.pcb node := by
      rw [result]
      exact update_of_ne different _ _
    refine ⟨node, ?_, ?_, ?_⟩
    · simp only [System.apply, result]
      exact listed
    · simp only [System.apply, kept]
      exact nodePid
    · simp only [System.apply, kept]
      exact attends

theorem timerFire (watched : Watched s) {temp : Nat} :
    Watched (s.apply msecsToJiffies (.timerFire temp)) := by
  refine watched.of_frame (fun _ => id) (fun node listed _ _ attends => ?_)
  by_cases same : node = temp
  · subst same
    simp only [System.apply, timercb, setPcb, update_self]
    exact ⟨listed, trivial, .inr (.inl rfl)⟩
  · simp only [System.apply, timercb, setPcb, update_of_ne same]
    exact ⟨listed, trivial, attends⟩

theorem dispatch (watched : Watched s) (invariant : Invariant s.sched)
    (enabled : s.Enabled .dispatch) :
    Watched (s.apply msecsToJiffies .dispatch) := by
  obtain ⟨listEq, -, -, states⟩ := s.sched.dispatcher_frame
  refine watched.of_frame (fun _ => id) (fun node listed _ _ attends => ?_)
  have notRunning : (s.sched.pcb node).rmsState ≠ .running := by
    rintro running
    rcases attends with asleep | ready | ⟨-, demtaskptr, promoting⟩
    · simp [running] at asleep
    · simp [running] at ready
    · simp [show s.thread = .start from enabled] at promoting
  obtain ⟨state, pcbEq⟩ := states node
  have pidEq : (s.sched.dispatcher.1.pcb node).pid = (s.sched.pcb node).pid :=
    by rw [pcbEq]
  refine ⟨by simpa [System.apply, listEq] using listed, pidEq, ?_⟩
  rcases invariant.dispatcher_pcb notRunning with same | ⟨running, promoted⟩
  · simp only [System.apply, same]
    exact attends.of_not_promoting (by rw [enabled]; rintro _ ⟨⟩) _
  · right
    right
    refine ⟨running, s.sched.dispatcher.2.demtaskptr, ?_⟩
    simp only [System.apply, pidEq, ← invariant.tasks node listed, ← promoted]

theorem promote (watched : Watched s) {switch : Switch}
    (enabled : s.Enabled (.promote switch))
    (undisturbed : ∀ task ∈ switch.protaskptr,
      s.calls task ≠ .yielded ∧ s.calls task ≠ .notified) :
    Watched (s.apply msecsToJiffies (.promote switch)) := by
  have awake : ∀ task ∈ switch.protaskptr, ¬(s.calls task).wake.Asleep := by
    intro task promoted
    obtain ⟨notYielded, notNotified⟩ := undisturbed task promoted
    cases call : s.calls task <;> simp_all [Call.wake, Call.Asleep]
  have callsEq : ∀ task, (s.apply msecsToJiffies (.promote switch)).calls
      task = if switch.protaskptr = some task then (s.calls task).wake
        else s.calls task := s.promoteTask_calls switch.protaskptr
  refine watched.of_frame (fun task asleep => ?_)
    (fun node listed _ asleep attends => ?_)
  · rw [callsEq] at asleep
    split_ifs at asleep with promoted
    · exact absurd asleep (awake task promoted)
    · exact asleep
  · simp only [System.apply, System.promoteTask_sched]
    refine ⟨listed, trivial, ?_⟩
    rcases attends with sleeping | ready | ⟨-, demtaskptr, promoting⟩
    · exact .inl sleeping
    · exact .inr (.inl ready)
    · have switchEq : switch = ⟨some (s.sched.pcb node).pid, demtaskptr⟩ :=
        Thread.promoting.inj (enabled.symm.trans promoting)
      rw [callsEq, switchEq, if_pos rfl] at asleep
      exact absurd asleep (awake _ (by rw [switchEq]; rfl))

/-- Every step that disturbs no yield keeps all sleeping tasks watched. -/
theorem step (watched : Watched s) (sound : s.Sound) {action : Action}
    {next : System} (undisturbed : UndisturbedYield s action)
    (taken : s.step msecsToJiffies action = some next) : Watched next := by
  obtain ⟨enabled, rfl⟩ := System.step_eq_some_iff.mp taken
  have outside : ∀ thread : Thread, (∀ switch, s.thread ≠ .promoting switch) →
      Watched { s with thread := thread } := fun thread notPromoting =>
    watched.of_frame (fun _ => id) fun _ listed _ _ attends =>
      ⟨listed, rfl, attends.of_not_promoting notPromoting thread⟩
  cases action with
  | tick ticks => exact watched
  | register curnode pid period compTime =>
      exact watched.register sound.sched enabled pid period compTime
  | unlink caller pid target => exact watched.unlink enabled undisturbed
  | demoteTarget caller target =>
      exact (watched.demoteTask _).setCall caller _ False.elim
  | cancelTimer caller target => exact watched.cancelTimer sound enabled
  | freeTarget caller target =>
      exact (watched.setCall caller .freed False.elim).setSched
        fun _ listed => ⟨listed, rfl⟩
  | wakeAfterFree caller =>
      have moved := watched.setCall caller .idle False.elim
      simp only [System.apply]
      split_ifs
      · exact moved.wakethread
      · exact moved
  | yieldCritical task => exact watched.yieldCritical enabled
  | yieldWake task =>
      exact (watched.setCall task .notified
        (by rw [enabled]; exact id)).wakethread
  | yieldSetState task =>
      exact watched.setCall task _ (by rw [enabled]; exact id)
  | yieldSchedule task uninterruptible =>
      cases uninterruptible with
      | false => exact watched.setCall task _ False.elim
      | true => exact watched.setCall task _ (by rw [enabled]; exact id)
  | timerFire temp => exact watched.timerFire
  | timerWake temp => exact watched.wakethread
  | dispatch => exact watched.dispatch sound.sched enabled
  | promote switch => exact watched.promote enabled undisturbed
  | demote demtaskptr =>
      have moved := outside .returned (by rw [enabled]; rintro _ ⟨⟩)
      cases demtaskptr <;> exact moved
  | threadSetState => exact outside _ (by rw [enabled]; rintro _ ⟨⟩)
  | threadSchedule interruptible => exact outside _ (by rw [enabled]; rintro _ ⟨⟩)

end Watched

/-- If no yielding task is promoted before it sets its state or deregistered
before it is woken, every task blocked in `taskyield` is registered and waits
for its timer or is ready, unless `promote_task` is about to run. -/
theorem yielded_of_undisturbedYields (msecsToJiffies : Nat → Nat)
    (jiffies : Nat) (actions : List Action) (s : System)
    (undisturbed : Permits (System.step msecsToJiffies) UndisturbedYield
      (System.initial jiffies) actions)
    (reached : run (System.step msecsToJiffies) (System.initial jiffies)
      actions = some s)
    (notSwitching : ∀ switch, s.thread ≠ .promoting switch)
    (task : Int32) (blocked : s.calls task = .blocked) :
    ∃ node ∈ s.sched.mp2listhead, (s.sched.pcb node).pid = task ∧
      (((s.sched.pcb node).rmsState = .sleeping ∧
          (s.sched.pcb node).timer.isSome = true) ∨
        (s.sched.pcb node).rmsState = .ready) := by
  have both : s.Sound ∧ Watched s :=
    invariant_of_permits (fun s => s.Sound ∧ Watched s)
      (fun _ _ _ kept undisturbed taken =>
        ⟨kept.1.step taken, kept.2.step kept.1 undisturbed taken⟩)
      ⟨System.Sound.initial jiffies, Watched.initial jiffies⟩ undisturbed
      reached
  obtain ⟨node, listed, pidEq, attends⟩ :=
    both.2 task (by rw [blocked]; trivial)
  refine ⟨node, listed, pidEq, ?_⟩
  rcases attends with asleep | ready | ⟨-, demtaskptr, promoting⟩
  · exact .inl asleep
  · exact .inr ready
  · exact absurd promoting (notSwitching _)

/-- A task that yields in its first period, up to the expiry of its timer. -/
def punctualYield : List Action :=
  [.register (some 0) 1 100 10, .yieldCritical 1, .yieldWake 1,
    .yieldSetState 1, .yieldSchedule 1 true, .tick 100, .timerFire 0]

theorem yielded_punctualYield :
    ∃ s, run (System.step id) (System.initial 0) punctualYield = some s ∧
      s.calls 1 = .blocked ∧
        ∃ node ∈ s.sched.mp2listhead, (s.sched.pcb node).pid = 1 ∧
          (((s.sched.pcb node).rmsState = .sleeping ∧
              (s.sched.pcb node).timer.isSome = true) ∨
            (s.sched.pcb node).rmsState = .ready) := by
  refine ⟨_, rfl, rfl, ?_⟩
  exact yielded_of_undisturbedYields id 0 punctualYield _ (by decide) rfl
    nofun 1 rfl

/-- A task that yields after its first period: the timer fires at once, and
the task is promoted before it has set its state. -/
def overdueYield : List Action :=
  [.register (some 0) 1 100 10, .dispatch, .promote ⟨none, none⟩, .demote none,
    .threadSetState, .threadSchedule true, .tick 100, .yieldCritical 1,
    .timerFire 0, .timerWake 0, .dispatch, .promote ⟨some 1, none⟩,
    .demote none, .yieldWake 1, .yieldSetState 1, .yieldSchedule 1 true,
    .threadSetState, .threadSchedule true]

/-- A task that is deregistered by another process while it sleeps. -/
def deregisteredYield : List Action :=
  [.register (some 0) 1 100 10, .yieldCritical 1, .yieldWake 1,
    .yieldSetState 1, .yieldSchedule 1 true, .unlink 2 1 0, .demoteTarget 2 0,
    .cancelTimer 2 0, .freeTarget 2 0, .wakeAfterFree 2, .dispatch,
    .promote ⟨none, none⟩, .demote none, .threadSetState,
    .threadSchedule true]

/-- In both runs the task is left blocked with no operation in progress: once
with a running PCB and once with none. -/
theorem blocked_for_good :
    (∃ s, run (System.step id) (System.initial 0) overdueYield = some s ∧
      s.Quiet ∧ s.thread = .blocked ∧ s.calls 1 = .blocked ∧
      s.sched.mp2listhead = [0] ∧ (s.sched.pcb 0).pid = 1 ∧
      (s.sched.pcb 0).rmsState = .running) ∧
    ∃ s, run (System.step id) (System.initial 0) deregisteredYield = some s ∧
      s.Quiet ∧ s.thread = .blocked ∧ s.calls 1 = .blocked ∧
      s.sched.mp2listhead = [] := by
  refine ⟨⟨_, rfl, ⟨rfl, fun task => ?_⟩, rfl, rfl, by decide, by decide,
    by decide⟩, _, rfl, ⟨rfl, fun task => ?_⟩, rfl, rfl, by decide⟩
  · by_cases same : task = 1
    · subst same
      exact .inr rfl
    · left
      simp [System.apply, System.setCall, System.wakethread,
        System.promoteTask, System.initial, same]
  · by_cases same : task = 1
    · subst same
      exact .inr rfl
    · left
      by_cases caller : task = 2
      · subst caller
        rfl
      · have others : ∀ (calls : Int32 → Call) (call : Call),
            Function.update calls 2 call task = calls task :=
          fun calls call => Function.update_of_ne caller call calls
        refine (others _ .idle).trans ?_
        simp [System.apply, System.setCall, System.wakethread, System.initial,
          same, caller]

end LinuxKernelDev.Rms
