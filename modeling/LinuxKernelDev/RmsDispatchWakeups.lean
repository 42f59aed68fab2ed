import LinuxKernelDev.RmsConcurrency

/-!
# Wake-ups of the dispatcher thread

The dispatcher thread runs `dispatcher` and then announces that it will sleep.
A wake-up between the two is lost, and a dispatch may stay due while the thread
sleeps.  If no wake-up falls into that window, a sleeping thread never has a
dispatch to do.
-/

namespace LinuxKernelDev.Rms

open Function Transition Sched

/-- No dispatch is due: no PCB is ready, or the running one has the least
period. -/
def Settled (s : Sched) : Prop :=
  (∀ node ∈ s.mp2listhead, (s.pcb node).rmsState ≠ .ready) ∨
    ∃ curr ∈ s.currtask, (s.pcb curr).rmsState = .running ∧
      ∀ node ∈ s.mp2listhead, (s.pcb node).rmsState = .ready →
        (s.pcb curr).period ≤ (s.pcb node).period

instance (s : Sched) : Decidable (Settled s) :=
  inferInstanceAs (Decidable (_ ∨ _))

namespace Settled

variable {s next : Sched}

/-- Changes that keep `currtask` and its PCB, and make no PCB ready. -/
theorem of_frame (settled : Settled s) (currtask : next.currtask = s.currtask)
    (current : ∀ curr, s.currtask = some curr → next.pcb curr = s.pcb curr)
    (ready : ∀ node ∈ next.mp2listhead, (next.pcb node).rmsState = .ready →
      node ∈ s.mp2listhead ∧ next.pcb node = s.pcb node) : Settled next := by
  rcases settled with none | ⟨curr, isCurrent, running, least⟩
  · left
    intro node member isReady
    obtain ⟨old, same⟩ := ready node member isReady
    exact none node old (same ▸ isReady)
  · right
    have same := current curr isCurrent
    refine ⟨curr, currtask.trans isCurrent, same ▸ running, ?_⟩
    intro node member isReady
    obtain ⟨old, nodeSame⟩ := ready node member isReady
    rw [same, nodeSame]
    exact least node old (nodeSame ▸ isReady)

theorem setPcb_of_notMem (settled : Settled s) (invariant : Invariant s)
    {node : Nat} (notListed : node ∉ s.mp2listhead) (pcb : Pcb) :
    Settled (s.setPcb node pcb) := by
  have same : ∀ other ∈ s.mp2listhead,
      (s.setPcb node pcb).pcb other = s.pcb other := by
    intro other member
    have different : other ≠ node := fun equal => notListed (equal ▸ member)
    exact update_of_ne different _ _
  exact settled.of_frame rfl
    (fun curr isCurrent => same curr (invariant.currtask curr isCurrent))
    (fun other member _ => ⟨member, same other member⟩)

theorem taskregister (settled : Settled s) (invariant : Invariant s)
    {curnode : Option Nat} (fresh : s.Fresh curnode) (pid : Int32)
    (period compTime jiffies : Nat) :
    Settled (s.taskregister curnode pid period compTime jiffies).1 := by
  have unlisted : ∀ node ∈ curnode, node ∉ s.mp2listhead :=
    fun node allocated listed =>
      fresh node allocated (invariant.listed node listed)
  rcases s.taskregister_cases curnode pid period compTime jiffies with
    unchanged | ⟨node, -, leaked⟩ | ⟨node, allocated, rejected⟩ |
      ⟨node, allocated, usum, -, -, -, registered⟩
  · rwa [unchanged]
  · rw [leaked]
    exact settled
  · rw [rejected]
    exact settled.setPcb_of_notMem invariant (unlisted node allocated) _
  · have filled := settled.setPcb_of_notMem invariant
      (unlisted node allocated) (Pcb.fresh pid period compTime jiffies)
    rw [registered]
    refine filled.of_frame rfl (fun _ _ => rfl) ?_
    intro other member isReady
    rcases List.mem_append.mp member with old | new
    · exact ⟨old, rfl⟩
    · rw [List.mem_singleton.mp new] at isReady
      simp [setPcb, Pcb.fresh] at isReady

/-- After `deregister` no dispatch is due, or nothing runs. -/
theorem deregister (settled : Settled s) (pid : Int32) :
    Settled (s.deregister pid).1 ∨ (s.deregister pid).1.currtask = none := by
  unfold Sched.deregister
  cases s.lookup pid with
  | none => exact .inl settled
  | some target =>
      by_cases isCurrent : s.currtask = some target
      · exact .inr (if_pos isCurrent)
      · refine .inl (settled.of_frame (if_neg isCurrent) (fun _ _ => rfl) ?_)
        intro node member _
        exact ⟨List.mem_of_mem_erase member, rfl⟩

end Settled

/-- The dispatcher leaves no dispatch due. -/
theorem Invariant.dispatcher_settled {s : Sched} (invariant : Invariant s) :
    Settled s.dispatcher.1 := by
  have dispatches := invariant.dispatches
  generalize s.dispatcher = result at dispatches ⊢
  cases dispatches with
  | idle selected =>
      exact .inl fun node member ready =>
        not_ready_of_nexttask selected member ready
  | @start next current selected =>
      refine .inr ⟨next, rfl, ?_, fun node member ready => ?_⟩
      · simp [Sched.start, setState, setPcb]
      · simp only [Sched.start, setState_pcb] at ready ⊢
        split_ifs at ready
        exact nexttask_le selected member ready
  | @preempt curr next current running selected shorter =>
      refine .inr ⟨next, rfl, ?_, fun node member ready => ?_⟩
      · simp [Sched.start, setState, setPcb]
      · simp only [Sched.start, setState_pcb] at ready ⊢
        split_ifs at ready with isNext isCurr
        · rw [isCurr]
          exact shorter.le
        · exact nexttask_le selected member ready
  | @keep curr next current running selected longer =>
      exact .inr ⟨curr, current, running, fun node member ready =>
        longer.trans (nexttask_le selected member ready)⟩

/-- The thread has run its critical section and will sleep unless woken. -/
def Thread.Committed : Thread → Prop
  | .start | .waiting false => False
  | .promoting _ | .demoting _ | .returned | .waiting true | .blocked => True

/-- The thread is between the critical section of `dispatcher` and
`set_current_state(TASK_INTERRUPTIBLE)`. -/
def Thread.InWindow : Thread → Prop
  | .promoting _ | .demoting _ | .returned => True
  | .start | .waiting _ | .blocked => False

instance (thread : Thread) : Decidable thread.InWindow :=
  match thread with
  | .promoting _ | .demoting _ | .returned => inferInstanceAs (Decidable True)
  | .start | .waiting _ | .blocked => inferInstanceAs (Decidable False)

/-- A wake-up outside the window reaches the thread. -/
theorem Thread.not_committed_wake {thread : Thread}
    (outside : ¬thread.InWindow) : ¬thread.wake.Committed := by
  cases thread with
  | start | blocked => exact id
  | waiting interruptible => exact id
  | promoting switch => exact absurd trivial outside
  | demoting demtaskptr => exact absurd trivial outside
  | returned => exact absurd trivial outside

/-- A `deregister` past its critical section. -/
def Call.Deregistering : Call → Prop
  | .unlinked _ | .demoted _ | .cancelled _ | .freed => True
  | _ => False

/-- A wake-up of the dispatcher thread is still to come. -/
def Owed (s : System) : Prop :=
  s.callbacks ≠ [] ∨ (∃ task, s.calls task = .yielded) ∨
    (s.sched.currtask = none ∧ ∃ caller, (s.calls caller).Deregistering)

/-- A thread that is about to sleep leaves no dispatch due, or a wake-up is
still to come. -/
def Attended (s : System) : Prop :=
  s.thread.Committed → Settled s.sched ∨ Owed s

/-- No call of `wakethread` falls into the window. -/
def WakesOutsideWindow (s : System) : Action → Prop
  | .yieldWake _ | .timerWake _ => ¬s.thread.InWindow
  | .wakeAfterFree _ => s.sched.currtask = none → ¬s.thread.InWindow
  | _ => True

instance (s : System) (action : Action) :
    Decidable (WakesOutsideWindow s action) :=
  match action with
  | .yieldWake _ | .timerWake _ => inferInstanceAs (Decidable (¬_))
  | .wakeAfterFree _ => inferInstanceAs (Decidable (_ → _))
  | .tick _ | .register _ _ _ _ | .unlink _ _ _ | .demoteTarget _ _
  | .cancelTimer _ _ | .freeTarget _ _ | .yieldCritical _ | .yieldSetState _
  | .yieldSchedule _ _ | .timerFire _ | .dispatch | .promote _ | .demote _
  | .threadSetState | .threadSchedule _ => isTrue trivial

theorem Owed.of_frame {s next : System} (owed : Owed s)
    (callbacks : s.callbacks ≠ [] → next.callbacks ≠ [])
    (currtask : s.sched.currtask = none → next.sched.currtask = none)
    (yielded : ∀ task, s.calls task = .yielded → next.calls task = .yielded)
    (deregistering : ∀ caller, (s.calls caller).Deregistering →
      (next.calls caller).Deregistering) : Owed next := by
  rcases owed with firing | ⟨task, isYielded⟩ | ⟨idle, caller, isDeregistering⟩
  · exact .inl (callbacks firing)
  · exact .inr (.inl ⟨task, yielded task isYielded⟩)
  · exact .inr (.inr ⟨currtask idle, caller,
      deregistering caller isDeregistering⟩)

/-- Moving on inside a call keeps owed wake-ups, unless the call leaves the
yielded state or the end of `deregister`. -/
theorem Owed.setCall {s : System} (owed : Owed s) (task : Int32) (call : Call)
    (yielded : s.calls task = .yielded → call = .yielded)
    (deregistering : (s.calls task).Deregistering → call.Deregistering) :
    Owed (s.setCall task call) := by
  refine owed.of_frame id id (fun other isYielded => ?_)
    (fun other isDeregistering => ?_)
  · by_cases same : other = task
    · subst same
      simpa [System.setCall] using yielded isYielded
    · simpa [System.setCall, same] using isYielded
  · by_cases same : other = task
    · subst same
      simpa [System.setCall] using deregistering isDeregistering
    · simpa [System.setCall, same] using isDeregistering

namespace Attended

variable {s : System} {msecsToJiffies : Nat → Nat}

theorem initial (jiffies : Nat) : Attended (System.initial jiffies) := by
  intro committed
  exact False.elim committed

theorem setCall (attended : Attended s) (task : Int32) (call : Call)
    (yielded : s.calls task ≠ .yielded)
    (deregistering : (s.calls task).Deregistering → call.Deregistering) :
    Attended (s.setCall task call) := fun committed =>
  (attended committed).imp_right fun owed =>
    owed.setCall task call (fun isYielded => absurd isYielded yielded)
      deregistering

theorem demoteTask (attended : Attended s) (intask : Option Int32) :
    Attended (s.demoteTask intask) := by
  cases intask <;> exact attended

theorem register (attended : Attended s) (invariant : Invariant s.sched)
    {curnode : Option Nat} (fresh : s.sched.Fresh curnode)
    (pid period compTime : Int32) :
    Attended (s.apply msecsToJiffies
      (.register curnode pid period compTime)) := by
  have currtask : (s.sched.taskregister curnode pid (unsignedLong period)
      (unsignedLong compTime) s.jiffies).1.currtask = s.sched.currtask := by
    rcases s.sched.taskregister_cases curnode pid (unsignedLong period)
      (unsignedLong compTime) s.jiffies with
        result | ⟨_, -, result⟩ | ⟨_, -, result⟩ |
          ⟨_, -, _, -, -, -, result⟩ <;> rw [result] <;> rfl
  intro committed
  rcases attended committed with settled | owed
  · exact .inl (settled.taskregister invariant fresh ..)
  · exact .inr (owed.of_frame id currtask.trans (fun _ => id) fun _ => id)

theorem unlink (attended : Attended s) {caller pid : Int32} {target : Nat}
    (enabled : s.Enabled (.unlink caller pid target)) :
    Attended (s.apply msecsToJiffies (.unlink caller pid target)) := by
  have idle := enabled.1
  intro committed
  have stillNone : s.sched.currtask = none →
      (s.sched.deregister pid).1.currtask = none := by
    intro none
    simp [deregister, enabled.2, clearCurrtask, none]
  have deregisters : ((s.apply msecsToJiffies
      (.unlink caller pid target)).calls caller).Deregistering := by
    simp [System.apply, System.setCall, Call.Deregistering]
  rcases attended committed with settled | owed
  · rcases settled.deregister pid with stillSettled | nothing
    · exact .inl stillSettled
    · exact .inr (.inr (.inr ⟨nothing, caller, deregisters⟩))
  · have moved := owed.setCall caller (.unlinked target)
      (fun isYielded => by simp [idle] at isYielded) (fun _ => trivial)
    exact .inr (moved.of_frame id stillNone (fun _ => id) fun _ => id)

theorem cancelTimer (attended : Attended s) (sound : s.Sound) {caller : Int32}
    {target : Nat} (enabled : s.Enabled (.cancelTimer caller target)) :
    Attended (s.apply msecsToJiffies (.cancelTimer caller target)) := by
  have unlinked := sound.linked.targets caller target (by rw [enabled.1]; rfl)
  have notListed := (sound.sched.unlinked target unlinked).2
  intro committed
  rcases attended committed with settled | owed
  · exact .inl (settled.setPcb_of_notMem sound.sched notListed _)
  · have moved := owed.setCall caller (.cancelled target)
      (fun isYielded => by simp [enabled.1] at isYielded) (fun _ => trivial)
    exact .inr (moved.of_frame id id (fun _ => id) fun _ => id)

theorem wakeAfterFree (attended : Attended s) {caller : Int32}
    (enabled : s.Enabled (.wakeAfterFree caller))
    (outside : s.sched.currtask = none → ¬s.thread.InWindow) :
    Attended (s.apply msecsToJiffies (.wakeAfterFree caller)) := by
  obtain ⟨schedEq, callsEq, callbacksEq, threadEq⟩ :=
    s.apply_wakeAfterFree msecsToJiffies caller
  intro committed
  rw [threadEq] at committed
  split_ifs at committed with nothing
  · exact absurd committed (Thread.not_committed_wake (outside nothing))
  · rw [schedEq]
    refine (attended committed).imp_right fun owed => ?_
    rcases owed with firing | ⟨task, isYielded⟩ | ⟨idle, -⟩
    · exact .inl (callbacksEq ▸ firing)
    · have different : task ≠ caller := by
        rintro rfl
        rw [enabled] at isYielded
        cases isYielded
      refine .inr (.inl ⟨task, ?_⟩)
      rw [callsEq, update_of_ne different]
      exact isYielded
    · exact absurd idle nothing

theorem promote (attended : Attended s) {switch : Switch}
    (enabled : s.Enabled (.promote switch)) :
    Attended (s.apply msecsToJiffies (.promote switch)) := by
  have committed : s.thread.Committed := by
    rw [enabled]
    trivial
  intro _
  have settledOrOwed := attended committed
  simp only [System.apply, System.promoteTask_sched]
  refine settledOrOwed.imp_right fun owed => ?_
  refine owed.of_frame (by simp) (by simp) (fun task isYielded => ?_)
    (fun caller isDeregistering => ?_)
  · simp [System.promoteTask_calls, isYielded, Call.wake]
  · simp only [System.promoteTask_calls]
    split_ifs
    · cases call : s.calls caller <;> rw [call] at isDeregistering <;>
        exact isDeregistering
    · exact isDeregistering

/-- Every step with its wake-ups outside the window keeps the thread
attended. -/
theorem step (attended : Attended s) (sound : s.Sound) {action : Action}
    {next : System} (outside : WakesOutsideWindow s action)
    (taken : s.step msecsToJiffies action = some next) : Attended next := by
  obtain ⟨enabled, rfl⟩ := System.step_eq_some_iff.mp taken
  cases action with
  | tick ticks => exact attended
  | register curnode pid period compTime =>
      exact attended.register sound.sched enabled pid period compTime
  | unlink caller pid target => exact attended.unlink enabled
  | demoteTarget caller target =>
      refine (attended.demoteTask _).setCall caller _ ?_ (fun _ => trivial)
      rw [System.demoteTask_calls, enabled]
      rintro ⟨⟩
  | cancelTimer caller target => exact attended.cancelTimer sound enabled
  | freeTarget caller target =>
      have moved := attended.setCall caller .freed
        (by rw [enabled]; rintro ⟨⟩) (fun _ => trivial)
      exact fun committed => (moved committed).imp id fun owed =>
        owed.of_frame id id (fun _ => id) fun _ => id
  | wakeAfterFree caller => exact attended.wakeAfterFree enabled outside
  | yieldCritical task =>
      refine fun _ => .inr (.inr (.inl ⟨task, ?_⟩))
      simp [System.apply, System.setCall]
  | yieldWake task =>
      exact fun committed =>
        absurd committed (Thread.not_committed_wake outside)
  | yieldSetState task =>
      exact attended.setCall task _ (by rw [enabled]; rintro ⟨⟩)
        (by rw [enabled]; rintro ⟨⟩)
  | yieldSchedule task uninterruptible =>
      exact attended.setCall task _ (by rw [enabled]; rintro ⟨⟩)
        (by rw [enabled]; rintro ⟨⟩)
  | timerFire temp => exact fun _ => .inr (.inl (List.cons_ne_nil _ _))
  | timerWake temp =>
      exact fun committed =>
        absurd committed (Thread.not_committed_wake outside)
  | dispatch => exact fun _ => .inl sound.sched.dispatcher_settled
  | promote switch => exact attended.promote enabled
  | demote demtaskptr =>
      have committed : (s.demoteTask demtaskptr).thread.Committed := by
        rw [System.demoteTask_thread, enabled]
        trivial
      exact fun _ => attended.demoteTask demtaskptr committed
  | threadSetState => exact fun _ => attended (by rw [enabled]; trivial)
  | threadSchedule interruptible =>
      cases interruptible with
      | false => exact False.elim
      | true => exact fun _ => attended (by rw [enabled]; trivial)

end Attended

/-- If no wake-up falls into the window, a sleeping dispatcher thread has no
dispatch to do once all other operations are finished. -/
theorem settled_of_wakesOutsideWindow (msecsToJiffies : Nat → Nat)
    (jiffies : Nat) (actions : List Action) (s : System)
    (outside : Permits (System.step msecsToJiffies) WakesOutsideWindow
      (System.initial jiffies) actions)
    (reached : run (System.step msecsToJiffies) (System.initial jiffies)
      actions = some s)
    (blocked : s.thread = .blocked) (quiet : s.Quiet) : Settled s.sched := by
  have both : s.Sound ∧ Attended s :=
    invariant_of_permits (fun s => s.Sound ∧ Attended s)
      (fun _ _ _ kept outside taken =>
        ⟨kept.1.step taken, kept.2.step kept.1 outside taken⟩)
      ⟨System.Sound.initial jiffies, Attended.initial jiffies⟩ outside reached
  obtain ⟨noCallbacks, calls⟩ := quiet
  have committed : s.thread.Committed := by
    rw [blocked]
    trivial
  rcases both.2 committed with settled |
    firing | ⟨task, yielded⟩ | ⟨-, caller, deregistering⟩
  · exact settled
  · exact absurd noCallbacks firing
  · rcases calls task with idle | asleep
    · simp [yielded] at idle
    · simp [yielded] at asleep
  · rcases calls caller with idle | asleep
    · simp [idle, Call.Deregistering] at deregistering
    · simp [asleep, Call.Deregistering] at deregistering

/-- A task registers, yields and sleeps, and the dispatcher thread runs its
first dispatch. -/
def firstCycle : List Action :=
  [.register (some 0) 1 100 10, .yieldCritical 1, .yieldWake 1,
    .yieldSetState 1, .yieldSchedule 1 true, .dispatch,
    .promote ⟨none, none⟩, .demote none]

/-- The timer of the task fires when the thread is asleep. -/
def heardWake : List Action :=
  firstCycle ++ [.threadSetState, .threadSchedule true, .tick 100,
    .timerFire 0, .timerWake 0, .dispatch, .promote ⟨some 1, none⟩,
    .demote none, .threadSetState, .threadSchedule true]

/-- The timer of the task fires before the thread has announced that it will
sleep. -/
def lostWake : List Action :=
  firstCycle ++ [.tick 100, .timerFire 0, .timerWake 0, .threadSetState,
    .threadSchedule true]

theorem settled_heardWake :
    ∃ s, run (System.step id) (System.initial 0) heardWake = some s ∧
      s.sched.currtask = some 0 ∧ Settled s.sched := by
  refine ⟨_, rfl, rfl, ?_⟩
  refine settled_of_wakesOutsideWindow id 0 heardWake _ (by decide) rfl rfl
    ⟨rfl, fun task => .inl ?_⟩
  by_cases same : task = 1
  · subst same
    rfl
  · simp [System.apply, System.setCall, System.wakethread,
      System.promoteTask, System.initial, same]

/-- After a lost wake-up the thread sleeps although a task is ready. -/
theorem not_settled_lostWake :
    ∃ s, run (System.step id) (System.initial 0) lostWake = some s ∧
      s.thread = .blocked ∧ s.Quiet ∧ ¬Settled s.sched := by
  refine ⟨_, rfl, rfl, ⟨rfl, fun task => ?_⟩, by decide⟩
  by_cases same : task = 1
  · subst same
    exact .inr rfl
  · left
    simp [System.apply, System.setCall, System.wakethread,
      System.promoteTask, System.initial, same]

end LinuxKernelDev.Rms
