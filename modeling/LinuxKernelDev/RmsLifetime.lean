import LinuxKernelDev.RmsConcurrency

/-!
# The lifetime of PCBs

A PCB is freed by the `deregister` that unlinked it, or by the `taskregister`
that allocated it and then rejected the task.  Between the unlink and the end
of `del_timer_sync` its timer can still be pending or running, but then the
call that will free it has yet to cancel that timer.
-/

namespace LinuxKernelDev.Rms

open Function Transition Sched

/-- The PCB whose timer a `deregister` in progress has yet to cancel. -/
def Call.uncancelled : Call → Option Nat
  | .unlinked target | .demoted target => some target
  | _ => none

@[simp]
theorem Call.uncancelled_wake (call : Call) :
    call.wake.uncancelled = call.uncancelled := by
  cases call <;> rfl

theorem Call.target_of_uncancelled {call : Call} {target : Nat}
    (uncancelled : call.uncancelled = some target) :
    call.target = some target := by
  cases call <;> first | exact uncancelled | cases uncancelled

/-- The PCB that an action allocates. -/
def Action.curnode : Action → Option Nat
  | .register curnode _ _ _ => curnode
  | _ => none

namespace System

/-- The action calls `kmem_cache_free` on a PCB. -/
def Frees (s : System) (node : Nat) : Action → Prop
  | .register curnode pid period compTime =>
      curnode = some node ∧ unsignedLong period ≠ 0 ∧
        unsignedLong compTime ≠ 0 ∧
        (s.sched.taskregister curnode pid (unsignedLong period)
          (unsignedLong compTime) s.jiffies).2 = none
  | .freeTarget _ target => target = node
  | _ => False

/-- A PCB is on the list, or a `deregister` has yet to cancel its timer. -/
def Watched (s : System) (node : Nat) : Prop :=
  node ∈ s.sched.mp2listhead ∨
    ∃ caller, (s.calls caller).uncancelled = some node

/-- A timer is pending, or its callback is running. -/
def Active (s : System) (node : Nat) : Prop :=
  (s.sched.pcb node).timer.isSome = true ∨ node ∈ s.callbacks

/-- Active timers belong to watched PCBs, and no PCB is allocated twice. -/
structure Alive (s : System) : Prop where
  nodup : s.sched.allocated.Nodup
  active : ∀ node, s.Active node → s.Watched node

namespace Watched

variable {s next : System} {node : Nat}

theorem of_frame (watched : s.Watched node)
    (lists : node ∈ s.sched.mp2listhead → node ∈ next.sched.mp2listhead)
    (calls : ∀ caller, (s.calls caller).uncancelled = some node →
      (next.calls caller).uncancelled = some node) : next.Watched node :=
  watched.imp lists fun ⟨caller, held⟩ => ⟨caller, calls caller held⟩

/-- A call that moves on, but keeps the PCB it has yet to cancel. -/
theorem of_update (watched : s.Watched node) {caller : Int32} {call : Call}
    (lists : node ∈ s.sched.mp2listhead → node ∈ next.sched.mp2listhead)
    (callsEq : next.calls = update s.calls caller call)
    (kept : (s.calls caller).uncancelled = some node →
      call.uncancelled = some node) : next.Watched node := by
  refine watched.of_frame lists fun other held => ?_
  rw [callsEq]
  by_cases same : other = caller
  · subst same
    rw [update_self]
    exact kept held
  · rwa [update_of_ne same]

theorem mem_allocated (watched : s.Watched node) (sound : s.Sound) :
    node ∈ s.sched.allocated := by
  rcases watched with listed | ⟨caller, held⟩
  · exact sound.sched.listed node listed
  · have unlinked := sound.linked.targets caller node
      (Call.target_of_uncancelled held)
    exact (sound.sched.unlinked node unlinked).1

end Watched

theorem allocated_nodup_step {msecsToJiffies : Nat → Nat} {s next : Sched}
    {event : Event} (nodup : s.allocated.Nodup)
    (taken : s.step msecsToJiffies event = some next) :
    next.allocated.Nodup := by
  cases event with
  | register curnode pid period compTime jiffies =>
      simp only [Sched.step, Option.ite_none_right_eq_some,
        Option.some.injEq] at taken
      obtain ⟨fresh, rfl⟩ := taken
      rcases s.taskregister_cases curnode pid (unsignedLong period)
        (unsignedLong compTime) jiffies with
          unchanged | ⟨node, allocated, leaked⟩ | ⟨node, -, rejected⟩ |
            ⟨node, allocated, -, -, -, -, registered⟩
      · rwa [unchanged]
      · rw [leaked]
        exact nodup.cons (fresh node allocated)
      · rwa [rejected]
      · rw [registered]
        exact nodup.cons (fresh node allocated)
  | deregister pid =>
      obtain rfl := Option.some.inj taken
      unfold Sched.deregister
      cases s.lookup pid <;> exact nodup
  | cancel target =>
      simp only [Sched.step, Option.ite_none_right_eq_some,
        Option.some.injEq] at taken
      exact taken.2 ▸ nodup
  | release target =>
      simp only [Sched.step, Option.ite_none_right_eq_some,
        Option.some.injEq] at taken
      exact taken.2 ▸ nodup.erase target
  | yield pid =>
      obtain rfl := Option.some.inj taken
      unfold Sched.taskyield
      cases s.lookup pid <;> exact nodup
  | dispatch =>
      obtain rfl := Option.some.inj taken
      rwa [s.dispatcher_frame.2.1]
  | timer temp =>
      simp only [Sched.step, Option.ite_none_right_eq_some,
        Option.some.injEq] at taken
      exact taken.2 ▸ nodup

namespace Alive

variable {msecsToJiffies : Nat → Nat} {s : System}

theorem initial (jiffies : Nat) : (System.initial jiffies).Alive where
  nodup := List.nodup_nil
  active node active := by
    rcases active with pending | running
    · cases pending
    · cases running

/-- A registration fills in a PCB whose timer is not set. -/
theorem register (alive : s.Alive) (curnode : Option Nat)
    (pid period compTime : Int32) (node : Nat)
    (active : (s.apply msecsToJiffies
      (.register curnode pid period compTime)).Active node) :
    (s.apply msecsToJiffies
      (.register curnode pid period compTime)).Watched node := by
  have filled : ∀ fresh pcb (timer : pcb.timer = none),
      ((s.sched.setPcb fresh pcb).pcb node).timer.isSome = true →
        (s.sched.pcb node).timer.isSome = true := by
    intro fresh pcb timer pending
    by_cases same : node = fresh
    · subst same
      simp [Sched.setPcb, timer] at pending
    · simpa [Sched.setPcb, same] using pending
  rcases s.sched.taskregister_cases curnode pid (unsignedLong period)
    (unsignedLong compTime) s.jiffies with
      result | ⟨fresh, -, result⟩ | ⟨fresh, -, result⟩ |
        ⟨fresh, -, -, -, -, -, result⟩ <;>
    simp only [System.apply, result] at active ⊢
  · exact alive.active node active
  · exact alive.active node active
  · exact alive.active node (active.imp (filled fresh _ rfl) id)
  · exact (alive.active node (active.imp (filled fresh _ rfl) id)).of_frame
      (List.mem_append_left _) fun _ => id

theorem unlink (alive : s.Alive) {caller pid : Int32} {target : Nat}
    (enabled : s.Enabled (.unlink caller pid target)) (node : Nat)
    (active : (s.apply msecsToJiffies (.unlink caller pid target)).Active
      node) :
    (s.apply msecsToJiffies (.unlink caller pid target)).Watched node := by
  simp only [System.apply, Sched.deregister, enabled.2] at active ⊢
  by_cases isTarget : node = target
  · subst isTarget
    exact .inr ⟨caller, by simp [setCall, Call.uncancelled]⟩
  · refine (alive.active node active).of_update
      (List.mem_erase_of_ne isTarget).mpr rfl fun held => ?_
    rw [enabled.1] at held
    cases held

theorem cancelTimer (alive : s.Alive) {caller : Int32} {target : Nat}
    (enabled : s.Enabled (.cancelTimer caller target)) (node : Nat)
    (active : (s.apply msecsToJiffies (.cancelTimer caller target)).Active
      node) :
    (s.apply msecsToJiffies (.cancelTimer caller target)).Watched node := by
  have notTarget : node ≠ target := by
    rintro rfl
    rcases active with pending | running
    · simp [System.apply, delTimer, Sched.setPcb] at pending
    · exact enabled.2 running
  have before : s.Active node := by
    refine active.imp (fun pending => ?_) id
    simpa [System.apply, delTimer, Sched.setPcb, notTarget] using pending
  refine (alive.active node before).of_update id rfl fun held => ?_
  rw [enabled.1] at held
  exact absurd (Option.some.inj held).symm notTarget

theorem yieldCritical (alive : s.Alive) {task : Int32}
    (enabled : s.Enabled (.yieldCritical task)) (node : Nat)
    (active : (s.apply msecsToJiffies (.yieldCritical task)).Active node) :
    (s.apply msecsToJiffies (.yieldCritical task)).Watched node := by
  obtain ⟨curr, found⟩ := Option.isSome_iff_exists.mp enabled.2
  simp only [System.apply, taskyield, found, Option.map_some,
    Option.getD_some] at active ⊢
  by_cases isCurr : node = curr
  · subst isCurr
    have listed := mem_of_lookup found
    exact .inl listed
  · have before : s.Active node := by
      refine active.imp (fun pending => ?_) id
      simpa [clearCurrtask, Sched.setPcb, isCurr] using pending
    refine (alive.active node before).of_update id rfl fun held => ?_
    rw [enabled.1] at held
    cases held

theorem timerFire (alive : s.Alive) {temp : Nat}
    (enabled : s.Enabled (.timerFire temp)) (node : Nat)
    (active : (s.apply msecsToJiffies (.timerFire temp)).Active node) :
    (s.apply msecsToJiffies (.timerFire temp)).Watched node := by
  have before : s.Active node := by
    by_cases isTemp : node = temp
    · subst isTemp
      obtain ⟨expires, armed, -⟩ := enabled.1
      exact .inl (Option.isSome_iff_exists.mpr ⟨expires, armed⟩)
    · refine active.imp (fun pending => ?_) fun running => ?_
      · simpa [System.apply, timercb, Sched.setPcb, isTemp] using pending
      · exact (List.mem_cons.mp running).resolve_left isTemp
  exact alive.active node before

/-- Every action keeps active timers on watched PCBs. -/
theorem apply_active (alive : s.Alive) {action : Action}
    (enabled : s.Enabled action) (node : Nat)
    (active : (s.apply msecsToJiffies action).Active node) :
    (s.apply msecsToJiffies action).Watched node := by
  -- A call outside the steps between the unlink and the cancellation.
  have moved : ∀ {next : System} {caller : Int32} {call : Call},
      s.Active node → next.sched.mp2listhead = s.sched.mp2listhead →
        next.calls = update s.calls caller call →
        ((s.calls caller).uncancelled = some node →
          call.uncancelled = some node) → next.Watched node :=
    fun before lists callsEq kept =>
      (alive.active node before).of_update (fun listed => lists ▸ listed)
        callsEq kept
  cases action with
  | tick ticks => exact alive.active node active
  | register curnode pid period compTime =>
      exact alive.register curnode pid period compTime node active
  | unlink caller pid target => exact alive.unlink enabled node active
  | demoteTarget caller target =>
      refine moved active rfl rfl fun held => ?_
      rwa [enabled] at held
  | cancelTimer caller target => exact alive.cancelTimer enabled node active
  | freeTarget caller target =>
      refine moved active rfl rfl fun held => ?_
      rw [enabled] at held
      cases held
  | wakeAfterFree caller =>
      obtain ⟨schedEq, callsEq, callbacksEq, -⟩ :=
        s.apply_wakeAfterFree msecsToJiffies caller
      rw [Active, schedEq, callbacksEq] at active
      refine moved active (congrArg _ schedEq) callsEq fun held => ?_
      rw [enabled] at held
      cases held
  | yieldCritical task => exact alive.yieldCritical enabled node active
  | yieldWake task | yieldSetState task | yieldSchedule task _ =>
      refine moved active rfl rfl fun held => ?_
      rw [enabled] at held
      cases held
  | timerFire temp => exact alive.timerFire enabled node active
  | timerWake temp =>
      exact (alive.active node (active.imp id List.mem_of_mem_erase)).of_frame
        id fun _ => id
  | dispatch =>
      obtain ⟨listEq, -, -, states⟩ := s.sched.dispatcher_frame
      refine (alive.active node (active.imp (fun pending => ?_) id)).of_frame
        (fun listed => ?_) fun _ => id
      · obtain ⟨state, pcbEq⟩ := states node
        simpa [System.apply, pcbEq] using pending
      · exact listEq ▸ listed
  | promote switch =>
      simp only [System.apply, Active, promoteTask_sched,
        promoteTask_callbacks] at active
      refine (alive.active node active).of_frame
        (fun listed => by simpa [System.apply] using listed)
        fun caller held => ?_
      simp only [System.apply, promoteTask_calls]
      split_ifs
      · rwa [Call.uncancelled_wake]
      · exact held
  | demote demtaskptr =>
      simp only [System.apply, Active, Watched, demoteTask_sched,
        demoteTask_callbacks, demoteTask_calls] at active ⊢
      exact alive.active node active
  | threadSetState => exact alive.active node active
  | threadSchedule interruptible => exact alive.active node active

theorem step (alive : s.Alive) (sound : s.Sound) {action : Action}
    {next : System} (taken : s.step msecsToJiffies action = some next) :
    next.Alive := by
  obtain ⟨enabled, rfl⟩ := step_eq_some_iff.mp taken
  refine ⟨?_, fun node => alive.apply_active enabled node⟩
  rcases sound.exists_event enabled with same | ⟨event, happened⟩
  · exact same ▸ alive.nodup
  · exact allocated_nodup_step alive.nodup happened

end Alive

/-- No reference to a freed PCB remains, and the next action frees only a PCB
that is allocated. -/
structure MemorySafe (msecsToJiffies : Nat → Nat) (s : System) : Prop where
  listed : ∀ node ∈ s.sched.mp2listhead, node ∈ s.sched.allocated
  currtask : ∀ node ∈ s.sched.currtask, node ∈ s.sched.allocated
  pending : ∀ node, (s.sched.pcb node).timer.isSome = true →
    node ∈ s.sched.allocated
  runnable : ∀ node ∈ s.callbacks, node ∈ s.sched.allocated
  deregistering : ∀ caller target, (s.calls caller).target = some target →
    target ∈ s.sched.allocated
  frees : ∀ action node, s.Enabled action → s.Frees node action →
    (node ∈ s.sched.allocated ∨ action.curnode = some node) ∧
      node ∉ (s.apply msecsToJiffies action).sched.allocated

/-- A rejected registration frees the PCB it has allocated. -/
theorem notMem_allocated_of_rejected {s : Sched} {node : Nat} {pid : Int32}
    {period compTime jiffies : Nat} (fresh : node ∉ s.allocated)
    (periodNe : period ≠ 0) (compTimeNe : compTime ≠ 0)
    (rejected : (s.taskregister (some node) pid period compTime jiffies).2 =
      none) :
    node ∉ (s.taskregister (some node) pid period compTime
      jiffies).1.allocated := by
  revert rejected
  simp only [taskregister, periodNe, compTimeNe, or_self, if_false]
  split
  · simp [Sched.free, Sched.setPcb, fresh]
  · split_ifs
    · simp [Sched.free, Sched.setPcb, fresh]
    · rintro ⟨⟩

theorem Alive.memorySafe {s : System} (alive : s.Alive) (sound : s.Sound)
    (msecsToJiffies : Nat → Nat) : s.MemorySafe msecsToJiffies := by
  have held : ∀ caller target, (s.calls caller).target = some target →
      target ∈ s.sched.allocated := fun caller target holds =>
    (sound.sched.unlinked target
      (sound.linked.targets caller target holds)).1
  refine
    { listed := sound.sched.listed
      currtask := fun node current =>
        sound.sched.listed node (sound.sched.currtask node current)
      pending := fun node pending =>
        (alive.active node (.inl pending)).mem_allocated sound
      runnable := fun node running =>
        (alive.active node (.inr running)).mem_allocated sound
      deregistering := held
      frees := fun action node enabled frees => ?_ }
  cases action with
  | register curnode pid period compTime =>
      obtain ⟨rfl, periodNe, compTimeNe, rejected⟩ := frees
      exact ⟨.inr rfl, notMem_allocated_of_rejected (enabled node rfl)
        periodNe compTimeNe rejected⟩
  | freeTarget caller target =>
      obtain rfl := frees
      refine ⟨.inl (held caller target (by rw [enabled]; rfl)), ?_⟩
      exact alive.nodup.not_mem_erase
  | _ => exact frees.elim

/-- In every reachable state, the list, `currtask`, the timers and the
deregistrations in progress refer to allocated PCBs only, and no PCB is freed
twice. -/
theorem memorySafe_of_reached (msecsToJiffies : Nat → Nat) (jiffies : Nat)
    (actions : List Action) (s : System)
    (reached : run (System.step msecsToJiffies) (System.initial jiffies)
      actions = some s) : s.MemorySafe msecsToJiffies := by
  have both : s.Sound ∧ s.Alive :=
    invariant_of_run (fun s => s.Sound ∧ s.Alive)
      (fun _ _ _ kept taken =>
        ⟨kept.1.step taken, kept.2.step kept.1 taken⟩)
      ⟨Sound.initial jiffies, Alive.initial jiffies⟩ reached
  exact both.2.memorySafe both.1 msecsToJiffies

/-- The timer of a PCB fires after the PCB has been unlinked. -/
def lateCallback : List Action :=
  [.register (some 0) 10 100 20, .yieldCritical 10, .unlink 20 10 0,
    .demoteTarget 20 0, .tick 200, .timerFire 0]

theorem memorySafe_lateCallback :
    ∃ s, run (System.step id) (System.initial 0) lateCallback = some s ∧
      s.callbacks = [0] ∧ 0 ∉ s.sched.mp2listhead ∧
      ¬s.Enabled (.cancelTimer 20 0) ∧ s.MemorySafe id :=
  ⟨_, rfl, rfl, by decide, by decide,
    memorySafe_of_reached id 0 lateCallback _ rfl⟩

end System

end LinuxKernelDev.Rms
