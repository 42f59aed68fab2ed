import LinuxKernelDev.TrackerList
import LinuxKernelDev.TransitionRuns

/-!
# Concurrent execution of the CPU usage tracker

The functions of `mp1.c` run in parallel: registrations by `my_write`, the
timer that schedules the work, the work that refreshes the CPU times, and
`test_module_exit`.  Each is split at its lock boundaries.  What the list holds
is what a registry holds after the changes made by the critical sections, in
the order in which they took the lock.
-/

namespace LinuxKernelDev.CpuTracker

open Function KeyedRegistry Transition

/-- How far `test_module_exit` has come. -/
inductive Stage where
  | loaded
  | timerDeleted
  | flushed
  | cleaned
  | destroyed
  | removed
  deriving DecidableEq

/-- `cleanuplist` has emptied the list. -/
def Stage.AfterCleanup (stage : Stage) : Prop :=
  stage = .cleaned ∨ stage = .destroyed ∨ stage = .removed

/-- `kmem_cache_destroy` has been called. -/
def Stage.CacheGone (stage : Stage) : Prop :=
  stage = .destroyed ∨ stage = .removed

instance (stage : Stage) : Decidable stage.AfterCleanup :=
  inferInstanceAs (Decidable (_ ∨ _))

instance (stage : Stage) : Decidable stage.CacheGone :=
  inferInstanceAs (Decidable (_ ∨ _))

theorem Stage.CacheGone.afterCleanup {stage : Stage} (gone : stage.CacheGone) :
    stage.AfterCleanup :=
  Or.inr gone

/-- The module with the calls, the timer and the work that run in it. -/
structure System where
  pool : Pool
  /-- The calls of `idregister` in front of their critical section. -/
  registering : List (Nat × Int32)
  /-- The objects of the calls that found their pid on the list. -/
  rejected : List Nat
  /-- `timer` is pending. -/
  timer : Bool
  /-- `timercb` has scheduled the work and not yet armed the timer. -/
  callback : Bool
  /-- `worker` is pending. -/
  work : Bool
  /-- `work_func` is in front of its critical section. -/
  working : Bool
  stage : Stage
  /-- `mp1cache` was used after `kmem_cache_destroy`, or destroyed with objects
  in it. -/
  misused : Bool

inductive Action where
  | allocate (node : Nat) (pid : Int32)
  | insert (node : Nat) (pid : Int32)
  | free (node : Nat)
  | fire
  | rearm
  | startWork
  | workFunc (cpuUse : Int32 → Option UInt64)
  | delTimerSync
  | flushWork
  | cleanuplist
  | destroyCache
  | removeStatus

namespace System

/-- The module after `test_module_init`. -/
def initial : System where
  pool := Pool.initial
  registering := []
  rejected := []
  timer := true
  callback := false
  work := false
  working := false
  stage := .loaded
  misused := false

/-- The states in which an action can be taken.  `del_timer_sync` waits for
`timercb`, and `flush_work` for `work_func`. -/
def Enabled (s : System) : Action → Prop
  | .allocate node _ => s.stage ≠ .removed ∧ node ∉ s.pool.allocated
  | .insert node pid => (node, pid) ∈ s.registering
  | .free node => node ∈ s.rejected
  | .fire => s.timer = true
  | .rearm => s.callback = true
  | .startWork => s.work = true ∧ s.working = false
  | .workFunc _ => s.working = true
  | .delTimerSync => s.stage = .loaded ∧ s.callback = false
  | .flushWork =>
      s.stage = .timerDeleted ∧ s.work = false ∧ s.working = false
  | .cleanuplist => s.stage = .flushed
  | .destroyCache => s.stage = .cleaned
  | .removeStatus => s.stage = .destroyed

instance (s : System) (action : Action) : Decidable (s.Enabled action) :=
  match action with
  | .allocate _ _ | .startWork | .delTimerSync | .flushWork =>
      inferInstanceAs (Decidable (_ ∧ _))
  | .insert node pid => inferInstanceAs (Decidable ((node, pid) ∈ _))
  | .free node => inferInstanceAs (Decidable (node ∈ _))
  | .fire | .rearm | .workFunc _ => inferInstanceAs (Decidable ((_ : Bool) = _))
  | .cleanuplist | .destroyCache | .removeStatus =>
      inferInstanceAs (Decidable ((_ : Stage) = _))

/-- The effect of an enabled action. -/
def apply (s : System) : Action → System
  | .allocate node pid =>
      if s.stage.CacheGone then { s with misused := true }
      else { s with
        pool := s.pool.allocate node pid
        registering := (node, pid) :: s.registering }
  | .insert node pid =>
      if s.pool.listed pid then { s with
        registering := s.registering.erase (node, pid)
        rejected := node :: s.rejected }
      else { s with
        pool := s.pool.insert node
        registering := s.registering.erase (node, pid) }
  | .free node =>
      if s.stage.CacheGone then { s with misused := true }
      else { s with
        pool := s.pool.free node
        rejected := s.rejected.erase node }
  | .fire => { s with timer := false, callback := true, work := true }
  | .rearm => { s with timer := true, callback := false }
  | .startWork => { s with work := false, working := true }
  | .workFunc cpuUse =>
      { s with pool := s.pool.workFunc cpuUse, working := false }
  | .delTimerSync => { s with timer := false, stage := .timerDeleted }
  | .flushWork => { s with stage := .flushed }
  | .cleanuplist => { s with pool := s.pool.cleanuplist, stage := .cleaned }
  | .destroyCache =>
      { s with
        misused := s.misused || !s.pool.allocated.isEmpty
        stage := .destroyed }
  | .removeStatus => { s with stage := .removed }

def step (s : System) (action : Action) : Option System :=
  if s.Enabled action then some (s.apply action) else none

theorem step_eq_some_iff {s next : System} {action : Action} :
    s.step action = some next ↔ s.Enabled action ∧ s.apply action = next := by
  unfold step
  rw [Option.ite_none_right_eq_some, Option.some.injEq]

/-- The objects that calls of `idregister` hold. -/
def held (s : System) : List Nat := s.registering.map Prod.fst ++ s.rejected

/-- The objects are owned, and a call has filled in the object it holds. -/
structure Sound (s : System) : Prop where
  owns : s.pool.Owns s.held
  filled : ∀ call ∈ s.registering, s.pool.node call.1 = ⟨call.2, 0⟩

end System

/-- What an action does to the registry that the list stands for. -/
def Action.changes : Action → List (Change Int32 UInt64)
  | .insert _ pid => [.enter pid 0]
  | .workFunc cpuUse => [.refresh cpuUse]
  | .cleanuplist => [.refresh fun _ => none]
  | _ => []

namespace System

variable {s next : System} {action : Action}

theorem Sound.initial : Sound System.initial :=
  ⟨Pool.Owns.initial, List.forall_mem_nil _⟩

theorem Sound.registering_held (sound : s.Sound) {node : Nat} {pid : Int32}
    (calling : (node, pid) ∈ s.registering) : node ∉ s.pool.mp1listhead :=
  fun listed => sound.owns.notMem_held listed
    (List.mem_append_left _ (List.mem_map_of_mem calling))

/-- A call in front of its critical section holds one object. -/
theorem held_perm_cons {node : Nat} {pid : Int32}
    (calling : (node, pid) ∈ s.registering) :
    s.held.Perm
      (node :: ((s.registering.erase (node, pid)).map Prod.fst ++ s.rejected)) :=
  ((List.perm_cons_erase calling).map Prod.fst).append_right s.rejected

/-- Every action keeps the ownership of the objects, and changes the list as it
changes the registry. -/
theorem Sound.apply (sound : s.Sound) (enabled : s.Enabled action) :
    (s.apply action).Sound ∧
      (s.apply action).pool.entries =
        action.changes.foldl change s.pool.entries := by
  cases action with
  | allocate node pid =>
      simp only [System.apply, Action.changes, List.foldl_nil]
      split_ifs with gone
      · exact ⟨⟨sound.owns, sound.filled⟩, rfl⟩
      · obtain ⟨owns, same⟩ := sound.owns.allocate enabled.2 pid
        refine ⟨⟨owns, ?_⟩, same⟩
        intro call member
        obtain rfl | earlier := List.mem_cons.mp member
        · exact update_self _ _ _
        · have other : call.1 ≠ node := by
            rintro rfl
            refine enabled.2 (sound.owns.mem_allocated.mpr (Or.inr ?_))
            exact List.mem_append_left _ (List.mem_map_of_mem earlier)
          exact (update_of_ne other _ _).trans (sound.filled call earlier)
  | insert node pid =>
      have owns := sound.owns.perm (held_perm_cons enabled)
      have filled : ∀ call ∈ s.registering.erase (node, pid),
          s.pool.node call.1 = ⟨call.2, 0⟩ := fun call member =>
        sound.filled call (List.mem_of_mem_erase member)
      simp only [System.apply, Action.changes, List.foldl_cons, List.foldl_nil]
      split_ifs with present
      · rw [Pool.change_enter_of_listed present]
        exact ⟨⟨owns.perm List.perm_middle.symm, filled⟩, rfl⟩
      · obtain ⟨linked, entered⟩ := owns.insert (sound.filled _ enabled)
          (Bool.eq_false_iff.mpr present)
        exact ⟨⟨linked, filled⟩, entered⟩
  | free node =>
      simp only [System.apply, Action.changes, List.foldl_nil]
      split_ifs with gone
      · exact ⟨⟨sound.owns, sound.filled⟩, rfl⟩
      · have held : s.held.Perm (node ::
            (s.registering.map Prod.fst ++ s.rejected.erase node)) :=
          ((List.perm_cons_erase enabled).append_left _).trans List.perm_middle
        exact ⟨⟨(sound.owns.perm held).free, sound.filled⟩, rfl⟩
  | workFunc cpuUse =>
      obtain ⟨owns, refreshed⟩ := sound.owns.workFunc cpuUse
      refine ⟨⟨owns, fun call member => ?_⟩, refreshed⟩
      rw [← sound.filled call member]
      exact Pool.foldl_refresh_node cpuUse (sound.registering_held member)
  | cleanuplist =>
      obtain ⟨owns, emptied⟩ := sound.owns.cleanuplist
      refine ⟨⟨owns, fun call member => ?_⟩, emptied⟩
      rw [← sound.filled call member]
      exact congrFun Pool.foldl_delete_node call.1
  | fire | rearm | startWork | delTimerSync | flushWork | destroyCache
  | removeStatus => exact ⟨⟨sound.owns, sound.filled⟩, rfl⟩

theorem sound_of_step (sound : s.Sound) (taken : s.step action = some next) :
    next.Sound := by
  obtain ⟨enabled, rfl⟩ := step_eq_some_iff.mp taken
  exact (sound.apply enabled).1

theorem sound_of_run {actions : List Action} (sound : s.Sound)
    (reached : run step s actions = some next) : next.Sound :=
  invariant_of_run Sound (fun _ _ _ before taken => sound_of_step before taken)
    sound reached

/-- What `my_read` lists. -/
def status (s : System) : List UInt8 :=
  listing (s.pool.mp1listhead.map s.pool.node)

theorem status_eq (s : System) :
    s.status = listing (s.pool.entries.map fun held => ⟨held.1, held.2⟩) := by
  rw [status, Pool.entries, List.map_map]
  rfl

/-- The list stands for the registry after the changes made so far. -/
def Holds (start : List (Int32 × UInt64)) (s : System)
    (past : List (Change Int32 UInt64)) : Prop :=
  s.Sound ∧ s.pool.entries = past.foldl change start

theorem holds_of_step {start : List (Int32 × UInt64)}
    {past : List (Change Int32 UInt64)} (holds : Holds start s past)
    (taken : s.step action = some next) :
    Holds start next (past ++ action.changes) := by
  obtain ⟨enabled, rfl⟩ := step_eq_some_iff.mp taken
  obtain ⟨sound, changed⟩ := holds.1.apply enabled
  rw [holds.2, ← List.foldl_append] at changed
  exact ⟨sound, changed⟩

theorem entries_of_run {actions : List Action} (sound : s.Sound)
    (reached : run step s actions = some next) :
    next.pool.entries =
      (actions.flatMap Action.changes).foldl change s.pool.entries := by
  have start : Holds s.pool.entries s [] := ⟨sound, rfl⟩
  exact (history_of_run (Holds s.pool.entries) Action.changes
    (fun _ _ _ _ before taken => holds_of_step before taken) start reached).2

/-- A process registers twice and is sampled once before sampling is stopped. -/
def sampledOnce : List Action :=
  [.allocate 0 5, .insert 0 5, .allocate 1 5, .fire, .insert 1 5, .startWork,
    .rearm, .workFunc fun pid => if pid = 5 then some 7 else none, .free 1,
    .delTimerSync, .flushWork]

/-- Whatever the calls, the timer and the work do in parallel, and however far
the module is unloaded: every object of the cache is on the list or held by one
call of `idregister`, and no pid is on the list twice. -/
theorem objects_accounted {actions : List Action} {s : System}
    (reached : run step initial actions = some s) :
    s.pool.allocated.Perm
        (s.pool.mp1listhead ++ (s.registering.map Prod.fst ++ s.rejected)) ∧
      s.pool.allocated.Nodup ∧ (keys s.pool.entries).Nodup :=
  have sound := sound_of_run Sound.initial reached
  ⟨sound.owns.accounted, sound.owns.nodup, sound.owns.pids⟩

theorem objects_accounted_sampledOnce :
    ∃ s, run step initial sampledOnce = some s ∧
      s.pool.allocated.Perm
        (s.pool.mp1listhead ++ (s.registering.map Prod.fst ++ s.rejected)) ∧
      s.pool.allocated.Nodup ∧ (keys s.pool.entries).Nodup :=
  ⟨_, rfl, objects_accounted (rfl : run step initial sampledOnce = some _)⟩

/-- The status file shows the registry after the registrations, refreshes and
the cleanup in the order of their critical sections.  A pid has the value of the
last refresh since it was entered, and the pids stand in the order in which they
were entered. -/
theorem status_eq_registry {actions : List Action} {s : System}
    (reached : run step initial actions = some s) :
    s.status = listing (s.pool.entries.map fun held => ⟨held.1, held.2⟩) ∧
      s.pool.entries = (actions.flatMap Action.changes).foldl change [] ∧
      (∀ pid, s.pool.entries.lookup pid =
        (actions.flatMap Action.changes).foldl (track pid) none) ∧
      (keys s.pool.entries).Sublist
        ((actions.flatMap Action.changes).flatMap Change.entered) := by
  have folded := entries_of_run Sound.initial reached
  refine ⟨s.status_eq, folded, fun pid => ?_, ?_⟩
  · rw [folded, lookup_foldl_change]
    rfl
  · rw [folded]
    exact keys_foldl_change_sublist _ _

theorem status_eq_registry_sampledOnce :
    ∃ s, run step initial sampledOnce = some s ∧
      s.status = listing (s.pool.entries.map fun held => ⟨held.1, held.2⟩) ∧
      s.pool.entries = (sampledOnce.flatMap Action.changes).foldl change [] ∧
      (∀ pid, s.pool.entries.lookup pid =
        (sampledOnce.flatMap Action.changes).foldl (track pid) none) ∧
      (keys s.pool.entries).Sublist
        ((sampledOnce.flatMap Action.changes).flatMap Change.entered) :=
  ⟨_, rfl, status_eq_registry (rfl : run step initial sampledOnce = some _)⟩

/-- The timer is armed again after every callback until `del_timer_sync`
returns; then it stays idle, and the work after `flush_work` returns. -/
structure Timed (s : System) : Prop where
  loaded : s.stage = .loaded → s.callback = !s.timer
  deleted : s.stage ≠ .loaded → s.timer = false ∧ s.callback = false
  flushed : s.stage ≠ .loaded → s.stage ≠ .timerDeleted →
    s.work = false ∧ s.working = false

theorem Timed.initial : Timed System.initial :=
  ⟨fun _ => rfl, fun late => absurd rfl late, fun late => absurd rfl late⟩

theorem timed_of_step (timed : s.Timed) (taken : s.step action = some next) :
    next.Timed := by
  obtain ⟨enabled, rfl⟩ := step_eq_some_iff.mp taken
  obtain ⟨loaded, deleted, flushed⟩ := timed
  cases action with
  | allocate node pid | insert node pid | free node =>
      simp only [System.apply]
      split_ifs <;> exact ⟨loaded, deleted, flushed⟩
  | fire =>
      have early : s.stage = .loaded := by
        by_contra late
        rw [Enabled, (deleted late).1] at enabled
        exact Bool.false_ne_true enabled
      exact ⟨fun _ => rfl, fun late => absurd early late,
        fun late => absurd early late⟩
  | rearm =>
      have early : s.stage = .loaded := by
        by_contra late
        rw [Enabled, (deleted late).2] at enabled
        exact Bool.false_ne_true enabled
      exact ⟨fun _ => rfl, fun late => absurd early late,
        fun late => absurd early late⟩
  | startWork =>
      refine ⟨loaded, deleted, fun late later => ?_⟩
      have idle := (flushed late later).1
      rw [Enabled, idle] at enabled
      exact absurd enabled.1 Bool.false_ne_true
  | workFunc cpuUse =>
      exact ⟨loaded, deleted, fun late later => ⟨(flushed late later).1, rfl⟩⟩
  | delTimerSync =>
      exact ⟨fun early => Stage.noConfusion early, fun _ => ⟨rfl, enabled.2⟩,
        fun _ later => absurd rfl later⟩
  | flushWork =>
      have late : s.stage ≠ .loaded := by
        rw [enabled.1]
        decide
      exact ⟨fun early => Stage.noConfusion early, fun _ => deleted late,
        fun _ _ => enabled.2⟩
  | cleanuplist | destroyCache | removeStatus =>
      have late : s.stage ≠ .loaded ∧ s.stage ≠ .timerDeleted := by
        rw [show s.stage = _ from enabled]
        decide
      exact ⟨fun early => Stage.noConfusion early, fun _ => deleted late.1,
        fun _ _ => flushed late.1 late.2⟩

/-- Work that is pending or running stays so until `work_func` has refreshed
the list. -/
theorem pending_of_step (taken : s.step action = some next)
    (other : ∀ cpuUse, action ≠ .workFunc cpuUse)
    (pending : s.work = true ∨ s.working = true) :
    next.work = true ∨ next.working = true := by
  obtain ⟨enabled, rfl⟩ := step_eq_some_iff.mp taken
  cases action with
  | allocate node pid | insert node pid | free node =>
      simp only [System.apply]
      split_ifs <;> exact pending
  | fire => exact Or.inl rfl
  | startWork => exact Or.inr rfl
  | workFunc cpuUse => exact absurd rfl (other cpuUse)
  | rearm | delTimerSync | flushWork | cleanuplist | destroyCache
  | removeStatus => exact pending

theorem pending_of_run {actions : List Action}
    (reached : run step s actions = some next)
    (others : ∀ cpuUse, .workFunc cpuUse ∉ actions)
    (pending : s.work = true ∨ s.working = true) :
    next.work = true ∨ next.working = true := by
  induction actions generalizing s with
  | nil =>
      obtain rfl := Option.some.inj reached
      exact pending
  | cons action actions ih =>
      obtain ⟨middle, taken, rest⟩ := run_cons_eq_some_iff.mp reached
      refine ih rest (fun cpuUse member => others cpuUse
        (List.mem_cons_of_mem _ member)) ?_
      refine pending_of_step taken (fun cpuUse same => others cpuUse ?_) pending
      exact same ▸ List.mem_cons_self

/-- While the module is loaded the timer is armed or `timercb` is about to arm
it, so sampling never stops; from `del_timer_sync` on neither comes back, and
after `flush_work` no work is pending or running.  In between, the work of every
tick refreshes the list before `flush_work` returns. -/
theorem sampling_stops_in_order {actions : List Action} {s : System}
    (reached : run step initial actions = some s) :
    (s.stage = .loaded → s.callback = !s.timer) ∧
      (s.stage ≠ .loaded → s.timer = false ∧ s.callback = false) ∧
      (s.stage ≠ .loaded → s.stage ≠ .timerDeleted →
        s.work = false ∧ s.working = false) ∧
      ∀ before between, actions = before ++ .fire :: (between ++ [.flushWork]) →
        ∃ cpuUse, .workFunc cpuUse ∈ between := by
  have timed := invariant_of_run Timed
    (fun _ _ _ before taken => timed_of_step before taken) Timed.initial reached
  refine ⟨timed.loaded, timed.deleted, timed.flushed, ?_⟩
  rintro before between rfl
  by_contra none
  push Not at none
  obtain ⟨fired, -, later⟩ :=
    Option.bind_eq_some_iff.mp ((run_append _ _ _).symm.trans reached)
  obtain ⟨ticked, tick, rest⟩ := run_cons_eq_some_iff.mp later
  obtain ⟨flushing, ran, last⟩ :=
    Option.bind_eq_some_iff.mp ((run_append _ _ _).symm.trans rest)
  obtain ⟨-, rfl⟩ := step_eq_some_iff.mp tick
  have pending := pending_of_run ran none (Or.inl rfl)
  obtain ⟨final, flush, -⟩ := run_cons_eq_some_iff.mp last
  obtain ⟨⟨-, notPending, notWorking⟩, -⟩ := step_eq_some_iff.mp flush
  simp [notPending, notWorking] at pending

theorem sampling_stops_in_order_sampledOnce :
    ∃ s, run step initial sampledOnce = some s ∧
      (s.stage = .loaded → s.callback = !s.timer) ∧
      (s.stage ≠ .loaded → s.timer = false ∧ s.callback = false) ∧
      (s.stage ≠ .loaded → s.stage ≠ .timerDeleted →
        s.work = false ∧ s.working = false) ∧
      ∀ before between,
        sampledOnce = before ++ .fire :: (between ++ [.flushWork]) →
          ∃ cpuUse, .workFunc cpuUse ∈ between :=
  ⟨_, rfl, sampling_stops_in_order
    (rfl : run step initial sampledOnce = some _)⟩

/-- No call enters `idregister` once `cleanuplist` has run, and none is in it at
that time. -/
def CallsDrained (s : System) : Action → Prop
  | .allocate _ _ => ¬s.stage.AfterCleanup
  | .cleanuplist => s.held = []
  | _ => True

instance (s : System) (action : Action) : Decidable (s.CallsDrained action) :=
  match action with
  | .allocate _ _ => inferInstanceAs (Decidable (¬_))
  | .cleanuplist => inferInstanceAs (Decidable ((_ : List Nat) = _))
  | .insert _ _ | .free _ | .fire | .rearm | .startWork | .workFunc _
  | .delTimerSync | .flushWork | .destroyCache | .removeStatus =>
      inferInstanceAs (Decidable True)

/-- No object is left after `cleanuplist`, and the cache has not been
misused. -/
structure Clean (s : System) : Prop where
  empty : s.stage.AfterCleanup → s.pool.allocated = [] ∧ s.held = []
  unused : s.misused = false

theorem Clean.initial : Clean System.initial :=
  ⟨fun late => absurd late (by decide), rfl⟩

/-- After `cleanuplist` no call holds an object. -/
theorem Clean.not_afterCleanup (clean : s.Clean) {node : Nat}
    (isHeld : node ∈ s.held) : ¬s.stage.AfterCleanup := fun late => by
  rw [(clean.empty late).2] at isHeld
  exact List.not_mem_nil isHeld

/-- `cleanuplist` frees everything that no call holds. -/
theorem allocated_cleanuplist {p : Pool} (owns : p.Owns []) :
    p.cleanuplist.allocated = [] := by
  obtain ⟨-, accounted, -⟩ := Pool.foldl_delete rfl owns.accounted owns.nodup
  exact accounted.eq_nil

theorem clean_of_step (sound : s.Sound) (timed : s.Timed) (clean : s.Clean)
    (allowed : s.CallsDrained action) (taken : s.step action = some next) :
    next.Clean := by
  obtain ⟨enabled, rfl⟩ := step_eq_some_iff.mp taken
  cases action with
  | allocate node pid =>
      have early : ¬s.stage.CacheGone := fun gone =>
        allowed gone.afterCleanup
      rw [System.apply, if_neg early]
      exact ⟨fun late => absurd late allowed, clean.unused⟩
  | insert node pid =>
      have early : ¬s.stage.AfterCleanup := clean.not_afterCleanup
        (List.mem_append_left _ (List.mem_map_of_mem enabled))
      simp only [System.apply]
      split_ifs <;> exact ⟨fun late => absurd late early, clean.unused⟩
  | free node =>
      have early : ¬s.stage.AfterCleanup := clean.not_afterCleanup
        (List.mem_append_right _ enabled)
      rw [System.apply, if_neg fun gone => early gone.afterCleanup]
      exact ⟨fun late => absurd late early, clean.unused⟩
  | workFunc cpuUse =>
      refine ⟨fun late => ?_, clean.unused⟩
      have idle : s.working = false := by
        refine (timed.flushed ?_ ?_).2 <;>
        · intro early
          rw [System.apply, early] at late
          exact absurd late (by decide)
      rw [Enabled, idle] at enabled
      exact absurd enabled Bool.false_ne_true
  | cleanuplist =>
      refine ⟨fun _ => ⟨?_, allowed⟩, clean.unused⟩
      have owns := sound.owns
      rw [show s.held = [] from allowed] at owns
      exact allocated_cleanuplist owns
  | destroyCache =>
      have empty := clean.empty (Or.inl enabled)
      refine ⟨fun _ => empty, ?_⟩
      simp [System.apply, clean.unused, empty.1]
  | removeStatus =>
      exact ⟨fun _ => clean.empty (Or.inr (Or.inl enabled)), clean.unused⟩
  | delTimerSync =>
      have early : ¬Stage.timerDeleted.AfterCleanup := by decide
      exact ⟨fun late => absurd late early, clean.unused⟩
  | flushWork =>
      have early : ¬Stage.flushed.AfterCleanup := by decide
      exact ⟨fun late => absurd late early, clean.unused⟩
  | fire | rearm | startWork => exact ⟨clean.empty, clean.unused⟩

/-- If no registration is in progress when `cleanuplist` runs and none begins
afterwards, unloading leaves no object in the cache when it is destroyed, and
nothing uses the cache later. -/
theorem unload_of_callsDrained {actions : List Action} {s : System}
    (permits : Permits step CallsDrained initial actions)
    (reached : run step initial actions = some s) :
    s.misused = false ∧
      (s.stage.AfterCleanup → s.pool.allocated = [] ∧ s.held = []) := by
  have kept := invariant_of_permits
    (fun state => state.Sound ∧ state.Timed ∧ state.Clean)
    (fun _ _ _ before allowed taken => ⟨sound_of_step before.1 taken,
      timed_of_step before.2.1 taken,
      clean_of_step before.1 before.2.1 before.2.2 allowed taken⟩)
    ⟨Sound.initial, Timed.initial, Clean.initial⟩ permits reached
  exact ⟨kept.2.2.unused, kept.2.2.empty⟩

theorem unload_of_callsDrained_sampledOnce :
    ∃ s, run step initial (sampledOnce ++
        [.cleanuplist, .destroyCache, .removeStatus]) = some s ∧
      s.misused = false ∧
      (s.stage.AfterCleanup → s.pool.allocated = [] ∧ s.held = []) :=
  ⟨_, rfl, unload_of_callsDrained (by decide)
    (rfl : run step initial (sampledOnce ++
      [.cleanuplist, .destroyCache, .removeStatus]) = some _)⟩

end System

end LinuxKernelDev.CpuTracker
