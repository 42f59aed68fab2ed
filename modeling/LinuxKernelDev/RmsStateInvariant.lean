import LinuxKernelDev.RmsScheduler
import Mathlib.Data.List.Induction
import Mathlib.Data.List.Nodup
import Mathlib.Order.Nat

/-!
# The state machine of the scheduler

Critical sections and timer callbacks are taken as atomic events in any order.
In every state they reach, the running PCB on the list is `currtask`, a pending
timer belongs to a sleeping PCB, and the pids on the list are distinct.
-/

namespace LinuxKernelDev.Rms

open Function Transition

/-- Atomic events.  `cancel` and `release` are the last two steps of a
`deregister` whose critical section has unlinked a PCB. -/
inductive Event where
  | register (curnode : Option Nat) (pid period compTime : Int32)
      (jiffies : Nat)
  | deregister (pid : Int32)
  | cancel (target : Nat)
  | release (target : Nat)
  | yield (pid : Int32)
  | dispatch
  | timer (temp : Nat)
  deriving DecidableEq

namespace Sched

/-- The slab allocator returns an object that is not allocated. -/
def Fresh (s : Sched) (curnode : Option Nat) : Prop :=
  ∀ node ∈ curnode, node ∉ s.allocated

instance (s : Sched) (curnode : Option Nat) : Decidable (s.Fresh curnode) :=
  inferInstanceAs (Decidable (∀ node ∈ curnode, node ∉ s.allocated))

/-- One atomic event. -/
def step (msecsToJiffies : Nat → Nat) (s : Sched) : Event → Option Sched
  | .register curnode pid period compTime jiffies =>
      if s.Fresh curnode then
        some (s.taskregister curnode pid (unsignedLong period)
          (unsignedLong compTime) jiffies).1
      else
        none
  | .deregister pid => some (s.deregister pid).1
  | .cancel target => if target ∈ s.unlinked then some (s.delTimer target) else none
  | .release target => if target ∈ s.unlinked then some (s.release target) else none
  | .yield pid => some ((s.taskyield msecsToJiffies pid).getD s)
  | .dispatch => some s.dispatcher.1
  | .timer temp =>
      if (s.pcb temp).timer.isSome then some (s.timercb temp) else none

section Lookup

variable {s : Sched} {pid : Int32} {node : Nat}

theorem mem_of_lookup (found : s.lookup pid = some node) :
    node ∈ s.mp2listhead :=
  List.mem_of_find?_eq_some found

theorem pid_of_lookup (found : s.lookup pid = some node) :
    (s.pcb node).pid = pid := by
  simpa using List.find?_some found

theorem clearCurrtask_eq_some_iff {curr : Nat} :
    (s.clearCurrtask curr).currtask = some node ↔
      s.currtask = some node ∧ node ≠ curr := by
  unfold clearCurrtask
  by_cases isCurrent : s.currtask = some curr
  · simp [isCurrent, eq_comm]
  · simp only [isCurrent, if_false]
    constructor
    · intro same
      exact ⟨same, fun equal => isCurrent (equal ▸ same)⟩
    · exact And.left

end Lookup

section Select

variable {s : Sched}

theorem foldl_selectNext_eq_none {nodes : List Nat}
    (selected : nodes.foldl s.selectNext none = none) :
    ∀ node ∈ nodes, (s.pcb node).rmsState ≠ .ready := by
  induction nodes using List.reverseRecOn with
  | nil => simp
  | append_singleton nodes node ih =>
      rw [List.foldl_append, List.foldl_cons, List.foldl_nil] at selected
      generalize chosen : nodes.foldl s.selectNext none = start at selected
      unfold selectNext at selected
      by_cases ready : (s.pcb node).rmsState = .ready
      · rw [if_neg (not_not.mpr ready)] at selected
        split at selected
        · cases selected
        · split_ifs at selected
      · rw [if_pos ready] at selected
        intro other member
        rcases List.mem_append.mp member with early | last
        · exact ih (chosen.trans selected) other early
        · rwa [List.mem_singleton.mp last]

/-- The selected PCB is the first ready one on the list among those with the
least period. -/
theorem foldl_selectNext_split {nodes : List Nat} {next : Nat}
    (selected : nodes.foldl s.selectNext none = some next) :
    (s.pcb next).rmsState = .ready ∧
      ∃ before after, nodes = before ++ next :: after ∧
        (∀ node ∈ before, (s.pcb node).rmsState = .ready →
          (s.pcb next).period < (s.pcb node).period) ∧
        ∀ node ∈ after, (s.pcb node).rmsState = .ready →
          (s.pcb next).period ≤ (s.pcb node).period := by
  induction nodes using List.reverseRecOn generalizing next with
  | nil => cases selected
  | append_singleton nodes node ih =>
      rw [List.foldl_append, List.foldl_cons, List.foldl_nil] at selected
      -- The last PCB is skipped, or it does not beat the earlier choice.
      have kept : ∀ earlier, nodes.foldl s.selectNext none = some earlier →
          ((s.pcb node).rmsState = .ready →
            (s.pcb earlier).period ≤ (s.pcb node).period) →
          (s.pcb earlier).rmsState = .ready ∧
            ∃ before after, nodes ++ [node] = before ++ earlier :: after ∧
              (∀ other ∈ before, (s.pcb other).rmsState = .ready →
                (s.pcb earlier).period < (s.pcb other).period) ∧
              ∀ other ∈ after, (s.pcb other).rmsState = .ready →
                (s.pcb earlier).period ≤ (s.pcb other).period := by
        intro earlier chosen lessEq
        obtain ⟨ready, before, after, rfl, first, rest⟩ := ih chosen
        refine ⟨ready, before, after ++ [node], by simp, first,
          fun other member => ?_⟩
        rcases List.mem_append.mp member with early | last
        · exact rest other early
        · rwa [List.mem_singleton.mp last]
      generalize chosen : nodes.foldl s.selectNext none = start at selected
      unfold selectNext at selected
      by_cases ready : (s.pcb node).rmsState = .ready
      · rw [if_neg (not_not.mpr ready)] at selected
        cases start with
        | none =>
            obtain rfl := Option.some.inj selected
            exact ⟨ready, nodes, [], rfl, fun other member isReady =>
              absurd isReady (foldl_selectNext_eq_none chosen other member),
              by simp⟩
        | some earlier =>
            simp only at selected
            split_ifs at selected with less
            · obtain rfl := Option.some.inj selected
              obtain ⟨-, before, after, split, first, rest⟩ := ih chosen
              refine ⟨ready, nodes, [], rfl, fun other member isReady => ?_,
                by simp⟩
              rw [split, List.mem_append, List.mem_cons] at member
              rcases member with early | rfl | late
              · exact less.trans (first other early isReady)
              · exact less
              · exact less.trans_le (rest other late isReady)
            · obtain rfl := Option.some.inj selected
              exact kept earlier chosen fun _ => not_lt.mp less
      · rw [if_pos ready] at selected
        exact kept next (chosen.trans selected) fun isReady =>
          absurd isReady ready

theorem nexttask_mem {next : Nat} (selected : s.nexttask = some next) :
    next ∈ s.mp2listhead ∧ (s.pcb next).rmsState = .ready := by
  obtain ⟨ready, before, after, split, -⟩ := foldl_selectNext_split selected
  exact ⟨split ▸ by simp, ready⟩

theorem nexttask_le {next : Nat} (selected : s.nexttask = some next)
    {node : Nat} (member : node ∈ s.mp2listhead)
    (ready : (s.pcb node).rmsState = .ready) :
    (s.pcb next).period ≤ (s.pcb node).period := by
  obtain ⟨-, before, after, split, first, rest⟩ :=
    foldl_selectNext_split selected
  rw [split, List.mem_append, List.mem_cons] at member
  rcases member with early | rfl | late
  · exact (first node early ready).le
  · exact le_rfl
  · exact rest node late ready

theorem not_ready_of_nexttask (selected : s.nexttask = none) {node : Nat}
    (member : node ∈ s.mp2listhead) : (s.pcb node).rmsState ≠ .ready :=
  foldl_selectNext_eq_none selected node member

end Select

end Sched

/-- The invariant of the state machine. -/
structure Invariant (s : Sched) : Prop where
  listed : ∀ node ∈ s.mp2listhead, node ∈ s.allocated
  unlinkedNodup : s.unlinked.Nodup
  unlinked : ∀ node ∈ s.unlinked,
    node ∈ s.allocated ∧ node ∉ s.mp2listhead
  pids : (s.mp2listhead.map fun node => (s.pcb node).pid).Nodup
  tasks : ∀ node ∈ s.mp2listhead, (s.pcb node).linuxTask = (s.pcb node).pid
  currtask : ∀ node, s.currtask = some node → node ∈ s.mp2listhead
  running : ∀ node ∈ s.mp2listhead,
    ((s.pcb node).rmsState = .running ↔ s.currtask = some node)
  pending : ∀ node ∈ s.mp2listhead, (s.pcb node).timer.isSome = true →
    (s.pcb node).rmsState = .sleeping

namespace Invariant

variable {s : Sched}

theorem initial : Invariant Sched.initial := by
  constructor <;> simp [Sched.initial]

theorem nodup (invariant : Invariant s) : s.mp2listhead.Nodup :=
  invariant.pids.of_map _

/-- A write to a PCB off the list keeps the invariant. -/
theorem setPcb_of_notMem (invariant : Invariant s) {node : Nat}
    (notListed : node ∉ s.mp2listhead) (pcb : Pcb) :
    Invariant (s.setPcb node pcb) := by
  have same : ∀ other ∈ s.mp2listhead,
      (s.setPcb node pcb).pcb other = s.pcb other := by
    intro other member
    have different : other ≠ node := fun equal => notListed (equal ▸ member)
    exact update_of_ne different _ _
  refine ⟨invariant.listed, invariant.unlinkedNodup, invariant.unlinked, ?_,
    fun other member => ?_, invariant.currtask, fun other member => ?_,
    fun other member => ?_⟩
  · have mapped : (s.mp2listhead.map fun other =>
        ((s.setPcb node pcb).pcb other).pid) =
          s.mp2listhead.map fun other => (s.pcb other).pid :=
      List.map_congr_left fun other member => by rw [same other member]
    exact mapped ▸ invariant.pids
  · rw [same other member]
    exact invariant.tasks other member
  · rw [same other member]
    exact invariant.running other member
  · rw [same other member]
    exact invariant.pending other member

/-- A write to a PCB that keeps its pid, together with a new `currtask`, keeps
the invariant if the written PCB and all others agree with `currtask`. -/
theorem setPcb_currtask (invariant : Invariant s) (node : Nat) (pcb : Pcb)
    (currtask : Option Nat) (pidEq : pcb.pid = (s.pcb node).pid)
    (taskEq : pcb.linuxTask = (s.pcb node).linuxTask)
    (currListed : ∀ curr, currtask = some curr → curr ∈ s.mp2listhead)
    (runningSelf : pcb.rmsState = .running ↔ currtask = some node)
    (runningOther : ∀ other, other ≠ node → other ∈ s.mp2listhead →
      ((s.pcb other).rmsState = .running ↔ currtask = some other))
    (pendingSelf : pcb.timer.isSome = true → pcb.rmsState = .sleeping) :
    Invariant { s.setPcb node pcb with currtask := currtask } := by
  have pids : ∀ other, ((s.setPcb node pcb).pcb other).pid =
      (s.pcb other).pid := by
    intro other
    by_cases same : other = node
    · subst same
      simp [Sched.setPcb, pidEq]
    · simp [Sched.setPcb, same]
  refine ⟨invariant.listed, invariant.unlinkedNodup, invariant.unlinked, ?_,
    fun other member => ?_, currListed, fun other member => ?_,
    fun other member => ?_⟩
  · simp only [pids]
    exact invariant.pids
  · by_cases same : other = node
    · subst same
      simpa [Sched.setPcb, pidEq, taskEq] using invariant.tasks other member
    · simpa [Sched.setPcb, same] using invariant.tasks other member
  · by_cases same : other = node
    · subst same
      simpa [Sched.setPcb] using runningSelf
    · simpa [Sched.setPcb, same] using runningOther other same member
  · by_cases same : other = node
    · subst same
      simpa [Sched.setPcb] using pendingSelf
    · simpa [Sched.setPcb, same] using invariant.pending other member

theorem of_alloc (invariant : Invariant s) (node : Nat) :
    Invariant { s with allocated := node :: s.allocated } :=
  ⟨fun other member => List.mem_cons_of_mem _ (invariant.listed other member),
    invariant.unlinkedNodup,
    fun other member => ⟨List.mem_cons_of_mem _
      (invariant.unlinked other member).1, (invariant.unlinked other member).2⟩,
    invariant.pids, invariant.tasks, invariant.currtask, invariant.running,
    invariant.pending⟩

end Invariant

namespace Sched

/-- The outcomes of `taskregister`: no allocation, an object that is allocated
and forgotten, a rejected task, or a registered one. -/
theorem taskregister_outcome (s : Sched) (curnode : Option Nat) (pid : Int32)
    (period compTime jiffies : Nat) :
    (curnode = none ∧
      s.taskregister curnode pid period compTime jiffies = (s, none)) ∨
    (∃ node, curnode = some node ∧ (period = 0 ∨ compTime = 0) ∧
      s.taskregister curnode pid period compTime jiffies =
        ({ s with allocated := node :: s.allocated }, none)) ∨
    (∃ node, curnode = some node ∧ (period ≠ 0 ∧ compTime ≠ 0) ∧
      s.taskregister curnode pid period compTime jiffies =
        (s.setPcb node (Pcb.fresh pid period compTime jiffies), none)) ∨
    ∃ node, curnode = some node ∧ ∃ usum,
      (period ≠ 0 ∧ compTime ≠ 0) ∧
      sumUtilization (update s.pcb node (Pcb.fresh pid period compTime jiffies))
        pid (utilization compTime period) s.mp2listhead = some usum ∧
      usum ≤ 693 ∧
      s.taskregister curnode pid period compTime jiffies =
        ({ s.setPcb node (Pcb.fresh pid period compTime jiffies) with
          allocated := node :: s.allocated
          mp2listhead := s.mp2listhead ++ [node] }, some node) := by
  cases curnode with
  | none => exact .inl ⟨rfl, rfl⟩
  | some node =>
      right
      have freed : (node :: s.allocated).erase node = s.allocated :=
        List.erase_cons_head _ _
      by_cases zero : period = 0 ∨ compTime = 0
      · refine .inl ⟨node, rfl, zero, ?_⟩
        simp [taskregister, zero]
      · right
        cases admitted : sumUtilization
            (update s.pcb node (Pcb.fresh pid period compTime jiffies)) pid
              (utilization compTime period) s.mp2listhead with
        | none =>
            refine .inl ⟨node, rfl, not_or.mp zero, ?_⟩
            simp only [taskregister, if_neg zero, setPcb, admitted, free, freed]
        | some usum =>
            by_cases exceeded : 693 < usum
            · refine .inl ⟨node, rfl, not_or.mp zero, ?_⟩
              simp only [taskregister, if_neg zero, setPcb, admitted,
                if_pos exceeded, free, freed]
            · refine .inr ⟨node, rfl, usum, not_or.mp zero, admitted,
                not_lt.mp exceeded, ?_⟩
              simp only [taskregister, if_neg zero, setPcb, admitted,
                if_neg exceeded]

/-- The states that `taskregister` can leave. -/
theorem taskregister_cases (s : Sched) (curnode : Option Nat) (pid : Int32)
    (period compTime jiffies : Nat) :
    (s.taskregister curnode pid period compTime jiffies).1 = s ∨
    (∃ node, curnode = some node ∧
      (s.taskregister curnode pid period compTime jiffies).1 =
        { s with allocated := node :: s.allocated }) ∨
    (∃ node, curnode = some node ∧
      (s.taskregister curnode pid period compTime jiffies).1 =
        s.setPcb node (Pcb.fresh pid period compTime jiffies)) ∨
    ∃ node, curnode = some node ∧ ∃ usum,
      (period ≠ 0 ∧ compTime ≠ 0) ∧
      sumUtilization (update s.pcb node (Pcb.fresh pid period compTime jiffies))
        pid (utilization compTime period) s.mp2listhead = some usum ∧
      usum ≤ 693 ∧
      (s.taskregister curnode pid period compTime jiffies).1 =
        { s.setPcb node (Pcb.fresh pid period compTime jiffies) with
          allocated := node :: s.allocated
          mp2listhead := s.mp2listhead ++ [node] } := by
  rcases s.taskregister_outcome curnode pid period compTime jiffies with
    ⟨-, result⟩ | ⟨node, allocated, -, result⟩ |
      ⟨node, allocated, -, result⟩ |
      ⟨node, allocated, usum, nonzero, summed, bound, result⟩ <;>
    rw [result]
  · exact .inl rfl
  · exact .inr (.inl ⟨node, allocated, rfl⟩)
  · exact .inr (.inr (.inl ⟨node, allocated, rfl⟩))
  · exact .inr (.inr (.inr
      ⟨node, allocated, usum, nonzero, summed, bound, rfl⟩))

section Frame

variable {s : Sched}

theorem setState_pcb (node other : Nat) (state : RmsState) :
    (s.setState node state).pcb other =
      { s.pcb other with rmsState :=
        if other = node then state else (s.pcb other).rmsState } := by
  by_cases same : other = node
  · subst same
    simp [setState, setPcb]
  · simp [setState, setPcb, same]

/-- The dispatcher changes nothing but RMS states and `currtask`. -/
theorem dispatcher_frame (s : Sched) :
    s.dispatcher.1.mp2listhead = s.mp2listhead ∧
      s.dispatcher.1.allocated = s.allocated ∧
      s.dispatcher.1.unlinked = s.unlinked ∧
      ∀ node, ∃ state,
        s.dispatcher.1.pcb node = { s.pcb node with rmsState := state } := by
  have unchanged : ∀ node, ∃ state,
      s.pcb node = { s.pcb node with rmsState := state } :=
    fun node => ⟨_, rfl⟩
  have started : ∀ (s : Sched) next node, ∃ state,
      (s.start next).pcb node = { s.pcb node with rmsState := state } :=
    fun s next node => ⟨_, setState_pcb next node .running⟩
  unfold dispatcher
  cases s.currtask with
  | none =>
      cases s.nexttask with
      | none => exact ⟨rfl, rfl, rfl, unchanged⟩
      | some next => exact ⟨rfl, rfl, rfl, started s next⟩
  | some curr =>
      cases s.nexttask with
      | none => exact ⟨rfl, rfl, rfl, unchanged⟩
      | some next =>
          simp only
          cases (s.pcb curr).rmsState with
          | sleeping => exact ⟨rfl, rfl, rfl, started s next⟩
          | ready => exact ⟨rfl, rfl, rfl, unchanged⟩
          | running =>
              simp only
              split_ifs
              · refine ⟨rfl, rfl, rfl, fun node => ?_⟩
                obtain ⟨state, pcbEq⟩ :=
                  started (s.setState curr .ready) next node
                rw [setState_pcb curr node .ready] at pcbEq
                exact ⟨state, pcbEq⟩
              · exact ⟨rfl, rfl, rfl, unchanged⟩

end Frame

/-- The cases of `dispatcher` for a running `currtask` or none. -/
inductive Dispatches (s : Sched) : Sched × Switch → Prop where
  | idle (selected : s.nexttask = none) : Dispatches s (s, ⟨none, none⟩)
  | start {next : Nat} (current : s.currtask = none)
      (selected : s.nexttask = some next) :
      Dispatches s (s.start next, ⟨some (s.pcb next).linuxTask, none⟩)
  | preempt {curr next : Nat} (current : s.currtask = some curr)
      (running : (s.pcb curr).rmsState = .running)
      (selected : s.nexttask = some next)
      (shorter : (s.pcb next).period < (s.pcb curr).period) :
      Dispatches s ((s.setState curr .ready).start next,
        ⟨some (s.pcb next).linuxTask, some (s.pcb curr).linuxTask⟩)
  | keep {curr next : Nat} (current : s.currtask = some curr)
      (running : (s.pcb curr).rmsState = .running)
      (selected : s.nexttask = some next)
      (longer : (s.pcb curr).period ≤ (s.pcb next).period) :
      Dispatches s (s, ⟨none, none⟩)

theorem pid_ne_of_sumUtilization {pcb : Nat → Pcb} {pid : Int32}
    {nodes : List Nat} {start usum : Nat}
    (admitted : sumUtilization pcb pid start nodes = some usum)
    {node : Nat} (member : node ∈ nodes) : (pcb node).pid ≠ pid := by
  induction nodes generalizing start with
  | nil => simp at member
  | cons temp nodes ih =>
      unfold sumUtilization at admitted
      simp only at admitted
      split_ifs at admitted with same
      rcases List.mem_cons.mp member with rfl | later
      · exact same
      · exact ih admitted later

end Sched

namespace Invariant

variable {s : Sched}

/-- A registered PCB goes to the end of the list, asleep and with a new
pid. -/
theorem append (invariant : Invariant s) {node : Nat}
    (allocated : node ∈ s.allocated) (notListed : node ∉ s.mp2listhead)
    (notUnlinked : node ∉ s.unlinked)
    (newPid : ∀ other ∈ s.mp2listhead, (s.pcb other).pid ≠ (s.pcb node).pid)
    (task : (s.pcb node).linuxTask = (s.pcb node).pid)
    (asleep : (s.pcb node).rmsState = .sleeping) :
    Invariant { s with mp2listhead := s.mp2listhead ++ [node] } := by
  have notCurrent : s.currtask ≠ some node := fun current =>
    notListed (invariant.currtask node current)
  constructor
  · intro other member
    rcases List.mem_append.mp member with old | new
    · exact invariant.listed other old
    · rwa [List.mem_singleton.mp new]
  · exact invariant.unlinkedNodup
  · intro other member
    obtain ⟨isAllocated, notOld⟩ := invariant.unlinked other member
    refine ⟨isAllocated, fun listed => ?_⟩
    rcases List.mem_append.mp listed with old | new
    · exact notOld old
    · exact notUnlinked (List.mem_singleton.mp new ▸ member)
  · rw [List.map_append, List.nodup_append]
    refine ⟨invariant.pids, List.nodup_singleton _, ?_⟩
    intro first firstMem second secondMem
    obtain ⟨other, member, rfl⟩ := List.mem_map.mp firstMem
    rw [List.map_singleton, List.mem_singleton] at secondMem
    rw [secondMem]
    exact newPid other member
  · intro other member
    rcases List.mem_append.mp member with old | new
    · exact invariant.tasks other old
    · rwa [List.mem_singleton.mp new]
  · intro other current
    exact List.mem_append_left _ (invariant.currtask other current)
  · intro other member
    rcases List.mem_append.mp member with old | new
    · exact invariant.running other old
    · rw [List.mem_singleton.mp new]
      simp [asleep, notCurrent]
  · intro other member armed
    rcases List.mem_append.mp member with old | new
    · exact invariant.pending other old armed
    · rw [List.mem_singleton.mp new]
      exact asleep

theorem taskregister (invariant : Invariant s) {curnode : Option Nat}
    (fresh : s.Fresh curnode) (pid : Int32) (period compTime jiffies : Nat) :
    Invariant (s.taskregister curnode pid period compTime jiffies).1 := by
  rcases s.taskregister_cases curnode pid period compTime jiffies with
    unchanged | ⟨node, -, leaked⟩ | ⟨node, allocated, rejected⟩ |
      ⟨node, allocated, usum, -, admitted, -, registered⟩
  · rw [unchanged]
    exact invariant
  · rw [leaked]
    exact invariant.of_alloc node
  · have isFresh : node ∉ s.allocated := fresh node allocated
    rw [rejected]
    exact invariant.setPcb_of_notMem
      (fun listed => isFresh (invariant.listed node listed)) _
  · have isFresh : node ∉ s.allocated := fresh node allocated
    have notListed : node ∉ s.mp2listhead := fun listed =>
      isFresh (invariant.listed node listed)
    have filled := (invariant.of_alloc node).setPcb_of_notMem notListed
      (Pcb.fresh pid period compTime jiffies)
    rw [registered]
    apply filled.append
    · exact List.mem_cons_self
    · exact notListed
    · exact fun member => isFresh (invariant.unlinked node member).1
    · intro other member
      have different := Sched.pid_ne_of_sumUtilization admitted member
      simpa [Sched.setPcb, Pcb.fresh] using different
    · simp [Sched.setPcb, Pcb.fresh]
    · simp [Sched.setPcb, Pcb.fresh]

theorem deregister (invariant : Invariant s) (pid : Int32) :
    Invariant (s.deregister pid).1 := by
  unfold Sched.deregister
  cases found : s.lookup pid with
  | none => exact invariant
  | some target =>
      have targetMem := Sched.mem_of_lookup found
      have nodup := invariant.nodup
      constructor
      · intro node member
        exact invariant.listed node (List.mem_of_mem_erase member)
      · refine List.nodup_cons.mpr ⟨fun member => ?_, invariant.unlinkedNodup⟩
        exact (invariant.unlinked target member).2 targetMem
      · intro node member
        rcases List.mem_cons.mp member with rfl | old
        · exact ⟨invariant.listed node targetMem, nodup.not_mem_erase⟩
        · obtain ⟨isAllocated, notListed⟩ := invariant.unlinked node old
          exact ⟨isAllocated, fun listed =>
            notListed (List.mem_of_mem_erase listed)⟩
      · exact invariant.pids.sublist (List.erase_sublist.map _)
      · intro node member
        exact invariant.tasks node (List.mem_of_mem_erase member)
      · intro node isCurrent
        obtain ⟨wasCurrent, different⟩ := Sched.clearCurrtask_eq_some_iff.mp isCurrent
        exact (List.mem_erase_of_ne different).mpr
          (invariant.currtask node wasCurrent)
      · intro node member
        obtain ⟨different, listed⟩ := nodup.mem_erase_iff.mp member
        exact (invariant.running node listed).trans
          ((and_iff_left different).symm.trans
            Sched.clearCurrtask_eq_some_iff.symm)
      · intro node member
        exact invariant.pending node (List.mem_of_mem_erase member)

theorem delTimer (invariant : Invariant s) {target : Nat}
    (unlinked : target ∈ s.unlinked) : Invariant (s.delTimer target) :=
  invariant.setPcb_of_notMem (invariant.unlinked target unlinked).2 _

theorem release (invariant : Invariant s) {target : Nat}
    (unlinked : target ∈ s.unlinked) : Invariant (s.release target) := by
  have notListed := (invariant.unlinked target unlinked).2
  refine ⟨fun node member => ?_, invariant.unlinkedNodup.erase _,
    fun node member => ?_, invariant.pids, invariant.tasks,
    invariant.currtask, invariant.running, invariant.pending⟩
  · have different : node ≠ target := fun equal => notListed (equal ▸ member)
    exact (List.mem_erase_of_ne different).mpr (invariant.listed node member)
  · obtain ⟨different, old⟩ :=
      invariant.unlinkedNodup.mem_erase_iff.mp member
    obtain ⟨isAllocated, notOnList⟩ := invariant.unlinked node old
    exact ⟨(List.mem_erase_of_ne different).mpr isAllocated, notOnList⟩

theorem taskyield (invariant : Invariant s) (msecsToJiffies : Nat → Nat)
    {pid : Int32} {next : Sched}
    (yielded : s.taskyield msecsToJiffies pid = some next) :
    Invariant next := by
  obtain ⟨curr, found, rfl⟩ := Option.map_eq_some_iff.mp yielded
  have current := @Sched.clearCurrtask_eq_some_iff s
  apply invariant.setPcb_currtask curr ((s.pcb curr).yielded msecsToJiffies)
  · rfl
  · rfl
  · intro node isCurrent
    exact invariant.currtask node (current.mp isCurrent).1
  · have notCurrent : ¬(s.clearCurrtask curr).currtask = some curr :=
      fun isCurrent => (current.mp isCurrent).2 rfl
    exact iff_of_false nofun notCurrent
  · intro other different member
    exact (invariant.running other member).trans
      ((and_iff_left different).symm.trans current.symm)
  · intro _
    rfl

theorem timercb (invariant : Invariant s) {temp : Nat}
    (armed : (s.pcb temp).timer.isSome = true) :
    Invariant (s.timercb temp) := by
  by_cases listed : temp ∈ s.mp2listhead
  · have asleep := invariant.pending temp listed armed
    refine invariant.setPcb_currtask temp _ s.currtask rfl rfl
      invariant.currtask ?_ ?_ ?_
    · have notCurrent := invariant.running temp listed
      rw [asleep] at notCurrent
      simpa using notCurrent
    · exact fun other _ member => invariant.running other member
    · simp
  · exact invariant.setPcb_of_notMem listed _

/-- What the dispatcher does in a state with the invariant, where `currtask`
is running if set. -/
theorem dispatches (invariant : Invariant s) : s.Dispatches s.dispatcher := by
  unfold Sched.dispatcher
  cases current : s.currtask with
  | none =>
      cases selected : s.nexttask with
      | none => exact .idle selected
      | some next => exact .start current selected
  | some curr =>
      have running := (invariant.running curr
        (invariant.currtask curr current)).mpr current
      cases selected : s.nexttask with
      | none => exact .idle selected
      | some next =>
          simp only [running]
          split_ifs with shorter
          · exact .preempt current running selected shorter
          · exact .keep current running selected (not_lt.mp shorter)

/-- Starting a ready PCB while nothing runs keeps the invariant. -/
theorem start (invariant : Invariant s) {next : Nat}
    (current : s.currtask = none) (listed : next ∈ s.mp2listhead)
    (ready : (s.pcb next).rmsState = .ready) : Invariant (s.start next) := by
  refine invariant.setPcb_currtask next _ (some next) rfl rfl ?_ ?_ ?_ ?_
  · rintro curr ⟨⟩
    exact listed
  · simp
  · intro other different member
    rw [invariant.running other member, current, Option.some.injEq]
    simp [Ne.symm different]
  · intro armed
    have asleep := invariant.pending next listed armed
    rw [ready] at asleep
    cases asleep

/-- Preempting the running PCB keeps the invariant. -/
theorem preempt (invariant : Invariant s) {curr : Nat}
    (current : s.currtask = some curr)
    (running : (s.pcb curr).rmsState = .running) :
    Invariant { s.setState curr .ready with currtask := none } := by
  refine invariant.setPcb_currtask curr _ none rfl rfl nofun ?_ ?_ ?_
  · simp
  · intro other different member
    rw [invariant.running other member, current, Option.some.injEq]
    simp [Ne.symm different]
  · intro armed
    have asleep := invariant.pending curr (invariant.currtask curr current)
      armed
    rw [running] at asleep
    cases asleep

theorem dispatcher (invariant : Invariant s) : Invariant s.dispatcher.1 := by
  have dispatches := invariant.dispatches
  generalize s.dispatcher = result at dispatches ⊢
  cases dispatches with
  | idle | keep => exact invariant
  | start current selected =>
      obtain ⟨listed, ready⟩ := Sched.nexttask_mem selected
      exact invariant.start current listed ready
  | @preempt curr next current running selected shorter =>
      obtain ⟨listed, ready⟩ := Sched.nexttask_mem selected
      have different : next ≠ curr := by
        rintro rfl
        rw [ready] at running
        cases running
      refine (invariant.preempt current running).start rfl listed ?_
      simpa [Sched.setState, Sched.setPcb, different] using ready

/-- Every event keeps the invariant. -/
theorem step (invariant : Invariant s) {msecsToJiffies : Nat → Nat}
    {event : Event} {next : Sched}
    (taken : s.step msecsToJiffies event = some next) : Invariant next := by
  cases event with
  | register curnode pid period compTime jiffies =>
      simp only [Sched.step, Option.ite_none_right_eq_some,
        Option.some.injEq] at taken
      obtain ⟨fresh, rfl⟩ := taken
      exact invariant.taskregister fresh ..
  | deregister pid =>
      obtain rfl := Option.some.inj taken
      exact invariant.deregister pid
  | cancel target =>
      simp only [Sched.step, Option.ite_none_right_eq_some,
        Option.some.injEq] at taken
      obtain ⟨unlinked, rfl⟩ := taken
      exact invariant.delTimer unlinked
  | release target =>
      simp only [Sched.step, Option.ite_none_right_eq_some,
        Option.some.injEq] at taken
      obtain ⟨unlinked, rfl⟩ := taken
      exact invariant.release unlinked
  | yield pid =>
      obtain rfl := Option.some.inj taken
      cases yielded : s.taskyield msecsToJiffies pid with
      | none => exact invariant
      | some next => exact invariant.taskyield msecsToJiffies yielded
  | dispatch =>
      obtain rfl := Option.some.inj taken
      exact invariant.dispatcher
  | timer temp =>
      simp only [Sched.step, Option.ite_none_right_eq_some,
        Option.some.injEq] at taken
      obtain ⟨armed, rfl⟩ := taken
      exact invariant.timercb armed

end Invariant

theorem invariant_of_reached {msecsToJiffies : Nat → Nat}
    {events : List Event} {s : Sched}
    (reached : run (Sched.step msecsToJiffies) Sched.initial events = some s) :
    Invariant s :=
  invariant_of_run Invariant
    (fun _ _ _ invariant taken => invariant.step taken) Invariant.initial
    reached

/-- After any sequence of atomic events, `currtask` is on the list if set, a
PCB on the list is running exactly if it is `currtask`, a PCB with a pending
timer is asleep, and the pids on the list are distinct. -/
theorem stateMachine_of_reached (msecsToJiffies : Nat → Nat)
    (events : List Event) (s : Sched)
    (reached : run (Sched.step msecsToJiffies) Sched.initial events = some s) :
    (∀ node, s.currtask = some node → node ∈ s.mp2listhead) ∧
    (∀ node ∈ s.mp2listhead,
      ((s.pcb node).rmsState = .running ↔ s.currtask = some node)) ∧
    (∀ node ∈ s.mp2listhead, (s.pcb node).timer.isSome = true →
      (s.pcb node).rmsState = .sleeping) ∧
    (s.mp2listhead.map fun node => (s.pcb node).pid).Nodup := by
  have invariant := invariant_of_reached reached
  exact ⟨invariant.currtask, invariant.running, invariant.pending,
    invariant.pids⟩

/-- Two tasks yield; the second one, with the shorter period, preempts. -/
def preemption : List Event :=
  [.register (some 0) 10 100 20 0, .register (some 1) 11 50 10 0, .yield 10,
    .yield 11, .timer 0, .dispatch, .timer 1, .dispatch]

theorem stateMachine_preemption :
    ∃ s, run (Sched.step id) Sched.initial preemption = some s ∧
      s.mp2listhead = [0, 1] ∧ s.currtask = some 1 ∧
        ((s.pcb 0).rmsState = .running ↔ s.currtask = some 0) := by
  refine ⟨_, rfl, by decide, by decide, ?_⟩
  exact (stateMachine_of_reached id preemption _ rfl).2.1 0 (by decide)

end LinuxKernelDev.Rms
