import LinuxKernelDev.ProfilerArming
import LinuxKernelDev.ProfilerRing
import Mathlib.Algebra.BigOperators.Group.List.Basic
import Mathlib.Algebra.Group.Prod
import Mathlib.Data.UInt
import Mathlib.Tactic.Abel

/-!
# The critical section of the sampling work

`workhandler` of `mp3.c` walks the list under `mp3mutex` and calls `get_cpu_use`
of `mp3_given.h` for every pid, which copies the counters of the task and then
clears them.  Tasks run, exit and start meanwhile.  The walk is one step of the
model in `ProfilerArming`, and every fault ends up in one sample, in the
counters of a task, or is lost in one of two ways.
-/

namespace LinuxKernelDev.Profiler

open Function SampleBuffer Transition

/-- The counters of a task that `get_cpu_use` reads. -/
structure Counters where
  minFlt : UInt64
  majFlt : UInt64
  utime : UInt64
  stime : UInt64
  deriving DecidableEq

/-- Minor faults, major faults and CPU time. -/
abbrev Tally := UInt64 × UInt64 × UInt64

namespace Counters

def zero : Counters := ⟨0, 0, 0, 0⟩

def add (first second : Counters) : Counters :=
  ⟨first.minFlt + second.minFlt, first.majFlt + second.majFlt,
    first.utime + second.utime, first.stime + second.stime⟩

def tally (counters : Counters) : Tally :=
  (counters.minFlt, counters.majFlt, counters.utime + counters.stime)

@[simp]
theorem tally_zero : zero.tally = 0 := rfl

@[simp]
theorem tally_add (first second : Counters) :
    (first.add second).tally = first.tally + second.tally := by
  simp only [tally, add, Prod.mk_add_mk, Prod.mk.injEq, true_and]
  exact add_add_add_comm _ _ _ _

end Counters

def sampleTally (sample : Sample) : Tally :=
  (sample.minfault, sample.majfault, sample.cpu)

/-- `minfault += minf; majfault += majf; cpu += ut + st`. -/
def accumulate (sample : Sample) (values : Counters) :
    Sample :=
  { sample with
    minfault := sample.minfault + values.minFlt
    majfault := sample.majfault + values.majFlt
    cpu := sample.cpu + (values.utime + values.stime) }

@[simp]
theorem sampleTally_accumulate (sample : Sample)
    (values : Counters) :
    sampleTally (accumulate sample values) =
      sampleTally sample + values.tally :=
  rfl

/-- The variables of `workhandler` in its loop, and the list at the time it took
the lock. -/
structure Scan where
  locked : List Int32
  todo : List Int32
  sum : Sample
  empty : Bool
  deriving DecidableEq

def Scan.start (mp3head : List Int32) (timesum : UInt64) : Scan :=
  ⟨mp3head, mp3head, ⟨timesum, 0, 0, 0⟩, true⟩

/-- Where `workhandler` is in its critical section: in front of a turn of the
loop, or inside `get_cpu_use` with the counters of a task copied and not yet
cleared. -/
inductive Progress where
  | unlocked
  | scanning (scan : Scan)
  | copied (scan : Scan) (task : Nat) (values : Counters)
  deriving DecidableEq

namespace Progress

/-- The task whose counters are about to be cleared. -/
def window : Progress → Option Nat
  | copied _ task _ => some task
  | _ => none

/-- What the sample in progress has of the counters. -/
def counted : Progress → Tally
  | unlocked => 0
  | scanning scan => sampleTally scan.sum
  | copied scan _ values => sampleTally scan.sum + values.tally

/-- The list as it was before the critical section. -/
def list (mp3head : List Int32) : Progress → List Int32
  | unlocked => mp3head
  | scanning scan => scan.locked
  | copied scan _ _ => scan.locked

end Progress

/-- The module and the tasks of the kernel.  `samples`, `suffered` and `lost`
record what has happened: the samples taken, everything that was ever added to a
counter, and the part of it that no sample will see. -/
structure Sampler where
  arming : State
  progress : Progress
  counters : Nat → Counters
  pid : Nat → Int32
  live : List Nat
  samples : List Sample
  suffered : Tally
  lost : Tally

/-- The steps of the module outside the critical section of `workhandler`, the
steps inside, and the steps of the tasks.  A `charge` stands for code of the
kernel, which is taken to add to the counters in one step: no addition loads a
counter before it is cleared and stores the sum afterwards. -/
inductive SamplerAction where
  | outside (action : Action)
  | lock (timesum : UInt64)
  | copy (scan : Scan) (curr : Int32) (task : Nat)
  | clear (scan : Scan) (task : Nat) (values : Counters)
  | drop (scan : Scan) (curr : Int32)
  | unlock (scan : Scan)
  | spawn (task : Nat) (pid : Int32)
  | charge (task : Nat) (amount : Counters)
  | exit (task : Nat)

namespace Sampler

def initial : Sampler where
  arming := State.initial
  progress := .unlocked
  counters _ := .zero
  pid _ := 0
  live := []
  samples := []
  suffered := 0
  lost := 0

def findTaskByPid (s : Sampler) (nr : Int32) : Option Nat :=
  s.live.find? fun task => s.pid task == nr

/-- A step outside the critical section does not need the lock, or the lock is
free. -/
def Allows (progress : Progress) : Action → Prop
  | .register _ | .deregister _ => progress = .unlocked
  | .scan _ => False
  | .queue | .cancel | .fire | .rearm => True

/-- The states in which a step can be taken.  The task whose counters are being
cleared is not replaced by another before the end of the read-side critical
section. -/
def Enabled (s : Sampler) : SamplerAction → Prop
  | .outside action =>
      Allows s.progress action ∧ (s.arming.step action).isSome = true
  | .lock _ => s.arming.handler = .entered ∧ s.progress = .unlocked
  | .copy scan curr task =>
      s.progress = .scanning scan ∧ scan.todo.head? = some curr ∧
        s.findTaskByPid curr = some task
  | .clear scan task values => s.progress = .copied scan task values
  | .drop scan curr =>
      s.progress = .scanning scan ∧ scan.todo.head? = some curr ∧
        s.findTaskByPid curr = none
  | .unlock scan => s.progress = .scanning scan ∧ scan.todo = []
  | .spawn task _ => task ∉ s.live ∧ s.progress.window ≠ some task
  | .charge task _ => task ∈ s.live
  | .exit task => task ∈ s.live

/-- The effect of a step that can be taken. -/
def apply (s : Sampler) : SamplerAction → Sampler
  | .outside action =>
      { s with arming := (s.arming.step action).getD s.arming }
  | .lock timesum =>
      { s with progress := .scanning (Scan.start s.arming.mp3head timesum) }
  | .copy scan _ task =>
      { s with progress := .copied scan task (s.counters task) }
  | .clear scan task values =>
      { s with
        counters := update s.counters task .zero
        progress := .scanning { scan with
          todo := scan.todo.tail
          sum := accumulate scan.sum values
          empty := false } }
  | .drop scan curr =>
      { s with
        arming := { s.arming with mp3head := s.arming.mp3head.erase curr }
        progress := .scanning { scan with todo := scan.todo.tail } }
  | .unlock scan =>
      { s with
        arming := { s.arming with
          handler := if scan.empty then .idle else .sampled }
        progress := .unlocked
        samples := if scan.empty then s.samples else s.samples ++ [scan.sum] }
  | .spawn task pid =>
      { s with
        counters := update s.counters task .zero
        pid := update s.pid task pid
        live := task :: s.live }
  | .charge task amount =>
      { s with
        counters := update s.counters task ((s.counters task).add amount)
        suffered := s.suffered + amount.tally
        lost := s.lost +
          if s.progress.window = some task then amount.tally else 0 }
  | .exit task =>
      { s with
        live := s.live.erase task
        lost := s.lost + if s.progress.window = some task then 0
          else (s.counters task).tally }

instance (progress : Progress) (action : Action) :
    Decidable (Allows progress action) :=
  match action with
  | .register _ | .deregister _ => inferInstanceAs (Decidable (progress = _))
  | .scan _ => inferInstanceAs (Decidable False)
  | .queue | .cancel | .fire | .rearm => inferInstanceAs (Decidable True)

instance (s : Sampler) (action : SamplerAction) :
    Decidable (s.Enabled action) :=
  match action with
  | .outside _ | .lock _ | .copy _ _ _ | .drop _ _ | .unlock _ | .spawn _ _ =>
      inferInstanceAs (Decidable (_ ∧ _))
  | .clear _ _ _ => inferInstanceAs (Decidable (s.progress = _))
  | .charge task _ | .exit task => inferInstanceAs (Decidable (task ∈ s.live))

def step (s : Sampler) (action : SamplerAction) : Option Sampler :=
  if s.Enabled action then some (s.apply action) else none

theorem step_eq_some_iff {s next : Sampler} {action : SamplerAction} :
    s.step action = some next ↔ s.Enabled action ∧ s.apply action = next := by
  unfold step
  rw [Option.ite_none_right_eq_some, Option.some.injEq]

end Sampler

section Weights

variable {counters : Nat → Counters} {task : Nat} {tasks : List Nat}
  {window : Option Nat}

/-- What the counters of some tasks hold together. -/
def weight (counters : Nat → Counters) (tasks : List Nat) : Tally :=
  (tasks.map fun task => (counters task).tally).sum

/-- The tasks other than the one whose counters are about to be cleared. -/
def others (window : Option Nat) (tasks : List Nat) : List Nat :=
  tasks.filter fun task => decide (window ≠ some task)

@[simp]
theorem others_none (tasks : List Nat) : others none tasks = tasks := by
  simp [others]

theorem mem_others {other : Nat} :
    other ∈ others window tasks ↔ other ∈ tasks ∧ window ≠ some other := by
  rw [others, List.mem_filter, decide_eq_true_iff]

theorem nodup_others (distinct : tasks.Nodup) : (others window tasks).Nodup :=
  distinct.filter _

theorem others_cons (notCopied : window ≠ some task) :
    others window (task :: tasks) = task :: others window tasks :=
  List.filter_cons_of_pos (decide_eq_true notCopied)

theorem others_of_notMem (absent : task ∉ tasks) :
    others (some task) tasks = tasks := by
  rw [others, List.filter_eq_self]
  intro other member
  have different : task ≠ other := fun same => absent (same ▸ member)
  simpa using different

theorem erase_eq_others (distinct : tasks.Nodup) :
    tasks.erase task = others (some task) tasks := by
  rw [distinct.erase_eq_filter]
  refine List.filter_congr fun other _ => ?_
  obtain rfl | different := eq_or_ne other task
  · simp
  · simp [different, different.symm]

theorem others_others (first second : Option Nat) :
    others first (others second tasks) = others second (others first tasks) := by
  unfold others
  rw [List.filter_filter, List.filter_filter]
  exact List.filter_congr fun _ _ => Bool.and_comm _ _

theorem weight_cons (counters : Nat → Counters) (task : Nat)
    (tasks : List Nat) :
    weight counters (task :: tasks) =
      (counters task).tally + weight counters tasks := by
  rw [weight, List.map_cons, List.sum_cons]
  rfl

theorem weight_update_of_notMem (absent : task ∉ tasks) (value : Counters) :
    weight (update counters task value) tasks = weight counters tasks := by
  unfold weight
  refine congrArg List.sum (List.map_congr_left fun other member => ?_)
  have different : other ≠ task := fun same => absent (same ▸ member)
  rw [update_of_ne different]

/-- The counters of one task and those of the others. -/
theorem weight_eq_add (distinct : tasks.Nodup) (member : task ∈ tasks) :
    weight counters tasks =
      (counters task).tally + weight counters (others (some task) tasks) := by
  rw [← erase_eq_others distinct, ← weight_cons]
  exact ((List.perm_cons_erase member).map _).sum_eq

theorem weight_update (distinct : tasks.Nodup) (member : task ∈ tasks)
    (value : Counters) :
    weight (update counters task value) tasks =
      value.tally + weight counters (others (some task) tasks) := by
  rw [weight_eq_add distinct member, update_self, weight_update_of_notMem]
  rw [mem_others]
  simp

end Weights

namespace Sampler

variable {s next : Sampler} {action : SamplerAction}

/-- What the counters of the tasks hold that no sample has copied. -/
def unsampled (s : Sampler) : Tally :=
  weight s.counters (others s.progress.window s.live)

/-- Everything that was added to a counter is accounted for. -/
structure Balanced (s : Sampler) : Prop where
  distinct : s.live.Nodup
  blank : ∀ scan, s.progress = .scanning scan → scan.empty = true →
    sampleTally scan.sum = 0
  balance : s.suffered = (s.samples.map sampleTally).sum +
    s.progress.counted + s.unsampled + s.lost

theorem Balanced.initial : Balanced Sampler.initial where
  distinct := List.nodup_nil
  blank _ scanning := Progress.noConfusion scanning
  balance := rfl

theorem mem_live_of_findTaskByPid {nr : Int32} {task : Nat}
    (found : s.findTaskByPid nr = some task) : task ∈ s.live :=
  List.mem_of_find?_eq_some found

/-- A step of the tasks keeps the balance. -/
theorem Balanced.charge (balanced : s.Balanced) {task : Nat}
    (isLive : task ∈ s.live) (amount : Counters) :
    (s.apply (.charge task amount)).Balanced := by
  obtain ⟨distinct, blank, balance⟩ := balanced
  refine ⟨distinct, blank, ?_⟩
  simp only [apply, unsampled] at balance ⊢
  by_cases copied : s.progress.window = some task
  · have absent : task ∉ others s.progress.window s.live := fun member =>
      (mem_others.mp member).2 copied
    rw [if_pos copied, weight_update_of_notMem absent, balance]
    abel
  · have member : task ∈ others s.progress.window s.live :=
      mem_others.mpr ⟨isLive, copied⟩
    rw [if_neg copied, weight_update (nodup_others distinct) member,
      Counters.tally_add, balance,
      weight_eq_add (nodup_others distinct) member]
    abel

theorem Balanced.exit (balanced : s.Balanced) {task : Nat}
    (isLive : task ∈ s.live) : (s.apply (.exit task)).Balanced := by
  obtain ⟨distinct, blank, balance⟩ := balanced
  refine ⟨distinct.erase task, blank, ?_⟩
  simp only [apply, unsampled] at balance ⊢
  rw [erase_eq_others distinct, others_others]
  by_cases copied : s.progress.window = some task
  · have absent : task ∉ others s.progress.window s.live := fun member =>
      (mem_others.mp member).2 copied
    rw [if_pos copied, others_of_notMem absent, balance, add_zero]
  · have member : task ∈ others s.progress.window s.live :=
      mem_others.mpr ⟨isLive, copied⟩
    rw [if_neg copied, balance, weight_eq_add (nodup_others distinct) member]
    abel

theorem Balanced.spawn (balanced : s.Balanced) {task : Nat}
    (notLive : task ∉ s.live) (notCopied : s.progress.window ≠ some task)
    (pid : Int32) : (s.apply (.spawn task pid)).Balanced := by
  obtain ⟨distinct, blank, balance⟩ := balanced
  refine ⟨List.nodup_cons.mpr ⟨notLive, distinct⟩, blank, ?_⟩
  have absent : task ∉ others s.progress.window s.live := fun member =>
    notLive (mem_others.mp member).1
  simp only [apply, unsampled] at balance ⊢
  rw [others_cons notCopied, weight_cons, update_self,
    weight_update_of_notMem absent, Counters.tally_zero, zero_add]
  exact balance

/-- Clearing the counters after copying them moves them to the sample. -/
theorem Balanced.clear (balanced : s.Balanced) {scan : Scan} {task : Nat}
    {values : Counters} (copied : s.progress = .copied scan task values) :
    (s.apply (.clear scan task values)).Balanced := by
  obtain ⟨distinct, -, balance⟩ := balanced
  refine ⟨distinct, fun later scanning isEmpty => ?_, ?_⟩
  · obtain rfl := Progress.scanning.inj scanning
    exact absurd isEmpty Bool.false_ne_true
  · rw [unsampled, copied] at balance
    have cleared : weight (update s.counters task .zero) s.live =
        weight s.counters (others (some task) s.live) := by
      by_cases member : task ∈ s.live
      · rw [weight_update distinct member, Counters.tally_zero, zero_add]
      · rw [weight_update_of_notMem member, others_of_notMem member]
    simp only [apply, unsampled, Progress.window, Progress.counted,
      others_none, sampleTally_accumulate] at balance ⊢
    rw [balance, cleared]

theorem balanced_of_step (balanced : s.Balanced)
    (taken : s.step action = some next) : next.Balanced := by
  obtain ⟨enabled, rfl⟩ := step_eq_some_iff.mp taken
  have blank := balanced.blank
  have balance := balanced.balance
  cases action with
  | outside action => exact ⟨balanced.distinct, blank, balance⟩
  | lock timesum =>
      refine ⟨balanced.distinct, fun scan scanning _ => ?_, ?_⟩
      · obtain rfl := Progress.scanning.inj scanning
        rfl
      · rw [unsampled, enabled.2] at balance
        exact balance
  | copy scan curr task =>
      obtain ⟨progress, -, found⟩ := enabled
      refine ⟨balanced.distinct,
        fun _ scanning => Progress.noConfusion scanning, ?_⟩
      have member := mem_live_of_findTaskByPid found
      rw [unsampled, progress] at balance
      simp only [apply, unsampled, Progress.window, Progress.counted,
        others_none] at balance ⊢
      rw [balance, weight_eq_add balanced.distinct member]
      abel
  | clear scan task values => exact balanced.clear enabled
  | drop scan curr =>
      obtain ⟨progress, -, -⟩ := enabled
      refine ⟨balanced.distinct, fun later scanning isEmpty => ?_, ?_⟩
      · obtain rfl := Progress.scanning.inj scanning
        exact blank scan progress isEmpty
      · rw [unsampled, progress] at balance
        exact balance
  | unlock scan =>
      obtain ⟨progress, -⟩ := enabled
      refine ⟨balanced.distinct,
        fun _ scanning => Progress.noConfusion scanning, ?_⟩
      rw [unsampled, progress] at balance
      simp only [apply, unsampled, Progress.window, Progress.counted]
        at balance ⊢
      split_ifs with isEmpty
      · rw [balance, blank scan progress isEmpty]
      · rw [balance, List.map_append, List.sum_append, List.map_singleton,
          List.sum_singleton, add_zero]
  | spawn task pid => exact balanced.spawn enabled.1 enabled.2 pid
  | charge task amount => exact balanced.charge enabled amount
  | exit task => exact balanced.exit enabled

/-- A task is sampled once.  One fault comes too late for the sample and is
cleared with the counters. -/
def sampledTask : List SamplerAction :=
  [.spawn 0 5, .outside (.register 5), .outside .queue, .charge 0 ⟨3, 1, 2, 2⟩,
    .outside .fire, .lock 100, .copy (Scan.start [5] 100) 5 0,
    .charge 0 ⟨1, 0, 0, 0⟩, .clear (Scan.start [5] 100) 0 ⟨3, 1, 2, 2⟩,
    .unlock ⟨[5], [], ⟨100, 3, 1, 4⟩, false⟩, .outside .rearm]

/-- Whatever the tasks and the module do: every fault and every bit of CPU time
is in one sample that was taken, in the sample in progress, in the counters of a
task, or lost.  It is lost if it comes between the copying and the clearing of
the counters, or if the task exits before it is sampled.  The totals are those
of the 64 bit counters, to which the kernel is taken to add in one step. -/
theorem suffered_eq_of_run {actions : List SamplerAction} {s : Sampler}
    (reached : run step initial actions = some s) :
    s.suffered = (s.samples.map sampleTally).sum + s.progress.counted +
      s.unsampled + s.lost :=
  (invariant_of_run Balanced (fun _ _ _ before taken =>
    balanced_of_step before taken) Balanced.initial reached).balance

theorem suffered_eq_of_run_sampledTask :
    ∃ s, run step initial sampledTask = some s ∧
      s.suffered = (s.samples.map sampleTally).sum + s.progress.counted +
        s.unsampled + s.lost :=
  ⟨_, rfl, suffered_eq_of_run (rfl : run step initial sampledTask = some _)⟩

end Sampler

section Refinement

theorem filter_mem_of_sublist {part whole : List Int32}
    (sublist : part.Sublist whole) (distinct : whole.Nodup) :
    (whole.filter fun pid => decide (pid ∈ part)) = part := by
  induction sublist with
  | slnil => rfl
  | @cons part whole pid sublist ih =>
      obtain ⟨absent, distinct⟩ := List.nodup_cons.mp distinct
      have dropped : pid ∉ part := fun member => absent (sublist.subset member)
      rw [List.filter_cons_of_neg (by simpa using dropped), ih distinct]
  | @cons_cons part whole pid sublist ih =>
      obtain ⟨absent, distinct⟩ := List.nodup_cons.mp distinct
      have tail : (whole.filter fun other => decide (other ∈ pid :: part)) =
          whole.filter fun other => decide (other ∈ part) := by
        refine List.filter_congr fun other member => ?_
        have different : other ≠ pid := fun same => absent (same ▸ member)
        simp [different]
      rw [List.filter_cons_of_pos (by simp), tail, ih distinct]

namespace State

variable {s next : State} {action : Action}

/-- The steps that do not need the lock. -/
def Lockless : Action → Prop
  | .queue | .cancel | .fire | .rearm => True
  | _ => False

/-- A step without the lock neither reads nor changes the list. -/
theorem step_of_lockless (lockless : Lockless action)
    (taken : s.step action = some next) :
    next.mp3head = s.mp3head ∧
      (s.handler = .entered → next.handler = .entered) ∧
      ∀ list, ({ s with mp3head := list } : State).step action =
        some { next with mp3head := list } := by
  cases action with
  | queue | cancel | fire | rearm =>
      simp only [step, Option.ite_none_right_eq_some, Option.some.injEq]
        at taken ⊢
      obtain ⟨enabled, rfl⟩ := taken
      simp_all
  | register | deregister | scan => exact absurd lockless id

theorem nodup_of_step (distinct : s.mp3head.Nodup)
    (taken : s.step action = some next) : next.mp3head.Nodup := by
  cases action with
  | register pid =>
      obtain rfl := Option.some.inj taken
      unfold taskregister
      by_cases ignored : pid ≤ 0 ∨ pid ∈ s.mp3head
      · rwa [if_pos ignored]
      · have absent : pid ∉ s.mp3head := fun listed => ignored (Or.inr listed)
        rw [if_neg ignored]
        simpa using distinct.concat absent
  | deregister pid =>
      obtain rfl := Option.some.inj taken
      unfold deregister
      by_cases listed : pid ∈ s.mp3head
      · rw [if_pos listed]
        exact distinct.erase pid
      · rwa [if_neg listed]
  | scan dead =>
      simp only [step, Option.ite_none_right_eq_some, Option.some.injEq]
        at taken
      obtain ⟨-, rfl⟩ := taken
      exact distinct.filter _
  | queue | cancel | fire | rearm =>
      rwa [(step_of_lockless (by exact trivial) taken).1]

end State

namespace Sampler

variable {s next : Sampler} {action : SamplerAction}

/-- The module as it looks from outside the critical section. -/
def toState (s : Sampler) : State :=
  { s.arming with mp3head := s.progress.list s.arming.mp3head }

/-- The loop has kept the first part of the list and is in front of the
rest. -/
structure Walks (mp3head : List Int32) (scan : Scan) : Prop where
  split : ∃ kept, mp3head = kept ++ scan.todo ∧ (scan.empty = true ↔ kept = [])
  sublist : mp3head.Sublist scan.locked
  distinct : scan.locked.Nodup

/-- The critical section in progress, if any, belongs to the running handler. -/
structure Walking (s : Sampler) : Prop where
  distinct : s.arming.mp3head.Nodup
  entered : s.progress ≠ .unlocked → s.arming.handler = .entered
  scanning : ∀ scan, s.progress = .scanning scan → Walks s.arming.mp3head scan
  copied : ∀ scan task values, s.progress = .copied scan task values →
    Walks s.arming.mp3head scan ∧ scan.todo ≠ []

theorem Walking.initial : Walking Sampler.initial where
  distinct := List.nodup_nil
  entered locked := absurd rfl locked
  scanning _ inside := Progress.noConfusion inside
  copied _ _ _ inside := Progress.noConfusion inside

/-- Outside the critical section only the list has to be in order. -/
theorem Walking.of_unlocked (distinct : s.arming.mp3head.Nodup)
    (unlocked : s.progress = .unlocked) : s.Walking where
  distinct := distinct
  entered locked := absurd unlocked locked
  scanning _ inside := by
    rw [unlocked] at inside
    exact Progress.noConfusion inside
  copied _ _ _ inside := by
    rw [unlocked] at inside
    exact Progress.noConfusion inside

theorem Walks.start {mp3head : List Int32} (distinct : mp3head.Nodup)
    (timesum : UInt64) : Walks mp3head (Scan.start mp3head timesum) where
  split := ⟨[], rfl, iff_of_true rfl rfl⟩
  sublist := .refl _
  distinct := distinct

/-- A task that was sampled stays on the list. -/
theorem Walks.clear {mp3head : List Int32} {scan : Scan}
    (walks : Walks mp3head scan) (nonempty : scan.todo ≠ [])
    (values : Counters) :
    Walks mp3head { scan with
      todo := scan.todo.tail
      sum := accumulate scan.sum values
      empty := false } := by
  obtain ⟨kept, split, -⟩ := walks.split
  obtain ⟨curr, todo, rest⟩ := List.exists_cons_of_ne_nil nonempty
  refine ⟨⟨kept ++ [curr], ?_, by simp⟩, walks.sublist, walks.distinct⟩
  simp [split, rest]

/-- A task that is gone leaves the list. -/
theorem Walks.drop {mp3head : List Int32} {scan : Scan}
    (walks : Walks mp3head scan) (distinct : mp3head.Nodup) {curr : Int32}
    (first : scan.todo.head? = some curr) :
    Walks (mp3head.erase curr) { scan with todo := scan.todo.tail } := by
  obtain ⟨kept, split, isEmpty⟩ := walks.split
  obtain ⟨todo, rest⟩ := List.head?_eq_some_iff.mp first
  have absent : curr ∉ kept := by
    intro member
    rw [split, rest] at distinct
    exact (List.nodup_append.mp distinct).2.2 curr member curr
      List.mem_cons_self rfl
  refine ⟨⟨kept, ?_, isEmpty⟩, List.erase_sublist.trans walks.sublist,
    walks.distinct⟩
  rw [split, List.erase_append_right _ absent, rest, List.erase_cons_head]
  rfl

theorem walking_outside (walking : s.Walking) {action : Action}
    (allowed : Allows s.progress action) {arming : State}
    (taken : s.arming.step action = some arming) :
    ({ s with arming := arming } : Sampler).Walking := by
  have distinct := State.nodup_of_step walking.distinct taken
  cases action with
  | register pid | deregister pid => exact .of_unlocked distinct allowed
  | scan dead => exact allowed.elim
  | queue | cancel | fire | rearm =>
      obtain ⟨same, entered, -⟩ :=
        State.step_of_lockless (by exact trivial) taken
      refine ⟨distinct, fun locked => entered (walking.entered locked), ?_, ?_⟩
      · rw [same]
        exact walking.scanning
      · rw [same]
        exact walking.copied

theorem walking_of_step (walking : s.Walking)
    (taken : s.step action = some next) : next.Walking := by
  obtain ⟨enabled, rfl⟩ := step_eq_some_iff.mp taken
  cases action with
  | outside action =>
      obtain ⟨allowed, steps⟩ := enabled
      obtain ⟨arming, stepped⟩ := Option.isSome_iff_exists.mp steps
      rw [apply, stepped]
      exact walking_outside walking allowed stepped
  | lock timesum =>
      refine ⟨walking.distinct, fun _ => enabled.1, fun scan inside => ?_,
        fun _ _ _ inside => Progress.noConfusion inside⟩
      obtain rfl := Progress.scanning.inj inside
      exact Walks.start walking.distinct timesum
  | copy scan curr task =>
      obtain ⟨progress, first, -⟩ := enabled
      refine ⟨walking.distinct, fun _ => walking.entered ?_,
        fun _ inside => Progress.noConfusion inside,
        fun other _ _ inside => ?_⟩
      · rw [progress]
        exact fun unlocked => Progress.noConfusion unlocked
      · obtain ⟨rfl, -, -⟩ := Progress.copied.inj inside
        refine ⟨walking.scanning scan progress, fun empty => ?_⟩
        rw [empty] at first
        exact absurd first (by simp)
  | clear scan task values =>
      have progress : s.progress = .copied scan task values := enabled
      obtain ⟨walks, nonempty⟩ := walking.copied scan task values progress
      refine ⟨walking.distinct, fun _ => walking.entered ?_,
        fun other inside => ?_, fun _ _ _ inside => Progress.noConfusion inside⟩
      · rw [progress]
        exact fun unlocked => Progress.noConfusion unlocked
      · obtain rfl := Progress.scanning.inj inside
        exact walks.clear nonempty values
  | drop scan curr =>
      obtain ⟨progress, first, -⟩ := enabled
      refine ⟨walking.distinct.erase curr, fun _ => walking.entered ?_,
        fun other inside => ?_, fun _ _ _ inside => Progress.noConfusion inside⟩
      · rw [progress]
        exact fun unlocked => Progress.noConfusion unlocked
      · obtain rfl := Progress.scanning.inj inside
        exact (walking.scanning scan progress).drop walking.distinct first
  | unlock scan => exact .of_unlocked walking.distinct rfl
  | spawn task pid | charge task amount | exit task =>
      exact ⟨walking.distinct, walking.entered, walking.scanning,
        walking.copied⟩

/-- The tasks that the loop has taken off the list. -/
def dead (mp3head : List Int32) (scan : Scan) : List Int32 :=
  scan.locked.filter fun pid => decide (pid ∉ mp3head)

/-- The end of the critical section completes the step of `workhandler` that
`ProfilerArming` has for it. -/
theorem step_scan_dead (walking : s.Walking) {scan : Scan}
    (progress : s.progress = .scanning scan) (finished : scan.todo = []) :
    s.toState.step (.scan (dead s.arming.mp3head scan)) =
      some (s.apply (.unlock scan)).toState := by
  obtain ⟨⟨kept, split, isEmpty⟩, sublist, distinct⟩ :=
    walking.scanning scan progress
  have alive : (scan.locked.filter fun pid =>
      decide (pid ∉ dead s.arming.mp3head scan)) = s.arming.mp3head := by
    rw [← filter_mem_of_sublist sublist distinct]
    refine List.filter_congr fun pid member => ?_
    rw [filter_mem_of_sublist sublist distinct]
    simp [dead, member]
  have entered : s.toState.handler = .entered := by
    refine walking.entered ?_
    rw [progress]
    exact fun unlocked => Progress.noConfusion unlocked
  have list : s.toState.mp3head = scan.locked := by
    rw [toState, progress]
    rfl
  rw [finished, List.append_nil] at split
  rw [State.step, if_pos entered, State.workhandler, list, alive]
  simp only [apply, toState, Progress.list, ← split] at isEmpty ⊢
  simp only [isEmpty]

/-- Every step is none or one of the steps of `ProfilerArming`. -/
theorem exists_run_toState (walking : s.Walking)
    (taken : s.step action = some next) :
    ∃ below, run State.step s.toState below = some next.toState := by
  obtain ⟨enabled, rfl⟩ := step_eq_some_iff.mp taken
  cases action with
  | outside action =>
      obtain ⟨allowed, steps⟩ := enabled
      obtain ⟨arming, stepped⟩ := Option.isSome_iff_exists.mp steps
      refine ⟨[action], run_cons_eq_some_iff.mpr ⟨_, ?_, rfl⟩⟩
      rw [apply, stepped, Option.getD_some]
      cases action with
      | register pid | deregister pid =>
          have unlocked : s.progress = .unlocked := allowed
          simpa [toState, unlocked, Progress.list] using stepped
      | scan dead => exact allowed.elim
      | queue | cancel | fire | rearm =>
          obtain ⟨same, -, steps⟩ :=
            State.step_of_lockless (by exact trivial) stepped
          rw [toState, steps]
          simp only [toState, same]
  | unlock scan =>
      exact ⟨[.scan (dead s.arming.mp3head scan)], run_cons_eq_some_iff.mpr
        ⟨_, step_scan_dead walking enabled.1 enabled.2, rfl⟩⟩
  | lock timesum =>
      refine ⟨[], congrArg some ?_⟩
      rw [toState, enabled.2]
      rfl
  | copy scan curr task | drop scan curr =>
      refine ⟨[], congrArg some ?_⟩
      rw [toState, enabled.1]
      rfl
  | clear scan task values =>
      have progress : s.progress = .copied scan task values := enabled
      refine ⟨[], congrArg some ?_⟩
      rw [toState, progress]
      rfl
  | spawn task pid | charge task amount | exit task => exact ⟨[], rfl⟩

/-- The loop over the list, with its calls of `get_cpu_use`, is atomic: every
run of the module with its tasks is a run of the model in which the critical
section of `workhandler` is one step. -/
theorem exists_arming_run {actions : List SamplerAction} {s : Sampler}
    (reached : run step initial actions = some s) :
    ∃ below, run State.step State.initial below = some s.toState :=
  exists_projected_run Walking toState
    (fun _ _ _ before taken => walking_of_step before taken)
    (fun _ _ _ before taken => exists_run_toState before taken)
    Walking.initial reached

theorem exists_arming_run_sampledTask :
    ∃ s below, run step initial sampledTask = some s ∧
      run State.step State.initial below = some s.toState := by
  obtain ⟨below, ran⟩ :=
    exists_arming_run (rfl : run step initial sampledTask = some _)
  exact ⟨_, below, rfl, ran⟩

end Sampler

end Refinement

end LinuxKernelDev.Profiler
