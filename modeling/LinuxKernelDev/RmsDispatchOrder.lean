import LinuxKernelDev.RmsStateInvariant

/-!
# Rate-monotonic dispatch

What one call of `dispatcher` does from any reachable state.  The update of
`dispatcher` would do nothing for a `currtask` that is ready; the invariant of
the state machine excludes that case.
-/

namespace LinuxKernelDev.Rms

open Function Transition Sched

/-- A state after a call of `dispatcher`, with the tasks it promotes and
demotes, as rate-monotonic scheduling asks for. -/
structure Dispatched (s next : Sched) (switch : Switch) : Prop where
  runs : (∃ node ∈ s.mp2listhead, (s.pcb node).rmsState = .ready ∨
      (s.pcb node).rmsState = .running) →
    ∃ curr ∈ next.mp2listhead, next.currtask = some curr ∧
      (next.pcb curr).rmsState = .running ∧
      (∀ node ∈ next.mp2listhead, (next.pcb node).rmsState = .running →
        node = curr) ∧
      ∀ node ∈ next.mp2listhead, (next.pcb node).rmsState = .ready →
        (next.pcb curr).period ≤ (next.pcb node).period
  kept : ∀ node ∈ s.mp2listhead, (s.pcb node).rmsState = .running →
    (((next.pcb node).rmsState = .running ∧ next.currtask = some node) ↔
      ¬∃ other ∈ s.mp2listhead, (s.pcb other).rmsState = .ready ∧
        (s.pcb other).period < (s.pcb node).period)
  chosen : ∀ node, next.currtask = some node → s.currtask ≠ some node →
    (s.pcb node).rmsState = .ready ∧
      ∃ before after, s.mp2listhead = before ++ node :: after ∧
        (∀ other ∈ before, (s.pcb other).rmsState = .ready →
          (s.pcb node).period < (s.pcb other).period) ∧
        ∀ other ∈ after, (s.pcb other).rmsState = .ready →
          (s.pcb node).period ≤ (s.pcb other).period
  sleeping : ∀ node, (s.pcb node).rmsState = .sleeping →
    next.pcb node = s.pcb node
  order : next.mp2listhead = s.mp2listhead
  fields : next.allocated = s.allocated ∧ next.unlinked = s.unlinked ∧
    ∀ node, ∃ state, next.pcb node = { s.pcb node with rmsState := state }
  promoted : ∀ task, switch.protaskptr = some task ↔
    ∃ node ∈ s.mp2listhead, (s.pcb node).rmsState ≠ .running ∧
      (next.pcb node).rmsState = .running ∧ (s.pcb node).linuxTask = task
  demoted : ∀ task, switch.demtaskptr = some task ↔
    ∃ node ∈ s.mp2listhead, (s.pcb node).rmsState = .running ∧
      (next.pcb node).rmsState ≠ .running ∧ (s.pcb node).linuxTask = task

section Cases

variable {s : Sched} (invariant : Invariant s)

include invariant

/-- Nothing changes if the running PCB, or the lack of a ready one, is
right. -/
theorem dispatched_unchanged
    (least : ∀ node ∈ s.mp2listhead, (s.pcb node).rmsState = .ready →
      ∃ curr, s.currtask = some curr ∧
        (s.pcb curr).period ≤ (s.pcb node).period) :
    Dispatched s s ⟨none, none⟩ := by
  have current : ∀ curr, s.currtask = some curr →
      curr ∈ s.mp2listhead ∧ (s.pcb curr).rmsState = .running := fun curr is =>
    ⟨invariant.currtask curr is,
      (invariant.running curr (invariant.currtask curr is)).mpr is⟩
  refine
    { runs := ?_
      kept := fun node member running => ?_
      chosen := fun node is isNot => absurd is isNot
      sleeping := fun _ _ => rfl
      order := rfl
      fields := ⟨rfl, rfl, fun _ => ⟨_, rfl⟩⟩
      promoted := ?_
      demoted := ?_ }
  · rintro ⟨node, member, active⟩
    obtain ⟨curr, is⟩ : ∃ curr, s.currtask = some curr := by
      rcases active with ready | running
      · obtain ⟨curr, is, -⟩ := least node member ready
        exact ⟨curr, is⟩
      · exact ⟨node, (invariant.running node member).mp running⟩
    refine ⟨curr, (current curr is).1, is, (current curr is).2,
      fun other listed running => ?_, fun other listed ready => ?_⟩
    · rw [invariant.running other listed, is] at running
      exact (Option.some.inj running).symm
    · obtain ⟨best, isBest, lessEq⟩ := least other listed ready
      rw [is] at isBest
      rwa [Option.some.inj isBest]
  · have is := (invariant.running node member).mp running
    refine iff_of_true ⟨running, is⟩ ?_
    rintro ⟨other, listed, ready, shorter⟩
    obtain ⟨best, isBest, lessEq⟩ := least other listed ready
    rw [is, Option.some.injEq] at isBest
    subst isBest
    omega
  · intro task
    refine iff_of_false nofun ?_
    rintro ⟨node, -, notRunning, running, -⟩
    exact notRunning running
  · intro task
    refine iff_of_false nofun ?_
    rintro ⟨node, -, running, notRunning, -⟩
    exact notRunning running

/-- The state in which `next` runs in place of `curr`, or of no PCB. -/
theorem dispatched_switch {final : Sched} {curr : Option Nat} {next : Nat}
    (current : s.currtask = curr) (selected : s.nexttask = some next)
    (shorter : ∀ node ∈ curr, (s.pcb next).period < (s.pcb node).period)
    (currtask : final.currtask = some next)
    (order : final.mp2listhead = s.mp2listhead)
    (lists : final.allocated = s.allocated ∧ final.unlinked = s.unlinked)
    (pcb : ∀ node, final.pcb node = { s.pcb node with rmsState :=
      if node = next then .running else if curr = some node then .ready
      else (s.pcb node).rmsState }) :
    Dispatched s final ⟨some (s.pcb next).linuxTask,
      curr.map fun node => (s.pcb node).linuxTask⟩ := by
  subst current
  obtain ⟨listed, ready⟩ := nexttask_mem selected
  have isCurrent : ∀ node ∈ s.mp2listhead,
      ((s.pcb node).rmsState = .running ↔ s.currtask = some node) :=
    invariant.running
  have different : s.currtask ≠ some next := fun is => by
    rw [(isCurrent next listed).mpr is] at ready
    cases ready
  have runs : ∀ node ∈ s.mp2listhead,
      ((final.pcb node).rmsState = .running ↔ node = next) :=
    fun node member => by
      rw [pcb]
      split_ifs with isNext wasCurrent
      · exact iff_of_true rfl isNext
      · exact iff_of_false nofun isNext
      · exact iff_of_false (fun running =>
          wasCurrent ((isCurrent node member).mp running)) isNext
  have periods : ∀ node, (final.pcb node).period = (s.pcb node).period :=
    fun node => by rw [pcb]
  refine
    { runs := fun _ => ⟨next, order ▸ listed, currtask,
        (runs next listed).mpr rfl, fun node member running =>
          (runs node (order ▸ member)).mp running, fun node member isReady => ?_⟩
      kept := fun node member running => ?_
      chosen := fun node is isNot => ?_
      sleeping := fun node asleep => ?_
      order := order
      fields := ⟨lists.1, lists.2, fun node => ⟨_, pcb node⟩⟩
      promoted := fun task => ?_
      demoted := fun task => ?_ }
  · rw [order] at member
    rw [periods, periods]
    rw [pcb] at isReady
    split_ifs at isReady with isNext wasCurrent
    · exact (shorter node wasCurrent).le
    · exact nexttask_le selected member isReady
  · have is := (isCurrent node member).mp running
    have notNext : node ≠ next := fun equal => different (equal ▸ is)
    refine iff_of_false (fun both => notNext
      ((runs node member).mp both.1)) (not_not.mpr ?_)
    exact ⟨next, listed, ready, shorter node is⟩
  · rw [currtask, Option.some.injEq] at is
    subst is
    exact foldl_selectNext_split selected
  · have notNext : node ≠ next := by
      rintro rfl
      rw [ready] at asleep
      cases asleep
    have notCurrent : s.currtask ≠ some node := fun is => by
      rw [(isCurrent node (invariant.currtask node is)).mpr is] at asleep
      cases asleep
    rw [pcb, if_neg notNext, if_neg notCurrent]
  · simp only [Option.some.injEq]
    constructor
    · rintro rfl
      exact ⟨next, listed, by rw [ready]; nofun, (runs next listed).mpr rfl,
        rfl⟩
    · rintro ⟨node, member, -, running, rfl⟩
      rw [(runs node member).mp running]
  · simp only [Option.map_eq_some_iff]
    constructor
    · rintro ⟨node, is, rfl⟩
      have member := invariant.currtask node is
      exact ⟨node, member, (isCurrent node member).mpr is, fun running =>
        different ((runs node member).mp running ▸ is), rfl⟩
    · rintro ⟨node, member, running, -, rfl⟩
      exact ⟨node, (isCurrent node member).mp running, rfl⟩

theorem dispatched : Dispatched s s.dispatcher.1 s.dispatcher.2 := by
  have dispatches := invariant.dispatches
  generalize s.dispatcher = result at dispatches ⊢
  cases dispatches with
  | idle selected =>
      exact dispatched_unchanged invariant fun node member ready =>
        absurd ready (not_ready_of_nexttask selected member)
  | @start next current selected =>
      refine dispatched_switch invariant current selected nofun rfl rfl
        ⟨rfl, rfl⟩ fun node => ?_
      rw [Sched.start]
      simp only [setState_pcb, reduceCtorEq, if_false]
  | @preempt curr next current running selected shorter =>
      refine dispatched_switch invariant current selected (fun node is => ?_)
        rfl rfl ⟨rfl, rfl⟩ fun node => ?_
      · rwa [← Option.some.inj is]
      · rw [Sched.start]
        simp only [setState_pcb, Option.some.injEq, eq_comm]
  | @keep curr next current running selected longer =>
      exact dispatched_unchanged invariant fun node member ready =>
        ⟨curr, current, longer.trans (nexttask_le selected member ready)⟩

end Cases

/-- From every reachable state, one call of `dispatcher` makes the
rate-monotonic choice and changes nothing else. -/
theorem dispatched_of_reached (msecsToJiffies : Nat → Nat)
    (events : List Event) (s : Sched)
    (reached : run (Sched.step msecsToJiffies) Sched.initial events = some s) :
    Dispatched s s.dispatcher.1 s.dispatcher.2 :=
  dispatched (invariant_of_reached reached)

/-- The second task becomes ready while the first one, with the longer period,
runs. -/
def overtaken : List Event :=
  [.register (some 0) 10 100 20 0, .register (some 1) 11 50 10 0, .yield 10,
    .yield 11, .timer 0, .dispatch, .timer 1]

theorem dispatched_overtaken :
    ∃ s, run (Sched.step id) Sched.initial overtaken = some s ∧
      s.currtask = some 0 ∧ s.dispatcher.1.currtask = some 1 ∧
      s.dispatcher.2 = ⟨some 11, some 10⟩ ∧
      Dispatched s s.dispatcher.1 s.dispatcher.2 :=
  ⟨_, rfl, by decide, by decide, by decide,
    dispatched_of_reached id overtaken _ rfl⟩

end LinuxKernelDev.Rms
