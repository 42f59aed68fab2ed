import LinuxKernelDev.GhostRuns
import LinuxKernelDev.RmsConcurrency

/-!
# Periods of the scheduled tasks

A task of `mp2.c` is released by its timer, which `taskyield` arms for the next
multiple of the period after the registration.  Here a record of registration
times, yields and releases is kept beside the concurrent system.  Wake-up times
do not drift, however late the yields and the callbacks are, and the releases of
a task are at most as many as periods have passed since its registration.
-/

namespace LinuxKernelDev.Rms

open Function Transition Sched

/-- What has happened to a PCB since it was filled in. -/
structure Record where
  registered : Nat
  yields : Nat
  releases : Nat

/-- The time in jiffies, which does not wrap around, and a record for every
PCB. -/
structure Ledger where
  clock : Nat
  record : Nat → Record

namespace Ledger

def initial (clock : Nat) : Ledger := ⟨clock, fun _ => ⟨clock, 0, 0⟩⟩

def setRecord (ledger : Ledger) (node : Nat) (record : Record) : Ledger :=
  { ledger with record := update ledger.record node record }

def countYield (ledger : Ledger) (node : Nat) : Ledger :=
  ledger.setRecord node { ledger.record node with
    yields := (ledger.record node).yields + 1 }

def countRelease (ledger : Ledger) (node : Nat) : Ledger :=
  ledger.setRecord node { ledger.record node with
    releases := (ledger.record node).releases + 1 }

/-- What an action adds to the ledger. -/
def after (s : System) (action : Action) (ledger : Ledger) : Ledger :=
  match action with
  | .tick ticks => { ledger with clock := ledger.clock + ticks }
  | .register curnode pid period compTime =>
      match (s.sched.taskregister curnode pid (unsignedLong period)
          (unsignedLong compTime) s.jiffies).2 with
      | none => ledger
      | some node => ledger.setRecord node ⟨ledger.clock, 0, 0⟩
  | .yieldCritical task =>
      match s.sched.lookup task with
      | none => ledger
      | some curr => ledger.countYield curr
  | .timerFire temp => ledger.countRelease temp
  | _ => ledger

@[simp]
theorem setRecord_self (ledger : Ledger) (node : Nat) (record : Record) :
    (ledger.setRecord node record).record node = record :=
  update_self _ _ _

theorem setRecord_of_ne (ledger : Ledger) {node other : Nat}
    (different : other ≠ node) (record : Record) :
    (ledger.setRecord node record).record other = ledger.record other :=
  update_of_ne different _ _

end Ledger

/-- A PCB is on the list or taken off it and not yet freed. -/
def Sched.Held (s : Sched) (node : Nat) : Prop :=
  node ∈ s.mp2listhead ∨ node ∈ s.unlinked

/-- What one action can do to a PCB and its record.  `fired` says that it is the
callback of the PCB. -/
inductive Evolves (msecsToJiffies : Nat → Nat) (s : System) (fired : Prop)
    (pcb : Pcb) (record : Record) : Pcb → Record → Prop where
  | state (rmsState : RmsState) :
      Evolves msecsToJiffies s fired pcb record
        { pcb with rmsState := rmsState } record
  | cancelled :
      Evolves msecsToJiffies s fired pcb record { pcb with timer := none }
        record
  | yielded :
      Evolves msecsToJiffies s fired pcb record (pcb.yielded msecsToJiffies)
        { record with yields := record.yields + 1 }
  | released (expires : Nat) : fired → expires ∈ pcb.timer →
      s.Expired expires →
      Evolves msecsToJiffies s fired pcb record
        { pcb with rmsState := .ready, timer := none }
        { record with releases := record.releases + 1 }

theorem Evolves.refl {msecsToJiffies : Nat → Nat} {s : System} {fired : Prop}
    (pcb : Pcb) (record : Record) :
    Evolves msecsToJiffies s fired pcb record pcb record :=
  .state pcb.rmsState

section Step

variable {msecsToJiffies : Nat → Nat} {s : System} {ledger : Ledger}
  {action : Action} {node : Nat}

/-- A PCB that has just been filled in, or that has evolved. -/
def Traced (msecsToJiffies : Nat → Nat) (s : System) (ledger : Ledger)
    (action : Action) (node : Nat) : Prop :=
  (∃ pid period compTime,
    (s.apply msecsToJiffies action).sched.pcb node =
        Pcb.fresh pid period compTime s.jiffies ∧
      (ledger.after s action).record node = ⟨ledger.clock, 0, 0⟩) ∨
  s.sched.Held node ∧
    Evolves msecsToJiffies s (action = .timerFire node) (s.sched.pcb node)
      (ledger.record node)
      ((s.apply msecsToJiffies action).sched.pcb node)
      ((ledger.after s action).record node)

theorem Sched.Held.mem_allocated {s : Sched} (held : s.Held node)
    (invariant : Invariant s) : node ∈ s.allocated := by
  obtain listed | unlinked := held
  · exact invariant.listed node listed
  · exact (invariant.unlinked node unlinked).1

theorem traced_register (sound : s.Sound) {curnode : Option Nat}
    (fresh : s.sched.Fresh curnode) (pid period compTime : Int32)
    (held : (s.apply msecsToJiffies
      (.register curnode pid period compTime)).sched.Held node) :
    Traced msecsToJiffies s ledger (.register curnode pid period compTime)
      node := by
  have other : ∀ {new : Nat}, curnode = some new → s.sched.Held node →
      node ≠ new := by
    rintro new rfl before rfl
    exact fresh node rfl (before.mem_allocated sound.sched)
  unfold Traced
  simp only [System.apply, Ledger.after] at held ⊢
  rcases s.sched.taskregister_outcome curnode pid (unsignedLong period)
      (unsignedLong compTime) s.jiffies with
    ⟨-, result⟩ | ⟨new, -, -, result⟩ | ⟨new, allocated, -, result⟩ |
      ⟨new, allocated, -, -, -, -, result⟩ <;>
    rw [result] at held ⊢
  · exact Or.inr ⟨held, .refl _ _⟩
  · exact Or.inr ⟨held, .refl _ _⟩
  · have before : s.sched.Held node := held
    refine Or.inr ⟨before, ?_⟩
    have different := other allocated before
    simp only [Sched.setPcb, ne_eq, different, not_false_eq_true, update_of_ne]
    exact .refl _ _
  · by_cases isNew : node = new
    · subst isNew
      refine Or.inl ⟨pid, unsignedLong period, unsignedLong compTime, ?_, ?_⟩
      · exact update_self _ _ _
      · exact Ledger.setRecord_self _ _ _
    · have before : s.sched.Held node := by
        refine held.imp (fun listed => ?_) id
        obtain earlier | last := List.mem_append.mp listed
        · exact earlier
        · exact absurd (List.mem_singleton.mp last) isNew
      refine Or.inr ⟨before, ?_⟩
      simp only [Sched.setPcb, ne_eq, isNew, not_false_eq_true, update_of_ne,
        Ledger.setRecord_of_ne]
      exact .refl _ _

theorem traced_unlink {caller pid : Int32} {target : Nat}
    (found : s.sched.lookup pid = some target)
    (held : (s.apply msecsToJiffies (.unlink caller pid target)).sched.Held
      node) :
    Traced msecsToJiffies s ledger (.unlink caller pid target) node := by
  simp only [System.apply, deregister, found] at held
  have before : s.sched.Held node := by
    obtain listed | unlinked := held
    · exact Or.inl (List.mem_of_mem_erase listed)
    · obtain rfl | earlier := List.mem_cons.mp unlinked
      · exact Or.inl (mem_of_lookup found)
      · exact Or.inr earlier
  refine Or.inr ⟨before, ?_⟩
  simp only [System.apply, deregister, found]
  exact .refl _ _

theorem traced_cancelTimer {caller : Int32} {target : Nat}
    (held : (s.apply msecsToJiffies (.cancelTimer caller target)).sched.Held
      node) :
    Traced msecsToJiffies s ledger (.cancelTimer caller target) node := by
  refine Or.inr ⟨held, ?_⟩
  simp only [System.apply, delTimer, Sched.setPcb]
  by_cases isTarget : node = target
  · subst isTarget
    rw [update_self]
    exact .cancelled
  · rw [update_of_ne isTarget]
    exact .refl _ _

theorem traced_yieldCritical {task : Int32}
    (listed : (s.sched.lookup task).isSome = true)
    (held : (s.apply msecsToJiffies (.yieldCritical task)).sched.Held node) :
    Traced msecsToJiffies s ledger (.yieldCritical task) node := by
  obtain ⟨curr, found⟩ := Option.isSome_iff_exists.mp listed
  unfold Traced
  simp only [System.apply, taskyield, found, Option.map_some,
    Option.getD_some, Ledger.after] at held ⊢
  refine Or.inr ⟨held, ?_⟩
  simp only [clearCurrtask, Sched.setPcb, Ledger.countYield]
  by_cases isCurr : node = curr
  · subst isCurr
    rw [update_self, Ledger.setRecord_self]
    exact .yielded
  · rw [update_of_ne isCurr, Ledger.setRecord_of_ne _ isCurr]
    exact .refl _ _

theorem traced_timerFire {temp : Nat}
    (armed : ∃ expires ∈ (s.sched.pcb temp).timer, s.Expired expires)
    (held : (s.apply msecsToJiffies (.timerFire temp)).sched.Held node) :
    Traced msecsToJiffies s ledger (.timerFire temp) node := by
  refine Or.inr ⟨held, ?_⟩
  simp only [System.apply, timercb, Sched.setPcb, Ledger.after,
    Ledger.countRelease]
  by_cases isTemp : node = temp
  · subst isTemp
    obtain ⟨expires, pending, expired⟩ := armed
    rw [update_self, Ledger.setRecord_self]
    exact .released expires rfl pending expired
  · rw [update_of_ne isTemp, Ledger.setRecord_of_ne _ isTemp]
    exact .refl _ _

/-- Every action treats the PCBs in one of these ways. -/
theorem traced_of_enabled (sound : s.Sound) (enabled : s.Enabled action)
    (held : (s.apply msecsToJiffies action).sched.Held node) :
    Traced msecsToJiffies s ledger action node := by
  cases action with
  | register curnode pid period compTime =>
      exact traced_register sound enabled pid period compTime held
  | unlink caller pid target => exact traced_unlink enabled.2 held
  | cancelTimer caller target => exact traced_cancelTimer held
  | freeTarget caller target =>
      refine Or.inr ⟨held.imp id List.mem_of_mem_erase, ?_⟩
      exact .refl _ _
  | yieldCritical task => exact traced_yieldCritical enabled.2 held
  | timerFire temp => exact traced_timerFire enabled.1 held
  | dispatch =>
      obtain ⟨listEq, -, unlinkedEq, states⟩ := s.sched.dispatcher_frame
      obtain ⟨rmsState, pcbEq⟩ := states node
      have before : s.sched.Held node := by
        simp only [System.apply, Sched.Held, listEq, unlinkedEq] at held
        exact held
      refine Or.inr ⟨before, ?_⟩
      simp only [System.apply, pcbEq]
      exact .state rmsState
  | wakeAfterFree caller =>
      have same := (s.apply_wakeAfterFree msecsToJiffies caller).1
      rw [same] at held
      refine Or.inr ⟨held, ?_⟩
      rw [same]
      exact .refl _ _
  | promote switch | demote switch =>
      simp only [System.apply, System.promoteTask_sched,
        System.demoteTask_sched] at held
      refine Or.inr ⟨held, ?_⟩
      simp only [System.apply, System.promoteTask_sched,
        System.demoteTask_sched]
      exact .refl _ _
  | tick | demoteTarget | yieldWake | yieldSetState | yieldSchedule
  | timerWake | threadSetState | threadSchedule =>
      exact Or.inr ⟨held, .refl _ _⟩

end Step

/-- The wake-up time is the registration plus a period for every yield, a
pending timer is armed for it, and every release answers a yield. -/
structure OnSchedule (msecsToJiffies : Nat → Nat) (pcb : Pcb)
    (record : Record) : Prop where
  wake : pcb.nxtWakeUpTime =
    (record.registered + record.yields * msecsToJiffies pcb.period) %
      18446744073709551616
  timer : ∀ expires ∈ pcb.timer, expires = pcb.nxtWakeUpTime
  answered : record.releases ≤ record.yields
  pending : pcb.timer ≠ none → record.releases < record.yields

namespace OnSchedule

variable {msecsToJiffies : Nat → Nat} {pcb : Pcb} {record : Record}

theorem fresh (pid : Int32) (period compTime clock : Nat) :
    OnSchedule msecsToJiffies
      (Pcb.fresh pid period compTime (clock % 18446744073709551616))
      ⟨clock, 0, 0⟩ where
  wake := by simp [Pcb.fresh]
  timer expires armed := by simp [Pcb.fresh] at armed
  answered := Nat.le_refl 0
  pending armed := absurd rfl armed

/-- A yield moves the wake-up time by one period. -/
theorem yielded (onSchedule : OnSchedule msecsToJiffies pcb record) :
    OnSchedule msecsToJiffies (pcb.yielded msecsToJiffies)
      { record with yields := record.yields + 1 } where
  wake := by
    simp only [Pcb.yielded, onSchedule.wake, Nat.mod_add_mod, Nat.add_mul,
      Nat.one_mul, Nat.add_assoc]
  timer expires armed := (Option.some.inj armed).symm
  answered := Nat.le_succ_of_le onSchedule.answered
  pending _ := Nat.lt_succ_of_le onSchedule.answered

/-- A callback releases the task and leaves the timer idle. -/
theorem released (onSchedule : OnSchedule msecsToJiffies pcb record)
    (armed : pcb.timer ≠ none) (rmsState : RmsState) :
    OnSchedule msecsToJiffies
      { pcb with rmsState := rmsState, timer := none }
      { record with releases := record.releases + 1 } where
  wake := onSchedule.wake
  timer expires impossible := by simp at impossible
  answered := onSchedule.pending armed
  pending impossible := absurd rfl impossible

theorem setState (onSchedule : OnSchedule msecsToJiffies pcb record)
    (rmsState : RmsState) :
    OnSchedule msecsToJiffies { pcb with rmsState := rmsState } record :=
  ⟨onSchedule.wake, onSchedule.timer, onSchedule.answered, onSchedule.pending⟩

theorem delTimer (onSchedule : OnSchedule msecsToJiffies pcb record) :
    OnSchedule msecsToJiffies { pcb with timer := none } record where
  wake := onSchedule.wake
  timer expires impossible := by simp at impossible
  answered := onSchedule.answered
  pending impossible := absurd rfl impossible

end OnSchedule

theorem OnSchedule.of_evolves {msecsToJiffies : Nat → Nat} {s : System}
    {fired : Prop} {pcb next : Pcb} {record last : Record}
    (onSchedule : OnSchedule msecsToJiffies pcb record)
    (evolves : Evolves msecsToJiffies s fired pcb record next last) :
    OnSchedule msecsToJiffies next last := by
  cases evolves with
  | state rmsState => exact onSchedule.setState rmsState
  | cancelled => exact onSchedule.delTimer
  | yielded => exact onSchedule.yielded
  | released expires fired armed expired =>
      refine onSchedule.released (fun idle => ?_) .ready
      rw [idle] at armed
      simp at armed

/-- Every PCB is on schedule, and the clock of the ledger shows the time. -/
structure Scheduled (msecsToJiffies : Nat → Nat) (observed : System × Ledger) :
    Prop where
  sound : observed.1.Sound
  clock : observed.1.jiffies = observed.2.clock % 18446744073709551616
  held : ∀ node, observed.1.sched.Held node →
    OnSchedule msecsToJiffies (observed.1.sched.pcb node)
      (observed.2.record node)

/-- The steps of the system, with the ledger. -/
def timedStep (msecsToJiffies : Nat → Nat) :
    System × Ledger → Action → Option (System × Ledger) :=
  ghostStep (System.step msecsToJiffies) Ledger.after

/-- The module after `mp2_init`, at any time. -/
def timedInitial (clock : Nat) : System × Ledger :=
  (System.initial (clock % 18446744073709551616), Ledger.initial clock)

section Runs

variable {msecsToJiffies : Nat → Nat} {observed next : System × Ledger}
  {action : Action}

theorem Scheduled.initial (clock : Nat) :
    Scheduled msecsToJiffies (timedInitial clock) where
  sound := System.Sound.initial _
  clock := rfl
  held node held := by
    obtain impossible | impossible := held <;> cases impossible

theorem clock_le_after (s : System) (ledger : Ledger) :
    ledger.clock ≤ (ledger.after s action).clock := by
  unfold Ledger.after
  split
  · exact Nat.le_add_right _ _
  · split <;> exact Nat.le_refl _
  · split <;> exact Nat.le_refl _
  · exact Nat.le_refl _
  · exact Nat.le_refl _

/-- Only the passing of time changes the clocks. -/
theorem jiffies_apply (s : System) (ledger : Ledger)
    (same : s.jiffies = ledger.clock % 18446744073709551616) :
    (s.apply msecsToJiffies action).jiffies =
      (ledger.after s action).clock % 18446744073709551616 := by
  cases action with
  | tick ticks =>
      simp only [System.apply, Ledger.after, same]
      omega
  | register curnode pid period compTime | yieldCritical task =>
      simp only [System.apply, Ledger.after]
      split <;> exact same
  | wakeAfterFree caller =>
      simp only [System.apply]
      split_ifs <;> exact same
  | promote switch =>
      obtain ⟨protaskptr, demtaskptr⟩ := switch
      cases protaskptr <;> exact same
  | demote demtaskptr => cases demtaskptr <;> exact same
  | _ => exact same

theorem scheduled_of_step (scheduled : Scheduled msecsToJiffies observed)
    (taken : timedStep msecsToJiffies observed action = some next) :
    Scheduled msecsToJiffies next := by
  obtain ⟨s, ledger⟩ := observed
  obtain ⟨t, last⟩ := next
  obtain ⟨stepped, rfl⟩ := ghostStep_eq_some_iff.mp taken
  obtain ⟨enabled, rfl⟩ := System.step_eq_some_iff.mp stepped
  refine ⟨scheduled.sound.step stepped,
    jiffies_apply s ledger scheduled.clock, fun node held => ?_⟩
  obtain ⟨pid, period, compTime, pcbEq, recordEq⟩ | ⟨before, evolves⟩ :=
    traced_of_enabled scheduled.sound enabled held
  · rw [pcbEq, recordEq, scheduled.clock]
    exact OnSchedule.fresh pid period compTime ledger.clock
  · exact (scheduled.held node before).of_evolves evolves

/-- A task registers shortly before `jiffies` wraps around, yields, and is
released one period later. -/
def releasedOnce : List Action :=
  [.register (some 0) 5 10 1, .tick 3, .yieldCritical 5, .yieldWake 5, .tick 7,
    .timerFire 0, .timerWake 0]

/-- Wake-up times do not drift: in every run of the concurrent scheduler, at any
interleaving, a PCB that is on the list or not yet freed is to wake up at its
registration time plus one period for each of its yields, its timer is idle or
armed for that time, and it was released at most once for each yield. -/
theorem wake_up_times (msecsToJiffies : Nat → Nat) (clock : Nat)
    {actions : List Action} {s : System}
    (reached : run (System.step msecsToJiffies)
      (System.initial (clock % 18446744073709551616)) actions = some s) :
    ∃ ledger, run (timedStep msecsToJiffies) (timedInitial clock) actions =
        some (s, ledger) ∧
      ∀ node, s.sched.Held node →
        OnSchedule msecsToJiffies (s.sched.pcb node) (ledger.record node) := by
  obtain ⟨ledger, ran⟩ := exists_ghost_run reached (Ledger.initial clock)
  exact ⟨ledger, ran, (invariant_of_run (Scheduled msecsToJiffies)
    (fun _ _ _ before taken => scheduled_of_step before taken)
    (Scheduled.initial clock) ran).held⟩

theorem wake_up_times_releasedOnce :
    ∃ s ledger, run (System.step id)
        (System.initial (18446744073709551610 % 18446744073709551616))
        releasedOnce = some s ∧
      run (timedStep id) (timedInitial 18446744073709551610) releasedOnce =
        some (s, ledger) ∧
      ∀ node, s.sched.Held node →
        OnSchedule id (s.sched.pcb node) (ledger.record node) := by
  obtain ⟨ledger, ran, held⟩ := wake_up_times id 18446744073709551610
    (rfl : run (System.step id)
      (System.initial (18446744073709551610 % 18446744073709551616))
      releasedOnce = some _)
  exact ⟨_, ledger, rfl, ran, held⟩

/-- A timer that fires is not armed for a time more than half the range of
`jiffies` ahead, which `time_after_eq` would take for the past. -/
def NotFarAhead (msecsToJiffies : Nat → Nat) (observed : System × Ledger) :
    Action → Prop
  | .timerFire temp =>
      (observed.2.record temp).registered + (observed.2.record temp).yields *
        msecsToJiffies (observed.1.sched.pcb temp).period <
          observed.2.clock + 9223372036854775808
  | _ => True

instance (msecsToJiffies : Nat → Nat) (observed : System × Ledger)
    (action : Action) :
    Decidable (NotFarAhead msecsToJiffies observed action) :=
  match action with
  | .timerFire _ => inferInstanceAs (Decidable (_ < _))
  | .tick _ | .register _ _ _ _ | .unlink _ _ _ | .demoteTarget _ _
  | .cancelTimer _ _ | .freeTarget _ _ | .wakeAfterFree _ | .yieldCritical _
  | .yieldWake _ | .yieldSetState _ | .yieldSchedule _ _ | .timerWake _
  | .dispatch | .promote _ | .demote _ | .threadSetState
  | .threadSchedule _ => inferInstanceAs (Decidable True)

/-- As many periods have passed since the registration as there were
releases. -/
def Paced (msecsToJiffies : Nat → Nat) (clock : Nat) (pcb : Pcb)
    (record : Record) : Prop :=
  record.registered + record.releases * msecsToJiffies pcb.period ≤ clock

/-- `time_after_eq` against a time that is not far ahead. -/
theorem le_of_expired {s : System} {clock wake : Nat}
    (same : s.jiffies = clock % 18446744073709551616)
    (near : wake < clock + 9223372036854775808)
    (expired : s.Expired (wake % 18446744073709551616)) : wake ≤ clock := by
  unfold System.Expired at expired
  rw [same] at expired
  omega

/-- A task is released when its wake-up time has come, not before. -/
theorem Paced.released {s : System} {clock expires : Nat} {pcb : Pcb}
    {record : Record} (onSchedule : OnSchedule msecsToJiffies pcb record)
    (same : s.jiffies = clock % 18446744073709551616)
    (near : record.registered + record.yields * msecsToJiffies pcb.period <
      clock + 9223372036854775808)
    (armed : expires ∈ pcb.timer) (expired : s.Expired expires) :
    record.registered + (record.releases + 1) * msecsToJiffies pcb.period ≤
      clock := by
  rw [onSchedule.timer expires armed, onSchedule.wake] at expired
  have more : record.releases + 1 ≤ record.yields := by
    refine onSchedule.pending fun idle => ?_
    rw [idle] at armed
    simp at armed
  have earlier := Nat.mul_le_mul_right (msecsToJiffies pcb.period) more
  have due := le_of_expired same near expired
  omega

theorem paced_of_step (scheduled : Scheduled msecsToJiffies observed)
    (paced : ∀ node, observed.1.sched.Held node → Paced msecsToJiffies
      observed.2.clock (observed.1.sched.pcb node) (observed.2.record node))
    (near : NotFarAhead msecsToJiffies observed action)
    (taken : timedStep msecsToJiffies observed action = some next) :
    ∀ node, next.1.sched.Held node → Paced msecsToJiffies next.2.clock
      (next.1.sched.pcb node) (next.2.record node) := by
  obtain ⟨s, ledger⟩ := observed
  obtain ⟨t, last⟩ := next
  obtain ⟨stepped, rfl⟩ := ghostStep_eq_some_iff.mp taken
  obtain ⟨enabled, rfl⟩ := System.step_eq_some_iff.mp stepped
  intro node held
  have later : ledger.clock ≤ (ledger.after s action).clock :=
    clock_le_after s ledger
  obtain ⟨pid, period, compTime, pcbEq, recordEq⟩ | ⟨before, evolves⟩ :=
    traced_of_enabled scheduled.sound enabled held
  · unfold Paced
    rw [recordEq, Nat.zero_mul, Nat.add_zero]
    exact later
  · have earlier := paced node before
    have onSchedule := scheduled.held node before
    refine Nat.le_trans ?_ later
    generalize (s.apply msecsToJiffies action).sched.pcb node = pcb at evolves ⊢
    generalize (ledger.after s action).record node = last at evolves ⊢
    cases evolves with
    | state rmsState => exact earlier
    | cancelled => exact earlier
    | yielded => exact earlier
    | released expires fired armed expired =>
        subst fired
        exact Paced.released onSchedule scheduled.clock near armed expired

/-- Releases keep to the period: in every run whose timers are not armed absurdly
far ahead, the number of times a task was released, times its period, is at most
the time since its registration. -/
theorem release_rate (msecsToJiffies : Nat → Nat) (clock : Nat)
    {actions : List Action} {s : System} {ledger : Ledger}
    (near : Permits (timedStep msecsToJiffies) (NotFarAhead msecsToJiffies)
      (timedInitial clock) actions)
    (reached : run (timedStep msecsToJiffies) (timedInitial clock) actions =
      some (s, ledger)) :
    ∀ node, s.sched.Held node →
      (ledger.record node).registered + (ledger.record node).releases *
        msecsToJiffies (s.sched.pcb node).period ≤ ledger.clock := by
  have kept := invariant_of_permits
    (fun observed => Scheduled msecsToJiffies observed ∧
      ∀ node, observed.1.sched.Held node → Paced msecsToJiffies
        observed.2.clock (observed.1.sched.pcb node) (observed.2.record node))
    (fun _ _ _ before allowed taken => ⟨scheduled_of_step before.1 taken,
      paced_of_step before.1 before.2 allowed taken⟩)
    ⟨Scheduled.initial clock, fun node held => by
      obtain impossible | impossible := held <;> cases impossible⟩ near reached
  exact kept.2

theorem release_rate_releasedOnce :
    ∃ s ledger, run (timedStep id) (timedInitial 18446744073709551610)
        releasedOnce = some (s, ledger) ∧
      ∀ node, s.sched.Held node →
        (ledger.record node).registered + (ledger.record node).releases *
          id (s.sched.pcb node).period ≤ ledger.clock :=
  ⟨_, _, rfl, release_rate id 18446744073709551610 (by decide)
    (rfl : run (timedStep id) (timedInitial 18446744073709551610)
      releasedOnce = some _)⟩

end Runs

end LinuxKernelDev.Rms
