import LinuxKernelDev.GhostRuns
import LinuxKernelDev.KeyedRegistry
import LinuxKernelDev.RmsConcurrency
import LinuxKernelDev.StatusListing

/-!
# The registered tasks of the scheduler

The list of `mp2.c` is changed by registrations and deregistrations of several
processes, while the dispatcher, yields and timers write to its PCBs.  What the
status file shows is the registry of the tasks with their periods and
computation times: each registration that is admitted enters its task, each
`deregister` removes one, in the order of the critical sections, and nothing
else has an effect on it.
-/

namespace LinuxKernelDev.Rms

open FormattedText Function KeyedRegistry Sched Transition

/-- The parameters of a task: its period and its computation time. -/
abbrev Parameters := Nat × Nat

def Pcb.entry (temp : Pcb) : Int32 × Parameters :=
  (temp.pid, temp.period, temp.compTime)

/-- `"%d: %lu, %lu\n"`. -/
def entryLine (entry : Int32 × Parameters) : List UInt8 :=
  signedDecimal entry.1.toInt ++ chars [':', ' '] ++ decimal entry.2.1 ++
    chars [',', ' '] ++ decimal entry.2.2 ++ chars ['\n']

namespace Sched

def entries (s : Sched) : List (Int32 × Parameters) :=
  s.mp2listhead.map fun node => (s.pcb node).entry

/-- The text that `my_read` prints is determined by the registry. -/
theorem listing_eq_fill_entries (s : Sched) :
    s.listing = fill 10240 16 entryLine [] s.entries := by
  rw [entries, listing]
  generalize ([] : List UInt8) = text
  induction s.mp2listhead generalizing text with
  | nil => rfl
  | cons temp rest ih =>
      rw [List.map_cons, fill, fill, ih]
      rfl

/-- Writes to other fields of the PCBs do not show. -/
theorem entries_congr {s next : Sched}
    (listEq : next.mp2listhead = s.mp2listhead)
    (same : ∀ node ∈ s.mp2listhead,
      (next.pcb node).entry = (s.pcb node).entry) :
    next.entries = s.entries := by
  rw [entries, listEq]
  exact List.map_congr_left same

theorem keys_entries (s : Sched) :
    keys s.entries = s.mp2listhead.map fun node => (s.pcb node).pid := by
  rw [keys, entries, List.map_map]
  rfl

/-- Taking a PCB off the list removes its pid. -/
theorem entries_deregister {s : Sched} (sound : Invariant s) {pid : Int32}
    {target : Nat} (found : s.lookup pid = some target) :
    (s.deregister pid).1.entries = change s.entries (.remove pid) := by
  have isPid : (s.pcb target).pid = pid := by
    simpa using List.find?_some found
  have others : ∀ node ∈ s.mp2listhead,
      (decide ((s.pcb node).entry.1 ≠ pid)) = (node != target) := by
    intro node listed
    have injective := List.inj_on_of_nodup_map sound.pids
    by_cases isTarget : node = target
    · subst isTarget
      simp [Pcb.entry, isPid]
    · have differs : (s.pcb node).pid ≠ pid := fun same => isTarget
        (injective listed (mem_of_lookup found) (same.trans isPid.symm))
      simp [Pcb.entry, differs, isTarget]
  have erased : (s.deregister pid).1.mp2listhead =
      s.mp2listhead.filter (· != target) := by
    rw [deregister, found]
    exact sound.nodup.erase_eq_filter target
  have pcbEq : (s.deregister pid).1.pcb = s.pcb := by
    rw [deregister, found]
    rfl
  rw [entries, erased, pcbEq, change, entries, List.filter_map]
  congr 1
  exact List.filter_congr fun node listed => (others node listed).symm

end Sched

namespace System

/-- The changes of the registry that an action makes. -/
def changes (s : System) : Action → List (Change Int32 Parameters)
  | .register curnode pid period compTime =>
      match (s.sched.taskregister curnode pid (unsignedLong period)
          (unsignedLong compTime) s.jiffies).2 with
      | none => []
      | some _ => [.enter pid (unsignedLong period, unsignedLong compTime)]
  | .unlink _ pid _ => [.remove pid]
  | _ => []

variable {msecsToJiffies : Nat → Nat} {s : System}

theorem entries_register (sound : s.Sound) {curnode : Option Nat}
    (fresh : s.sched.Fresh curnode) (pid period compTime : Int32) :
    (s.sched.taskregister curnode pid (unsignedLong period)
        (unsignedLong compTime) s.jiffies).1.entries =
      (s.changes (.register curnode pid period compTime)).foldl change
        s.sched.entries := by
  have untouched : ∀ node, curnode = some node →
      ∀ pcb, ∀ other ∈ s.sched.mp2listhead,
        update s.sched.pcb node pcb other = s.sched.pcb other := by
    intro node allocated pcb other listed
    refine update_of_ne (fun same => ?_) _ _
    exact fresh node allocated (same ▸ sound.sched.listed other listed)
  rw [changes]
  rcases s.sched.taskregister_outcome curnode pid (unsignedLong period)
    (unsignedLong compTime) s.jiffies with
      ⟨-, result⟩ | ⟨node, -, -, result⟩ | ⟨node, allocated, -, result⟩ |
        ⟨node, allocated, usum, -, admitted, -, result⟩ <;>
    rw [result]
  · rfl
  · rfl
  · exact Sched.entries_congr rfl fun other listed =>
      congrArg Pcb.entry (untouched node allocated _ other listed)
  · have absent : pid ∉ keys s.sched.entries := by
      rw [s.sched.keys_entries, List.mem_map]
      rintro ⟨other, listed, isPid⟩
      refine pid_ne_of_sumUtilization admitted listed ?_
      rw [untouched node allocated _ other listed, isPid]
    have before : (s.sched.mp2listhead.map fun other =>
        (update s.sched.pcb node (Pcb.fresh pid (unsignedLong period)
          (unsignedLong compTime) s.jiffies) other).entry) =
            s.sched.entries :=
      List.map_congr_left fun other listed =>
        congrArg Pcb.entry (untouched node allocated _ other listed)
    simp only [List.foldl_cons, List.foldl_nil, change, if_neg absent]
    rw [Sched.entries, List.map_append, List.map_singleton]
    simp only [setPcb, before, update_self]
    rfl

/-- Every action changes the registry as recorded. -/
theorem entries_apply (sound : s.Sound) {action : Action}
    (enabled : s.Enabled action) :
    (s.apply msecsToJiffies action).sched.entries =
      (s.changes action).foldl change s.sched.entries := by
  -- The fields that `my_read` prints are not those that the action writes.
  have written : ∀ node pcb, pcb.entry = (s.sched.pcb node).entry →
      ∀ other, (update s.sched.pcb node pcb other).entry =
        (s.sched.pcb other).entry := by
    intro node pcb same other
    by_cases isNode : other = node
    · subst isNode
      rw [update_self, same]
    · rw [update_of_ne isNode]
  cases action with
  | register curnode pid period compTime =>
      exact entries_register sound enabled pid period compTime
  | unlink caller pid target =>
      exact Sched.entries_deregister sound.sched enabled.2
  | cancelTimer caller target =>
      exact Sched.entries_congr rfl fun node _ =>
        written target { s.sched.pcb target with timer := none } rfl node
  | timerFire temp =>
      exact Sched.entries_congr rfl fun node _ => written temp
        { s.sched.pcb temp with rmsState := .ready, timer := none } rfl node
  | wakeAfterFree caller =>
      rw [(s.apply_wakeAfterFree msecsToJiffies caller).1]
      rfl
  | yieldCritical task =>
      obtain ⟨curr, found⟩ := Option.isSome_iff_exists.mp enabled.2
      simp only [apply, taskyield, found, Option.map_some, Option.getD_some]
      exact Sched.entries_congr rfl fun node _ => written curr
        ((s.sched.pcb curr).yielded msecsToJiffies) rfl node
  | dispatch =>
      obtain ⟨listEq, -, -, states⟩ := s.sched.dispatcher_frame
      refine Sched.entries_congr listEq fun node _ => ?_
      obtain ⟨state, pcbEq⟩ := states node
      rw [apply, pcbEq]
      rfl
  | promote switch => simp [apply, changes]
  | demote demtaskptr => simp [apply, changes]
  | tick | demoteTarget | freeTarget | yieldWake | yieldSetState
  | yieldSchedule | timerWake | threadSetState | threadSchedule => rfl

/-- A step that also records the changes of the registry. -/
def loggedStep (msecsToJiffies : Nat → Nat) :
    System × List (Change Int32 Parameters) → Action →
      Option (System × List (Change Int32 Parameters)) :=
  ghostStep (System.step msecsToJiffies) fun s action log =>
    log ++ s.changes action

theorem entries_of_run {jiffies : Nat} {actions : List Action}
    {log : List (Change Int32 Parameters)}
    (ran : run (loggedStep msecsToJiffies) (System.initial jiffies, [])
      actions = some (s, log)) :
    s.sched.entries = log.foldl change [] := by
  have kept := invariant_of_run
    (fun observed : System × List (Change Int32 Parameters) =>
      observed.1.Sound ∧
        observed.1.sched.entries = observed.2.foldl change [])
    (fun observed action next before taken => ?_)
    ⟨Sound.initial jiffies, rfl⟩ ran
  · exact kept.2
  · obtain ⟨stepped, recorded⟩ := ghostStep_eq_some_iff.mp taken
    refine ⟨before.1.step stepped, ?_⟩
    obtain ⟨enabled, applied⟩ := step_eq_some_iff.mp stepped
    rw [← recorded, ← applied, List.foldl_append, ← before.2]
    exact entries_apply before.1 enabled

/-- In every reachable state the status file shows the registry after the
admitted registrations and the deregistrations in the order of their critical
sections.  A pid has the parameters with which it was entered first since it was
last removed, and the pids stand in the order in which they were entered. -/
theorem tasks_eq_registry {jiffies : Nat} {actions : List Action}
    (reached : run (System.step msecsToJiffies) (System.initial jiffies)
      actions = some s) :
    ∃ log, run (loggedStep msecsToJiffies) (System.initial jiffies, [])
        actions = some (s, log) ∧
      s.sched.listing = fill 10240 16 entryLine [] (log.foldl change []) ∧
      (∀ pid, s.sched.entries.lookup pid = log.foldl (track pid) none) ∧
      (keys s.sched.entries).Sublist (log.flatMap Change.entered) := by
  obtain ⟨log, ran⟩ := exists_ghost_run reached []
  have folded := entries_of_run ran
  refine ⟨log, ran, ?_, fun pid => ?_, ?_⟩
  · rw [← folded]
    exact s.sched.listing_eq_fill_entries
  · rw [folded, lookup_foldl_change]
    rfl
  · rw [folded]
    exact keys_foldl_change_sublist _ _

/-- Two tasks register, one of them a second time, and the first leaves and
comes back with another period. -/
def registeredAgain : List Action :=
  [.register (some 0) 10 100 20, .register (some 1) 11 50 10,
    .register (some 2) 11 60 10, .unlink 10 10 0, .yieldCritical 11,
    .register (some 2) 10 200 20]

theorem tasks_eq_registry_registeredAgain :
    ∃ s log, run (loggedStep id) (System.initial 0, []) registeredAgain =
        some (s, log) ∧
      s.sched.listing = fill 10240 16 entryLine [] (log.foldl change []) ∧
      s.sched.entries.lookup 10 = some (200, 20) := by
  have ran : (run (System.step id) (System.initial 0) registeredAgain).map
      (fun s => s.sched.entries.lookup 10) = some (some (200, 20)) := by
    decide +kernel
  obtain ⟨s, reached, found⟩ := Option.map_eq_some_iff.mp ran
  obtain ⟨log, logged, shown, -⟩ := tasks_eq_registry reached
  exact ⟨s, log, logged, shown, found⟩

end System

end LinuxKernelDev.Rms
