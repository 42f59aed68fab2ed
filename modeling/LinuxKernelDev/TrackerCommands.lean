import LinuxKernelDev.DecimalText
import LinuxKernelDev.TrackerModule

/-!
# Registrations written to the CPU usage tracker

A translation of `my_write` of `mp1.c`.  The result of `strim` is thrown away,
so that only the whitespace behind the number is ignored, and what follows a
zero byte is not looked at.
-/

namespace LinuxKernelDev.CpuTracker

open DecimalText KeyedRegistry ScanFormat Transition

/-- The pid with which `my_write` calls `idregister`, or the error that it
returns.  `copyFromUser` tells whether the copy into `kbuf` succeeds. -/
def reachedPid (copyFromUser : Bool) (bytes : List UInt8) : Except Int Int32 :=
  if bytes.length = 0 ∨ 16 ≤ bytes.length then .error (-22)
  else if copyFromUser then
    match kstrtoint (strim (cString bytes)) with
    | none => .error (-22)
    | some pid => .ok pid
  else .error (-14)

namespace Pool

/-- `idregister` with nothing in between, where `node` is what
`kmem_cache_alloc` returns. -/
def idregister (p : Pool) (node : Option Nat) (pid : Int32) : Int × Pool :=
  match node with
  | none => (-12, p)
  | some node =>
      if (p.allocate node pid).listed pid then
        (-17, (p.allocate node pid).free node)
      else
        (0, (p.allocate node pid).insert node)

def myWrite (p : Pool) (copyFromUser : Bool) (node : Option Nat)
    (bytes : List UInt8) : Int × Pool :=
  match reachedPid copyFromUser bytes with
  | .error code => (code, p)
  | .ok pid =>
      let res := (p.idregister node pid).1
      (if res ≠ 0 then res else bytes.length, (p.idregister node pid).2)

end Pool

/-- The texts that register a pid: a numeral with whitespace behind it, and
anything from a zero byte on. -/
def Registration (bytes : List UInt8) (pid : Int32) : Prop :=
  ∃ body trail rest, bytes = body ++ trail ++ rest ∧ Numeral body pid.toInt ∧
    (∀ byte ∈ trail, isSpace byte) ∧ ∀ byte ∈ rest.head?, byte = 0

section Grammar

variable {bytes : List UInt8} {pid : Int32}

theorem cString_append_of_zero {text rest : List UInt8} (none : 0 ∉ text)
    (zero : ∀ byte ∈ rest.head?, byte = 0) : cString (text ++ rest) = text := by
  refine takeWhile_append_of_stops (fun byte member => ?_) fun byte first => ?_
  · have nonzero : byte ≠ 0 := fun same => none (same ▸ member)
    simpa using nonzero
  · simpa using zero byte first

theorem exists_rest_of_cString (bytes : List UInt8) :
    ∃ rest, bytes = cString bytes ++ rest ∧ ∀ byte ∈ rest.head?, byte = 0 := by
  refine ⟨bytes.dropWhile (· ≠ 0), List.takeWhile_append_dropWhile.symm,
    fun byte first => ?_⟩
  simpa using stops_dropWhile (· ≠ 0) bytes byte first

/-- No newline is left for `kstrtoint` to accept. -/
theorem not_lineEnd_of_strim {text body rest : List UInt8}
    (split : strim text = body ++ rest) (ends : LineEnd rest) : rest = [] := by
  obtain empty | newline := ends
  · exact empty
  · have last := List.rdropWhile_last_not isSpace text
    have space : isSpace '\n'.toUInt8 = true := by decide
    rw [← strim, split, newline] at last
    simp [space] at last

theorem kstrtoint_strim_iff :
    kstrtoint (strim (cString bytes)) = some pid ↔ Registration bytes pid := by
  rw [kstrtoint_eq_some_iff]
  constructor
  · rintro ⟨body, newline, split, ends, numeral⟩
    obtain rfl := not_lineEnd_of_strim split ends
    rw [List.append_nil] at split
    obtain ⟨trail, trimmed, spaces⟩ := exists_trail_of_strim (cString bytes)
    obtain ⟨rest, whole, zero⟩ := exists_rest_of_cString bytes
    refine ⟨body, trail, rest, ?_, numeral, spaces, zero⟩
    rw [← split, ← trimmed]
    exact whole
  · rintro ⟨body, trail, rest, rfl, numeral, spaces, zero⟩
    have noZero : 0 ∉ body ++ trail := by
      rw [List.mem_append, not_or]
      exact ⟨numeral.zero_notMem, fun member =>
        absurd (spaces 0 member) (by decide)⟩
    obtain ⟨before, digit, rfl, last⟩ := numeral.exists_last
    rw [cString_append_of_zero noZero zero, strim_append_of_isDigit last spaces]
    exact ⟨_, [], (List.append_nil _).symm, Or.inl rfl, numeral⟩

theorem reachedPid_eq_ok_iff {copyFromUser : Bool} :
    reachedPid copyFromUser bytes = .ok pid ↔
      (1 ≤ bytes.length ∧ bytes.length ≤ 15) ∧ copyFromUser = true ∧
        Registration bytes pid := by
  rw [← kstrtoint_strim_iff]
  unfold reachedPid
  by_cases length : bytes.length = 0 ∨ 16 ≤ bytes.length
  · rw [if_pos length]
    refine iff_of_false (by simp) fun accepted => ?_
    omega
  · rw [if_neg length, and_iff_right (by omega)]
    cases copyFromUser with
    | false => simp
    | true =>
        rw [if_pos rfl, and_iff_right rfl]
        cases kstrtoint (strim (cString bytes)) <;> simp

theorem reachedPid_error {copyFromUser : Bool} {code : Int}
    (failed : reachedPid copyFromUser bytes = .error code) :
    code = -22 ∨ code = -14 := by
  unfold reachedPid at failed
  split_ifs at failed with length copied
  · exact Or.inl (Except.error.inj failed).symm
  · split at failed
    · exact Or.inl (Except.error.inj failed).symm
    · simp at failed
  · exact Or.inr (Except.error.inj failed).symm

end Grammar

namespace Pool

variable {p : Pool} {held : List Nat} {node : Option Nat}

theorem myWrite_of_ok {copyFromUser : Bool} {bytes : List UInt8} {pid : Int32}
    (parsed : reachedPid copyFromUser bytes = .ok pid) :
    p.myWrite copyFromUser node bytes =
      (if (p.idregister node pid).1 ≠ 0 then (p.idregister node pid).1
        else bytes.length, (p.idregister node pid).2) := by
  rw [Pool.myWrite, parsed]

/-- A registration succeeds exactly if memory is left and the pid is new; if it
fails the pool is as before, up to the contents of free memory. -/
theorem Owns.idregister (owns : p.Owns held)
    (fresh : ∀ new ∈ node, new ∉ p.allocated) (pid : Int32) :
    (p.idregister node pid).2.Owns held ∧
      if node.isSome ∧ pid ∉ keys p.entries then
        (p.idregister node pid).1 = 0 ∧
          (p.idregister node pid).2.entries = p.entries ++ [(pid, 0)]
      else
        (p.idregister node pid).1 = (if node.isSome then -17 else -12) ∧
          (p.idregister node pid).2.entries = p.entries ∧
          (p.idregister node pid).2.allocated = p.allocated ∧
          (p.idregister node pid).2.mp1listhead = p.mp1listhead := by
  cases node with
  | none => simpa [Pool.idregister] using owns
  | some node =>
      obtain ⟨filled, same⟩ := owns.allocate (fresh node rfl) pid
      by_cases present : pid ∈ keys p.entries
      · have listed : (p.allocate node pid).listed pid = true := by
          rwa [← mem_keys_entries, same]
        rw [Pool.idregister, if_pos listed, if_neg fun new => new.2 present]
        have freed : (node :: p.allocated).erase node = p.allocated :=
          List.erase_cons_head _ _
        exact ⟨filled.free, rfl, same, freed, rfl⟩
      · have unlisted : (p.allocate node pid).listed pid = false := by
          rwa [← Bool.not_eq_true, ← mem_keys_entries, same]
        have contents : (p.allocate node pid).node node = ⟨pid, 0⟩ :=
          Function.update_self _ _ _
        obtain ⟨linked, entered⟩ := filled.insert contents unlisted
        rw [same, change, if_neg present] at entered
        rw [Pool.idregister, unlisted, if_neg Bool.false_ne_true,
          if_pos ⟨rfl, present⟩]
        exact ⟨linked, rfl, entered⟩

end Pool

namespace System

variable {s : System}

/-- A call of `idregister` that nothing interrupts is a run of the module. -/
theorem exists_run_idregister (alive : ¬s.stage.CacheGone) {node : Option Nat}
    (fresh : ∀ new ∈ node, new ∉ s.pool.allocated) (pid : Int32) :
    ∃ actions, run step s actions =
      some { s with pool := (s.pool.idregister node pid).2 } := by
  cases node with
  | none => exact ⟨[], rfl⟩
  | some node =>
      have kept : s.stage ≠ .removed := fun late => alive (Or.inr late)
      have first : s.step (.allocate node pid) = some { s with
          pool := s.pool.allocate node pid
          registering := (node, pid) :: s.registering } := by
        refine step_eq_some_iff.mpr ⟨⟨kept, fresh node rfl⟩, ?_⟩
        rw [System.apply, if_neg alive]
      have erased : ((node, pid) :: s.registering).erase (node, pid) =
          s.registering := List.erase_cons_head _ _
      by_cases listed : (s.pool.allocate node pid).listed pid = true
      · refine ⟨[.allocate node pid, .insert node pid, .free node], ?_⟩
        have freed : (node :: s.rejected).erase node = s.rejected :=
          List.erase_cons_head _ _
        rw [Pool.idregister, if_pos listed, run_cons_eq_some_iff]
        refine ⟨_, first, run_cons_eq_some_iff.mpr ⟨_, step_eq_some_iff.mpr
          ⟨List.mem_cons_self, rfl⟩, ?_⟩⟩
        rw [System.apply, if_pos listed, run_cons_eq_some_iff]
        refine ⟨_, step_eq_some_iff.mpr ⟨List.mem_cons_self, rfl⟩, ?_⟩
        rw [System.apply, if_neg alive, run_nil]
        simp only [erased, freed]
      · refine ⟨[.allocate node pid, .insert node pid], ?_⟩
        rw [Pool.idregister, if_neg listed, run_cons_eq_some_iff]
        refine ⟨_, first, run_cons_eq_some_iff.mpr ⟨_, step_eq_some_iff.mpr
          ⟨List.mem_cons_self, rfl⟩, ?_⟩⟩
        rw [System.apply, if_neg listed, run_nil]
        simp only [erased]

/-- A write that nothing interrupts, in any state that the module can reach
before its cache is destroyed.  It returns the number of bytes exactly if the
text is a registration of at most 15 bytes whose pid is new, and memory is left;
then the pid is entered at the end of the list.  Otherwise it returns an error
and the list and the cache are as before. -/
theorem write_outcome {actions : List Action}
    (reached : run step initial actions = some s) (alive : ¬s.stage.CacheGone)
    {node : Option Nat} (fresh : ∀ new ∈ node, new ∉ s.pool.allocated)
    {copyFromUser : Bool} {bytes : List UInt8} {result : Int} {pool : Pool}
    (written : s.pool.myWrite copyFromUser node bytes = (result, pool)) :
    (∃ later, run step s later = some { s with pool := pool }) ∧
      ((result = bytes.length ∧ (1 ≤ bytes.length ∧ bytes.length ≤ 15) ∧
          copyFromUser = true ∧ node.isSome ∧
          ∃ pid, Registration bytes pid ∧ pid ∉ keys s.pool.entries ∧
            pool.entries = s.pool.entries ++ [(pid, 0)]) ∨
        (result < 0 ∧
          (¬(1 ≤ bytes.length ∧ bytes.length ≤ 15) ∨ copyFromUser = false ∨
            node = none ∨
            ∀ pid, Registration bytes pid → pid ∈ keys s.pool.entries) ∧
          pool.entries = s.pool.entries ∧ pool.allocated = s.pool.allocated ∧
          pool.mp1listhead = s.pool.mp1listhead)) := by
  have sound := sound_of_run Sound.initial reached
  cases parsed : reachedPid copyFromUser bytes with
  | error code =>
      rw [Pool.myWrite, parsed] at written
      obtain ⟨rfl, rfl⟩ := Prod.mk.inj written
      refine ⟨⟨[], rfl⟩, Or.inr ⟨?_, ?_, rfl, rfl, rfl⟩⟩
      · obtain rfl | rfl := reachedPid_error parsed <;> decide
      · by_contra accepted
        push Not at accepted
        obtain ⟨length, copied, -, pid, registration, -⟩ := accepted
        have reads := reachedPid_eq_ok_iff.mpr
          ⟨length, Bool.ne_false_iff.mp copied, registration⟩
        rw [parsed] at reads
        simp at reads
  | ok pid =>
      obtain ⟨length, copied, registration⟩ := reachedPid_eq_ok_iff.mp parsed
      have outcome := (sound.owns.idregister fresh pid).2
      have running := exists_run_idregister alive fresh pid
      rw [Pool.myWrite_of_ok parsed] at written
      obtain ⟨rfl, rfl⟩ := Prod.mk.inj written
      refine ⟨running, ?_⟩
      by_cases accepted : node.isSome ∧ pid ∉ keys s.pool.entries
      · rw [if_pos accepted] at outcome
        left
        rw [if_neg (not_not.mpr outcome.1)]
        exact ⟨rfl, length, copied, accepted.1, pid, registration, accepted.2,
          outcome.2⟩
      · rw [if_neg accepted] at outcome
        obtain ⟨code, unchanged⟩ := outcome
        have negative : (s.pool.idregister node pid).1 < 0 := by
          rw [code]
          split_ifs <;> decide
        right
        rw [if_pos negative.ne]
        refine ⟨negative, ?_, unchanged⟩
        by_contra new
        push Not at new
        obtain ⟨-, -, memory, other, otherRegistration, absent⟩ := new
        have reads := reachedPid_eq_ok_iff.mpr
          ⟨length, copied, otherRegistration⟩
        rw [parsed] at reads
        obtain rfl := Except.ok.inj reads
        exact accepted ⟨Option.isSome_iff_ne_none.mpr memory, absent⟩

theorem write_outcome_sampledOnce :
    ∃ s later pool, run step initial sampledOnce = some s ∧
      s.pool.myWrite true (some 2) [55, 10] = (2, pool) ∧
        run step s later = some { s with pool := pool } := by
  have reached : ∃ s, run step initial sampledOnce = some s ∧
      s.stage = .flushed ∧ s.pool.allocated = [0] ∧
      (s.pool.myWrite true (some 2) [55, 10]).1 = 2 := ⟨_, rfl, by decide⟩
  obtain ⟨s, reached, stage, allocated, result⟩ := reached
  have alive : ¬s.stage.CacheGone := by
    rw [stage]
    decide
  have fresh : ∀ new ∈ some 2, new ∉ s.pool.allocated := by
    rw [allocated]
    decide
  have written : s.pool.myWrite true (some 2) [55, 10] =
      (2, (s.pool.myWrite true (some 2) [55, 10]).2) := Prod.ext result rfl
  obtain ⟨later, ran⟩ := (write_outcome reached alive fresh written).1
  exact ⟨s, later, _, reached, written, ran⟩

end System

end LinuxKernelDev.CpuTracker
