import LinuxKernelDev.RingBuffer
import LinuxKernelDev.TransitionRuns
import Mathlib.Data.List.Basic

/-!
# The sample buffer of the profiler

`workhandler` of `mp3.c` writes samples of four words into the first 48000
words of a shared buffer, and `monitor.c` drains them.  Writer and reader share
no index: the monitor looks for the first word that is not -1.  A drain
therefore returns the unread samples exactly as long as they do not wrap
around the end of the ring.
-/

namespace LinuxKernelDev.SampleBuffer

open RingBuffer Transition Function

/-- The 65536 words of the mapped buffer. -/
abbrev Buffer := Nat → UInt64

/-- The buffer after `allocatebuffer`. -/
def blank : Buffer := fun _ => -1

/-- Reads a word inside the buffer. -/
def load (buf : Buffer) (index : Nat) : Option UInt64 :=
  if index < 65536 then some (buf index) else none

/-- Writes a word inside the buffer. -/
def store (buf : Buffer) (index : Nat) (value : UInt64) : Option Buffer :=
  if index < 65536 then some (update buf index value) else none

/-- One sample of `workhandler`. -/
structure Sample where
  timesum : UInt64
  minfault : UInt64
  majfault : UInt64
  cpu : UInt64
  deriving DecidableEq, Repr

/-- A line that the monitor prints, as values of type `long`. -/
structure Line where
  first : Int64
  second : Int64
  third : Int64
  fourth : Int64
  deriving DecidableEq, Repr

namespace Sample

/-- The words of a sample, in the order they are written. -/
def words (sample : Sample) : List UInt64 :=
  [sample.timesum, sample.minfault, sample.majfault, sample.cpu]

/-- The words of a sample, as the monitor prints them. -/
def line (sample : Sample) : Line :=
  ⟨sample.timesum.toInt64, sample.minfault.toInt64, sample.majfault.toInt64,
    sample.cpu.toInt64⟩

/-- No word of the sample is all ones. -/
def Proper (sample : Sample) : Prop := ∀ word ∈ sample.words, word ≠ -1

instance (sample : Sample) : Decidable sample.Proper :=
  List.decidableBAll (fun word => word ≠ -1) sample.words

end Sample

/-- `gbuffer[indx++] = value; indx %= 48000`. -/
def put (ring : Buffer × Nat) (value : UInt64) : Option (Buffer × Nat) := do
  let gbuffer ← store ring.1 ring.2 value
  some (gbuffer, (ring.2 + 1) % 48000)

/-- How `workhandler` writes a sample. -/
def workhandler (gbuffer : Buffer) (indx : Nat) (sample : Sample) :
    Option (Buffer × Nat) := do
  let ring ← put (gbuffer, indx) sample.timesum
  let ring ← put ring sample.minfault
  let ring ← put ring sample.majfault
  put ring sample.cpu

/-- Prints the word at `index`, clears it and steps to the next word. -/
def take (buf : Buffer) (index : Nat) : Option (Int64 × Buffer × Nat) := do
  let value ← load buf index
  let buf ← store buf index (-1)
  some (value.toInt64, buf, if index + 1 ≥ 48000 then 0 else index + 1)

/-- The first loop of the monitor. -/
def scan (buf : Buffer) (index : Nat) : Option Nat :=
  if index < 48000 then do
    let value ← load buf index
    if value ≠ -1 then some index else scan buf (index + 1)
  else
    some index
termination_by 48000 - index

/-- What the monitor prints and leaves in the buffer; `i` is the number in its
last line of output. -/
structure Report where
  lines : List Line
  i : Nat
  buf : Buffer

/-- The second loop of the monitor. -/
def drain : Nat → Buffer → Nat → Nat → List Line → Option Report
  | 0, _, _, _, _ => none
  | fuel + 1, buf, index, i, printed => do
      let value ← load buf index
      if value ≠ -1 then
        let (first, buf, index) ← take buf index
        let (second, buf, index) ← take buf index
        let (third, buf, index) ← take buf index
        let (fourth, buf, index) ← take buf index
        drain fuel buf index (i + 1)
          (printed ++ [⟨first, second, third, fourth⟩])
      else
        some ⟨printed, i, buf⟩

/-- The loops of `main` of the monitor.  Every turn of the second loop clears a
word, so that the number of words bounds its turns. -/
def main (buf : Buffer) : Option Report := do
  let index ← scan buf 0
  drain 65537 buf index 0 []

/-- The buffer, the index of the writer, and the samples written since the
last drain. -/
structure State where
  gbuffer : Buffer
  indx : Nat
  unread : List Sample

inductive Action where
  | sample (sample : Sample)
  | drain
  deriving DecidableEq

/-- The state after `allocatebuffer`. -/
def State.initial : State := ⟨blank, 0, []⟩

/-- One sample or one complete drain. -/
def State.step (s : State) : Action → Option State
  | .sample sample =>
      if sample.Proper ∧ s.unread.length < 12000 then do
        let (gbuffer, indx) ← workhandler s.gbuffer s.indx sample
        some ⟨gbuffer, indx, s.unread ++ [sample]⟩
      else
        none
  | .drain => do
      let report ← main s.gbuffer
      some { s with gbuffer := report.buf, unread := [] }

/-- The unread samples do not wrap around the end of the ring. -/
def Unwrapped (s : State) : Action → Prop
  | .sample _ => True
  | .drain => 0 < s.indx → 4 * s.unread.length ≤ s.indx

instance (s : State) (action : Action) : Decidable (Unwrapped s action) :=
  match action with
  | .sample _ => inferInstanceAs (Decidable True)
  | .drain => inferInstanceAs (Decidable (_ → _))

section Words

variable {start : Nat} {items : List UInt64} {memory : Buffer}

theorem put_eq (within : start < 48000) (space : items.length < 48000)
    (value : UInt64) :
    put (holding 48000 start items memory,
        position 48000 start items.length) value =
      some (holding 48000 start (items ++ [value]) memory,
        position 48000 start (items ++ [value]).length) := by
  have inside : position 48000 start items.length < 65536 :=
    Nat.lt_trans (position_lt within (Nat.le_of_lt space)) (by decide)
  have next : (position 48000 start items.length + 1) % 48000 =
      position 48000 start (items ++ [value]).length := by
    simp only [position, List.length_append, List.length_singleton]
    split_ifs <;> omega
  simp [put, store, inside, update_append within space, next]

/-- A sample goes behind the words written before it. -/
theorem workhandler_eq (within : start < 48000)
    (space : items.length + 4 ≤ 48000) (sample : Sample) :
    workhandler (holding 48000 start items memory)
        (position 48000 start items.length) sample =
      some (holding 48000 start (items ++ sample.words) memory,
        position 48000 start (items ++ sample.words).length) := by
  simp only [workhandler, Option.bind_eq_bind]
  rw [put_eq within (by omega), Option.bind_some,
    put_eq within (by simp; omega), Option.bind_some,
    put_eq within (by simp; omega), Option.bind_some,
    put_eq within (by simp; omega)]
  simp [Sample.words]

/-- The monitor takes the word behind those it has read. -/
theorem take_eq (within : start < 48000) {done : List UInt64} {word : UInt64}
    (fits : (done ++ word :: items).length ≤ 48000) :
    take (holding 48000 start (done ++ word :: items) memory)
        (position 48000 start done.length) =
      some (word.toInt64,
        holding 48000 start ((done ++ [-1]) ++ items) memory,
        position 48000 start (done ++ [-1]).length) := by
  have bound : done.length < 48000 := by
    simp only [List.length_append, List.length_cons] at fits
    omega
  have inside : position 48000 start done.length < 65536 :=
    Nat.lt_trans (position_lt within (Nat.le_of_lt bound)) (by decide)
  have next : (if position 48000 start done.length + 1 ≥ 48000 then 0
        else position 48000 start done.length + 1) =
      position 48000 start (done ++ [(-1 : UInt64)]).length := by
    simp only [position, List.length_append, List.length_singleton]
    split_ifs <;> omega
  simp only [take, load, store, inside, if_true, Option.bind_eq_bind,
    Option.bind_some, next, holding_position within bound,
    update_replace within fits]
  simp

/-- The scan stops at the first word that is not -1, or behind the ring. -/
theorem scan_eq {buf : Buffer} {index found : Nat} (ahead : index ≤ found)
    (bound : found ≤ 48000)
    (before : ∀ j, index ≤ j → j < found → buf j = -1)
    (here : found < 48000 → buf found ≠ -1) :
    scan buf index = some found := by
  fun_induction scan buf index with
  | case1 index below ih =>
      have inside : index < 65536 := by omega
      simp only [load, inside, if_true, Option.bind_eq_bind, Option.bind_some]
      by_cases last : index = found
      · subst last
        rw [if_pos (here below)]
      · have blankHere := before index (Nat.le_refl index) (by omega)
        rw [if_neg (not_not_intro blankHere)]
        exact ih (by omega) fun j _ => before j (by omega)
  | case2 index above =>
      rw [Nat.le_antisymm ahead (by omega)]

end Words

theorem length_flatMap_words (samples : List Sample) :
    (samples.flatMap Sample.words).length = 4 * samples.length := by
  induction samples with
  | nil => rfl
  | cons sample samples ih =>
      simp only [List.flatMap_cons, List.length_append, ih, List.length_cons]
      simp only [Sample.words, List.length_cons, List.length_nil]
      omega

/-- One turn of the second loop prints a sample and clears its words. -/
theorem drain_succ {start : Nat} (within : start < 48000) (memory : Buffer)
    {sample : Sample} (proper : sample.Proper) {done items : List UInt64}
    (fits : done.length + items.length + 4 ≤ 48000) (fuel i : Nat)
    (printed : List Line) :
    drain (fuel + 1)
        (holding 48000 start (done ++ (sample.words ++ items)) memory)
        (position 48000 start done.length) i printed =
      drain fuel
        (holding 48000 start ((done ++ List.replicate 4 (-1)) ++ items) memory)
        (position 48000 start (done ++ List.replicate 4 (-1)).length)
        (i + 1) (printed ++ [sample.line]) := by
  have inside : position 48000 start done.length < 65536 :=
    Nat.lt_trans (position_lt within (by omega)) (by decide)
  have occupied : sample.timesum ≠ -1 := proper _ (by simp [Sample.words])
  have cleared : done ++ List.replicate 4 (-1) =
      (((done ++ [-1]) ++ [-1]) ++ [-1]) ++ [-1] := by
    simp [List.replicate]
  have first : holding 48000 start (done ++ sample.timesum ::
      sample.minfault :: sample.majfault :: sample.cpu :: items) memory
        (position 48000 start done.length) = sample.timesum := by
    rw [holding_position within (by omega)]
    simp
  rw [drain, cleared]
  simp only [Sample.words, List.cons_append, List.nil_append, load, inside,
    if_true, Option.bind_eq_bind, Option.bind_some, first, ne_eq, occupied,
    not_false_eq_true]
  rw [take_eq within (by simp; omega), Option.bind_some,
    take_eq within (by simp; omega), Option.bind_some,
    take_eq within (by simp; omega), Option.bind_some,
    take_eq within (by simp; omega), Option.bind_some]
  rfl

/-- The second loop prints the samples behind the words it has read, up to a
word that is -1. -/
theorem drain_eq {start : Nat} (within : start < 48000) (memory : Buffer)
    {samples : List Sample} (proper : ∀ sample ∈ samples, sample.Proper)
    (done : List UInt64) (fits : done.length + 4 * samples.length ≤ 48000)
    (ended : holding 48000 start
        (done ++ List.replicate (4 * samples.length) (-1)) memory
        (position 48000 start (done.length + 4 * samples.length)) = -1)
    {fuel : Nat} (enough : samples.length < fuel) (i : Nat)
    (printed : List Line) :
    drain fuel
        (holding 48000 start (done ++ samples.flatMap Sample.words) memory)
        (position 48000 start done.length) i printed =
      some ⟨printed ++ samples.map Sample.line, i + samples.length,
        holding 48000 start
          (done ++ List.replicate (4 * samples.length) (-1)) memory⟩ := by
  induction samples generalizing done fuel i printed with
  | nil =>
      obtain ⟨fuel, rfl⟩ := Nat.exists_eq_add_one.mpr enough
      have inside : position 48000 start done.length < 65536 :=
        Nat.lt_trans (position_lt within fits) (by decide)
      simp only [List.length_nil, Nat.mul_zero, List.replicate_zero,
        List.append_nil, Nat.add_zero] at ended
      simp [drain, load, inside, ended]
  | cons sample samples ih =>
      obtain ⟨fuel, rfl⟩ := Nat.exists_eq_add_one.mpr
        (Nat.zero_lt_of_lt enough)
      have cleared : done ++ List.replicate (4 * (samples.length + 1)) (-1) =
          (done ++ List.replicate 4 (-1)) ++
            List.replicate (4 * samples.length) (-1) := by
        rw [List.append_assoc, List.replicate_append_replicate, Nat.mul_add,
          Nat.add_comm]
      simp only [List.length_cons] at fits enough ended ⊢
      rw [List.flatMap_cons, drain_succ within memory (proper _ (by simp))
        (by rw [length_flatMap_words]; omega), cleared]
      rw [cleared] at ended
      rw [ih (fun _ member => proper _ (List.mem_cons_of_mem _ member)) _
        (by simp; omega) ?_ (by omega)]
      · simp [Nat.add_comm, Nat.add_left_comm]
      · have final : (done ++ List.replicate 4 (-1 : UInt64)).length +
            4 * samples.length = done.length + 4 * (samples.length + 1) := by
          simp
          omega
        rw [final]
        exact ended

/-- The state whose unread samples start at the word `start`. -/
def State.unreadFrom (start : Nat) (unread : List Sample) : State :=
  ⟨holding 48000 start (unread.flatMap Sample.words) blank,
    position 48000 start (4 * unread.length), unread⟩

theorem initial_eq : State.initial = State.unreadFrom 0 [] := by
  simp [State.initial, State.unreadFrom, holding_nil, position]

theorem holding_words_ne {start : Nat} (within : start < 48000)
    (memory : Buffer) {samples : List Sample} (nonempty : samples ≠ [])
    (proper : ∀ sample ∈ samples, sample.Proper) :
    holding 48000 start (samples.flatMap Sample.words) memory start ≠ -1 := by
  obtain ⟨sample, rest, rfl⟩ := List.exists_cons_of_ne_nil nonempty
  have first : holding 48000 start ((sample :: rest).flatMap Sample.words)
      memory start = sample.timesum := by
    simp [holding, distance, within, Sample.words]
  rw [first]
  exact proper sample List.mem_cons_self _ List.mem_cons_self

section UnreadFrom

variable {start : Nat} {unread : List Sample}

theorem step_sample (within : start < 48000) (space : unread.length < 12000)
    {sample : Sample} (proper : sample.Proper) :
    (State.unreadFrom start unread).step (.sample sample) =
      some (State.unreadFrom start (unread ++ [sample])) := by
  have room : (unread.flatMap Sample.words).length + 4 ≤ 48000 := by
    rw [length_flatMap_words]
    omega
  have appended : unread.flatMap Sample.words ++ sample.words =
      (unread ++ [sample]).flatMap Sample.words := by
    simp
  have written : workhandler (State.unreadFrom start unread).gbuffer
      (State.unreadFrom start unread).indx sample =
        some ((State.unreadFrom start (unread ++ [sample])).gbuffer,
          (State.unreadFrom start (unread ++ [sample])).indx) := by
    simp only [State.unreadFrom, ← length_flatMap_words, ← appended]
    exact workhandler_eq within room sample
  rw [State.step, if_pos ⟨proper, space⟩, written]
  rfl

/-- What the monitor returns once the scan has found the first of some
samples. -/
theorem main_of_scan (within : start < 48000) {memory : Buffer}
    {samples : List Sample} (proper : ∀ sample ∈ samples, sample.Proper)
    (fits : 4 * samples.length ≤ 48000)
    (scanned : scan (holding 48000 start (samples.flatMap Sample.words)
      memory) 0 = some start)
    (ended : holding 48000 start
      (List.replicate (4 * samples.length) (-1)) memory
      (position 48000 start (4 * samples.length)) = -1) :
    main (holding 48000 start (samples.flatMap Sample.words) memory) =
      some ⟨samples.map Sample.line, samples.length,
        holding 48000 start
          (List.replicate (4 * samples.length) (-1)) memory⟩ := by
  have drained := drain_eq within memory proper [] (by simpa using fits)
    (by simpa using ended) (by omega : samples.length < 65537) 0 []
  have atStart : position 48000 start 0 = start := if_pos within
  simp only [List.nil_append, List.length_nil, atStart, Nat.zero_add]
    at drained
  rw [main, scanned]
  exact drained

/-- A drain returns the unread samples if they do not wrap. -/
theorem main_unwrapped (within : start < 48000)
    (bound : start + 4 * unread.length ≤ 48000)
    (proper : ∀ sample ∈ unread, sample.Proper) :
    main (State.unreadFrom start unread).gbuffer =
      some ⟨unread.map Sample.line, unread.length, blank⟩ := by
  by_cases none : unread = []
  · have empty : (State.unreadFrom start unread).gbuffer = blank := by
      rw [none]
      exact holding_nil blank
    have scanned : scan blank 0 = some 48000 :=
      scan_eq (Nat.zero_le _) (Nat.le_refl _) (fun _ _ _ => rfl)
        fun impossible => absurd impossible (Nat.lt_irrefl _)
    rw [empty, none, main, scanned]
    change drain (65536 + 1) blank 48000 0 [] = _
    rw [drain]
    rfl
  · have cleared : holding 48000 start
        (List.replicate (4 * unread.length) (-1)) blank = blank :=
      holding_replicate _ _
    have returned := main_of_scan within proper (by omega)
      (scan_eq (Nat.zero_le _) (Nat.le_of_lt within) (fun j _ before => ?_)
        fun _ => holding_words_ne within blank none proper)
      (by rw [cleared]; rfl)
    · rw [cleared] at returned
      exact returned
    · refine holding_of_length_le ?_ blank
      rw [length_flatMap_words, distance, if_neg (by omega)]
      omega

/-- A drain returns only the samples past the end of the ring if the unread
samples wrap. -/
theorem main_wrapped {old new : List Sample} (within : start < 48000)
    (bound : start + 4 * old.length = 48000) (nonempty : new ≠ [])
    (space : 4 * old.length + 4 * new.length < 48000)
    (proper : ∀ sample ∈ new, sample.Proper) :
    ∃ buf, main (State.unreadFrom start (old ++ new)).gbuffer =
      some ⟨new.map Sample.line, new.length, buf⟩ := by
  have wraps : position 48000 start (old.flatMap Sample.words).length = 0 := by
    rw [length_flatMap_words, position, if_neg (by omega)]
    omega
  have split : (State.unreadFrom start (old ++ new)).gbuffer =
      holding 48000 0 (new.flatMap Sample.words)
        (holding 48000 start (old.flatMap Sample.words) blank) := by
    simp only [State.unreadFrom, List.flatMap_append]
    rw [holding_append within, wraps]
    simp only [length_flatMap_words]
    omega
  rw [split]
  refine ⟨_, main_of_scan (by decide) proper (by omega)
    (scan_eq (Nat.le_refl _) (by decide) (fun j _ before => ?_)
      fun _ => holding_words_ne (by decide) _ nonempty proper) ?_⟩
  · exact absurd before (Nat.not_lt_zero j)
  · have behind : 4 * new.length < 48000 := by omega
    rw [holding_position (by decide) behind, List.getElem?_eq_none (by simp),
      Option.getD_none, position, if_pos (by omega), holding_of_length_le]
    · rfl
    · rw [length_flatMap_words, distance, if_neg (by omega)]
      omega

theorem run_samples (within : start < 48000) {samples : List Sample}
    (space : unread.length + samples.length ≤ 12000)
    (proper : ∀ sample ∈ samples, sample.Proper) :
    run State.step (State.unreadFrom start unread) (samples.map .sample) =
      some (State.unreadFrom start (unread ++ samples)) := by
  induction samples generalizing unread with
  | nil => simp
  | cons sample samples ih =>
      simp only [List.length_cons] at space
      rw [List.map_cons, run,
        step_sample within (by omega) (proper sample List.mem_cons_self),
        Option.bind_some, ih (by simp; omega) fun _ member =>
          proper _ (List.mem_cons_of_mem _ member)]
      simp

theorem step_drain (within : start < 48000)
    (bound : start + 4 * unread.length ≤ 48000)
    (proper : ∀ sample ∈ unread, sample.Proper) :
    (State.unreadFrom start unread).step .drain =
      some (State.unreadFrom (position 48000 start (4 * unread.length))
        []) := by
  have next : position 48000 (position 48000 start (4 * unread.length)) 0 =
      position 48000 start (4 * unread.length) :=
    if_pos (position_lt within (by omega))
  rw [State.step, main_unwrapped within bound proper]
  simp [State.unreadFrom, holding_nil, next]

end UnreadFrom

/-- The unread samples, and nothing else, stand in the ring behind each
other. -/
structure Laid (s : State) : Prop where
  layout : ∃ start, start < 48000 ∧ s = State.unreadFrom start s.unread
  bound : s.unread.length ≤ 12000
  proper : ∀ sample ∈ s.unread, sample.Proper

namespace Laid

variable {s next : State}

theorem initial : Laid State.initial where
  layout := ⟨0, by decide, initial_eq⟩
  bound := by simp [State.initial]
  proper := by simp [State.initial]

/-- Samples that do not wrap end at or before the end of the ring. -/
theorem exists_start (laid : Laid s) (unwrapped : Unwrapped s .drain) :
    ∃ start, start < 48000 ∧ s = State.unreadFrom start s.unread ∧
      start + 4 * s.unread.length ≤ 48000 := by
  obtain ⟨start, within, layout⟩ := laid.layout
  refine ⟨start, within, layout, ?_⟩
  have indxEq : s.indx = position 48000 start (4 * s.unread.length) :=
    congrArg State.indx layout
  have bound := laid.bound
  simp only [Unwrapped, indxEq, position] at unwrapped
  split_ifs at unwrapped <;> omega

theorem main_eq (laid : Laid s) (unwrapped : Unwrapped s .drain) :
    main s.gbuffer =
      some ⟨s.unread.map Sample.line, s.unread.length, blank⟩ := by
  obtain ⟨start, within, layout, bound⟩ := laid.exists_start unwrapped
  rw [congrArg State.gbuffer layout]
  exact main_unwrapped within bound laid.proper

theorem step (laid : Laid s) {action : Action}
    (unwrapped : Unwrapped s action) (taken : s.step action = some next) :
    Laid next := by
  cases action with
  | sample sample =>
      obtain ⟨start, within, layout⟩ := laid.layout
      have enabled : sample.Proper ∧ s.unread.length < 12000 := by
        by_contra disabled
        simp [State.step, if_neg disabled] at taken
      rw [layout, step_sample within enabled.2 enabled.1] at taken
      obtain rfl := Option.some.inj taken
      refine ⟨⟨start, within, rfl⟩, ?_, ?_⟩
      · simp only [State.unreadFrom, List.length_append, List.length_singleton]
        omega
      · simpa [State.unreadFrom, or_imp, forall_and] using
          ⟨laid.proper, enabled.1⟩
  | drain =>
      obtain ⟨start, within, layout, bound⟩ := laid.exists_start unwrapped
      rw [layout, step_drain within bound laid.proper] at taken
      obtain rfl := Option.some.inj taken
      exact ⟨⟨_, position_lt within (by omega), rfl⟩, Nat.zero_le _, nofun⟩

end Laid

/-- If no drain finds unread samples that wrap around the end of the ring,
every drain returns the samples written since the drain before it and leaves
the ring empty. -/
theorem drained_of_unwrapped (actions : List Action) (s : State)
    (unwrapped : Permits State.step Unwrapped State.initial actions)
    (reached : run State.step State.initial actions = some s)
    (last : Unwrapped s .drain) :
    ∃ report, main s.gbuffer = some report ∧
      report.lines = s.unread.map Sample.line ∧
      ∀ index < 48000, report.buf index = -1 := by
  have laid : Laid s := invariant_of_permits Laid
    (fun _ _ _ laid unwrapped taken => laid.step unwrapped taken)
    Laid.initial unwrapped reached
  exact ⟨_, laid.main_eq last, rfl, fun _ _ => rfl⟩

theorem drained_two_samples :
    ∃ s report, run State.step State.initial
        [.sample ⟨1, 2, 3, 4⟩, .sample ⟨5, 6, 7, 8⟩] = some s ∧
      main s.gbuffer = some report ∧
      report.lines = [⟨1, 2, 3, 4⟩, ⟨5, 6, 7, 8⟩] := by
  obtain ⟨report, returned, lines, -⟩ := drained_of_unwrapped
    [.sample ⟨1, 2, 3, 4⟩, .sample ⟨5, 6, 7, 8⟩] _ (by decide) rfl (by decide)
  exact ⟨_, report, rfl, returned, lines⟩

/-- Filling part of the ring and draining it moves the writer. -/
theorem run_fill_drain {n : Nat} (bound : n ≤ 12000) {sample : Sample}
    (proper : sample.Proper) {rest : List Sample}
    (space : rest.length ≤ 12000)
    (restProper : ∀ sample ∈ rest, sample.Proper) :
    run State.step State.initial
        (List.replicate n (.sample sample) ++ .drain :: rest.map .sample) =
      some (State.unreadFrom (position 48000 0 (4 * n)) rest) := by
  have all : ∀ other ∈ List.replicate n sample, other.Proper :=
    fun _ member => List.eq_of_mem_replicate member ▸ proper
  have filled : run State.step State.initial
      (List.replicate n (.sample sample)) =
        some (State.unreadFrom 0 (List.replicate n sample)) := by
    rw [initial_eq, ← List.map_replicate]
    exact run_samples (by decide) (by simpa using bound) all
  rw [run_append, filled, Option.bind_some, run,
    step_drain (by decide) (by simp; omega) all, Option.bind_some,
    List.length_replicate]
  exact run_samples (position_lt (by decide) (by omega))
    (by simpa using space) restProper

/-- Of two samples written across the end of the ring, a drain returns only
the second. -/
theorem drained_across_end :
    ∃ s report, run State.step State.initial
        (List.replicate 11999 (.sample ⟨0, 0, 0, 0⟩) ++
          [.drain, .sample ⟨1, 1, 1, 1⟩, .sample ⟨2, 2, 2, 2⟩]) = some s ∧
      s.unread = [⟨1, 1, 1, 1⟩, ⟨2, 2, 2, 2⟩] ∧
      main s.gbuffer = some report ∧ report.lines = [⟨2, 2, 2, 2⟩] := by
  have reached := run_fill_drain (by decide : 11999 ≤ 12000)
    (by decide : (⟨0, 0, 0, 0⟩ : Sample).Proper)
    (by decide : [(⟨1, 1, 1, 1⟩ : Sample), ⟨2, 2, 2, 2⟩].length ≤ 12000)
    (by decide)
  obtain ⟨buf, returned⟩ := main_wrapped
    (by decide : position 48000 0 (4 * 11999) < 48000)
    (by decide : _ + 4 * [(⟨1, 1, 1, 1⟩ : Sample)].length = 48000)
    (by decide : [(⟨2, 2, 2, 2⟩ : Sample)] ≠ []) (by decide) (by decide)
  exact ⟨_, _, reached, rfl, returned, rfl⟩

end LinuxKernelDev.SampleBuffer
