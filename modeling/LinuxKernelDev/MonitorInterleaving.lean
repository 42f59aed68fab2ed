import LinuxKernelDev.GhostRuns
import LinuxKernelDev.MonitorTermination

/-!
# The monitor beside a running profiler

`workhandler` stores words into the ring while the monitor looks for them,
prints them and clears them, and nothing orders the two.  Here every load and
every store of either side is a step of its own, and the steps come in any
order.  A word that was stored is printed once, waits in the ring, or is lost,
either to a later store into its cell or to the monitor, which clears a cell
after it has printed an earlier content of it.  A stored `-1` looks like a cell
that has been cleared, and is not counted as a word.
-/

namespace LinuxKernelDev.SampleBuffer.Interleaving

open Transition RingBuffer Function

/-- Where the monitor is: in its first loop, at the condition of the second
one, before the `printf` of a word with some more to come in this turn, or
between this `printf` and the store that clears the word.  `intact` says that
the cell has not been written since it was printed. -/
inductive Reader where
  | stopped
  | scanning (index : Nat)
  | testing (index : Nat)
  | printing (index more : Nat)
  | clearing (index more : Nat) (intact : Bool)
  deriving DecidableEq

/-- The shared buffer, the index of the writer, the monitor, and the words
that it has printed. -/
structure System where
  gbuffer : Buffer
  indx : Nat
  reader : Reader
  printed : List UInt64

/-- The next store of `workhandler`, the start of a monitor, and the next
access of the monitor. -/
inductive Action where
  | store (value : UInt64)
  | start
  | advance
  deriving DecidableEq

namespace Reader

/-- The cell that was printed and is still as it was printed. -/
def Copied (reader : Reader) (cell : Nat) : Prop :=
  match reader with
  | clearing index _ intact => intact = true ∧ index = cell
  | _ => False

instance (reader : Reader) (cell : Nat) : Decidable (reader.Copied cell) :=
  match reader with
  | clearing _ _ _ => inferInstanceAs (Decidable (_ ∧ _))
  | stopped | scanning _ | testing _ | printing _ _ =>
      inferInstanceAs (Decidable False)

/-- A cell has been written. -/
def touch (reader : Reader) (cell : Nat) : Reader :=
  match reader with
  | clearing index more intact =>
      clearing index more (intact && decide (index ≠ cell))
  | other => other

/-- The monitor at a word, with the number of words after the last one that this
turn of its loop has to print. -/
def next (index : Nat) : Nat → Reader
  | 0 => testing index
  | more + 1 => printing index more

end Reader

namespace System

def initial : System := ⟨blank, 0, .stopped, []⟩

/-- The index after `index`: `if(index >= BUFD_MAX) index = 0`. -/
def after (index : Nat) : Nat := if index + 1 ≥ 48000 then 0 else index + 1

/-- The next access of the monitor. -/
def advance (s : System) : System :=
  match s.reader with
  | .stopped => s
  | .scanning index =>
      if index < 48000 then
        if s.gbuffer index ≠ -1 then { s with reader := .testing index }
        else { s with reader := .scanning (index + 1) }
      else
        { s with reader := .testing index }
  | .testing index =>
      if s.gbuffer index ≠ -1 then { s with reader := .printing index 3 }
      else { s with reader := .stopped }
  | .printing index more =>
      { s with
        reader := .clearing index more true
        printed := s.printed ++ [s.gbuffer index] }
  | .clearing index more _ =>
      { s with
        gbuffer := update s.gbuffer index (-1)
        reader := .next (after index) more }

/-- `gbuffer[indx++] = value; indx %= 48000`. -/
def store (s : System) (value : UInt64) : System :=
  { s with
    gbuffer := update s.gbuffer s.indx value
    indx := (s.indx + 1) % 48000
    reader := s.reader.touch s.indx }

def Enabled (s : System) : Action → Prop
  | .store _ => True
  | .start => s.reader = .stopped
  | .advance => s.reader ≠ .stopped

instance (s : System) (action : Action) : Decidable (s.Enabled action) :=
  match action with
  | .store _ => inferInstanceAs (Decidable True)
  | .start => inferInstanceAs (Decidable (_ = _))
  | .advance => inferInstanceAs (Decidable (_ ≠ _))

def apply (s : System) : Action → System
  | .store value => s.store value
  | .start => { s with reader := .scanning 0 }
  | .advance => s.advance

def step (s : System) (action : Action) : Option System :=
  if s.Enabled action then some (s.apply action) else none

theorem step_eq_some_iff {s next : System} {action : Action} :
    s.step action = some next ↔ s.Enabled action ∧ s.apply action = next := by
  unfold step
  split_ifs with enabled <;> simp [enabled]

/-- A word waits in a cell: it is there, and it has not been printed. -/
def Waits (s : System) (word : UInt64) (cell : Nat) : Prop :=
  s.gbuffer cell = word ∧ ¬s.reader.Copied cell

instance (s : System) (word : UInt64) (cell : Nat) :
    Decidable (s.Waits word cell) :=
  inferInstanceAs (Decidable (_ ∧ _))

/-- How often a word waits in the ring. -/
def waiting (s : System) (word : UInt64) : Nat :=
  occupied 48000 fun cell => decide (s.Waits word cell)

/-- The words that an action destroys before they are printed. -/
def destroys (s : System) : Action → List UInt64
  | .store _ =>
      if s.gbuffer s.indx ≠ -1 ∧ ¬s.reader.Copied s.indx then
        [s.gbuffer s.indx]
      else
        []
  | .start => []
  | .advance =>
      match s.reader with
      | .clearing index _ false =>
          if s.gbuffer index ≠ -1 then [s.gbuffer index] else []
      | _ => []

/-- A run with the words that were lost in it. -/
def recorded : System × List UInt64 → Action → Option (System × List UInt64) :=
  ghostStep step fun s action lost => lost ++ s.destroys action

end System

/-- The words that an action stores. -/
def Action.stored : Action → List UInt64
  | .store value => [value]
  | .start => []
  | .advance => []

/-- The monitor stays in the ring, or looks at the cell behind it, which is
never written. -/
def Reader.Inside : Reader → Prop
  | .stopped => True
  | .scanning index => index ≤ 48000
  | .testing index => index ≤ 48000
  | .printing index _ => index < 48000
  | .clearing index _ _ => index < 48000

namespace System

structure InRing (s : System) : Prop where
  indx : s.indx < 48000
  behind : ∀ cell, 48000 ≤ cell → s.gbuffer cell = -1
  reader : s.reader.Inside

section Steps

variable {s next : System} {word : UInt64}

theorem InRing.initial : InRing System.initial :=
  ⟨by decide, fun _ _ => rfl, trivial⟩

theorem after_lt (index : Nat) : after index < 48000 := by
  unfold after
  split_ifs <;> omega

/-- A store keeps the monitor where it is. -/
theorem inside_touch {reader : Reader} (inside : reader.Inside) (cell : Nat) :
    (reader.touch cell).Inside := by
  cases reader <;> exact inside

theorem inRing_of_step {action : Action} (ring : s.InRing)
    (taken : s.step action = some next) : next.InRing := by
  obtain ⟨-, rfl⟩ := step_eq_some_iff.mp taken
  have inside := ring.reader
  cases action with
  | store value =>
      refine ⟨Nat.mod_lt _ (by decide), fun cell behind => ?_,
        inside_touch inside s.indx⟩
      have other : cell ≠ s.indx := by
        have := ring.indx
        omega
      exact (update_of_ne other _ _).trans (ring.behind cell behind)
  | start => exact ⟨ring.indx, ring.behind, Nat.zero_le _⟩
  | advance =>
      unfold apply advance
      cases reader : s.reader with
      | stopped => exact ring
      | scanning index =>
          rw [reader] at inside
          dsimp only
          split_ifs with before found
          · exact ⟨ring.indx, ring.behind, inside⟩
          · exact ⟨ring.indx, ring.behind, before⟩
          · exact ⟨ring.indx, ring.behind, inside⟩
      | testing index =>
          dsimp only
          split_ifs with found
          · refine ⟨ring.indx, ring.behind, ?_⟩
            by_contra behind
            exact found (ring.behind index (Nat.le_of_not_lt behind))
          · exact ⟨ring.indx, ring.behind, trivial⟩
      | printing index more =>
          rw [reader] at inside
          exact ⟨ring.indx, ring.behind, inside⟩
      | clearing index more intact =>
          refine ⟨ring.indx, fun cell behind => ?_, ?_⟩
          · by_cases here : cell = index
            · rw [here]
              exact update_self ..
            · exact (update_of_ne here _ _).trans (ring.behind cell behind)
          · cases more with
            | zero => exact Nat.le_of_lt (after_lt index)
            | succ more => exact after_lt index

theorem waiting_congr
    (same : ∀ cell, next.Waits word cell ↔ s.Waits word cell) :
    next.waiting word = s.waiting word :=
  occupied_congr fun cell => decide_eq_decide.mpr (same cell)

theorem waiting_of_agree {cell : Nat} (inRing : cell < 48000)
    (agree : ∀ other, other ≠ cell →
      (next.Waits word other ↔ s.Waits word other)) :
    next.waiting word + (if s.Waits word cell then 1 else 0) =
      s.waiting word + if next.Waits word cell then 1 else 0 := by
  have count := @occupied_of_agree 48000
    (fun cell => decide (next.Waits word cell))
    (fun cell => decide (s.Waits word cell)) cell inRing
    fun other different => decide_eq_decide.mpr (agree other different)
  unfold waiting
  simpa only [decide_eq_true_eq] using count

theorem copied_touch {reader : Reader} {written cell : Nat} :
    (reader.touch written).Copied cell ↔
      reader.Copied cell ∧ cell ≠ written := by
  cases reader with
  | clearing index more intact =>
      simp only [Reader.touch, Reader.Copied, Bool.and_eq_true,
        decide_eq_true_eq]
      constructor
      · rintro ⟨⟨kept, other⟩, rfl⟩
        exact ⟨⟨kept, rfl⟩, other⟩
      · rintro ⟨⟨kept, rfl⟩, other⟩
        exact ⟨⟨kept, other⟩, rfl⟩
  | _ => simp [Reader.touch, Reader.Copied]

/-- A store replaces what waits in its cell. -/
theorem balanced_store (ring : s.InRing) (value : UInt64) (proper : word ≠ -1) :
    [value].count word + s.waiting word = (s.store value).waiting word +
      (s.destroys (.store value)).count word := by
  have agree : ∀ other, other ≠ s.indx →
      ((s.store value).Waits word other ↔ s.Waits word other) := by
    intro other different
    simp only [Waits, store, copied_touch, update_of_ne different, ne_eq,
      different, not_false_eq_true, and_true]
  have here : (s.store value).Waits word s.indx ↔ value = word := by
    simp [Waits, store, copied_touch]
  have lost : (s.destroys (.store value)).count word =
      if s.Waits word s.indx then 1 else 0 := by
    unfold destroys Waits
    by_cases held : s.gbuffer s.indx = word
    · subst held
      by_cases copied : s.reader.Copied s.indx <;> simp [copied, proper]
    · split_ifs <;> simp_all
  have count := waiting_of_agree ring.indx agree
  simp only [here] at count
  rw [lost, List.count_singleton]
  simp only [beq_iff_eq]
  omega

/-- A monitor that moves on without printing leaves everything waiting. -/
theorem waiting_moved {reader : Reader}
    (before : ∀ cell, ¬s.reader.Copied cell)
    (behind : ∀ cell, ¬reader.Copied cell) :
    { s with reader := reader }.waiting word = s.waiting word := by
  refine waiting_congr fun cell => ?_
  unfold Waits
  simp [before cell, behind cell]

/-- What is printed no longer waits. -/
theorem waiting_printing {index more : Nat} (inRing : index < 48000)
    (reader : s.reader = .printing index more) :
    s.waiting word = s.advance.waiting word +
      [s.gbuffer index].count word := by
  have moved : s.advance = { s with
      reader := .clearing index more true
      printed := s.printed ++ [s.gbuffer index] } := by
    unfold advance
    rw [reader]
  have agree : ∀ other, other ≠ index →
      (s.advance.Waits word other ↔ s.Waits word other) := by
    intro other different
    unfold Waits
    rw [moved, reader]
    simp [Reader.Copied, different.symm]
  have here : ¬s.advance.Waits word index := by
    unfold Waits
    rw [moved]
    simp [Reader.Copied]
  have held : s.Waits word index ↔ s.gbuffer index = word := by
    unfold Waits
    rw [reader]
    simp [Reader.Copied]
  have count := waiting_of_agree inRing agree
  simp only [here, held, if_false] at count
  rw [List.count_singleton]
  simp only [beq_iff_eq]
  omega

/-- What is cleared was printed or is lost. -/
theorem waiting_clearing {index more : Nat} {intact : Bool}
    (inRing : index < 48000) (proper : word ≠ -1)
    (reader : s.reader = .clearing index more intact) :
    s.waiting word = s.advance.waiting word +
      (s.destroys .advance).count word := by
  have copied : ∀ cell, ¬s.advance.reader.Copied cell := by
    intro cell
    unfold advance
    rw [reader]
    cases more <;> simp [Reader.next, Reader.Copied]
  have memory : s.advance.gbuffer = update s.gbuffer index (-1) := by
    unfold advance
    rw [reader]
  have agree : ∀ other, other ≠ index →
      (s.advance.Waits word other ↔ s.Waits word other) := by
    intro other different
    have kept : ¬s.reader.Copied other := by
      rw [reader]
      exact fun both => different both.2.symm
    unfold Waits
    rw [memory, update_of_ne different]
    exact and_congr_right fun _ => iff_of_true (copied other) kept
  have here : ¬s.advance.Waits word index := by
    rintro ⟨blank, -⟩
    rw [memory, update_self] at blank
    exact proper blank.symm
  have lost : (s.destroys .advance).count word =
      if s.Waits word index then 1 else 0 := by
    have held : s.Waits word index ↔
        s.gbuffer index = word ∧ intact = false := by
      unfold Waits
      rw [reader]
      simp [Reader.Copied]
    simp only [held, destroys, reader]
    cases intact with
    | true => simp
    | false =>
        by_cases same : s.gbuffer index = word
        · simp [same, proper]
        · by_cases blank : s.gbuffer index = -1 <;>
            simp [same, blank, proper.symm]
  have count := waiting_of_agree inRing agree
  simp only [here, if_false] at count
  omega

/-- Looking at a cell changes nothing but the place of the monitor. -/
theorem advance_moves {index : Nat}
    (looks : s.reader = .scanning index ∨ s.reader = .testing index) :
    ∃ reader, (∀ cell, ¬reader.Copied cell) ∧
      s.advance = { s with reader := reader } := by
  unfold advance
  rcases looks with reader | reader <;> rw [reader] <;> dsimp only
  · split_ifs
    · exact ⟨.testing index, fun _ => id, rfl⟩
    · exact ⟨.scanning (index + 1), fun _ => id, rfl⟩
    · exact ⟨.testing index, fun _ => id, rfl⟩
  · split_ifs
    · exact ⟨.printing index 3, fun _ => id, rfl⟩
    · exact ⟨.stopped, fun _ => id, rfl⟩

theorem balanced_moves {index : Nat}
    (looks : s.reader = .scanning index ∨ s.reader = .testing index) :
    s.printed.count word + s.waiting word =
      s.advance.printed.count word + s.advance.waiting word +
        (s.destroys .advance).count word := by
  obtain ⟨reader, behind, moved⟩ := advance_moves looks
  have before : ∀ cell, ¬s.reader.Copied cell := by
    rcases looks with looks | looks <;> rw [looks] <;> exact fun _ => id
  have none : s.destroys .advance = [] := by
    rcases looks with looks | looks <;> simp [destroys, looks]
  rw [none, moved, waiting_moved before behind, List.count_nil, Nat.add_zero]

/-- What the monitor prints no longer waits, and what it clears was printed or
is lost. -/
theorem balanced_advance (ring : s.InRing) (proper : word ≠ -1) :
    s.printed.count word + s.waiting word =
      s.advance.printed.count word + s.advance.waiting word +
        (s.destroys .advance).count word := by
  have inside := ring.reader
  cases reader : s.reader with
  | stopped => simp [advance, destroys, reader]
  | scanning index => exact balanced_moves (.inl reader)
  | testing index => exact balanced_moves (.inr reader)
  | printing index more =>
      rw [reader] at inside
      have printed : s.advance.printed = s.printed ++ [s.gbuffer index] := by
        unfold advance
        rw [reader]
      rw [printed, List.count_append, waiting_printing inside reader]
      simp only [destroys, reader, List.count_nil]
      omega
  | clearing index more intact =>
      rw [reader] at inside
      have printed : s.advance.printed = s.printed := by
        unfold advance
        rw [reader]
      rw [printed, waiting_clearing inside proper reader]
      omega

/-- Every step accounts for the word that it stores. -/
theorem balanced_of_step {action : Action} (ring : s.InRing)
    (proper : word ≠ -1) (taken : s.step action = some next) :
    action.stored.count word + (s.printed.count word + s.waiting word) =
      next.printed.count word + next.waiting word +
        (s.destroys action).count word := by
  obtain ⟨enabled, rfl⟩ := step_eq_some_iff.mp taken
  cases action with
  | store value =>
      have balanced := balanced_store ring value proper
      have printed : (s.apply (.store value)).printed = s.printed := rfl
      have applied : s.apply (.store value) = s.store value := rfl
      rw [printed, applied, Action.stored]
      omega
  | start =>
      have stopped : s.reader = .stopped := enabled
      have before : ∀ cell, ¬s.reader.Copied cell := by
        rw [stopped]
        exact fun _ => id
      have kept : (s.apply .start).waiting word = s.waiting word :=
        waiting_moved before fun _ => id
      have printed : (s.apply .start).printed = s.printed := rfl
      rw [kept, printed, Action.stored, destroys, List.count_nil,
        Nat.zero_add, Nat.add_zero]
  | advance =>
      rw [Action.stored, List.count_nil, Nat.zero_add]
      exact balanced_advance ring proper

end Steps

/-- The words stored so far are those printed, those that wait and those that
are lost. -/
structure Accounted (word : UInt64) (state : System × List UInt64)
    (past : List UInt64) : Prop where
  ring : state.1.InRing
  balance : past.count word = state.1.printed.count word +
    state.1.waiting word + state.2.count word

theorem Accounted.initial {word : UInt64} (proper : word ≠ -1) :
    Accounted word (System.initial, []) [] where
  ring := InRing.initial
  balance := by
    have none : System.initial.waiting word = 0 := by
      refine List.countP_eq_zero.mpr fun cell _ waits => ?_
      exact proper (of_decide_eq_true waits).1.symm
    rw [none, List.count_nil, Nat.add_zero]
    rfl

theorem Accounted.step {word : UInt64} (proper : word ≠ -1)
    {state next : System × List UInt64} {action : Action}
    {past : List UInt64} (accounted : Accounted word state past)
    (taken : recorded state action = some next) :
    Accounted word next (past ++ action.stored) := by
  obtain ⟨stepped, same⟩ := ghostStep_eq_some_iff.mp taken
  have balanced := balanced_of_step accounted.ring proper stepped
  refine ⟨inRing_of_step accounted.ring stepped, ?_⟩
  rw [← same, List.count_append, List.count_append, accounted.balance]
  omega

theorem accounted_of_run {actions : List Action}
    {state : System × List UInt64}
    (reached : run recorded (initial, []) actions = some state)
    {word : UInt64} (proper : word ≠ -1) :
    Accounted word state (actions.flatMap Action.stored) :=
  history_of_run (Accounted word) Action.stored
    (fun _ _ _ _ accounted taken => accounted.step proper taken)
    (Accounted.initial proper) reached

/-- Every word but `-1` that was stored has been printed, waits in the ring or
is lost; none is printed twice. -/
theorem words_accounted {actions : List Action} {s : System}
    {lost : List UInt64}
    (reached : run recorded (initial, []) actions = some (s, lost))
    {word : UInt64} (proper : word ≠ -1) :
    (actions.flatMap Action.stored).count word =
      s.printed.count word + s.waiting word + lost.count word :=
  (accounted_of_run reached proper).balance

/-- A monitor that reads a sample of which only the first word is there. -/
def overtaken : List Action :=
  [.store 5, .start, .advance, .advance, .advance, .advance, .advance,
    .store 6, .advance]

theorem words_accounted_overtaken :
    ∃ s, run recorded (initial, []) overtaken = some (s, [6]) ∧
      s.printed = [5, -1] ∧
        (overtaken.flatMap Action.stored).count 6 =
          s.printed.count 6 + s.waiting 6 + [(6 : UInt64)].count 6 := by
  have ran : (run recorded (initial, []) overtaken).map (fun state =>
      (state.1.printed, state.2)) = some ([5, -1], [6]) := by decide +kernel
  obtain ⟨⟨s, lost⟩, reached, same⟩ := Option.map_eq_some_iff.mp ran
  obtain ⟨printed, rfl⟩ := Prod.mk.inj same
  exact ⟨s, reached, printed, words_accounted reached (by decide)⟩

end System

/-- A turn of the monitor begins only with four words other than `-1`. -/
def Reader.MeetsWhole (gbuffer : Buffer) : Reader → Prop
  | .testing index => gbuffer index ≠ -1 →
      ∀ place < 4, gbuffer (position 48000 index place) ≠ -1
  | _ => True

instance (gbuffer : Buffer) (reader : Reader) :
    Decidable (reader.MeetsWhole gbuffer) :=
  match reader with
  | .testing _ => inferInstanceAs (Decidable (_ → _))
  | .stopped | .scanning _ | .printing _ _ | .clearing _ _ _ =>
      inferInstanceAs (Decidable True)

/-- The words of the turn that the monitor has still to clear are there. -/
def Reader.Ahead (gbuffer : Buffer) : Reader → Prop
  | .printing index more => more < 4 ∧
      ∀ place ≤ more, gbuffer (position 48000 index place) ≠ -1
  | .clearing index more intact => intact = true ∧ more < 4 ∧
      ∀ place ≤ more, gbuffer (position 48000 index place) ≠ -1
  | _ => True

namespace System

/-- A store finds its cell blank, and the monitor meets whole turns. -/
def Whole (s : System) : Action → Prop
  | .store _ => s.gbuffer s.indx = -1
  | .start => True
  | .advance => s.reader.MeetsWhole s.gbuffer

instance (s : System) (action : Action) : Decidable (s.Whole action) :=
  match action with
  | .store _ => inferInstanceAs (Decidable (_ = _))
  | .start => inferInstanceAs (Decidable True)
  | .advance => inferInstanceAs (Decidable (Reader.MeetsWhole _ _))

/-- So far the monitor has met only words that were there. -/
structure Steady (state : System × List UInt64) : Prop where
  ring : state.1.InRing
  printed : ∀ word ∈ state.1.printed, word ≠ -1
  ahead : state.1.reader.Ahead state.1.gbuffer
  lost : state.2 = []

theorem Steady.initial : Steady (System.initial, []) :=
  ⟨InRing.initial, by simp [System.initial], trivial, rfl⟩

section Whole

variable {s : System}

theorem position_zero {index : Nat} (inRing : index < 48000) :
    position 48000 index 0 = index := by
  unfold position
  exact if_pos inRing

theorem position_after {index place : Nat} (inRing : index < 48000)
    (near : place < 4) :
    position 48000 (after index) place = position 48000 index (place + 1) ∧
      position 48000 index (place + 1) ≠ index := by
  unfold position after
  split_ifs <;> omega

/-- A store into a blank cell leaves the words ahead of the monitor. -/
theorem ahead_touch {gbuffer : Buffer} {reader : Reader} {cell : Nat}
    {value : UInt64} (free : gbuffer cell = -1)
    (inside : reader.Inside) (ahead : reader.Ahead gbuffer) :
    (reader.touch cell).Ahead (update gbuffer cell value) := by
  have kept : ∀ index more, (∀ place ≤ more,
      gbuffer (position 48000 index place) ≠ -1) → ∀ place ≤ more,
        update gbuffer cell value (position 48000 index place) ≠ -1 := by
    intro index more there place within
    have other : position 48000 index place ≠ cell := fun here =>
      there place within (here ▸ free)
    rw [update_of_ne other]
    exact there place within
  cases reader with
  | printing index more => exact ⟨ahead.1, kept index more ahead.2⟩
  | clearing index more intact =>
      obtain ⟨rfl, few, there⟩ := ahead
      refine ⟨?_, few, kept index more there⟩
      have other : index ≠ cell := fun here => by
        have first := there 0 (Nat.zero_le more)
        rw [position_zero inside, here] at first
        exact first free
      simp [other]
  | _ => trivial

theorem destroys_of_whole {action : Action}
    (ahead : s.reader.Ahead s.gbuffer) (whole : s.Whole action) :
    s.destroys action = [] := by
  cases action with
  | store value => exact if_neg fun held => held.1 whole
  | start => rfl
  | advance =>
      unfold destroys
      cases reader : s.reader with
      | clearing index more intact =>
          rw [reader] at ahead
          obtain ⟨rfl, -⟩ := ahead
          rfl
      | _ => rfl

/-- The monitor prints words that are there, and keeps ahead of it what it has
not cleared. -/
theorem steady_advance (inside : s.reader.Inside)
    (printed : ∀ word ∈ s.printed, word ≠ -1)
    (ahead : s.reader.Ahead s.gbuffer)
    (whole : s.reader.MeetsWhole s.gbuffer) :
    (∀ word ∈ s.advance.printed, word ≠ -1) ∧
      s.advance.reader.Ahead s.advance.gbuffer := by
  unfold advance
  cases reader : s.reader with
  | stopped =>
      refine ⟨printed, ?_⟩
      rw [reader]
      trivial
  | scanning index =>
      dsimp only
      split_ifs <;> exact ⟨printed, trivial⟩
  | testing index =>
      rw [reader] at whole
      dsimp only
      split_ifs with found
      · exact ⟨printed, by decide, fun place within =>
          whole found place (by omega)⟩
      · exact ⟨printed, trivial⟩
  | printing index more =>
      rw [reader] at ahead inside
      refine ⟨fun word member => ?_, rfl, ahead⟩
      rcases List.mem_append.mp member with old | new
      · exact printed word old
      · have first := ahead.2 0 (Nat.zero_le more)
        rw [position_zero inside] at first
        rwa [List.mem_singleton.mp new]
  | clearing index more intact =>
      rw [reader] at ahead inside
      refine ⟨printed, ?_⟩
      cases more with
      | zero => trivial
      | succ more =>
          have few := ahead.2.1
          refine ⟨by omega, fun place within => ?_⟩
          obtain ⟨same, other⟩ :=
            position_after inside (show place < 4 by omega)
          show update s.gbuffer index (-1)
            (position 48000 (after index) place) ≠ -1
          rw [same, update_of_ne other]
          exact ahead.2.2 (place + 1) (by omega)

theorem Steady.step {state next : System × List UInt64} {action : Action}
    (steady : Steady state) (whole : state.1.Whole action)
    (taken : recorded state action = some next) : Steady next := by
  obtain ⟨stepped, same⟩ := ghostStep_eq_some_iff.mp taken
  have lost : next.2 = [] := by
    rw [← same, steady.lost, destroys_of_whole steady.ahead whole,
      List.append_nil]
  obtain ⟨-, applied⟩ := step_eq_some_iff.mp stepped
  have kept : (∀ word ∈ (state.1.apply action).printed, word ≠ -1) ∧
      (state.1.apply action).reader.Ahead (state.1.apply action).gbuffer := by
    cases action with
    | store value =>
        exact ⟨steady.printed,
          ahead_touch whole steady.ring.reader steady.ahead⟩
    | start => exact ⟨steady.printed, trivial⟩
    | advance =>
        exact steady_advance steady.ring.reader steady.printed steady.ahead
          whole
  rw [applied] at kept
  exact ⟨inRing_of_step steady.ring stepped, kept.1, kept.2, lost⟩

end Whole

/-- As long as stores find blank cells and the monitor meets whole turns, every
word is printed once or still waits, and nothing else is printed. -/
theorem words_printed_of_whole {actions : List Action} {s : System}
    (reached : run step initial actions = some s)
    (whole : Permits step Whole initial actions) :
    (∀ word ∈ s.printed, word ≠ -1) ∧ ∀ word, word ≠ -1 →
      (actions.flatMap Action.stored).count word =
        s.printed.count word + s.waiting word := by
  obtain ⟨lost, ran⟩ := exists_ghost_run reached ([] : List UInt64)
  have steady : Steady (s, lost) := invariant_of_permits Steady
    (fun _ _ _ steady whole taken => steady.step whole taken) Steady.initial
    (permits_ghostStep whole []) ran
  refine ⟨steady.printed, fun word proper => ?_⟩
  have balance := (accounted_of_run ran proper).balance
  have none : lost = [] := steady.lost
  rwa [none, List.count_nil, Nat.add_zero] at balance

/-- A monitor that starts in the middle of a sample and meets whole turns. -/
def inTime : List Action :=
  [.store 5, .start, .store 6, .store 7, .advance, .store 8, .advance,
    .advance, .store 9, .advance, .advance, .advance]

theorem words_printed_inTime :
    ∃ s, run step initial inTime = some s ∧ s.printed = [5, 6] ∧
      (inTime.flatMap Action.stored).count 8 =
        s.printed.count 8 + s.waiting 8 := by
  have ran : (run step initial inTime).map System.printed = some [5, 6] := by
    decide +kernel
  obtain ⟨s, reached, printed⟩ := Option.map_eq_some_iff.mp ran
  have whole : Permits step Whole initial inTime := by decide +kernel
  exact ⟨s, reached, printed,
    (words_printed_of_whole reached whole).2 8 (by decide)⟩

end System

/-- The values of a line, in order. -/
def Line.values (line : Line) : List Int64 :=
  [line.first, line.second, line.third, line.fourth]

namespace System

section Undisturbed

/-- The monitor gets from one state to another on its own. -/
def Advances (s next : System) : Prop :=
  ∃ count, run step s (List.replicate count .advance) = some next

theorem Advances.refl (s : System) : s.Advances s := ⟨0, rfl⟩

theorem Advances.advance {s next : System} (running : s.reader ≠ .stopped)
    (later : s.advance.Advances next) : s.Advances next := by
  obtain ⟨count, reached⟩ := later
  refine ⟨count + 1, ?_⟩
  rw [List.replicate_succ, run_cons_eq_some_iff]
  exact ⟨s.advance, step_eq_some_iff.mpr ⟨running, rfl⟩, reached⟩

/-- The first loop ends where the search of `scan` does. -/
theorem Advances.scan {s next : System} {index found : Nat}
    (searched : scan s.gbuffer index = some found)
    (later : { s with reader := .testing found }.Advances next) :
    { s with reader := .scanning index }.Advances next := by
  induction index using scan.induct with
  | case1 index inRing ih =>
      rw [SampleBuffer.scan, if_pos inRing, load,
        if_pos (show index < 65536 by omega)] at searched
      refine .advance Reader.noConfusion ?_
      simp only [System.advance, if_pos inRing]
      by_cases blank : s.gbuffer index = -1
      · rw [if_neg (not_not.mpr blank)]
        exact ih (by simpa [blank] using searched)
      · rw [if_pos blank]
        obtain rfl : index = found := by simpa [blank] using searched
        exact later
  | case2 index outside =>
      rw [SampleBuffer.scan, if_neg outside] at searched
      obtain rfl := Option.some.inj searched
      refine .advance Reader.noConfusion ?_
      simp only [System.advance, if_neg outside]
      exact later

theorem eq_of_take {buf next : Buffer} {index index' : Nat} {value : Int64}
    (taken : take buf index = some (value, next, index')) :
    value = (buf index).toInt64 ∧ next = update buf index (-1) ∧
      index' = after index := by
  by_cases inside : index < 65536
  · rw [take_of_lt buf inside, Option.some.injEq, Prod.mk.injEq,
      Prod.mk.injEq] at taken
    exact ⟨taken.1.symm, taken.2.1.symm, taken.2.2.symm⟩
  · simp [take, load, inside] at taken

/-- A turn of `drain` that begins at a word takes four words. -/
theorem takes_of_drain {fuel index i : Nat} {buf : Buffer}
    {printed : List Line} {report : Report} (there : buf index ≠ -1)
    (drained : drain (fuel + 1) buf index i printed = some report) :
    ∃ a first index1 b second index2 c third index3 d next index4,
      take buf index = some (a, first, index1) ∧
      take first index1 = some (b, second, index2) ∧
      take second index2 = some (c, third, index3) ∧
      take third index3 = some (d, next, index4) ∧
      drain fuel next index4 (i + 1) (printed ++ [⟨a, b, c, d⟩]) =
        some report := by
  rw [drain, load] at drained
  split_ifs at drained with inside
  · simp only [Option.bind_eq_bind, Option.bind_some, ne_eq, there,
      not_false_eq_true, if_true, Option.bind_eq_some_iff] at drained
    obtain ⟨⟨a, first, index1⟩, takeFirst, ⟨b, second, index2⟩, takeSecond,
      ⟨c, third, index3⟩, takeThird, ⟨d, next, index4⟩, takeFourth, rest⟩ :=
        drained
    exact ⟨a, first, index1, b, second, index2, c, third, index3, d, next,
      index4, takeFirst, takeSecond, takeThird, takeFourth, rest⟩
  · cases drained

/-- A word is printed and cleared in two steps, as `take` does it. -/
theorem Advances.word {s next : System} {index index' more : Nat}
    {value : Int64} {buf : Buffer}
    (taken : take s.gbuffer index = some (value, buf, index'))
    (later : { s with
      gbuffer := buf
      reader := .next index' more
      printed := s.printed ++ [s.gbuffer index] }.Advances next) :
    { s with reader := .printing index more }.Advances next := by
  obtain ⟨-, rfl, rfl⟩ := eq_of_take taken
  exact .advance Reader.noConfusion (.advance Reader.noConfusion later)

/-- The second loop prints and clears what `drain` does. -/
theorem exists_advances_drain {fuel index i : Nat} {printed : List Line}
    {report : Report} {s : System}
    (drained : drain fuel s.gbuffer index i printed = some report) :
    ∃ words lines, report.lines = printed ++ lines ∧
      words.map UInt64.toInt64 = lines.flatMap Line.values ∧
        { s with reader := .testing index }.Advances { s with
          gbuffer := report.buf
          reader := .stopped
          printed := s.printed ++ words } := by
  induction fuel generalizing s index i printed with
  | zero => cases drained
  | succ fuel ih =>
      by_cases blank : s.gbuffer index = -1
      · have inside : index < 65536 := by
          by_contra outside
          simp [drain, load, outside] at drained
        rw [drain_of_eq inside blank] at drained
        obtain rfl := Option.some.inj drained
        refine ⟨[], [], by simp, rfl, .advance Reader.noConfusion ?_⟩
        rw [List.append_nil]
        simp only [System.advance, if_neg (not_not.mpr blank)]
        exact .refl _
      · obtain ⟨a, first, index1, b, second, index2, c, third, index3, d, next,
          index4, takeFirst, takeSecond, takeThird, takeFourth, rest⟩ :=
            takes_of_drain blank drained
        let words := [s.gbuffer index, first index1, second index2,
          third index3]
        let seen := s.printed ++ [s.gbuffer index] ++ [first index1] ++
          [second index2] ++ [third index3]
        obtain ⟨behind, lines, split, values, advances⟩ :=
          @ih index4 (i + 1) _ ⟨next, s.indx, s.reader, seen⟩ rest
        refine ⟨words ++ behind, ⟨a, b, c, d⟩ :: lines, ?_, ?_,
          .advance Reader.noConfusion ?_⟩
        · rw [split, List.append_assoc]
          rfl
        · rw [List.map_append, values, List.flatMap_cons,
            (eq_of_take takeFirst).1, (eq_of_take takeSecond).1,
            (eq_of_take takeThird).1, (eq_of_take takeFourth).1]
          rfl
        · simp only [System.advance, if_pos blank]
          refine Advances.word takeFirst ?_
          refine Advances.word (s := ⟨first, s.indx, s.reader,
            s.printed ++ [s.gbuffer index]⟩) takeSecond ?_
          refine Advances.word (s := ⟨second, s.indx, s.reader,
            s.printed ++ [s.gbuffer index] ++ [first index1]⟩) takeThird ?_
          refine Advances.word (s := ⟨third, s.indx, s.reader,
            s.printed ++ [s.gbuffer index] ++ [first index1] ++
              [second index2]⟩) takeFourth ?_
          simpa only [seen, words, Reader.next, List.append_assoc,
            List.singleton_append, List.cons_append, List.nil_append]
            using advances

/-- A monitor that is not disturbed prints and leaves what `main` says. -/
theorem exists_advances_main {s : System} {report : Report}
    (ran : main s.gbuffer = some report) :
    ∃ words, words.map UInt64.toInt64 = report.lines.flatMap Line.values ∧
      { s with reader := .scanning 0 }.Advances { s with
        gbuffer := report.buf
        reader := .stopped
        printed := s.printed ++ words } := by
  obtain ⟨index, searched, drained⟩ := Option.bind_eq_some_iff.mp ran
  obtain ⟨words, lines, split, values, advances⟩ :=
    exists_advances_drain drained
  rw [List.nil_append] at split
  exact ⟨words, by rw [split, values], .scan searched advances⟩

end Undisturbed

end System

end LinuxKernelDev.SampleBuffer.Interleaving
