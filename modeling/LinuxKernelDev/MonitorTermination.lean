import LinuxKernelDev.ProfilerRing

/-!
# Termination of the monitor

The second loop of the monitor has no bound of its own.  It moves around the
ring by four words and stops at a word that is -1.  Every word it passes it
sets to -1, so that it stops at the latest when it has gone around once and is
back at its first word.

If the whole ring is -1, the first loop ends behind it, at index 48000.  One
turn of the second loop may start there; it ends at index 3 of the ring.
-/

namespace LinuxKernelDev.SampleBuffer

open RingBuffer Function

/-- The `count` words from `start` on, around the ring, are -1. -/
def Cleared (start count : Nat) (buf : Buffer) : Prop :=
  ∀ n < count, buf (position 48000 start n) = -1

theorem take_of_lt (buf : Buffer) {index : Nat} (inside : index < 65536) :
    take buf index =
      some ((buf index).toInt64, update buf index (-1),
        if index + 1 ≥ 48000 then 0 else index + 1) := by
  simp [take, load, store, inside]

/-- The next word around the ring, which comes back to `start` at the end. -/
theorem next_position {start n : Nat} (within : start < 48000)
    (before : n < 48000) :
    (if position 48000 start n + 1 ≥ 48000 then 0
      else position 48000 start n + 1) = position 48000 start (n + 1) := by
  unfold position
  split_ifs <;> omega

/-- Taking the first word that is not yet cleared clears it. -/
theorem Cleared.after_take {start count : Nat} {buf : Buffer}
    (cleared : Cleared start count buf) (within : start < 48000)
    (before : count < 48000) :
    ∃ value next, take buf (position 48000 start count) =
        some (value, next, position 48000 start (count + 1)) ∧
      Cleared start (count + 1) next := by
  have inRing : position 48000 start count < 48000 :=
    position_lt within (Nat.le_of_lt before)
  refine ⟨(buf (position 48000 start count)).toInt64,
    update buf (position 48000 start count) (-1), ?_, fun n below => ?_⟩
  · rw [take_of_lt buf (by omega), next_position within before]
  · by_cases last : position 48000 start n = position 48000 start count
    · rw [last, update_self]
    · rw [update_of_ne last]
      apply cleared n
      have different : n ≠ count := fun same => last (by rw [same])
      omega

theorem drain_of_eq {buf : Buffer} {index : Nat} (inside : index < 65536)
    (stop : buf index = -1) (fuel i : Nat) (printed : List Line) :
    drain (fuel + 1) buf index i printed = some ⟨printed, i, buf⟩ := by
  simp [drain, load, inside, stop]

/-- A turn of the second loop that starts at a word that is not -1. -/
theorem drain_of_takes {buf first second third next : Buffer}
    {index index1 index2 index3 after : Nat} {a b c d : Int64}
    (inside : index < 65536) (occupied : buf index ≠ -1)
    (takeFirst : take buf index = some (a, first, index1))
    (takeSecond : take first index1 = some (b, second, index2))
    (takeThird : take second index2 = some (c, third, index3))
    (takeFourth : take third index3 = some (d, next, after))
    (fuel i : Nat) (printed : List Line) :
    drain (fuel + 1) buf index i printed =
      drain fuel next after (i + 1) (printed ++ [⟨a, b, c, d⟩]) := by
  rw [drain]
  simp only [load, inside, if_true, Option.bind_eq_bind, Option.bind_some,
    ne_eq, occupied, not_false_eq_true, takeFirst, takeSecond, takeThird,
    takeFourth]

/-- A turn inside the ring clears four more words. -/
theorem Cleared.after_turn {start count : Nat} {buf : Buffer}
    (cleared : Cleared start count buf) (within : start < 48000)
    (room : count + 4 ≤ 48000)
    (occupied : buf (position 48000 start count) ≠ -1) :
    ∃ line next, Cleared start (count + 4) next ∧
      ∀ fuel i printed,
        drain (fuel + 1) buf (position 48000 start count) i printed =
          drain fuel next (position 48000 start (count + 4)) (i + 1)
            (printed ++ [line]) := by
  obtain ⟨a, first, takeFirst, cleared⟩ :=
    cleared.after_take within (by omega)
  obtain ⟨b, second, takeSecond, cleared⟩ :=
    cleared.after_take within (by omega)
  obtain ⟨c, third, takeThird, cleared⟩ :=
    cleared.after_take within (by omega)
  obtain ⟨d, next, takeFourth, cleared⟩ :=
    cleared.after_take within (by omega)
  have inRing : position 48000 start count < 48000 :=
    position_lt within (by omega)
  exact ⟨⟨a, b, c, d⟩, next, cleared,
    drain_of_takes (by omega) occupied takeFirst takeSecond takeThird
      takeFourth⟩

/-- The second loop, from a state with given output on, prints at most `turns`
more lines and returns, with any fuel above `turns`. -/
def Finishes (turns : Nat) (buf : Buffer) (index i : Nat)
    (printed : List Line) : Prop :=
  ∃ report, (∀ fuel, turns < fuel →
      drain fuel buf index i printed = some report) ∧
    report.i ≤ i + turns ∧
    report.i + printed.length = i + report.lines.length

theorem Finishes.of_eq {turns index : Nat} {buf : Buffer}
    (inside : index < 65536) (stop : buf index = -1) (i : Nat)
    (printed : List Line) : Finishes turns buf index i printed := by
  refine ⟨⟨printed, i, buf⟩, fun fuel enough => ?_, Nat.le_add_right i turns,
    rfl⟩
  obtain ⟨fuel, rfl⟩ := Nat.exists_eq_add_one.mpr (Nat.zero_lt_of_lt enough)
  exact drain_of_eq inside stop fuel i printed

/-- One turn more. -/
theorem Finishes.of_turn {turns index after i : Nat} {buf next : Buffer}
    {line : Line} {printed : List Line}
    (rest : Finishes turns next after (i + 1) (printed ++ [line]))
    (turn : ∀ fuel, drain (fuel + 1) buf index i printed =
      drain fuel next after (i + 1) (printed ++ [line])) :
    Finishes (turns + 1) buf index i printed := by
  obtain ⟨report, returned, bound, counted⟩ := rest
  refine ⟨report, fun fuel enough => ?_, by omega, ?_⟩
  · obtain ⟨fuel, rfl⟩ := Nat.exists_eq_add_one.mpr (Nat.zero_lt_of_lt enough)
    rw [turn]
    exact returned fuel (by omega)
  · rw [List.length_append, List.length_singleton] at counted
    omega

/-- With `turns` groups of four words left before the first word comes around
again, the second loop takes at most `turns` turns.  The induction is on the
groups that are left. -/
theorem Cleared.finishes {start count turns : Nat} {buf : Buffer}
    (cleared : Cleared start count buf) (within : start < 48000)
    (left : count + 4 * turns = 48000) (i : Nat) (printed : List Line) :
    Finishes turns buf (position 48000 start count) i printed := by
  have inRing : position 48000 start count < 48000 :=
    position_lt within (by omega)
  induction turns generalizing count buf i printed with
  | zero =>
      -- The loop is back at its first word, which it has cleared.
      have around : position 48000 start count = position 48000 start 0 := by
        unfold position
        split_ifs <;> omega
      have stop : buf (position 48000 start count) = -1 := by
        rw [around]
        exact cleared 0 (by omega)
      exact .of_eq (by omega) stop i printed
  | succ turns ih =>
      by_cases stop : buf (position 48000 start count) = -1
      · exact .of_eq (by omega) stop i printed
      · obtain ⟨line, next, clearedNext, turn⟩ :=
          cleared.after_turn within (by omega) stop
        have nextInRing : position 48000 start (count + 4) < 48000 :=
          position_lt within (by omega)
        have rest := ih clearedNext (by omega) (i + 1) (printed ++ [line])
          nextInRing
        exact rest.of_turn fun fuel => turn fuel i printed

/-- A start inside the ring. -/
theorem finishes_of_lt (buf : Buffer) {index : Nat} (inRing : index < 48000)
    (i : Nat) (printed : List Line) :
    Finishes 12000 buf index i printed := by
  have cleared : Cleared index 0 buf := fun n below => by omega
  have finishes := cleared.finishes inRing (by omega : 0 + 4 * 12000 = 48000)
    i printed
  have atStart : position 48000 index 0 = index := by
    simp [position, inRing]
  rwa [atStart] at finishes

/-- A start right behind the ring: the first turn takes the word there and the
first three words of the ring. -/
theorem finishes_behind (buf : Buffer) (i : Nat) (printed : List Line) :
    Finishes 12001 buf 48000 i printed := by
  by_cases stop : buf 48000 = -1
  · exact .of_eq (by omega) stop i printed
  · have turn := fun fuel => drain_of_takes (by omega) stop
      (take_of_lt _ (by omega)) (take_of_lt _ (by decide))
      (take_of_lt _ (by decide)) (take_of_lt _ (by decide)) fuel i printed
    exact (finishes_of_lt _ (by decide) _ _).of_turn turn

/-- The first loop stops inside the ring or right behind it. -/
theorem exists_scan (buf : Buffer) {index : Nat} (bound : index ≤ 48000) :
    ∃ found ≤ 48000, scan buf index = some found := by
  fun_induction scan buf index with
  | case1 index below ih =>
      have inside : index < 65536 := by omega
      simp only [load, inside, if_true, Option.bind_eq_bind, Option.bind_some]
      split_ifs
      · exact ⟨index, bound, rfl⟩
      · exact ih below
  | case2 index above => exact ⟨index, bound, rfl⟩

/-- On every content of the buffer both loops of the monitor end, without an
access outside the buffer, and at most 12001 lines are printed. -/
theorem main_terminates (buf : Buffer) :
    ∃ index report, scan buf 0 = some index ∧ index ≤ 48000 ∧
      (∀ fuel, 12001 < fuel → drain fuel buf index 0 [] = some report) ∧
      main buf = some report ∧
      report.i = report.lines.length ∧ report.lines.length ≤ 12001 := by
  obtain ⟨index, bound, found⟩ := exists_scan buf (Nat.zero_le 48000)
  have finishes : Finishes 12001 buf index 0 [] := by
    rcases Nat.lt_or_eq_of_le bound with inRing | behind
    · obtain ⟨report, returned, atMost, counted⟩ :=
        finishes_of_lt buf inRing 0 []
      exact ⟨report, fun fuel enough => returned fuel (by omega), by omega,
        counted⟩
    · rw [behind]
      exact finishes_behind buf 0 []
  obtain ⟨report, returned, atMost, counted⟩ := finishes
  rw [List.length_nil] at counted
  refine ⟨index, report, found, bound, returned, ?_, by omega, by omega⟩
  rw [main, found]
  exact returned 65537 (by decide)

end LinuxKernelDev.SampleBuffer
