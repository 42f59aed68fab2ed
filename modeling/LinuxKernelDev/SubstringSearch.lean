import LinuxKernelDev.ScanFormat
import Mathlib.Data.List.Infix

/-!
# Searching a text of records for a marked word

A text is made of records, each of which is a field, a mark, further
characters and a closing character.  A word followed by the mark occurs in the
text exactly if the word is the end of a field: it cannot reach over the
closing character of the record before, but nothing keeps it from starting in
the middle of a field.
-/

namespace LinuxKernelDev.SubstringSearch

open ScanFormat

variable {α : Type*}

/-- The index of the first occurrence of a text in another one. -/
def find [DecidableEq α] (needle : List α) : List α → Option Nat
  | [] => if needle = [] then some 0 else none
  | item :: rest =>
      if needle <+: item :: rest then some 0
      else (find needle rest).map (· + 1)

theorem isSome_find_iff [DecidableEq α] {needle text : List α} :
    (find needle text).isSome = true ↔ needle <:+: text := by
  induction text with
  | nil =>
      rw [find, List.infix_nil]
      split <;> simp_all
  | cons item rest ih =>
      rw [find, List.infix_cons_iff, ← ih]
      split_ifs with here
      · simp [here]
      · simp [here]

/-- An occurrence of a word and a mark is an occurrence of the mark behind the
word. -/
theorem infix_mark_iff {word text : List α} {mark : α} :
    word ++ [mark] <:+: text ↔
      ∃ before after, text = before ++ mark :: after ∧ word <:+ before := by
  constructor
  · rintro ⟨start, after, rfl⟩
    exact ⟨start ++ word, after, by simp, List.suffix_append start word⟩
  · rintro ⟨_, after, rfl, start, rfl⟩
    exact ⟨start, after, by simp⟩

/-- A word does not reach over a character that it does not contain. -/
theorem suffix_append_cons_iff {word first rest : List α} {stop : α}
    (absent : stop ∉ word) :
    word <:+ first ++ stop :: rest ↔ word <:+ rest := by
  constructor
  · rintro ⟨start, same⟩
    rcases List.append_eq_append_iff.mp same with
      ⟨middle, -, split⟩ | ⟨middle, -, split⟩
    · exact absurd (split ▸ List.mem_append_right middle List.mem_cons_self)
        absent
    · cases middle with
      | nil =>
          rw [List.nil_append] at split
          exact absurd (split ▸ List.mem_cons_self) absent
      | cons item middle =>
          rw [List.cons_append, List.cons.injEq] at split
          exact ⟨middle, split.2.symm⟩
  · rintro ⟨start, rfl⟩
    exact ⟨first ++ stop :: start, by simp⟩

/-- A mark that is not in the first part of a text is in the second. -/
theorem exists_eq_append_of_notMem {first others before after : List α}
    {mark : α} (absent : mark ∉ first)
    (same : first ++ others = before ++ mark :: after) :
    ∃ middle, before = first ++ middle ∧ others = middle ++ mark :: after := by
  rcases List.append_eq_append_iff.mp same with
    ⟨middle, beforeEq, othersEq⟩ | ⟨middle, firstEq, afterEq⟩
  · exact ⟨middle, beforeEq, othersEq⟩
  · cases middle with
    | nil =>
        rw [List.nil_append] at afterEq
        exact ⟨[], by rw [firstEq, List.append_nil, List.append_nil],
          afterEq.symm⟩
    | cons item middle =>
        rw [List.cons_append, List.cons.injEq] at afterEq
        rw [firstEq, ← afterEq.1] at absent
        simp at absent

section Records

variable {Record : Type*} {field rest : Record → List α} {mark stop : α}

/-- A word and a mark occur in a text of records exactly if the word is the end
of the field of a record. -/
theorem infix_flatMap_iff {word : List α} {records : List Record}
    (fields : ∀ record ∈ records, mark ∉ field record)
    (rests : ∀ record ∈ records, mark ∉ rest record)
    (different : mark ≠ stop) (absent : stop ∉ word) :
    word ++ [mark] <:+: records.flatMap (fun record =>
        field record ++ mark :: (rest record ++ [stop])) ↔
      ∃ record ∈ records, word <:+ field record := by
  induction records with
  | nil => simp
  | cons record records ih =>
      have later := ih
        (fun other mem => fields other (List.mem_cons_of_mem _ mem))
        (fun other mem => rests other (List.mem_cons_of_mem _ mem))
      rw [infix_mark_iff] at later
      rw [infix_mark_iff, List.flatMap_cons, List.exists_mem_cons_iff, ← later]
      constructor
      · rintro ⟨before, after, same, ends⟩
        rw [List.append_assoc] at same
        obtain ⟨middle, rfl, restEq⟩ := exists_eq_append_of_notMem
          (fields record List.mem_cons_self) same
        cases middle with
        | nil =>
            rw [List.append_nil] at ends
            exact Or.inl ends
        | cons item middle =>
            -- The mark is that of a later record.
            rw [List.cons_append, List.cons_append, List.cons.injEq] at restEq
            have notInRest : mark ∉ rest record ++ [stop] := by
              simp [rests record List.mem_cons_self, different]
            obtain ⟨middle, rfl, othersEq⟩ :=
              exists_eq_append_of_notMem notInRest restEq.2
            refine Or.inr ⟨middle, after, othersEq, ?_⟩
            rw [List.append_assoc, ← List.cons_append, ← List.append_assoc,
              List.singleton_append, suffix_append_cons_iff absent] at ends
            exact ends
      · rintro (ends | ⟨before, after, same, ends⟩)
        · exact ⟨field record, _, List.append_assoc _ _ _, ends⟩
        · refine ⟨field record ++ mark :: (rest record ++ [stop]) ++ before,
            after, ?_, List.suffix_append_of_suffix ends⟩
          rw [same]
          exact (List.append_assoc _ _ _).symm

end Records

/-- `strstr`, with the index of the occurrence in place of its address. -/
def strstr (haystack needle : List UInt8) : Option Nat :=
  find (cString needle) (cString haystack)

theorem cString_terminated {text : List UInt8} (nonzero : 0 ∉ text) :
    cString (text ++ [0]) = text := by
  unfold cString
  rw [List.takeWhile_append_of_pos]
  · simp
  · intro byte mem
    rw [decide_eq_true_eq]
    rintro rfl
    exact nonzero mem

end LinuxKernelDev.SubstringSearch
