import Mathlib.Data.List.Basic
import Mathlib.Data.List.Perm.Subperm
import Mathlib.Logic.Function.Basic

/-!
# Linked lists in a heap

A linked list is a pointer into a heap of chunks, each with a value and a
pointer.  Nothing says that a pointer leads to a chunk in use or that following
the pointers ends, so a search through a list may come to nothing.  A `Segment`
is a stretch of a list that is known: its chunks, and the pointer behind them,
whatever that may be.
-/

namespace LinuxKernelDev.LinkedChunks

open Function

/-- What a chunk holds.  A pointer that is `none` is a null pointer. -/
structure Cell (α : Type) where
  value : α
  next : Option Nat

/-- A heap, with the pointer to the first chunk of a list. -/
structure Chunks (α : Type) where
  root : Option Nat
  used : List Nat
  cell : Nat → Cell α

/-- How a search ends: behind the chunk `last`, or at `curr`, which stands
behind `last`. -/
inductive Search where
  | missing (last : Option Nat)
  | found (last : Option Nat) (curr : Nat)

namespace Chunks

variable {α : Type} (l : Chunks α)

/-- Looks for a value from the pointer `curr` on, in a number of steps.  There
is no result if a pointer leads out of the chunks in use, or if the steps do not
suffice. -/
def searchFrom (p : α → Bool) : Nat → Option Nat → Option Nat → Option Search
  | _, last, none => some (.missing last)
  | 0, _, some _ => none
  | steps + 1, last, some curr =>
      if curr ∈ l.used then
        if p (l.cell curr).value then some (.found last curr)
        else searchFrom p steps (some curr) (l.cell curr).next
      else none

/-- A search through the list.  No search that ends takes more steps than there
are chunks. -/
def search (p : α → Bool) : Option Search :=
  l.searchFrom p l.used.length none l.root

/-- The pointer behind `last`, or that of the list, is set. -/
def relink (last target : Option Nat) : Chunks α :=
  match last with
  | some last =>
      { l with cell := update l.cell last ⟨(l.cell last).value, target⟩ }
  | none => { l with root := target }

/-- A chunk comes into use. -/
def alloc (curr : Nat) (cell : Cell α) : Chunks α :=
  { l with used := curr :: l.used, cell := update l.cell curr cell }

def free (curr : Nat) : Chunks α := { l with used := l.used.erase curr }

def setValue (curr : Nat) (value : α) : Chunks α :=
  { l with cell := update l.cell curr ⟨value, (l.cell curr).next⟩ }

/-- The pointers lead from `start` along the chunks of a path to `stop`. -/
def Segment : Option Nat → List Nat → Option Nat → Prop
  | start, [], stop => start = stop
  | start, curr :: path, stop =>
      start = some curr ∧ curr ∈ l.used ∧
        Segment (l.cell curr).next path stop

section Walks

variable {l} {p : α → Bool}

/-- The chunks that a search from `start` comes to. -/
def Walk (l : Chunks α) (p : α → Bool) : Option Nat → List Nat → Prop
  | start, [] => start = none
  | start, curr :: path =>
      start = some curr ∧ curr ∈ l.used ∧
        if p (l.cell curr).value then path = []
        else Walk l p (l.cell curr).next path

/-- How a search along the chunks ends. -/
def ending (l : Chunks α) (p : α → Bool) : Option Nat → List Nat → Search
  | last, [] => .missing last
  | last, curr :: path =>
      if p (l.cell curr).value then .found last curr
      else ending l p (some curr) path

theorem searchFrom_eq_some_iff {steps : Nat} {last start : Option Nat}
    {result : Search} :
    l.searchFrom p steps last start = some result ↔
      ∃ path, l.Walk p start path ∧ path.length ≤ steps ∧
        result = l.ending p last path := by
  induction steps generalizing last start result with
  | zero =>
      cases start with
      | none =>
          constructor
          · intro done
            exact ⟨[], rfl, Nat.le_refl _, (Option.some.inj done).symm⟩
          · rintro ⟨path, -, short, rfl⟩
            obtain rfl := List.length_eq_zero_iff.mp (Nat.le_zero.mp short)
            rfl
      | some curr =>
          refine iff_of_false nofun ?_
          rintro ⟨path, walk, short, -⟩
          obtain rfl := List.length_eq_zero_iff.mp (Nat.le_zero.mp short)
          cases walk
  | succ steps ih =>
      cases start with
      | none =>
          constructor
          · intro done
            exact ⟨[], rfl, Nat.zero_le _, (Option.some.inj done).symm⟩
          · rintro ⟨_ | ⟨curr, path⟩, walk, -, rfl⟩
            · rfl
            · cases walk.1
      | some curr =>
          rw [searchFrom]
          constructor
          · intro done
            split_ifs at done with inUse here
            · refine ⟨[curr], ⟨rfl, inUse, by rw [if_pos here]⟩,
                Nat.succ_le_succ (Nat.zero_le _), ?_⟩
              rw [ending, if_pos here, Option.some.inj done]
            · obtain ⟨path, walk, short, rfl⟩ := ih.mp done
              refine ⟨curr :: path, ⟨rfl, inUse, by rwa [if_neg here]⟩,
                Nat.succ_le_succ short, ?_⟩
              rw [ending, if_neg here]
          · rintro ⟨_ | ⟨first, path⟩, walk, short, rfl⟩
            · cases walk
            · obtain ⟨same, inUse, rest⟩ := walk
              obtain rfl := Option.some.inj same
              rw [if_pos inUse]
              split_ifs at rest with here
              · rw [if_pos here, ending, if_pos here]
              · rw [if_neg here, ending, if_neg here]
                exact ih.mpr ⟨path, rest, Nat.le_of_succ_le_succ short, rfl⟩

/-- A search from the same pointer comes to the same chunks. -/
theorem Walk.unique {start : Option Nat} {path other : List Nat}
    (walk : l.Walk p start path) (again : l.Walk p start other) :
    path = other := by
  induction path generalizing start other with
  | nil =>
      cases other with
      | nil => rfl
      | cons curr other => exact absurd (walk.symm.trans again.1) nofun
  | cons curr path ih =>
      cases other with
      | nil => exact absurd (again.symm.trans walk.1) nofun
      | cons first other =>
          obtain ⟨start, -, rest⟩ := walk
          obtain ⟨startAgain, -, restAgain⟩ := again
          obtain rfl := Option.some.inj (start.symm.trans startAgain)
          split_ifs at rest restAgain with here
          · rw [rest, restAgain]
          · rw [ih rest restAgain]

theorem Walk.suffix {start : Option Nat} {front back : List Nat} {curr : Nat}
    (walk : l.Walk p start (front ++ curr :: back)) :
    l.Walk p (some curr) (curr :: back) := by
  induction front generalizing start with
  | nil => exact ⟨rfl, walk.2⟩
  | cons first front ih =>
      have rest := walk.2.2
      split_ifs at rest
      · simp at rest
      · exact ih rest

/-- A search that ends comes to no chunk twice. -/
theorem Walk.nodup {start : Option Nat} {path : List Nat}
    (walk : l.Walk p start path) : path.Nodup := by
  induction path generalizing start with
  | nil => exact List.nodup_nil
  | cons curr path ih =>
      refine List.nodup_cons.mpr ⟨fun again => ?_, ?_⟩
      · obtain ⟨front, back, rfl⟩ := List.append_of_mem again
        have here : l.Walk p (some curr) (curr :: (front ++ curr :: back)) :=
          ⟨rfl, walk.2⟩
        have later : l.Walk p (some curr) (curr :: back) :=
          @Walk.suffix α l p start (curr :: front) back curr walk
        have lengths := congrArg List.length (here.unique later)
        simp at lengths
        omega
      · have rest := walk.2.2
        split_ifs at rest
        · rw [rest]
          exact List.nodup_nil
        · exact ih rest

theorem Walk.subset {start : Option Nat} {path : List Nat}
    (walk : l.Walk p start path) : path ⊆ l.used := by
  induction path generalizing start with
  | nil => exact List.nil_subset _
  | cons curr path ih =>
      refine List.cons_subset.mpr ⟨walk.2.1, ?_⟩
      have rest := walk.2.2
      split_ifs at rest
      · rw [rest]
        exact List.nil_subset _
      · exact ih rest

/-- As many steps as there are chunks suffice for every search that ends. -/
theorem searchFrom_used {steps : Nat} {last start : Option Nat}
    {result : Search}
    (done : l.searchFrom p steps last start = some result) :
    l.searchFrom p l.used.length last start = some result := by
  obtain ⟨path, walk, -, rfl⟩ := searchFrom_eq_some_iff.mp done
  exact searchFrom_eq_some_iff.mpr ⟨path, walk,
    (List.subperm_of_subset walk.nodup walk.subset).length_le, rfl⟩

theorem search_eq_some_iff {result : Search} :
    l.search p = some result ↔
      ∃ path, l.Walk p l.root path ∧ result = l.ending p none path := by
  constructor
  · intro done
    obtain ⟨path, walk, -, same⟩ := searchFrom_eq_some_iff.mp done
    exact ⟨path, walk, same⟩
  · rintro ⟨path, walk, same⟩
    exact searchFrom_used (searchFrom_eq_some_iff.mpr
      ⟨path, walk, Nat.le_refl _, same⟩)

/-- What is found is in use and is what was looked for. -/
theorem Walk.found {start last previous : Option Nat} {path : List Nat}
    {curr : Nat} (walk : l.Walk p start path)
    (result : l.ending p last path = .found previous curr) :
    curr ∈ l.used ∧ p (l.cell curr).value = true := by
  induction path generalizing start last with
  | nil => cases result
  | cons first path ih =>
      obtain ⟨-, inUse, rest⟩ := walk
      rw [ending] at result
      split_ifs at rest result with here
      · obtain ⟨-, rfl⟩ := Search.found.inj result
        exact ⟨inUse, here⟩
      · exact ih rest result

theorem mem_used_of_search {last : Option Nat} {curr : Nat}
    (done : l.search p = some (.found last curr)) :
    curr ∈ l.used ∧ p (l.cell curr).value = true := by
  obtain ⟨path, walk, result⟩ := search_eq_some_iff.mp done
  exact walk.found result.symm

theorem isSome_of_ending {last : Nat} {previous : Option Nat}
    {path : List Nat} (result : l.ending p (some last) path = .missing previous) :
    previous.isSome = true := by
  induction path generalizing last with
  | nil =>
      obtain rfl := Search.missing.inj result
      rfl
  | cons curr path ih =>
      rw [ending] at result
      split_ifs at result
      exact ih result

/-- A search in a list that is not empty ends behind a chunk. -/
theorem isSome_of_search {last : Option Nat}
    (done : l.search p = some (.missing last)) (root : l.root.isSome = true) :
    last.isSome = true := by
  obtain ⟨_ | ⟨curr, path⟩, walk, result⟩ := search_eq_some_iff.mp done
  · rw [show l.root = none from walk] at root
    cases root
  · rw [ending] at result
    split_ifs at result
    exact isSome_of_ending result.symm

end Walks

section Segments

variable {l} {p : α → Bool} {start stop : Option Nat} {path : List Nat}

theorem segment_append {front back : List Nat} :
    l.Segment start (front ++ back) stop ↔
      ∃ middle, l.Segment start front middle ∧
        l.Segment middle back stop := by
  induction front generalizing start with
  | nil => exact ⟨fun segment => ⟨start, rfl, segment⟩,
      fun ⟨_, same, segment⟩ => same ▸ segment⟩
  | cons curr front ih =>
      constructor
      · rintro ⟨rfl, inUse, rest⟩
        obtain ⟨middle, first, second⟩ := ih.mp rest
        exact ⟨middle, ⟨rfl, inUse, first⟩, second⟩
      · rintro ⟨middle, ⟨rfl, inUse, first⟩, second⟩
        exact ⟨rfl, inUse, ih.mpr ⟨middle, first, second⟩⟩

theorem Segment.subset (segment : l.Segment start path stop) :
    path ⊆ l.used := by
  induction path generalizing start with
  | nil => exact List.nil_subset _
  | cons curr path ih =>
      exact List.cons_subset.mpr ⟨segment.2.1, ih segment.2.2⟩

/-- A segment depends on the pointers of its chunks only. -/
theorem Segment.congr {next : Chunks α} (segment : l.Segment start path stop)
    (same : ∀ curr ∈ path, curr ∈ next.used ∧
      (next.cell curr).next = (l.cell curr).next) :
    next.Segment start path stop := by
  induction path generalizing start with
  | nil => exact segment
  | cons curr path ih =>
      obtain ⟨inUse, pointer⟩ := same curr List.mem_cons_self
      refine ⟨segment.1, inUse, ?_⟩
      rw [pointer]
      exact ih segment.2.2 fun other member =>
        same other (List.mem_cons_of_mem _ member)

/-- A search through a segment ends at the first chunk with a value that was
looked for, wherever the segment leads. -/
theorem Segment.search_found {front back : List Nat} {curr : Nat}
    (segment : l.Segment l.root (front ++ curr :: back) stop)
    (before : ∀ other ∈ front, p (l.cell other).value = false)
    (here : p (l.cell curr).value = true) :
    l.search p = some (.found front.getLast? curr) := by
  have general : ∀ start last,
      l.Segment start (front ++ curr :: back) stop →
        l.Walk p start (front ++ [curr]) ∧
          l.ending p last (front ++ [curr]) =
            .found (front.getLast?.or last) curr := by
    clear segment
    induction front with
    | nil =>
        intro start last segment
        refine ⟨⟨segment.1, segment.2.1, by rw [if_pos here]⟩, ?_⟩
        rw [List.nil_append, ending, if_pos here]
        rfl
    | cons first front ih =>
        intro start last segment
        have other : ¬p (l.cell first).value = true := by
          rw [before first List.mem_cons_self]
          exact Bool.false_ne_true
        obtain ⟨walk, result⟩ := ih (fun other member =>
          before other (List.mem_cons_of_mem _ member)) _ (some first)
            segment.2.2
        refine ⟨⟨segment.1, segment.2.1, by rwa [if_neg other]⟩, ?_⟩
        rw [List.cons_append, ending, if_neg other, result,
          List.getLast?_cons]
        cases front.getLast? <;> rfl
  obtain ⟨walk, result⟩ := general l.root none segment
  rw [Option.or_none] at result
  exact search_eq_some_iff.mpr ⟨_, walk, result.symm⟩

/-- A search through a list that is known as a whole. -/
theorem Segment.search_missing (segment : l.Segment l.root path none)
    (none_of : ∀ other ∈ path, p (l.cell other).value = false) :
    l.search p = some (.missing path.getLast?) := by
  have general : ∀ start last, l.Segment start path none →
      l.Walk p start path ∧
        l.ending p last path = .missing (path.getLast?.or last) := by
    clear segment
    induction path with
    | nil =>
        intro start last segment
        exact ⟨segment, rfl⟩
    | cons first path ih =>
        intro start last segment
        have other : ¬p (l.cell first).value = true := by
          rw [none_of first List.mem_cons_self]
          exact Bool.false_ne_true
        obtain ⟨walk, result⟩ := ih (fun other member =>
          none_of other (List.mem_cons_of_mem _ member)) _ (some first)
            segment.2.2
        refine ⟨⟨segment.1, segment.2.1, by rwa [if_neg other]⟩, ?_⟩
        rw [ending, if_neg other, result, List.getLast?_cons]
        cases path.getLast? <;> rfl
  obtain ⟨walk, result⟩ := general l.root none segment
  rw [Option.or_none] at result
  exact search_eq_some_iff.mpr ⟨_, walk, result.symm⟩

end Segments

section Changes

variable {l} {path : List Nat} {stop : Option Nat} {curr : Nat}

@[simp]
theorem relink_used (last target : Option Nat) :
    (l.relink last target).used = l.used := by
  cases last <;> rfl

@[simp]
theorem relink_value (last target : Option Nat) (other : Nat) :
    ((l.relink last target).cell other).value = (l.cell other).value := by
  cases last with
  | none => rfl
  | some last =>
      by_cases same : other = last
      · subst same
        simp [relink]
      · simp [relink, same]

/-- A value that changes does not move the list. -/
theorem Segment.setValue {start : Option Nat}
    (segment : l.Segment start path stop) (curr : Nat) (value : α) :
    (l.setValue curr value).Segment start path stop := by
  refine segment.congr fun other member => ⟨segment.subset member, ?_⟩
  by_cases same : other = curr
  · subst same
    simp [Chunks.setValue]
  · simp [Chunks.setValue, same]

/-- A new chunk behind the last one of a list. -/
theorem Segment.append (segment : l.Segment l.root path none)
    (nodup : path.Nodup) (fresh : curr ∉ l.used) (cell : Cell α) :
    ((l.alloc curr cell).relink path.getLast? (some curr)).Segment
      ((l.alloc curr cell).relink path.getLast? (some curr)).root
        (path ++ [curr]) cell.next := by
  rcases List.eq_nil_or_concat path with rfl | ⟨front, last, rfl⟩
  · refine ⟨rfl, List.mem_cons_self, ?_⟩
    simp [relink, alloc, Segment]
  · rw [List.concat_eq_append] at segment nodup ⊢
    obtain ⟨middle, first, second⟩ := segment_append.mp segment
    have lastUsed : last ∈ l.used := second.2.1
    have lastOld : last ≠ curr := fun same => fresh (same ▸ lastUsed)
    have apart : last ∉ front := by
      intro member
      rw [List.nodup_append] at nodup
      exact nodup.2.2 last member last (List.mem_singleton_self _) rfl
    rw [List.getLast?_concat]
    refine segment_append.mpr ⟨some curr, segment_append.mpr
      ⟨middle, ?_, second.1, List.mem_cons_of_mem _ lastUsed, ?_⟩, rfl,
      List.mem_cons_self, ?_⟩
    · refine first.congr fun other member => ?_
      have old := first.subset member
      have notLast : other ≠ last := fun same => apart (same ▸ member)
      have notNew : other ≠ curr := fun same => fresh (same ▸ old)
      refine ⟨List.mem_cons_of_mem _ old, ?_⟩
      simp [relink, alloc, notLast, notNew]
    · simp [relink, alloc, Segment]
    · simp [relink, alloc, Segment, lastOld.symm]

/-- A chunk behind another one is taken out of a list. -/
theorem Segment.unlink {front back : List Nat} {last : Nat}
    (segment : l.Segment l.root (front ++ last :: curr :: back) stop)
    (nodup : (front ++ last :: curr :: back).Nodup) :
    ((l.relink (some last) (l.cell curr).next).free curr).Segment l.root
      (front ++ last :: back) stop := by
  obtain ⟨middle, first, lead, lastUsed, -, -, rest⟩ :=
    segment_append.mp segment
  rw [List.nodup_append, List.nodup_cons, List.nodup_cons,
    List.mem_cons, not_or] at nodup
  obtain ⟨-, ⟨⟨different, notBehind⟩, currApart, -⟩, apart⟩ := nodup
  have kept : ∀ other ∈ l.used, other ≠ curr →
      other ∈ ((l.relink (some last) (l.cell curr).next).free curr).used :=
    fun other inUse notCurr =>
      (List.mem_erase_of_ne notCurr).mpr (by rwa [relink_used])
  have pointer : ∀ other, other ≠ last →
      (((l.relink (some last) (l.cell curr).next).free curr).cell other).next =
        (l.cell other).next := fun other notLast => by
    simp [relink, Chunks.free, notLast]
  refine segment_append.mpr ⟨middle, first.congr fun other member => ?_, lead,
    kept last lastUsed different, ?_⟩
  · exact ⟨kept other (first.subset member) (apart other member curr (by simp)),
      pointer other (apart other member last (by simp))⟩
  · have target : (((l.relink (some last) (l.cell curr).next).free curr).cell
        last).next = (l.cell curr).next := by
      simp [relink, Chunks.free]
    rw [target]
    refine rest.congr fun other member => ?_
    exact ⟨kept other (rest.subset member) fun same =>
        currApart (same ▸ member),
      pointer other fun same => notBehind (same ▸ member)⟩

end Changes

end Chunks

end LinuxKernelDev.LinkedChunks
