import LinuxKernelDev.KeyedRegistry
import LinuxKernelDev.StatusListing
import Mathlib.Data.List.Perm.Basic

/-!
# The process list of the CPU usage tracker

The objects of `mp1cache` and the list of `mp1.c` that links them, with what
`idregister`, `work_func` and `cleanuplist` do to them under the lock.  Each
object is on the list or held by a call of `idregister`, and the operations
change the list as they change a registry of pids.
-/

namespace LinuxKernelDev.CpuTracker

open Function KeyedRegistry

/-- The objects of `mp1cache` and the list that links them. -/
structure Pool where
  node : Nat → Entry
  allocated : List Nat
  mp1listhead : List Nat

namespace Pool

def initial : Pool where
  node _ := ⟨0, 0⟩
  allocated := []
  mp1listhead := []

def entry (p : Pool) (cur : Nat) : Int32 × UInt64 :=
  ((p.node cur).pid, (p.node cur).cpuTime)

/-- The pids on the list with their CPU times. -/
def entries (p : Pool) : List (Int32 × UInt64) := p.mp1listhead.map p.entry

/-- `idregister` up to its critical section: `kmem_cache_alloc` has returned
`node`, which is filled in. -/
def allocate (p : Pool) (node : Nat) (pid : Int32) : Pool :=
  { p with
    node := update p.node node ⟨pid, 0⟩
    allocated := node :: p.allocated }

/-- The loop of `idregister` finds the pid on the list. -/
def listed (p : Pool) (pid : Int32) : Bool :=
  p.mp1listhead.any fun temp => (p.node temp).pid == pid

/-- `list_add_tail`. -/
def insert (p : Pool) (node : Nat) : Pool :=
  { p with mp1listhead := p.mp1listhead ++ [node] }

/-- `kmem_cache_free`. -/
def free (p : Pool) (node : Nat) : Pool :=
  { p with allocated := p.allocated.erase node }

/-- `list_del` and `kmem_cache_free`. -/
def delete (p : Pool) (cur : Nat) : Pool :=
  { p with
    allocated := p.allocated.erase cur
    mp1listhead := p.mp1listhead.erase cur }

def setTime (p : Pool) (cur : Nat) (temptime : UInt64) : Pool :=
  { p with node := update p.node cur { p.node cur with cpuTime := temptime } }

/-- One turn of the loop of `work_func`.  `cpuUse` is what
`get_cpu_use` stores for a pid; it has nothing for a task that is gone. -/
def refresh (cpuUse : Int32 → Option UInt64) (p : Pool) (cur : Nat) : Pool :=
  match cpuUse (p.node cur).pid with
  | none => p.delete cur
  | some temptime => p.setTime cur temptime

def workFunc (cpuUse : Int32 → Option UInt64) (p : Pool) : Pool :=
  p.mp1listhead.foldl (refresh cpuUse) p

def cleanuplist (p : Pool) : Pool :=
  p.mp1listhead.foldl delete p

/-- The objects are those of the list and those that are held, each once, and
no pid is on the list twice. -/
structure Owns (p : Pool) (held : List Nat) : Prop where
  accounted : p.allocated.Perm (p.mp1listhead ++ held)
  nodup : p.allocated.Nodup
  pids : (keys p.entries).Nodup

theorem Owns.initial : Owns Pool.initial [] :=
  ⟨.refl _, List.nodup_nil, List.nodup_nil⟩

theorem mem_keys_entries {p : Pool} {pid : Int32} :
    pid ∈ keys p.entries ↔ p.listed pid = true := by
  simp [keys, entries, entry, listed, List.any_eq_true]

/-- Only the objects on the list show. -/
theorem entries_congr {p q : Pool} (same : q.mp1listhead = p.mp1listhead)
    (nodes : ∀ cur ∈ p.mp1listhead, q.node cur = p.node cur) :
    q.entries = p.entries := by
  unfold entries
  rw [same]
  refine List.map_congr_left fun cur member => ?_
  rw [entry, nodes cur member]
  rfl

namespace Owns

variable {p : Pool} {held : List Nat}

theorem mem_allocated (owns : Owns p held) {node : Nat} :
    node ∈ p.allocated ↔ node ∈ p.mp1listhead ∨ node ∈ held := by
  rw [owns.accounted.mem_iff, List.mem_append]

theorem append_nodup (owns : Owns p held) : (p.mp1listhead ++ held).Nodup :=
  owns.accounted.nodup_iff.mp owns.nodup

theorem list_nodup (owns : Owns p held) : p.mp1listhead.Nodup :=
  (List.nodup_append.mp owns.append_nodup).1

theorem notMem_held (owns : Owns p held) {node : Nat}
    (member : node ∈ p.mp1listhead) : node ∉ held := fun isHeld =>
  (List.nodup_append.mp owns.append_nodup).2.2 node member node isHeld rfl

/-- The order in which objects are held does not matter. -/
theorem perm (owns : Owns p held) {other : List Nat} (same : held.Perm other) :
    Owns p other :=
  ⟨owns.accounted.trans (same.append_left _), owns.nodup, owns.pids⟩

theorem allocate (owns : Owns p held) {node : Nat} (fresh : node ∉ p.allocated)
    (pid : Int32) :
    Owns (p.allocate node pid) (node :: held) ∧
      (p.allocate node pid).entries = p.entries := by
  have others : (p.allocate node pid).entries = p.entries := by
    refine entries_congr rfl fun cur member => update_of_ne ?_ _ _
    rintro rfl
    exact fresh (owns.mem_allocated.mpr (Or.inl member))
  refine ⟨⟨?_, List.nodup_cons.mpr ⟨fresh, owns.nodup⟩, ?_⟩, others⟩
  · exact (owns.accounted.cons node).trans List.perm_middle.symm
  · rw [others]
    exact owns.pids

theorem free {node : Nat} (owns : Owns p (node :: held)) :
    Owns (p.free node) held := by
  have notListed : node ∉ p.mp1listhead := fun member =>
    owns.notMem_held member List.mem_cons_self
  refine ⟨?_, owns.nodup.erase node, owns.pids⟩
  have erased := owns.accounted.erase node
  rwa [List.erase_append_right _ notListed, List.erase_cons_head] at erased

/-- An object that is held is linked with a pid that is not on the list. -/
theorem insert {node : Nat} {pid : Int32} (owns : Owns p (node :: held))
    (filled : p.node node = ⟨pid, 0⟩) (absent : p.listed pid = false) :
    Owns (p.insert node) held ∧
      (p.insert node).entries = change p.entries (.enter pid 0) := by
  have notKey : pid ∉ keys p.entries := by
    rw [mem_keys_entries, absent]
    exact Bool.false_ne_true
  have entered : (p.insert node).entries = change p.entries (.enter pid 0) := by
    rw [change, if_neg notKey]
    simp [entries, entry, Pool.insert, filled]
  refine ⟨⟨?_, owns.nodup, ?_⟩, entered⟩
  · rw [Pool.insert, List.append_assoc, List.singleton_append]
    exact owns.accounted
  · rw [entered]
    exact nodup_keys_change owns.pids _

end Owns

/-- A pid that is on the list is not entered again. -/
theorem change_enter_of_listed {p : Pool} {pid : Int32}
    (present : p.listed pid = true) :
    change p.entries (.enter pid 0) = p.entries :=
  if_pos (mem_keys_entries.mpr present)

section Loops

variable {p : Pool} {held done todo : List Nat}

/-- The loop of `work_func` from the middle of the list on.  The objects in
front have been refreshed; deleting one behind them does not move them. -/
theorem foldl_refresh (cpuUse : Int32 → Option UInt64)
    (split : p.mp1listhead = done ++ todo) (nodup : (done ++ todo).Nodup)
    (accounted : p.allocated.Perm (p.mp1listhead ++ held))
    (distinct : p.allocated.Nodup) :
    let q := todo.foldl (refresh cpuUse) p
    q.allocated.Perm (q.mp1listhead ++ held) ∧ q.allocated.Nodup ∧
      q.entries =
        done.map p.entry ++ change (todo.map p.entry) (.refresh cpuUse) := by
  induction todo generalizing p done with
  | nil =>
      refine ⟨accounted, distinct, ?_⟩
      simp [entries, change, split]
  | cons cur todo ih =>
      have notDone : cur ∉ done := fun member =>
        (List.nodup_append.mp nodup).2.2 cur member cur List.mem_cons_self rfl
      have notTodo : cur ∉ todo :=
        (List.nodup_cons.mp (List.nodup_append.mp nodup).2.1).1
      rw [List.foldl_cons]
      cases used : cpuUse (p.node cur).pid with
      | none =>
          have turn : refresh cpuUse p cur = p.delete cur := by
            rw [refresh, used]
          have remaining : (p.delete cur).mp1listhead = done ++ todo := by
            rw [delete, split, List.erase_append_right _ notDone,
              List.erase_cons_head]
          have shorter : (done ++ todo).Nodup := by
            refine nodup.sublist ?_
            exact (List.Sublist.refl done).append (List.sublist_cons_self _ _)
          have listed : cur ∈ p.mp1listhead := by
            rw [split]
            exact List.mem_append_right _ List.mem_cons_self
          have erased := accounted.erase cur
          rw [List.erase_append_left _ listed] at erased
          rw [turn]
          obtain ⟨owned, still, shown⟩ :=
            ih remaining shorter erased (distinct.erase cur)
          have entrySame : (p.delete cur).entry = p.entry := rfl
          refine ⟨owned, still, shown.trans ?_⟩
          rw [entrySame]
          simp [change, entry, used]
      | some temptime =>
          have turn : refresh cpuUse p cur = p.setTime cur temptime := by
            rw [refresh, used]
          have otherSame : ∀ other, other ≠ cur →
              (p.setTime cur temptime).node other = p.node other :=
            fun other different => update_of_ne different _ _
          have here : (p.setTime cur temptime).node cur =
              { p.node cur with cpuTime := temptime } := update_self _ _ _
          rw [turn]
          obtain ⟨owned, still, shown⟩ :=
            @ih (p.setTime cur temptime) (done ++ [cur])
              (by rw [setTime, split]; simp) (by simpa using nodup) accounted
              distinct
          refine ⟨owned, still, shown.trans ?_⟩
          have doneSame : done.map (p.setTime cur temptime).entry =
              done.map p.entry :=
            List.map_congr_left fun other member => by
              rw [entry, otherSame other fun same => notDone (same ▸ member)]
              rfl
          have todoSame : todo.map (p.setTime cur temptime).entry =
              todo.map p.entry :=
            List.map_congr_left fun other member => by
              rw [entry, otherSame other fun same => notTodo (same ▸ member)]
              rfl
          rw [List.map_append, doneSame, todoSame]
          simp [change, entry, used, here]

theorem Owns.workFunc (owns : Owns p held) (cpuUse : Int32 → Option UInt64) :
    Owns (p.workFunc cpuUse) held ∧
      (p.workFunc cpuUse).entries =
        change p.entries (.refresh cpuUse) := by
  obtain ⟨accounted, nodup, shown⟩ := foldl_refresh cpuUse
    (List.nil_append p.mp1listhead).symm owns.list_nodup owns.accounted
    owns.nodup
  have refreshed : (p.workFunc cpuUse).entries =
      change p.entries (.refresh cpuUse) := shown
  refine ⟨⟨accounted, nodup, ?_⟩, refreshed⟩
  rw [refreshed]
  exact nodup_keys_change owns.pids _

/-- The loop of `cleanuplist` empties the list from the front. -/
theorem foldl_delete (split : p.mp1listhead = todo)
    (accounted : p.allocated.Perm (todo ++ held)) (distinct : p.allocated.Nodup) :
    (todo.foldl delete p).mp1listhead = [] ∧
      (todo.foldl delete p).allocated.Perm held ∧
        (todo.foldl delete p).allocated.Nodup := by
  induction todo generalizing p with
  | nil => exact ⟨split, accounted, distinct⟩
  | cons cur todo ih =>
      have erased := accounted.erase cur
      rw [List.cons_append, List.erase_cons_head] at erased
      refine ih ?_ erased (distinct.erase cur)
      rw [delete, split, List.erase_cons_head]

theorem Owns.cleanuplist (owns : Owns p held) :
    Owns p.cleanuplist held ∧
      p.cleanuplist.entries = change p.entries (.refresh fun _ => none) := by
  obtain ⟨empty, accounted, nodup⟩ := foldl_delete rfl owns.accounted owns.nodup
  have emptied : p.cleanuplist.entries = [] := by
    rw [entries, Pool.cleanuplist, empty, List.map_nil]
  have dropped : change p.entries (.refresh fun _ => none) = [] := by
    simp [change]
  refine ⟨⟨?_, nodup, ?_⟩, emptied.trans dropped.symm⟩
  · rw [Pool.cleanuplist, empty]
    exact accounted
  · rw [emptied]
    exact List.nodup_nil

/-- Refreshing the list does not touch the objects that are held. -/
theorem foldl_refresh_node (cpuUse : Int32 → Option UInt64) {other : Nat}
    (absent : other ∉ todo) :
    (todo.foldl (refresh cpuUse) p).node other = p.node other := by
  induction todo generalizing p with
  | nil => rfl
  | cons cur todo ih =>
      rw [List.mem_cons, not_or] at absent
      obtain ⟨different, later⟩ := absent
      rw [List.foldl_cons, ih later, refresh]
      cases cpuUse (p.node cur).pid with
      | none => rfl
      | some temptime => exact update_of_ne different _ _

theorem foldl_delete_node : (todo.foldl delete p).node = p.node := by
  induction todo generalizing p with
  | nil => rfl
  | cons cur todo ih => rw [List.foldl_cons, ih, delete]

end Loops

end Pool

end LinuxKernelDev.CpuTracker
