import LinuxKernelDev.MkfsTreeSteps
import Mathlib.Algebra.Order.BigOperators.Group.List
import Mathlib.Data.List.Nodup

/-!
# What the hard link map knows

`fetchHardLink` keeps a list of the host files that have links to come.  A file
whose last link was used is taken out of the list, but if it is the first one,
the whole list is dropped.  So the list knows the files that came since it was
last empty, unless all their links have come.

A new node is put behind the last one, and its field `next` is not written.  As
long as the value that stands there is not read or is `NULL`, the nodes that
follow from the calls are those of the list.
-/

namespace LinuxKernelDev.Mkfs

open LinkedChunks

/-- The arguments of a call of `fetchHardLink`, and what `malloc` returns if the
call makes a node. -/
structure LinkCall where
  hostINode : UInt32
  nlinks : UInt32
  chunk : Option Chunk

def hosts (calls : List LinkCall) : List UInt32 :=
  calls.map LinkCall.hostINode

/-- Each host inode comes with the same number of links, which is at least one,
and does not come more often. -/
structure Steady (calls : List LinkCall) : Prop where
  positive : ∀ call ∈ calls, 1 ≤ call.nlinks
  same : ∀ call ∈ calls, ∀ other ∈ calls,
    call.hostINode = other.hostINode → call.nlinks = other.nlinks
  count : ∀ call ∈ calls,
    (hosts calls).count call.hostINode ≤ call.nlinks.toNat

/-- The calls begin with a file of several links, all of which have come. -/
def exhausted (calls : List LinkCall) : Bool :=
  calls.head?.any fun first => decide (2 ≤ first.nlinks.toNat ∧
    (hosts calls).count first.hostINode = first.nlinks.toNat)

/-- The calls since the map was last empty, and what stands in the field `next`
of the node that was made last. -/
structure Stretch where
  calls : List LinkCall
  next : Option Nat

/-- The map is empty. -/
def Stretch.start : Stretch := ⟨[], none⟩

def Stretch.add (recent : Stretch) (call : LinkCall) : Stretch :=
  if exhausted (recent.calls ++ [call]) then .start
  else ⟨recent.calls ++ [call],
    if call.hostINode ∈ hosts recent.calls then recent.next
    else call.chunk.bind Chunk.next⟩

/-- The calls since the map was last empty, after calls that began with an empty
map. -/
def stretch (past : List LinkCall) : Stretch :=
  past.foldl Stretch.add .start

/-- Whenever a node is made, `malloc` returns a chunk, and the list that is
searched before ends with `NULL`. -/
def Terminated (calls : List LinkCall) : Prop :=
  ∀ before call after, calls = before ++ call :: after →
    call.hostINode ∉ hosts (stretch before).calls →
      call.chunk.isSome ∧ (stretch before).next = none

/-- No host inode comes again after the map that had it was dropped. -/
def Kept (calls : List LinkCall) : Prop :=
  ∀ before call after, calls = before ++ call :: after →
    call.hostINode ∈ hosts before →
      call.hostINode ∈ hosts (stretch before).calls

section Stretches

variable {call : LinkCall} {calls past : List LinkCall}

@[simp]
theorem hosts_append (calls more : List LinkCall) :
    hosts (calls ++ more) = hosts calls ++ hosts more :=
  List.map_append

theorem mem_hosts {hostINode : UInt32} :
    hostINode ∈ hosts calls ↔ ∃ call ∈ calls, call.hostINode = hostINode :=
  List.mem_map

theorem count_hosts_concat (calls : List LinkCall) (call : LinkCall)
    (hostINode : UInt32) :
    (hosts (calls ++ [call])).count hostINode =
      (hosts calls).count hostINode +
        if call.hostINode = hostINode then 1 else 0 := by
  rw [hosts_append, List.count_append]
  simp [hosts, List.count_singleton]

theorem exhausted_eq_true_iff :
    exhausted calls = true ↔ ∃ first, calls.head? = some first ∧
      2 ≤ first.nlinks.toNat ∧
        (hosts calls).count first.hostINode = first.nlinks.toNat := by
  unfold exhausted
  cases calls.head? <;> simp

theorem stretch_concat (past : List LinkCall) (call : LinkCall) :
    stretch (past ++ [call]) = (stretch past).add call := by
  simp [stretch, List.foldl_append]

/-- The calls since the map was last empty are the last ones. -/
theorem stretch_suffix (past : List LinkCall) : (stretch past).calls <:+ past := by
  induction past using List.reverseRecOn with
  | nil => exact List.suffix_rfl
  | append_singleton past call ih =>
      rw [stretch_concat, Stretch.add]
      split
      · exact List.nil_suffix
      · obtain ⟨older, split⟩ := ih
        exact ⟨older, by rw [← List.append_assoc, split]⟩

theorem Steady.sublist {more : List LinkCall} (steady : Steady more)
    (part : calls.Sublist more) : Steady calls where
  positive call member := steady.positive call (part.subset member)
  same call member other otherMember :=
    steady.same call (part.subset member) other (part.subset otherMember)
  count call member := ((part.map _).count_le _).trans
    (steady.count call (part.subset member))

theorem ne_nil_of_mem_hosts {hostINode : UInt32}
    (member : hostINode ∈ hosts calls) : calls ≠ [] := by
  rintro rfl
  cases member

/-- A call for another file than the last call is an earlier one. -/
theorem mem_of_mem_concat {other : LinkCall} (member : other ∈ calls ++ [call])
    (different : other.hostINode ≠ call.hostINode) : other ∈ calls := by
  refine (List.mem_append.mp member).resolve_right fun last => ?_
  exact different (congrArg LinkCall.hostINode (List.mem_singleton.mp last))

end Stretches

section Nodes

variable {links : Chunks HardLinkMapNode} {last : Option Nat} {chunk : Chunk}
  {node : HardLinkMapNode}

theorem value_addNode_of_ne {other : Nat}
    (different : other ≠ chunk.address links.used) :
    ((addNode links last chunk node).cell other).value =
      (links.cell other).value := by
  simp [addNode, Chunks.alloc, different]

theorem value_addNode_self (links : Chunks HardLinkMapNode)
    (last : Option Nat) (chunk : Chunk) (node : HardLinkMapNode) :
    ((addNode links last chunk node).cell
      (chunk.address links.used)).value = node := by
  simp [addNode, Chunks.alloc]

end Nodes

theorem toNat_sub_one {links : UInt32} (positive : 0 < links.toNat) :
    (links - 1).toNat = links.toNat - 1 := by
  have one : (1 : UInt32) ≤ links := by
    rw [UInt32.le_iff_toNat_le]
    exact positive
  rw [UInt32.toNat_sub_of_le _ _ one]
  rfl

/-- The chunks of a path are the nodes of the map after the calls of a
stretch. -/
structure Tracks (recent : Stretch) (links : Chunks HardLinkMapNode)
    (path : List Nat) : Prop where
  segment : links.Segment links.root path recent.next
  apart : (path.map fun curr => (links.cell curr).value.hostINode).Nodup
  first : path.head?.map (fun curr => (links.cell curr).value.hostINode) =
    (hosts recent.calls).head?
  known : ∀ curr ∈ path,
    (links.cell curr).value.hostINode ∈ hosts recent.calls
  remain : ∀ curr ∈ path, ∀ call ∈ recent.calls,
    call.hostINode = (links.cell curr).value.hostINode →
      (links.cell curr).value.remainLink.toNat +
        (hosts recent.calls).count call.hostINode = call.nlinks.toNat
  present : ∀ call ∈ recent.calls,
    (∃ curr ∈ path, (links.cell curr).value.hostINode = call.hostINode) ∨
      (hosts recent.calls).count call.hostINode = call.nlinks.toNat
  opened : exhausted recent.calls = false

namespace Tracks

variable {recent : Stretch} {links : Chunks HardLinkMapNode}
  {path front back : List Nat} {call : LinkCall} {curr : Nat}

theorem empty (root : links.root = none) : Tracks .start links [] where
  segment := root
  apart := List.nodup_nil
  first := rfl
  known := List.forall_mem_nil _
  remain := List.forall_mem_nil _
  present := List.forall_mem_nil _
  opened := rfl

theorem nodup (tracks : Tracks recent links path) : path.Nodup :=
  tracks.apart.of_map

/-- A call for another file than the first does not exhaust the first. -/
theorem exhausted_concat (tracks : Tracks recent links path)
    (other : ∀ first, recent.calls.head? = some first →
      (hosts (recent.calls ++ [call])).count first.hostINode =
        first.nlinks.toNat →
          (hosts recent.calls).count first.hostINode = first.nlinks.toNat)
    (nonempty : recent.calls ≠ []) :
    exhausted (recent.calls ++ [call]) = false := by
  rw [← Bool.not_eq_true, exhausted_eq_true_iff]
  rintro ⟨first, head, several, all⟩
  rw [List.head?_append_of_ne_nil _ nonempty] at head
  have before := exhausted_eq_true_iff.mpr
    ⟨first, head, several, other first head all⟩
  rw [tracks.opened] at before
  exact Bool.false_ne_true before

section Found

variable (tracks : Tracks recent links path)
  (same : ∀ other ∈ recent.calls, other.hostINode = call.hostINode →
    other.nlinks = call.nlinks)
  (fewer : (hosts recent.calls).count call.hostINode < call.nlinks.toNat)
  (known : call.hostINode ∈ hosts recent.calls)

include tracks same fewer known

/-- The list has a node for a file of the stretch that has a link to come. -/
theorem exists_node :
    ∃ front curr back, path = front ++ curr :: back ∧
      (links.cell curr).value.hostINode = call.hostINode ∧
      (∀ other ∈ front, (links.cell other).value.hostINode ≠ call.hostINode) ∧
      (∀ other ∈ back, (links.cell other).value.hostINode ≠ call.hostINode) ∧
      (links.cell curr).value.remainLink.toNat +
        (hosts recent.calls).count call.hostINode = call.nlinks.toNat := by
  obtain ⟨earlier, member, host⟩ := mem_hosts.mp known
  have nlinks := same earlier member host
  obtain ⟨curr, inPath, node⟩ : ∃ curr ∈ path,
      (links.cell curr).value.hostINode = earlier.hostINode := by
    refine (tracks.present earlier member).resolve_right fun all => ?_
    rw [host, nlinks] at all
    omega
  have remain := tracks.remain curr inPath earlier member node.symm
  rw [host, nlinks] at remain
  obtain ⟨front, back, rfl⟩ := List.append_of_mem inPath
  have apart := tracks.apart
  rw [List.map_append, List.map_cons, List.nodup_append, List.nodup_cons]
    at apart
  obtain ⟨-, ⟨behind, -⟩, before⟩ := apart
  refine ⟨front, curr, back, rfl, node.trans host, fun other inFront equal => ?_,
    fun other inBack equal => ?_, remain⟩
  · refine before _ (List.mem_map_of_mem inFront) _ List.mem_cons_self ?_
    rw [equal, node, host]
  · refine behind (List.mem_map.mpr ⟨other, inBack, ?_⟩)
    rw [equal, node, host]

end Found

/-- The last link of the first file drops the map. -/
theorem drop (tracks : Tracks recent links (curr :: back))
    (host : (links.cell curr).value.hostINode = call.hostINode)
    (same : ∀ other ∈ recent.calls, other.hostINode = call.hostINode →
      other.nlinks = call.nlinks)
    (last : (hosts recent.calls).count call.hostINode + 1 =
      call.nlinks.toNat) :
    Tracks (recent.add call) ((links.relink none none).free curr) [] := by
  have first := tracks.first
  rw [List.head?_cons, Option.map_some, host, hosts, List.head?_map] at first
  obtain ⟨earlier, head, equal⟩ := Option.map_eq_some_iff.mp first.symm
  have member := List.mem_of_head? head
  have before : 0 < (hosts recent.calls).count call.hostINode :=
    List.count_pos_iff.mpr (mem_hosts.mpr ⟨earlier, member, equal⟩)
  have drained : exhausted (recent.calls ++ [call]) = true := by
    refine exhausted_eq_true_iff.mpr ⟨earlier, ?_, ?_, ?_⟩
    · rw [List.head?_append_of_ne_nil _ (List.ne_nil_of_mem member), head]
    · rw [same earlier member equal]
      omega
    · rw [count_hosts_concat, equal, if_pos rfl, last,
        same earlier member equal]
  rw [Stretch.add, if_pos drained]
  exact .empty rfl

section Add

variable (tracks : Tracks recent links path)
  (same : ∀ other ∈ recent.calls, other.hostINode = call.hostINode →
    other.nlinks = call.nlinks)
  (known : call.hostINode ∈ hosts recent.calls)

include tracks same known

/-- A link that is not the last one of the first file does not exhaust it. -/
theorem exhausted_add
    (notFirst : ∀ first, recent.calls.head? = some first →
      first.hostINode = call.hostINode →
        (hosts recent.calls).count call.hostINode + 1 ≠ call.nlinks.toNat) :
    exhausted (recent.calls ++ [call]) = false := by
  refine tracks.exhausted_concat (fun first head all => ?_)
    (ne_nil_of_mem_hosts known)
  rw [count_hosts_concat] at all
  split_ifs at all with equal
  · have nlinks := same first (List.mem_of_head? head) equal.symm
    refine absurd ?_ (notFirst first head equal.symm)
    rw [equal, ← nlinks]
    exact all
  · exact all

/-- The map after a link that is not the last one of the first file. -/
theorem add {next : Chunks HardLinkMapNode} {rest : List Nat}
    (segment : next.Segment next.root rest recent.next)
    (apart : (rest.map fun curr => (next.cell curr).value.hostINode).Nodup)
    (first : rest.head?.map (fun curr => (next.cell curr).value.hostINode) =
      path.head?.map fun curr => (links.cell curr).value.hostINode)
    (subset : ∀ curr ∈ rest, curr ∈ path ∧
      (next.cell curr).value.hostINode = (links.cell curr).value.hostINode)
    (others : ∀ curr ∈ path,
      (links.cell curr).value.hostINode ≠ call.hostINode →
        curr ∈ rest ∧ (next.cell curr).value = (links.cell curr).value)
    (used : ∀ curr ∈ rest, (links.cell curr).value.hostINode = call.hostINode →
      (next.cell curr).value.remainLink.toNat +
        (hosts recent.calls).count call.hostINode + 1 = call.nlinks.toNat)
    (here : (∃ curr ∈ rest,
        (next.cell curr).value.hostINode = call.hostINode) ∨
      (hosts recent.calls).count call.hostINode + 1 = call.nlinks.toNat)
    (notFirst : ∀ first, recent.calls.head? = some first →
      first.hostINode = call.hostINode →
        (hosts recent.calls).count call.hostINode + 1 ≠ call.nlinks.toNat) :
    Tracks (recent.add call) next rest := by
  have opened := tracks.exhausted_add same known notFirst
  have sameLinks : ∀ other ∈ recent.calls ++ [call],
      other.hostINode = call.hostINode → other.nlinks = call.nlinks := by
    intro other member equal
    rcases List.mem_append.mp member with old | new
    · exact same other old equal
    · rw [List.mem_singleton.mp new]
  rw [Stretch.add, if_neg (by rw [opened]; exact Bool.false_ne_true),
    if_pos known]
  refine ⟨segment, apart, ?_, fun curr member => ?_,
    fun curr member other otherMember equal => ?_,
    fun other otherMember => ?_, opened⟩
  · rw [first, tracks.first, hosts_append,
      List.head?_append_of_ne_nil _ (List.ne_nil_of_mem known)]
  · rw [(subset curr member).2, hosts_append]
    exact List.mem_append_left _ (tracks.known curr (subset curr member).1)
  · obtain ⟨inPath, host⟩ := subset curr member
    rw [host] at equal
    rw [count_hosts_concat]
    by_cases isCall : (links.cell curr).value.hostINode = call.hostINode
    · rw [if_pos (by rw [equal, isCall]), equal, isCall,
        sameLinks other otherMember (equal.trans isCall)]
      exact used curr member isCall
    · have different : other.hostINode ≠ call.hostINode := by rwa [equal]
      rw [if_neg different.symm, Nat.add_zero, (others curr inPath isCall).2]
      exact tracks.remain curr inPath other
        (mem_of_mem_concat otherMember different) equal
  · by_cases isCall : other.hostINode = call.hostINode
    · rw [isCall, count_hosts_concat, if_pos rfl,
        sameLinks other otherMember isCall]
      exact here
    · rw [count_hosts_concat, if_neg (Ne.symm isCall), Nat.add_zero]
      refine (tracks.present other
        (mem_of_mem_concat otherMember isCall)).imp_left ?_
      rintro ⟨curr, inPath, host⟩
      obtain ⟨kept, value⟩ := others curr inPath (by rwa [host])
      exact ⟨curr, kept, by rw [value, host]⟩

end Add

/-- A link of a node that has more of them to come. -/
theorem useMore (tracks : Tracks recent links (front ++ curr :: back))
    (same : ∀ other ∈ recent.calls, other.hostINode = call.hostINode →
      other.nlinks = call.nlinks)
    (known : call.hostINode ∈ hosts recent.calls)
    (host : (links.cell curr).value.hostINode = call.hostINode)
    (remain : (links.cell curr).value.remainLink.toNat +
      (hosts recent.calls).count call.hostINode = call.nlinks.toNat)
    (before : ∀ other ∈ front,
      (links.cell other).value.hostINode ≠ call.hostINode)
    (behind : ∀ other ∈ back,
      (links.cell other).value.hostINode ≠ call.hostINode)
    (more : 2 ≤ (links.cell curr).value.remainLink.toNat) :
    Tracks (recent.add call)
      (links.setValue curr { (links.cell curr).value with
        remainLink := (links.cell curr).value.remainLink - 1 })
      (front ++ curr :: back) := by
  have fewer := toNat_sub_one (show
    0 < (links.cell curr).value.remainLink.toNat by omega)
  have hostsSame : ∀ other,
      ((links.setValue curr { (links.cell curr).value with
        remainLink := (links.cell curr).value.remainLink - 1 }).cell
          other).value.hostINode = (links.cell other).value.hostINode := by
    intro other
    by_cases equal : other = curr
    · subst equal
      simp [Chunks.setValue]
    · simp [Chunks.setValue, equal]
  have valueSame : ∀ other, other ≠ curr →
      ((links.setValue curr { (links.cell curr).value with
        remainLink := (links.cell curr).value.remainLink - 1 }).cell
          other).value = (links.cell other).value := by
    intro other different
    simp [Chunks.setValue, different]
  refine tracks.add same known (tracks.segment.setValue _ _) ?_ ?_
    (fun other member => ⟨member, hostsSame other⟩)
    (fun other member different => ⟨member, valueSame other ?_⟩)
    (fun other member equal => ?_)
    (.inl ⟨curr, by simp, (hostsSame curr).trans host⟩) fun _ _ _ => by omega
  · simp only [hostsSame]
    exact tracks.apart
  · simp only [hostsSame]
  · rintro rfl
    exact different host
  · obtain rfl : other = curr := by
      rcases List.mem_append.mp member with inFront | later
      · exact absurd equal (before other inFront)
      · rcases List.mem_cons.mp later with rfl | inBack
        · rfl
        · exact absurd equal (behind other inBack)
    simp only [Chunks.setValue, Function.update_self, fewer]
    omega

/-- The last link of a node that is not the first. -/
theorem useLast {last : Nat}
    (tracks : Tracks recent links (front ++ last :: curr :: back))
    (same : ∀ other ∈ recent.calls, other.hostINode = call.hostINode →
      other.nlinks = call.nlinks)
    (known : call.hostINode ∈ hosts recent.calls)
    (host : (links.cell curr).value.hostINode = call.hostINode)
    (all : (hosts recent.calls).count call.hostINode + 1 =
      call.nlinks.toNat)
    (before : ∀ other ∈ front ++ [last],
      (links.cell other).value.hostINode ≠ call.hostINode)
    (behind : ∀ other ∈ back,
      (links.cell other).value.hostINode ≠ call.hostINode) :
    Tracks (recent.add call)
      ((links.relink (some last) (links.cell curr).next).free curr)
      (front ++ last :: back) := by
  have value : ∀ other, (((links.relink (some last)
      (links.cell curr).next).free curr).cell other).value =
        (links.cell other).value := fun other => by
    simp [Chunks.free]
  have part : (front ++ last :: back).Sublist (front ++ last :: curr :: back) :=
    (List.Sublist.refl front).append
      ((List.Sublist.refl back).cons curr |>.cons_cons last)
  have others : ∀ other ∈ front ++ last :: back,
      (links.cell other).value.hostINode ≠ call.hostINode := by
    intro other member
    rw [List.append_cons, List.mem_append] at member
    exact member.elim (before other) (behind other)
  refine tracks.add same known (tracks.segment.unlink tracks.nodup) ?_ ?_
    (fun other member => ⟨part.subset member, by rw [value]⟩)
    (fun other member different => ⟨?_, value other⟩)
    (fun other member equal => absurd equal (others other member)) (.inr all)
    fun first head equal => ?_
  · simp only [value]
    exact tracks.apart.sublist (part.map _)
  · simp only [value]
    cases front <;> rfl
  · have notCurr : other ≠ curr := by
      rintro rfl
      exact different host
    simpa [notCurr] using member
  · have start := tracks.first
    rw [hosts, List.head?_map, head, Option.map_some, equal] at start
    cases front with
    | nil => exact absurd (Option.some.inj start) (before last (by simp))
    | cons other front =>
        exact absurd (Option.some.inj start) (before other (by simp))

/-- A call for a file of the stretch finds its node and uses a link of it. -/
theorem found (tracks : Tracks recent links path)
    (same : ∀ other ∈ recent.calls, other.hostINode = call.hostINode →
      other.nlinks = call.nlinks)
    (fewer : (hosts recent.calls).count call.hostINode < call.nlinks.toNat)
    (known : call.hostINode ∈ hosts recent.calls) :
    ∃ last curr rest,
      findNode call.hostINode links = some (.found last curr) ∧
      curr ∈ path ∧ (links.cell curr).value.hostINode = call.hostINode ∧
      rest ⊆ path ∧ Tracks (recent.add call) (useLink links last curr) rest := by
  obtain ⟨front, curr, back, rfl, host, before, behind, remain⟩ :=
    tracks.exists_node same fewer known
  have searched : findNode call.hostINode links =
      some (.found front.getLast? curr) :=
    tracks.segment.search_found (fun other member => by
      simpa using before other member) (by simpa using host)
  have positive : 0 < (links.cell curr).value.remainLink.toNat := by omega
  have fewerLinks := toNat_sub_one positive
  by_cases exhausts : (links.cell curr).value.remainLink - 1 = 0
  · rw [exhausts] at fewerLinks
    have one : (links.cell curr).value.remainLink.toNat = 1 := by
      have zero : (0 : UInt32).toNat = 0 := rfl
      omega
    rcases List.eq_nil_or_concat front with rfl | ⟨front, last, rfl⟩
    · refine ⟨none, curr, [], searched, List.mem_cons_self, host,
        List.nil_subset _, ?_⟩
      rw [useLink, if_pos exhausts]
      exact tracks.drop host same (by omega)
    · rw [List.concat_eq_append] at tracks searched before ⊢
      rw [List.getLast?_concat] at searched
      rw [List.append_assoc, List.singleton_append] at tracks
      refine ⟨some last, curr, front ++ last :: back, searched, by simp, host,
        fun other member => ?_, ?_⟩
      · rw [List.append_cons, List.mem_append] at member
        exact List.mem_append.mpr (member.imp_right (List.mem_cons_of_mem _))
      · rw [useLink, if_pos exhausts]
        exact tracks.useLast same known host (by omega) before behind
  · refine ⟨front.getLast?, curr, _, searched, by simp, host,
      List.Subset.refl _, ?_⟩
    simp only [useLink, if_neg exhausts]
    refine tracks.useMore same known host remain before behind ?_
    by_contra few
    refine exhausts (UInt32.toNat_inj.mp ?_)
    rw [fewerLinks, show (0 : UInt32).toNat = 0 from rfl]
    omega

section New

variable (tracks : Tracks recent links path)
  (unknown : call.hostINode ∉ hosts recent.calls)
  (positive : 1 ≤ call.nlinks)

include tracks unknown

theorem hostINode_ne_of_unknown :
    ∀ other ∈ path, (links.cell other).value.hostINode ≠ call.hostINode :=
  fun other member equal => unknown (equal ▸ tracks.known other member)

/-- A new file does not exhaust the first one, nor itself. -/
theorem exhausted_new : exhausted (recent.calls ++ [call]) = false := by
  by_cases nonempty : recent.calls = []
  · rw [← Bool.not_eq_true, exhausted_eq_true_iff]
    rintro ⟨first, head, several, all⟩
    rw [nonempty] at head all
    obtain rfl := Option.some.inj head
    simp [hosts] at all
    omega
  · refine tracks.exhausted_concat (fun first head all => ?_) nonempty
    have different : ¬call.hostINode = first.hostINode := fun equal =>
      unknown (mem_hosts.mpr ⟨first, List.mem_of_head? head, equal.symm⟩)
    rwa [count_hosts_concat, if_neg different] at all

include positive

/-- The map with a node for a new file behind the others. -/
theorem append {next : Chunks HardLinkMapNode} {curr fsINode : Nat}
    (segment : next.Segment next.root (path ++ [curr])
      (call.chunk.bind Chunk.next))
    (old : ∀ other ∈ path,
      (next.cell other).value = (links.cell other).value)
    (created : (next.cell curr).value =
      ⟨fsINode, call.hostINode, call.nlinks - 1⟩) :
    Tracks (recent.add call) next (path ++ [curr]) := by
  have opened := tracks.exhausted_new unknown
  have others := tracks.hostINode_ne_of_unknown unknown
  have mapped : (path ++ [curr]).map (fun curr =>
      (next.cell curr).value.hostINode) =
      path.map (fun curr => (links.cell curr).value.hostINode) ++
        [call.hostINode] := by
    rw [List.map_append, List.map_congr_left fun other member => by
      rw [old other member], List.map_singleton, created]
  rw [Stretch.add, if_neg (by rw [opened]; exact Bool.false_ne_true),
    if_neg unknown]
  refine ⟨segment, ?_, ?_, fun node member => ?_,
    fun node member other otherMember equal => ?_,
    fun other otherMember => ?_, opened⟩
  · rw [mapped]
    refine List.nodup_append.mpr ⟨tracks.apart, List.nodup_singleton _, ?_⟩
    rintro _ member _ isNew rfl
    obtain ⟨node, inPath, host⟩ := List.mem_map.mp member
    exact others node inPath (host.trans (List.mem_singleton.mp isNew))
  · rw [← List.head?_map, mapped, hosts_append, List.head?_append,
      List.head?_append, List.head?_map, tracks.first]
    rfl
  · rw [hosts_append]
    rcases List.mem_append.mp member with inPath | isNew
    · rw [old node inPath]
      exact List.mem_append_left _ (tracks.known node inPath)
    · rw [List.mem_singleton.mp isNew, created]
      exact List.mem_append_right _ List.mem_cons_self
  · rw [count_hosts_concat]
    rcases List.mem_append.mp member with inPath | isNew
    · rw [old node inPath] at equal ⊢
      have different : other.hostINode ≠ call.hostINode := by
        rw [equal]
        exact others node inPath
      rw [if_neg different.symm, Nat.add_zero]
      exact tracks.remain node inPath other
        (mem_of_mem_concat otherMember different) equal
    · rw [List.mem_singleton.mp isNew, created] at equal ⊢
      have isCall : other = call := by
        refine List.mem_singleton.mp ((List.mem_append.mp
          otherMember).resolve_left fun inCalls => ?_)
        exact unknown (mem_hosts.mpr ⟨other, inCalls, equal⟩)
      have nlinks := toNat_sub_one (UInt32.le_iff_toNat_le.mp positive)
      rw [isCall, if_pos rfl, List.count_eq_zero.mpr unknown]
      have one : 1 ≤ call.nlinks.toNat := UInt32.le_iff_toNat_le.mp positive
      dsimp only
      omega
  · rcases List.mem_append.mp otherMember with inCalls | isNew
    · have different : ¬call.hostINode = other.hostINode := fun same =>
        unknown (mem_hosts.mpr ⟨other, inCalls, same.symm⟩)
      rw [count_hosts_concat, if_neg different, Nat.add_zero]
      refine (tracks.present other inCalls).imp_left ?_
      rintro ⟨node, inPath, host⟩
      exact ⟨node, List.mem_append_left _ inPath, by rw [old node inPath, host]⟩
    · rw [List.mem_singleton.mp isNew]
      exact .inl ⟨curr, List.mem_append_right _ List.mem_cons_self,
        congrArg HardLinkMapNode.hostINode created⟩

/-- A call for a file that did not come in the stretch makes a node. -/
theorem new (terminated : recent.next = none) {chunk : Chunk}
    (allocated : call.chunk = some chunk) (fsINode : Nat) :
    findNode call.hostINode links = some (.missing path.getLast?) ∧
      Tracks (recent.add call) (addNode links path.getLast? chunk
        ⟨fsINode, call.hostINode, call.nlinks - 1⟩)
          (path ++ [chunk.address links.used]) := by
  have segment := tracks.segment
  rw [terminated] at segment
  refine ⟨segment.search_missing fun other member => by
      simpa using tracks.hostINode_ne_of_unknown unknown other member,
    tracks.append unknown positive ?_ (fun other member => ?_)
      (value_addNode_self ..)⟩
  · rw [allocated]
    exact segment.append tracks.nodup (chunk.fresh _) _
  · refine value_addNode_of_ne fun equal => ?_
    exact chunk.fresh _ (equal ▸ tracks.segment.subset member)

end New

section Calls

variable {past future : List LinkCall}

/-- A file of the stretch that comes again has a link to come. -/
theorem call_found (tracks : Tracks (stretch past) links path)
    (steady : Steady (past ++ call :: future))
    (known : call.hostINode ∈ hosts (stretch past).calls) :
    ∃ last curr rest,
      findNode call.hostINode links = some (.found last curr) ∧
      curr ∈ path ∧ (links.cell curr).value.hostINode = call.hostINode ∧
      rest ⊆ path ∧
      Tracks (stretch (past ++ [call])) (useLink links last curr) rest := by
  have suffix := stretch_suffix past
  have member : call ∈ past ++ call :: future := by simp
  have fewer : (hosts (stretch past).calls).count call.hostINode <
      call.nlinks.toNat := by
    have bound := steady.count call member
    have part : (hosts (stretch past).calls).count call.hostINode ≤
        (hosts past).count call.hostINode :=
      (suffix.sublist.map _).count_le _
    rw [List.append_cons, hosts_append, List.count_append,
      count_hosts_concat, if_pos rfl] at bound
    omega
  rw [stretch_concat]
  exact tracks.found (fun other inStretch equal => steady.same other
    (List.mem_append_left _ (suffix.subset inStretch)) call member equal) fewer
    known

/-- A file that is not in the stretch gets a node. -/
theorem call_new (tracks : Tracks (stretch past) links path)
    (steady : Steady (past ++ call :: future))
    (terminated : Terminated (past ++ call :: future))
    (unknown : call.hostINode ∉ hosts (stretch past).calls) :
    ∃ chunk, call.chunk = some chunk ∧
      findNode call.hostINode links = some (.missing path.getLast?) ∧
      ∀ fsINode, Tracks (stretch (past ++ [call]))
        (addNode links path.getLast? chunk
          ⟨fsINode, call.hostINode, call.nlinks - 1⟩)
        (path ++ [chunk.address links.used]) := by
  obtain ⟨some_chunk, ends⟩ := terminated past call future rfl unknown
  obtain ⟨chunk, allocated⟩ := Option.isSome_iff_exists.mp some_chunk
  have positive := steady.positive call (by simp)
  rw [stretch_concat]
  exact ⟨chunk, allocated, (tracks.new unknown positive ends allocated 0).1,
    fun fsINode => (tracks.new unknown positive ends allocated fsINode).2⟩

end Calls

end Tracks

section Histories

variable {call : LinkCall} {calls past more : List LinkCall}

theorem Terminated.append_left (terminated : Terminated (calls ++ more)) :
    Terminated calls := fun before call after split =>
  terminated before call (after ++ more) (by simp [split])

/-- One call more. -/
theorem kept_concat_iff :
    Kept (past ++ [call]) ↔ Kept past ∧
      (call.hostINode ∈ hosts past →
        call.hostINode ∈ hosts (stretch past).calls) := by
  constructor
  · intro kept
    refine ⟨fun before other after split => ?_, kept past call [] rfl⟩
    exact kept before other (after ++ [call]) (by simp [split])
  · rintro ⟨kept, here⟩ before other after split
    rcases List.eq_nil_or_concat after with rfl | ⟨after, last, rfl⟩
    · obtain ⟨rfl, same⟩ := List.append_inj' split rfl
      obtain ⟨rfl, -⟩ := List.cons.inj same
      exact here
    · rw [List.concat_eq_append, ← List.cons_append, ← List.append_assoc]
        at split
      obtain ⟨same, -⟩ := List.append_inj' split rfl
      exact kept before other after same

instance decidableTerminated : Decidable (Terminated calls) :=
  decidable_of_iff _ (@LoopRules.admits_history_iff _
    (fun before call => call.hostINode ∉ hosts (stretch before).calls →
      call.chunk.isSome ∧ (stretch before).next = none) [] calls)

instance decidableKept : Decidable (Kept calls) :=
  decidable_of_iff _ (@LoopRules.admits_history_iff _
    (fun before call => call.hostINode ∈ hosts before →
      call.hostINode ∈ hosts (stretch before).calls) [] calls)

end Histories

/-- A chunk with a value where its field `next` stands.  It is at the given
address, or behind all addresses in use if that is one of them. -/
def Chunk.placed (address : Nat) (next : Option Nat) : Chunk where
  address used := if address ∈ used then used.sum + address + 1 else address
  fresh used := by
    split_ifs with inUse
    · intro member
      have bound := List.le_sum_of_mem member
      omega
    · exact inUse
  next := next

end LinuxKernelDev.Mkfs
