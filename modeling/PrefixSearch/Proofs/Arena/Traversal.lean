import Mathlib.Data.List.Nodup
import Mathlib.Data.List.Perm.Subperm
import PrefixSearch.Proofs.Arena.Paths

/-!
# Working off the nodes of an arena

A walk takes a node from a stack and puts its children there instead.  In a tree each node comes to
the stack once, from its only parent, so a walk from the root takes every node once, each after its
parent, and there are never more nodes on the stack than steps are left.

`Frontier` is the invariant of such a walk.  It holds for any order in which the children are put on
the stack, since the walk that lists the nodes and the walk that merges trees use opposite orders.
-/

namespace PrefixSearch

namespace Arena

variable {a : Arena} {paths : List (List UInt8)}

theorem mem_childrenOf {id child : NodeId} :
    child ∈ a.childrenOf id ↔ ∃ byte, a.child? id byte = some child := by
  simp only [childrenOf, List.mem_map, Prod.exists, exists_eq_right, child?,
    Std.TreeMap.mem_toList_iff_getElem?_eq_some]

theorem HasPaths.nodup_childrenOf (h : a.HasPaths paths) (id : NodeId) :
    (a.childrenOf id).Nodup := by
  rw [childrenOf, List.Nodup, List.pairwise_map]
  refine Std.TreeMap.distinct_keys_toList.imp_of_mem fun {left right} hleft hright hne hsame => ?_
  rw [Std.TreeMap.mem_toList_iff_getElem?_eq_some] at hleft hright
  rw [← hsame] at hright
  obtain ⟨-, hkey⟩ := h.slot_unique (show a.child? id left.1 = _ from hleft) hright
  exact hne (Std.compare_eq_iff_eq.mpr hkey)

namespace HasPaths

variable {parent other child : NodeId}

theorem parent_unique (h : a.HasPaths paths) (hchild : child ∈ a.childrenOf parent)
    (hother : child ∈ a.childrenOf other) : parent = other := by
  obtain ⟨first, hfirst⟩ := mem_childrenOf.mp hchild
  obtain ⟨second, hsecond⟩ := mem_childrenOf.mp hother
  exact (h.slot_unique hfirst hsecond).1

theorem ne_root_of_mem_childrenOf (h : a.HasPaths paths) (hchild : child ∈ a.childrenOf parent) :
    child ≠ root := by
  obtain ⟨byte, hbyte⟩ := mem_childrenOf.mp hchild
  exact h.child_ne_root hbyte

end HasPaths

/-- What a walk has taken and what is on its stack: no node twice, with every node taken its
children, with every other node its parent among those taken, and before it if it was taken too. -/
structure Frontier (a : Arena) (done waiting : List NodeId) : Prop where
  nodup : (done ++ waiting).Nodup
  inside : ∀ id ∈ done ++ waiting, id < a.size
  root_mem : root ∈ done ++ waiting
  children : ∀ id ∈ done, ∀ child ∈ a.childrenOf id, child ∈ done ++ waiting
  parents : ∀ id ∈ done ++ waiting, id ≠ root → ∃ parent ∈ done, id ∈ a.childrenOf parent
  ordered : ∀ parent, ∀ child ∈ a.childrenOf parent, child ∈ done → [parent, child].Sublist done

namespace Frontier

variable {done waiting : List NodeId} {id : NodeId}

theorem start (h : a.HasPaths paths) : a.Frontier [] [root] where
  nodup := List.nodup_singleton _
  inside id hid := by
    rw [List.nil_append, List.mem_singleton] at hid
    rw [hid]
    exact h.lt_size h.root_path
  root_mem := List.mem_singleton_self _
  children _ hid := nomatch hid
  parents id hid hroot := absurd (List.mem_singleton.mp hid) hroot
  ordered _ _ _ hdone := nomatch hdone

theorem length_le (h : a.Frontier done waiting) : done.length + waiting.length ≤ a.size := by
  have hsubset : done ++ waiting ⊆ List.range a.size := fun id hid =>
    List.mem_range.mpr (h.inside id hid)
  have hle := (List.subperm_of_subset h.nodup hsubset).length_le
  rwa [List.length_append, List.length_range] at hle

/-- The order of the stack does not matter. -/
theorem perm {other : List NodeId} (h : a.Frontier done waiting) (hperm : waiting.Perm other) :
    a.Frontier done other := by
  have hall : (done ++ other).Perm (done ++ waiting) := (hperm.append_left done).symm
  have hmem : ∀ {node}, node ∈ done ++ other ↔ node ∈ done ++ waiting := hall.mem_iff
  exact ⟨hall.nodup_iff.mpr h.nodup, fun id hid => h.inside id (hmem.mp hid), hmem.mpr h.root_mem,
    fun id hid child hchild => hmem.mpr (h.children id hid child hchild),
    fun id hid => h.parents id (hmem.mp hid), h.ordered⟩

theorem not_mem_done (h : a.Frontier done (id :: waiting)) : id ∉ done := by
  intro hmem
  have hdisjoint := (List.nodup_append.mp h.nodup).2.2
  exact hdisjoint id hmem id List.mem_cons_self rfl

/-- The children of the next node are new: one that is there already would have its parent among the
nodes taken. -/
theorem child_not_mem (hpaths : a.HasPaths paths) (h : a.Frontier done (id :: waiting))
    {child : NodeId} (hchild : child ∈ a.childrenOf id) : child ∉ done ++ id :: waiting := by
  intro hmem
  obtain ⟨parent, hdone, hslot⟩ :=
    h.parents child hmem (hpaths.ne_root_of_mem_childrenOf hchild)
  exact h.not_mem_done (hpaths.parent_unique hslot hchild ▸ hdone)

/-- One step: a node is taken, and its children come to the stack, in any order. -/
theorem step (hpaths : a.HasPaths paths) (h : a.Frontier done (id :: waiting))
    {children : List NodeId} (hperm : children.Perm (a.childrenOf id)) :
    a.Frontier (done ++ [id]) (children ++ waiting) := by
  have hnew : ∀ child ∈ children, child ∉ done ++ id :: waiting := fun child hchild =>
    h.child_not_mem hpaths (hperm.mem_iff.mp hchild)
  have hmem : ∀ node, node ∈ (done ++ [id]) ++ (children ++ waiting) ↔
      node ∈ done ++ id :: waiting ∨ node ∈ children := by
    intro node
    simp only [List.mem_append, List.mem_cons, List.not_mem_nil]
    tauto
  refine ⟨?_, ?_, (hmem root).mpr (Or.inl h.root_mem), ?_, ?_, ?_⟩
  · have hwhole : ((done ++ [id]) ++ (children ++ waiting)).Perm
        (children ++ (done ++ id :: waiting)) := by
      have hswap : ((done ++ [id]) ++ children).Perm (children ++ (done ++ [id])) :=
        List.perm_append_comm
      simpa using hswap.append_right waiting
    rw [hwhole.nodup_iff, List.nodup_append]
    refine ⟨hperm.nodup_iff.mpr (hpaths.nodup_childrenOf id), h.nodup, ?_⟩
    rintro child hchild node hnode rfl
    exact hnew child hchild hnode
  · intro node hnode
    rcases (hmem node).mp hnode with hold | hchild
    · exact h.inside node hold
    · obtain ⟨byte, hbyte⟩ := mem_childrenOf.mp (hperm.mem_iff.mp hchild)
      exact hpaths.child_lt_size hbyte
  · intro node hnode child hchild
    rw [hmem]
    rcases List.mem_append.mp hnode with hdone | hself
    · exact Or.inl (h.children node hdone child hchild)
    · rw [List.mem_singleton.mp hself] at hchild
      exact Or.inr (hperm.mem_iff.mpr hchild)
  · intro node hnode hroot
    rcases (hmem node).mp hnode with hold | hchild
    · obtain ⟨parent, hdone, hslot⟩ := h.parents node hold hroot
      exact ⟨parent, List.mem_append_left _ hdone, hslot⟩
    · exact ⟨id, by simp, hperm.mem_iff.mp hchild⟩
  · intro parent child hchild hdone
    rcases List.mem_append.mp hdone with hdone | hself
    · exact (h.ordered parent child hchild hdone).trans (List.sublist_append_left done [id])
    · obtain rfl := List.mem_singleton.mp hself
      have hroot := hpaths.ne_root_of_mem_childrenOf hchild
      obtain ⟨other, hother, hslot⟩ := h.parents child (by simp) hroot
      rw [hpaths.parent_unique hchild hslot]
      exact (List.singleton_sublist.mpr hother).append (List.Sublist.refl [child])

/-- The nodes above one that is there were taken before. -/
theorem above_mem_done (hpaths : a.HasPaths paths) (h : a.Frontier done waiting) {upper : NodeId}
    {path above : List UInt8} (hmem : id ∈ done ++ waiting) (hid : paths[id]? = some path)
    (hupper : paths[upper]? = some above) (habove : above <+: path) (hne : above ≠ path) :
    upper ∈ done := by
  induction hlength : path.length using Nat.strongRecOn generalizing id path with
  | _ length ih =>
      have hroot : id ≠ root := by
        rintro rfl
        rw [hpaths.root_path, Option.some.injEq] at hid
        exact hne (by rw [← hid] at habove ⊢; exact List.prefix_nil.mp habove)
      obtain ⟨parent, hdone, hchild⟩ := h.parents id hmem hroot
      obtain ⟨byte, hslot⟩ := mem_childrenOf.mp hchild
      obtain ⟨middle, below, hmiddle, hlabel, hpath⟩ := hpaths.slot hslot
      rw [hid, Option.some.injEq] at hpath
      rw [hpath] at habove
      rcases List.prefix_or_prefix_of_prefix habove (List.prefix_append middle _) with hup | hdown
      · by_cases hsame : above = middle
        · rwa [hpaths.eq_of_path hupper (hsame ▸ hmiddle)]
        · refine ih _ ?_ (List.mem_append_left waiting hdone) hmiddle hup hsame rfl
          rw [← hlength, hpath, List.length_append]
          simp
      · -- no path stands inside an edge
        obtain ⟨rest, rfl⟩ := hdown
        cases rest with
        | nil =>
            rw [List.append_nil] at hupper
            rwa [hpaths.eq_of_path hupper hmiddle]
        | cons first rest =>
            obtain ⟨rfl, -⟩ :=
              List.cons_prefix_cons.mp ((List.prefix_append_right_inj middle).mp habove)
            have hlonger := hpaths.label_le_of_mem hmiddle hslot (List.mem_of_getElem? hupper)
              List.prefix_rfl
            rw [hlabel] at hlonger
            exact absurd (by rw [hpath, habove.eq_of_length_le hlonger.length_le]) hne

/-- When the stack is empty, every node was taken. -/
theorem perm_range (hpaths : a.HasPaths paths) (h : a.Frontier done []) :
    done.Perm (List.range a.size) := by
  have hall : ∀ id path, paths[id]? = some path → id ∈ done := by
    intro id path hpath
    induction hlength : path.length using Nat.strongRecOn generalizing id path with
    | _ length ih =>
        by_cases hroot : id = root
        · have hmem := h.root_mem
          rwa [List.append_nil, ← hroot] at hmem
        · obtain ⟨parent, byte, hslot⟩ := hpaths.parent (hpaths.lt_size hpath) hroot
          obtain ⟨above, below, habove, -, hbelow⟩ := hpaths.slot hslot
          rw [hpath, Option.some.injEq] at hbelow
          have hshorter : above.length < length := by
            rw [← hlength, hbelow]
            simp
          have hmem := h.children parent (ih _ hshorter parent above habove rfl) id
            (mem_childrenOf.mpr ⟨byte, hslot⟩)
          rwa [List.append_nil] at hmem
  have hnodup := h.nodup
  rw [List.append_nil] at hnodup
  refine (List.perm_ext_iff_of_nodup hnodup List.nodup_range).mpr fun id => ?_
  rw [List.mem_range]
  constructor
  · intro hid
    exact h.inside id (List.mem_append_left _ hid)
  · intro hid
    obtain ⟨path, hpath⟩ := hpaths.exists_path hid
    exact hall id path hpath

end Frontier

/-! ## Depth-first order -/

theorem preorderFrom_nil (a : Arena) (budget : Nat) : a.preorderFrom budget [] = [] := by
  cases budget <;> rfl

theorem Frontier.waiting_eq_nil {done waiting : List NodeId} (h : a.Frontier done waiting)
    (hdone : a.size ≤ done.length) : waiting = [] := by
  have hle := h.length_le
  exact List.length_eq_zero_iff.mp (by omega)

/-- A walk that has as many steps left as there are nodes left takes them all. -/
theorem Frontier.preorderFrom (hpaths : a.HasPaths paths) {done waiting : List NodeId}
    {budget : Nat} (h : a.Frontier done waiting) (hbudget : a.size ≤ done.length + budget) :
    a.Frontier (done ++ a.preorderFrom budget waiting) [] := by
  induction budget generalizing done waiting with
  | zero =>
      rw [Arena.preorderFrom, List.append_nil]
      exact h.waiting_eq_nil hbudget ▸ h
  | succ budget ih =>
      cases waiting with
      | nil => rwa [preorderFrom_nil, List.append_nil]
      | cons id waiting =>
          have hrest := ih (h.step hpaths (List.Perm.refl _)) (by simp; omega)
          rw [Arena.preorderFrom]
          rwa [List.append_assoc, List.singleton_append] at hrest

/-- More steps change nothing, since the walk ends with an empty stack. -/
theorem Frontier.preorderFrom_add (hpaths : a.HasPaths paths) {done waiting : List NodeId}
    {budget : Nat} (h : a.Frontier done waiting) (hbudget : a.size ≤ done.length + budget)
    (more : Nat) : a.preorderFrom (budget + more) waiting = a.preorderFrom budget waiting := by
  induction budget generalizing done waiting with
  | zero => rw [h.waiting_eq_nil hbudget, preorderFrom_nil, preorderFrom_nil]
  | succ budget ih =>
      cases waiting with
      | nil => rw [preorderFrom_nil, preorderFrom_nil]
      | cons id waiting =>
          rw [Nat.succ_add, Arena.preorderFrom, Arena.preorderFrom,
            ih (h.step hpaths (List.Perm.refl _)) (by simp; omega)]

namespace HasPaths

theorem frontier_preorder (h : a.HasPaths paths) : a.Frontier a.preorder [] := by
  have hbudget : a.size ≤ ([] : List NodeId).length + a.size := by simp
  have hwhole := (Frontier.start h).preorderFrom h hbudget
  rwa [List.nil_append] at hwhole

theorem perm_preorder (h : a.HasPaths paths) : a.preorder.Perm (List.range a.size) :=
  h.frontier_preorder.perm_range h

theorem mem_preorder (h : a.HasPaths paths) {id : NodeId} : id ∈ a.preorder ↔ id < a.size := by
  rw [h.perm_preorder.mem_iff, List.mem_range]

theorem length_preorder (h : a.HasPaths paths) : a.preorder.length = a.size := by
  rw [h.perm_preorder.length_eq, List.length_range]

/-- The number of nodes is budget enough for the walk over all of them. -/
theorem preorderFrom_of_le (h : a.HasPaths paths) {budget : Nat} (hbudget : a.size ≤ budget) :
    a.preorderFrom budget [root] = a.preorder := by
  have hstart : a.size ≤ ([] : List NodeId).length + a.size := by simp
  have hmore := (Frontier.start h).preorderFrom_add h hstart (budget - a.size)
  rwa [Nat.add_sub_cancel' hbudget] at hmore

end HasPaths

end Arena

end PrefixSearch
