import Mathlib.Data.List.Sort
import PrefixSearch.Proofs.OpenedData

/-!
# The nodes of a file by their addresses

In a file from anywhere several nodes may have the same child, so a node is named by a way to it: the
address lists the numbers of the children that the way takes from a node on.  Children lie behind their
parents, so there are finitely many ways.  In the order of the dictionary the addresses give the order of a
depth-first walk: a node stands before everything below it, and everything below a child before the next
child.
-/

namespace PrefixSearch

namespace SearchData

variable {d : SearchData} {offset last mid i : Nat} {node : StoredNode} {address front back : List Nat}

/-! ## Addresses -/

/-- The children with the numbers of the address lead from one node to another one. -/
inductive Leads (d : SearchData) : Nat → List Nat → Nat → Prop
  | here (offset : Nat) : Leads d offset [] offset
  | down {offset i last : Nat} {node : StoredNode} {child : UInt8 × Nat} {address : List Nat}
      (hnode : d.node offset = .ok node) (hchild : node.children[i]? = some child)
      (hrest : Leads d child.2 address last) : Leads d offset (i :: address) last

theorem Leads.unique {other : Nat} (hleads : d.Leads offset address last)
    (hother : d.Leads offset address other) : last = other := by
  induction hleads with
  | here => cases hother; rfl
  | down hnode hchild _ ih =>
      cases hother with
      | down hnode' hchild' hrest' =>
          obtain rfl := Except.ok.inj (hnode.symm.trans hnode')
          obtain rfl := Option.some.inj (hchild.symm.trans hchild')
          exact ih hrest'

theorem leads_cons (hnode : d.node offset = .ok node) :
    d.Leads offset (i :: address) last ↔
      ∃ child, node.children[i]? = some child ∧ d.Leads child.2 address last := by
  constructor
  · intro hleads
    cases hleads with
    | down hnode' hchild hrest =>
        obtain rfl := Except.ok.inj (hnode.symm.trans hnode')
        exact ⟨_, hchild, hrest⟩
  · rintro ⟨child, hchild, hrest⟩
    exact .down hnode hchild hrest

/-- Every address of a node that can be read is empty or begins at one of its children. -/
theorem Leads.cases_node (hleads : d.Leads offset address last) (hnode : d.node offset = .ok node) :
    address = [] ∧ last = offset ∨
      ∃ j child rest, address = j :: rest ∧ node.children[j]? = some child ∧
        d.Leads child.2 rest last := by
  cases address with
  | nil => cases hleads; exact .inl ⟨rfl, rfl⟩
  | cons j rest =>
      obtain ⟨child, hchild, hrest⟩ := (leads_cons hnode).mp hleads
      exact .inr ⟨j, child, rest, rfl, hchild, hrest⟩

theorem Leads.split (hleads : d.Leads offset (front ++ back) last) :
    ∃ mid, d.Leads offset front mid ∧ d.Leads mid back last := by
  induction front generalizing offset with
  | nil => exact ⟨offset, .here offset, hleads⟩
  | cons i front ih =>
      cases hleads with
      | down hnode hchild hrest =>
          obtain ⟨mid, hfront, hback⟩ := ih hrest
          exact ⟨mid, .down hnode hchild hfront, hback⟩

/-- A way leads forward and stays inside the data. -/
theorem Leads.bounds (hleads : d.Leads offset address last) (hinside : offset < d.size) :
    offset ≤ last ∧ last < d.size ∧ (address ≠ [] → offset < last) := by
  induction hleads with
  | here offset => exact ⟨Nat.le_refl _, hinside, fun hne => absurd rfl hne⟩
  | down hnode hchild _ ih =>
      obtain ⟨hlt, hchildInside⟩ := children_of_node hnode _ (List.mem_of_getElem? hchild)
      obtain ⟨hle, hlast, -⟩ := ih hchildInside
      exact ⟨by omega, hlast, fun _ => by omega⟩

/-- On the way to a node the offsets rise. -/
theorem Leads.rising (hleads : d.Leads offset (front ++ back) last) (hinside : offset < d.size)
    (hfront : d.Leads offset front mid) (hback : back ≠ []) : mid < last := by
  obtain ⟨found, hfound, hrest⟩ := hleads.split
  obtain rfl := hfound.unique hfront
  exact (hrest.bounds (hfound.bounds hinside).2.1).2.2 hback

/-- All nodes below the offset can be read, and the one at it. -/
def DecodesBelow (d : SearchData) (offset : Nat) : Prop :=
  ∀ address last, d.Leads offset address last → ∃ node, d.node last = .ok node

theorem DecodesBelow.child (hdecodes : d.DecodesBelow offset) (hnode : d.node offset = .ok node)
    {child : UInt8 × Nat} (hchild : child ∈ node.children) : d.DecodesBelow child.2 := by
  intro address last hleads
  obtain ⟨i, hi⟩ := List.mem_iff_getElem?.mp hchild
  exact hdecodes (i :: address) last (.down hnode hi hleads)

/-! ## Unfoldings -/

/-- The list has every way from the offset to a node once, in the order of the addresses, with the node
that it leads to, and each of these nodes can be read. -/
structure Unfolding (d : SearchData) (offset : Nat) (located : List (List Nat × StoredNode)) : Prop where
  sorted : located.Pairwise (·.1 < ·.1)
  mem_iff : ∀ address node, (address, node) ∈ located ↔
    ∃ last, d.Leads offset address last ∧ d.node last = .ok node
  decodes : d.DecodesBelow offset

theorem Unfolding.unique {located other : List (List Nat × StoredNode)}
    (hlocated : d.Unfolding offset located) (hother : d.Unfolding offset other) : located = other := by
  have hnodup : ∀ {found : List (List Nat × StoredNode)}, d.Unfolding offset found → found.Nodup := by
    intro found hfound
    refine hfound.sorted.imp fun hlt heq => ?_
    rw [heq] at hlt
    exact List.lt_irrefl _ hlt
  have hperm : located.Perm other := by
    refine (List.perm_ext_iff_of_nodup (hnodup hlocated) (hnodup hother)).mpr ?_
    rintro ⟨address, node⟩
    rw [hlocated.mem_iff, hother.mem_iff]
  exact hperm.eq_of_pairwise (fun _ _ _ _ hlt hgt => absurd hgt (List.lt_asymm hlt))
    hlocated.sorted hother.sorted

/-- What is below siblings, the first of which has the number `i`: each of them with everything below it,
one after the other. -/
inductive Unfolds (d : SearchData) :
    Nat → List (UInt8 × Nat) → List (List Nat × StoredNode) → Prop
  | nil (i : Nat) : Unfolds d i [] []
  | cons {i : Nat} {child : UInt8 × Nat} {siblings : List (UInt8 × Nat)} {node : StoredNode}
      {below next : List (List Nat × StoredNode)}
      (hnode : d.node child.2 = .ok node) (hbelow : Unfolds d 0 node.children below)
      (hnext : Unfolds d (i + 1) siblings next) :
      Unfolds d i (child :: siblings) (([i], node) :: below.map (fun v => (i :: v.1, v.2)) ++ next)

section

variable {siblings : List (UInt8 × Nat)} {located : List (List Nat × StoredNode)}

theorem Unfolds.mem_iff (hunfolds : d.Unfolds i siblings located) (address : List Nat)
    (node : StoredNode) : (address, node) ∈ located ↔
      ∃ j child rest, address = (i + j) :: rest ∧ siblings[j]? = some child ∧
        ∃ last, d.Leads child.2 rest last ∧ d.node last = .ok node := by
  induction hunfolds generalizing address node with
  | nil i => simp
  | @cons i child siblings found below next hnode _ _ ihBelow ihNext =>
      rw [List.mem_append, List.mem_cons, List.mem_map, ihNext]
      constructor
      · rintro ((hhere | ⟨⟨rest, node⟩, hmem, heq⟩) | ⟨j, sibling, rest, rfl, hsibling, hlast⟩)
        · cases hhere
          exact ⟨0, child, [], rfl, rfl, child.2, .here _, hnode⟩
        · cases heq
          obtain ⟨j, grandchild, rest, rfl, hj, last, hleads, hlast⟩ := (ihBelow rest node).mp hmem
          rw [Nat.zero_add]
          exact ⟨0, child, j :: rest, rfl, rfl, last, .down hnode hj hleads, hlast⟩
        · exact ⟨j + 1, sibling, rest, by rw [Nat.add_right_comm, Nat.add_assoc], hsibling, hlast⟩
      · rintro ⟨j, sibling, rest, rfl, hsibling, last, hleads, hlast⟩
        cases j with
        | zero =>
            obtain rfl := Option.some.inj hsibling
            refine .inl ?_
            obtain ⟨rfl, rfl⟩ | ⟨j, grandchild, rest, rfl, hj, hrest⟩ := hleads.cases_node hnode
            · obtain rfl := Except.ok.inj (hnode.symm.trans hlast)
              exact .inl rfl
            · refine .inr ⟨(j :: rest, node), (ihBelow _ _).mpr ?_, rfl⟩
              exact ⟨j, grandchild, rest, by rw [Nat.zero_add], hj, last, hrest, hlast⟩
        | succ j =>
            refine .inr ⟨j, sibling, rest, ?_, hsibling, last, hleads, hlast⟩
            rw [Nat.add_right_comm, Nat.add_assoc]

theorem Unfolds.sorted (hunfolds : d.Unfolds i siblings located) : located.Pairwise (·.1 < ·.1) := by
  induction hunfolds with
  | nil i => exact .nil
  | @cons i child siblings node below next _ hbelow hnext ihBelow ihNext =>
      have hmap : (below.map fun v => (i :: v.1, v.2)).Pairwise (·.1 < ·.1) :=
        List.pairwise_map.mpr (ihBelow.imp fun hlt => List.cons_lt_cons_self.mpr hlt)
      refine List.pairwise_append.mpr ⟨List.pairwise_cons.mpr ⟨?_, hmap⟩, ihNext, ?_⟩
      · rintro ⟨address, found⟩ hmem
        obtain ⟨⟨below, found⟩, hbelowMem, heq⟩ := List.mem_map.mp hmem
        cases heq
        obtain ⟨j, grandchild, rest, rfl, -⟩ := (hbelow.mem_iff below found).mp hbelowMem
        exact List.cons_lt_cons_self.mpr (List.nil_lt_cons _ _)
      · -- addresses at this child begin with its number, those at the next ones with a larger one
        rintro ⟨first, node⟩ hfirst ⟨second, found⟩ hsecond
        obtain ⟨j, sibling, after, rfl, -⟩ := (hnext.mem_iff second found).mp hsecond
        have hhead : ∃ rest, first = i :: rest := by
          rcases List.mem_cons.mp hfirst with hhere | hmem
          · cases hhere
            exact ⟨[], rfl⟩
          · obtain ⟨⟨rest, _⟩, -, heq⟩ := List.mem_map.mp hmem
            cases heq
            exact ⟨rest, rfl⟩
        obtain ⟨rest, rfl⟩ := hhead
        exact List.cons_lt_cons_iff.mpr (.inl (by omega))

/-- Siblings below which all nodes can be read are unfolded.  Below a child there are only larger offsets,
so their distance from the end of the data bounds how deep this goes. -/
theorem exists_unfolds_of_lt {distance : Nat} (hdecodes : ∀ child ∈ siblings, d.DecodesBelow child.2)
    (hdistance : ∀ child ∈ siblings, d.size - child.2 < distance) (i : Nat) :
    ∃ located, d.Unfolds i siblings located := by
  induction distance generalizing siblings i with
  | zero =>
      cases siblings with
      | nil => exact ⟨[], .nil i⟩
      | cons child siblings => exact absurd (hdistance child List.mem_cons_self) (Nat.not_lt_zero _)
  | succ distance ih =>
      induction siblings generalizing i with
      | nil => exact ⟨[], .nil i⟩
      | cons child siblings ihSiblings =>
          rw [List.forall_mem_cons] at hdecodes hdistance
          obtain ⟨node, hnode⟩ := hdecodes.1 [] child.2 (.here _)
          have hnearer : ∀ grandchild ∈ node.children, d.size - grandchild.2 < distance := by
            intro grandchild hmem
            have hbehind := children_of_node hnode grandchild hmem
            have hchild := hdistance.1
            omega
          obtain ⟨below, hbelow⟩ := ih (fun _ hmem => hdecodes.1.child hnode hmem) hnearer 0
          obtain ⟨next, hnext⟩ := ihSiblings hdecodes.2 hdistance.2 (i + 1)
          exact ⟨_, .cons hnode hbelow hnext⟩

theorem exists_unfolds (hdecodes : ∀ child ∈ siblings, d.DecodesBelow child.2) (i : Nat) :
    ∃ located, d.Unfolds i siblings located :=
  exists_unfolds_of_lt hdecodes
    (fun child _ => Nat.lt_succ_of_le (Nat.sub_le d.size child.2)) i

end

/-- A node with what is below its children. -/
theorem Unfolds.unfolding {below : List (List Nat × StoredNode)} (hnode : d.node offset = .ok node)
    (hbelow : d.Unfolds 0 node.children below) (hdecodes : d.DecodesBelow offset) :
    d.Unfolding offset (([], node) :: below) where
  sorted := by
    refine List.pairwise_cons.mpr ⟨?_, hbelow.sorted⟩
    rintro ⟨address, found⟩ hmem
    obtain ⟨j, child, rest, rfl, -⟩ := (hbelow.mem_iff address found).mp hmem
    exact List.nil_lt_cons _ _
  mem_iff address found := by
    rw [List.mem_cons, hbelow.mem_iff]
    constructor
    · rintro (hhere | ⟨j, child, rest, rfl, hchild, last, hleads, hlast⟩)
      · cases hhere
        exact ⟨offset, .here offset, hnode⟩
      · rw [Nat.zero_add]
        exact ⟨last, .down hnode hchild hleads, hlast⟩
    · rintro ⟨last, hleads, hlast⟩
      obtain ⟨rfl, rfl⟩ | ⟨j, child, rest, rfl, hchild, hrest⟩ := hleads.cases_node hnode
      · obtain rfl := Except.ok.inj (hnode.symm.trans hlast)
        exact .inl rfl
      · exact .inr ⟨j, child, rest, by rw [Nat.zero_add], hchild, last, hrest, hlast⟩
  decodes := hdecodes

end SearchData

end PrefixSearch
