import Mathlib.Data.List.Nodup
import PrefixSearch.Proofs.Arena.Nodes
import PrefixSearch.Proofs.Trie.CommonPrefix

/-!
# The paths of an arena's nodes

The path of a node is what the labels from the root to it read.  Growing a leaf and cutting an edge
append a node and leave the paths of all other nodes as they are, so the paths are a list to which
every step appends, next to the array of the nodes.  The invariant `HasPaths` says of each slot
alone that it leads from a path to a longer one; that different nodes have different paths then
makes the arena a tree.

The main statements: the slots are determined by which paths there are (`HasPaths.child?_iff`), the
paths are closed under common prefixes (`HasPaths.commonPrefix_mem`), and growing and cutting keep
the invariant (`HasPaths.grow`, `HasPaths.split`).
-/

namespace PrefixSearch

namespace Arena

/-- The path of every node, by its position.  A slot leads to a path that goes on with the slot's
byte, every node but the root stands in a slot, and no two nodes have the same path. -/
structure HasPaths (a : Arena) (paths : List (List UInt8)) : Prop where
  length_eq : paths.length = a.size
  root_path : paths[root]? = some []
  root_label : a.label root = []
  slot : ∀ {parent byte child}, a.child? parent byte = some child →
    ∃ above below, paths[parent]? = some above ∧ a.label child = byte :: below ∧
      paths[child]? = some (above ++ byte :: below)
  parent : ∀ {child}, child < a.size → child ≠ root →
    ∃ parent byte, a.child? parent byte = some child
  nodup : paths.Nodup

namespace HasPaths

variable {a : Arena} {paths added : List (List UInt8)} {start parent child : NodeId} {byte : UInt8}
  {above below path : List UInt8}

theorem new (bound : Nat) : HasPaths { bound } [[]] where
  length_eq := rfl
  root_path := rfl
  root_label := rfl
  slot {parent byte child} hchild := by
    have hnone : Arena.child? { bound } parent byte = none := by
      cases parent <;> rfl
    rw [hnone] at hchild
    cases hchild
  parent {child} hchild hroot := by
    have hlt : child < 1 := hchild
    exact absurd (Nat.lt_one_iff.mp hlt) hroot
  nodup := List.nodup_singleton []

/-- What a node finds is no part of the invariant. -/
theorem change (h : a.HasPaths paths) (f : Hits → Hits) (id : NodeId) :
    (a.change f id).HasPaths paths where
  length_eq := by rw [size_change, h.length_eq]
  root_path := h.root_path
  root_label := by rw [label_change, h.root_label]
  slot {parent byte child} hchild := by
    rw [child?_change] at hchild
    rw [label_change]
    exact h.slot hchild
  parent {child} hchild hroot := by
    rw [size_change] at hchild
    simpa only [child?_change] using h.parent hchild hroot
  nodup := h.nodup

theorem mapHits (h : a.HasPaths paths) {f : Hits → Hits} (hnone : f {} = {}) :
    (a.mapHits f).HasPaths paths where
  length_eq := by rw [h.length_eq, size, size, Arena.mapHits, Array.size_map]
  root_path := h.root_path
  root_label := by rw [label_mapHits hnone, h.root_label]
  slot {parent byte child} hchild := by
    rw [child?_mapHits hnone] at hchild
    rw [label_mapHits hnone]
    exact h.slot hchild
  parent {child} hchild hroot := by
    rw [size, Arena.mapHits, Array.size_map] at hchild
    simpa only [child?_mapHits hnone] using h.parent hchild hroot
  nodup := h.nodup

/-! ## Positions and paths -/

theorem lt_size (h : a.HasPaths paths) (hpath : paths[start]? = some path) : start < a.size := by
  rw [← h.length_eq]
  exact (List.getElem?_eq_some_iff.mp hpath).1

theorem exists_path (h : a.HasPaths paths) (hstart : start < a.size) :
    ∃ path, paths[start]? = some path := by
  rw [← h.length_eq] at hstart
  exact ⟨paths[start], List.getElem?_eq_getElem hstart⟩

theorem eq_of_path (h : a.HasPaths paths) {other : NodeId} (hpath : paths[start]? = some path)
    (hother : paths[other]? = some path) : start = other := by
  have hlt : start < paths.length := (List.getElem?_eq_some_iff.mp hpath).1
  exact (List.getElem?_inj hlt h.nodup).mp (hpath.trans hother.symm)

/-- Behind the last node there is no path yet. -/
theorem path_new (h : a.HasPaths paths) (new : List UInt8) :
    (paths ++ [new])[a.size]? = some new := by
  rw [← h.length_eq, List.getElem?_concat_length]

theorem path_old (hpath : paths[start]? = some path) (added : List (List UInt8)) :
    (paths ++ added)[start]? = some path := by
  rw [List.getElem?_append_left (List.getElem?_eq_some_iff.mp hpath).1, hpath]

theorem ne_of_mem_added (h : a.HasPaths (paths ++ added)) {new : List UInt8} (hold : path ∈ paths)
    (hnew : new ∈ added) : new ≠ path :=
  ((List.nodup_append.mp h.nodup).2.2 path hold new hnew).symm

/-- The edge to a child of a node that is known. -/
theorem edge (h : a.HasPaths paths) (hparent : paths[parent]? = some above)
    (hchild : a.child? parent byte = some child) :
    ∃ below, a.label child = byte :: below ∧ paths[child]? = some (above ++ byte :: below) := by
  obtain ⟨upper, below, hupper, hlabel, hpath⟩ := h.slot hchild
  rw [hparent, Option.some.injEq] at hupper
  exact ⟨below, hlabel, hupper ▸ hpath⟩

/-- A slot's byte is the first byte of its node's label. -/
theorem head?_label (h : a.HasPaths paths) (hchild : a.child? parent byte = some child) :
    (a.label child).head? = some byte := by
  obtain ⟨above, below, -, hlabel, -⟩ := h.slot hchild
  rw [hlabel, List.head?_cons]

theorem label_ne_nil (h : a.HasPaths paths) (hchild : a.child? parent byte = some child) :
    a.label child ≠ [] := by
  intro hnil
  have hhead := h.head?_label hchild
  rw [hnil] at hhead
  cases hhead

theorem child_ne_root (h : a.HasPaths paths) (hchild : a.child? parent byte = some child) :
    child ≠ root := by
  rintro rfl
  obtain ⟨above, below, -, -, hpath⟩ := h.slot hchild
  rw [h.root_path, Option.some.injEq] at hpath
  simp at hpath

theorem child_lt_size (h : a.HasPaths paths) (hchild : a.child? parent byte = some child) :
    child < a.size := by
  obtain ⟨above, below, -, -, hpath⟩ := h.slot hchild
  exact h.lt_size hpath

/-- A node stands in one slot only: the path of its parent and the slot's byte are parts of its own
path. -/
theorem slot_unique (h : a.HasPaths paths) {other : NodeId} {first : UInt8}
    (hchild : a.child? parent byte = some child) (hother : a.child? other first = some child) :
    parent = other ∧ byte = first := by
  obtain ⟨above, below, habove, hlabel, hpath⟩ := h.slot hchild
  obtain ⟨above', below', habove', hlabel', hpath'⟩ := h.slot hother
  rw [hlabel] at hlabel'
  rw [hpath, Option.some.injEq, ← hlabel'] at hpath'
  obtain rfl := List.append_cancel_right hpath'
  exact ⟨h.eq_of_path habove habove', (List.cons.inj hlabel').1⟩

/-! ## The way down -/

/-- Where a path goes on with some byte, there is a slot for that byte, and its node lies on the
path. -/
theorem exists_child (h : a.HasPaths paths) {node : NodeId} (hstart : paths[start]? = some above)
    (hnode : paths[node]? = some (above ++ byte :: below)) :
    ∃ child, a.child? start byte = some child ∧ a.label child <+: byte :: below := by
  -- the induction is on the path of the lower node, whose parent lies above, at or below the start
  induction hlength : (above ++ byte :: below).length using Nat.strongRecOn
    generalizing start node above byte below with
  | _ length ih =>
      have hroot : node ≠ root := by
        rintro rfl
        rw [h.root_path, Option.some.injEq] at hnode
        simp at hnode
      obtain ⟨parent, first, hchild⟩ := h.parent (h.lt_size hnode) hroot
      obtain ⟨upper, label, hupper, hlabel, hpath⟩ := h.slot hchild
      rw [hnode, Option.some.injEq] at hpath
      by_cases hsame : parent = start
      · subst hsame
        rw [hstart, Option.some.injEq] at hupper
        subst hupper
        obtain ⟨rfl, rfl⟩ := List.cons.inj (List.append_cancel_left hpath)
        exact ⟨node, hchild, hlabel ▸ List.prefix_rfl⟩
      · rcases List.append_eq_append_iff.mp hpath with ⟨middle, rfl, hrest⟩ | ⟨middle, rfl, hrest⟩
        · -- the parent is below the start
          cases middle with
          | nil =>
              rw [List.append_nil] at hupper
              exact absurd (h.eq_of_path hupper hstart) hsame
          | cons next middle =>
              rw [List.cons_append, List.cons.injEq] at hrest
              obtain ⟨rfl, rfl⟩ := hrest
              have hshorter : (above ++ byte :: middle).length < length := by
                rw [← hlength]
                simp
              obtain ⟨child, hslot, hbegins⟩ := ih _ hshorter hstart hupper rfl
              exact ⟨child, hslot, hbegins.trans (by simp)⟩
        · -- the parent is above the start, which would then have the node above it
          cases middle with
          | nil =>
              rw [List.append_nil] at hstart
              exact absurd (h.eq_of_path hupper hstart) hsame
          | cons next middle =>
              rw [List.cons_append, List.cons.injEq] at hrest
              obtain ⟨rfl, rfl⟩ := hrest
              have hshorter : (upper ++ first :: middle).length < length := by
                rw [← hlength]
                simp
              obtain ⟨child, hslot, hbegins⟩ := ih _ hshorter hupper hstart rfl
              rw [hchild, Option.some.injEq] at hslot
              rw [← hslot, hlabel] at hbegins
              have hle := hbegins.length_le
              rw [List.length_cons, List.length_cons, List.length_append, List.length_cons] at hle
              omega

/-- A path that goes on from a node's path with a byte goes on along the label in the byte's slot. -/
theorem exists_child_of_mem (h : a.HasPaths paths) (hstart : paths[start]? = some above)
    (hpath : path ∈ paths) (hway : above ++ byte :: below <+: path) :
    ∃ child, a.child? start byte = some child ∧ above ++ a.label child <+: path := by
  obtain ⟨node, hnode⟩ := List.mem_iff_getElem?.mp hpath
  obtain ⟨behind, rfl⟩ := hway
  rw [List.append_assoc, List.cons_append] at hnode ⊢
  obtain ⟨child, hchild, hbegins⟩ := h.exists_child hstart hnode
  exact ⟨child, hchild, (List.prefix_append_right_inj above).mpr hbegins⟩

theorem label_le_of_mem (h : a.HasPaths paths) (hstart : paths[start]? = some above)
    (hchild : a.child? start byte = some child) (hpath : path ∈ paths)
    (hway : above ++ byte :: below <+: path) : above ++ a.label child <+: path := by
  obtain ⟨found, hfound, hbegins⟩ := h.exists_child_of_mem hstart hpath hway
  rw [hchild, Option.some.injEq] at hfound
  rwa [hfound]

/-- Without a slot for a byte there is no path that goes on with it. -/
theorem not_mem_of_free (h : a.HasPaths paths) (hstart : paths[start]? = some above)
    (hfree : a.child? start byte = none) (hway : above ++ byte :: below <+: path) :
    path ∉ paths := by
  intro hpath
  obtain ⟨child, hchild, -⟩ := h.exists_child_of_mem hstart hpath hway
  rw [hfree] at hchild
  cases hchild

/-- A slot leads to the shortest path that goes on with its byte. -/
theorem child?_iff (h : a.HasPaths paths) :
    a.child? parent byte = some child ↔
      ∃ above below, paths[parent]? = some above ∧ paths[child]? = some (above ++ byte :: below) ∧
        ∀ other, above ++ byte :: other ∈ paths → below <+: other := by
  constructor
  · intro hchild
    obtain ⟨above, below, habove, hlabel, hpath⟩ := h.slot hchild
    refine ⟨above, below, habove, hpath, fun other hother => ?_⟩
    have hbegins := h.label_le_of_mem habove hchild hother List.prefix_rfl
    rw [hlabel, List.prefix_append_right_inj] at hbegins
    exact (List.cons_prefix_cons.mp hbegins).2
  · rintro ⟨above, below, habove, hpath, hshortest⟩
    obtain ⟨found, hfound, hbegins⟩ := h.exists_child habove hpath
    obtain ⟨label, hlabel, hfoundPath⟩ := h.edge habove hfound
    rw [hlabel, List.cons_prefix_cons] at hbegins
    have hbelow := hshortest label (List.mem_of_getElem? hfoundPath)
    have hsame : label = below := hbegins.2.eq_of_length_le hbelow.length_le
    rw [hfound, h.eq_of_path hfoundPath (hsame ▸ hpath)]

/-- Two paths part at a node: as long as they agree below a node, they agree on its child. -/
theorem commonPrefix_mem_of_prefix (h : a.HasPaths paths) {left right : List UInt8}
    (hleft : left ∈ paths) (hright : right ∈ paths) {rest : List UInt8}
    (hstart : paths[start]? = some above) (hrest : commonPrefix left right = above ++ rest) :
    commonPrefix left right ∈ paths := by
  induction hlength : rest.length using Nat.strongRecOn generalizing start above rest with
  | _ length ih =>
      cases rest with
      | nil =>
          rw [hrest, List.append_nil]
          exact List.mem_of_getElem? hstart
      | cons byte rest =>
          have hwayLeft := commonPrefix_prefix_left left right
          have hwayRight := commonPrefix_prefix_right left right
          rw [hrest] at hwayLeft hwayRight
          obtain ⟨child, hchild, hchildLeft⟩ := h.exists_child_of_mem hstart hleft hwayLeft
          have hchildRight := h.label_le_of_mem hstart hchild hright hwayRight
          obtain ⟨below, hlabel, hpath⟩ := h.edge hstart hchild
          rw [hlabel] at hchildLeft hchildRight
          obtain ⟨behind, hbehind⟩ := prefix_commonPrefix_iff.mpr ⟨hchildLeft, hchildRight⟩
          have hshorter : behind.length < length := by
            have hlengths := congrArg List.length (hbehind.trans hrest)
            simp only [List.length_append, List.length_cons] at hlengths hlength
            omega
          exact ih _ hshorter hpath hbehind.symm rfl

/-- The paths are closed under common prefixes. -/
theorem commonPrefix_mem (h : a.HasPaths paths) {left right : List UInt8} (hleft : left ∈ paths)
    (hright : right ∈ paths) : commonPrefix left right ∈ paths :=
  h.commonPrefix_mem_of_prefix hleft hright h.root_path (List.nil_append _).symm

/-! ## Growing and cutting -/

theorem nodup_append_new (h : a.HasPaths paths) (hnew : path ∉ paths) :
    (paths ++ [path]).Nodup := by
  rw [← List.concat_eq_append]
  exact h.nodup.concat hnew

/-- A leaf is grown where a node has no slot for the byte. -/
theorem grow (h : a.HasPaths paths) (hparent : paths[parent]? = some above)
    (hfree : a.child? parent byte = none) :
    (a.grow parent (byte :: below)).HasPaths (paths ++ [above ++ byte :: below]) := by
  have hinside := h.lt_size hparent
  refine ⟨?_, path_old h.root_path _, ?_, ?_, ?_,
    h.nodup_append_new (h.not_mem_of_free hparent hfree List.prefix_rfl)⟩
  · rw [List.length_append, h.length_eq, size_grow]
    rfl
  · rw [label_grow, if_neg (Nat.ne_of_lt (h.lt_size h.root_path)), h.root_label]
  · intro other first child hchild
    rw [child?_grow hinside] at hchild
    split at hchild
    · next hnew =>
        obtain ⟨rfl, rfl⟩ := hnew
        obtain rfl := Option.some.inj hchild
        refine ⟨above, below, path_old hparent _, ?_, h.path_new _⟩
        rw [label_grow, if_pos rfl]
    · obtain ⟨above', below', habove, hlabel, hpath⟩ := h.slot hchild
      refine ⟨above', below', path_old habove _, ?_, path_old hpath _⟩
      rw [label_grow, if_neg (Nat.ne_of_lt (h.child_lt_size hchild)), hlabel]
  · intro child hchild hroot
    rw [size_grow] at hchild
    rcases Nat.lt_succ_iff_lt_or_eq.mp hchild with hold | hnew
    · obtain ⟨other, first, hslot⟩ := h.parent hold hroot
      refine ⟨other, first, ?_⟩
      rw [child?_grow hinside, if_neg, hslot]
      rintro ⟨rfl, rfl⟩
      rw [hfree] at hslot
      cases hslot
    · refine ⟨parent, byte, ?_⟩
      rw [child?_grow hinside, if_pos ⟨rfl, rfl⟩, hnew]

section

variable {upper lower : List UInt8} {next : UInt8}

/-- The slots of an arena in which an edge was cut lead to longer paths, as `HasPaths` asks. -/
theorem slot_split (h : a.HasPaths paths) (hparent : paths[parent]? = some above)
    (hchild : a.child? parent byte = some child)
    (hlabel : a.label child = byte :: upper ++ next :: lower) {other found : NodeId} {first : UInt8}
    (hfound : (a.split parent child (upper.length + 1)).child? other first = some found) :
    ∃ before rest, (paths ++ [above ++ byte :: upper])[other]? = some before ∧
      (a.split parent child (upper.length + 1)).label found = first :: rest ∧
      (paths ++ [above ++ byte :: upper])[found]? = some (before ++ first :: rest) := by
  have hlower := h.child_lt_size hchild
  obtain ⟨below, hbelow, hpath⟩ := h.edge hparent hchild
  rw [← hbelow, hlabel, ← List.append_assoc] at hpath
  rw [child?_split_of_eq hlabel (h.lt_size hparent) hlower] at hfound
  rw [label_split_of_eq hlabel hlower]
  split at hfound
  · -- the new node has the shortened one below it
    next hnew =>
      obtain ⟨rfl, rfl⟩ := hnew
      obtain rfl := Option.some.inj hfound
      refine ⟨_, lower, h.path_new _, ?_, path_old hpath _⟩
      rw [if_neg (Nat.ne_of_lt hlower), if_pos rfl]
  · split at hfound
    · -- and stands in the slot the shortened one had
      next hold =>
        obtain ⟨rfl, rfl⟩ := hold
        obtain rfl := Option.some.inj hfound
        exact ⟨above, upper, path_old hparent _, if_pos rfl, h.path_new _⟩
    · next hold =>
        obtain ⟨before, rest, hbefore, hrest, hpath⟩ := h.slot hfound
        have hne : found ≠ child := by
          rintro rfl
          obtain ⟨rfl, rfl⟩ := h.slot_unique hfound hchild
          exact hold ⟨rfl, rfl⟩
        refine ⟨before, rest, path_old hbefore _, ?_, path_old hpath _⟩
        rw [if_neg (Nat.ne_of_lt (h.child_lt_size hfound)), if_neg hne, hrest]

/-- Every node but the root stands in a slot after an edge was cut. -/
theorem parent_split (h : a.HasPaths paths) (hparent : paths[parent]? = some above)
    (hchild : a.child? parent byte = some child)
    (hlabel : a.label child = byte :: upper ++ next :: lower) {found : NodeId}
    (hfound : found < a.size + 1) (hroot : found ≠ root) :
    ∃ other first, (a.split parent child (upper.length + 1)).child? other first = some found := by
  have hinside := h.lt_size hparent
  have hslots := child?_split_of_eq hlabel hinside (h.child_lt_size hchild)
  by_cases hsame : found = child
  · refine ⟨a.size, next, ?_⟩
    rw [hslots, if_pos ⟨rfl, rfl⟩, hsame]
  · rcases Nat.lt_succ_iff_lt_or_eq.mp hfound with hold | hnew
    · obtain ⟨other, first, hslot⟩ := h.parent hold hroot
      refine ⟨other, first, ?_⟩
      have hne : other ≠ a.size := Nat.ne_of_lt (lt_size_of_child? hslot)
      rw [hslots, if_neg (fun heq => hne heq.1), if_neg, hslot]
      rintro ⟨rfl, rfl⟩
      rw [hchild, Option.some.injEq] at hslot
      exact hsame hslot.symm
    · refine ⟨parent, byte, ?_⟩
      rw [hslots, if_neg (fun heq => Nat.ne_of_lt hinside heq.1), if_pos ⟨rfl, rfl⟩, hnew]

/-- An edge is cut strictly inside its label. -/
theorem split (h : a.HasPaths paths) (hparent : paths[parent]? = some above)
    (hchild : a.child? parent byte = some child)
    (hlabel : a.label child = byte :: upper ++ next :: lower) :
    (a.split parent child (upper.length + 1)).HasPaths (paths ++ [above ++ byte :: upper]) where
  length_eq := by
    rw [List.length_append, h.length_eq, size_split]
    rfl
  root_path := path_old h.root_path _
  root_label := by
    rw [label_split_of_eq hlabel (h.child_lt_size hchild),
      if_neg (Nat.ne_of_lt (h.lt_size h.root_path)),
      if_neg (fun heq => h.child_ne_root hchild heq.symm), h.root_label]
  slot hfound := h.slot_split hparent hchild hlabel hfound
  parent hfound hroot := by
    rw [size_split] at hfound
    exact h.parent_split hparent hchild hlabel hfound hroot
  nodup := by
    -- a path that ended inside the label would have the whole label on its way
    refine h.nodup_append_new fun hpath => ?_
    have hbegins := h.label_le_of_mem hparent hchild hpath List.prefix_rfl
    rw [hlabel, ← List.append_assoc] at hbegins
    exact not_append_prefix_self (List.cons_ne_nil next lower) _ hbegins

end

end HasPaths

end Arena

end PrefixSearch
