import PrefixSearch.Decoder
import PrefixSearch.Proofs.Bytes.Fields
import PrefixSearch.Proofs.Capacity

/-!
# The stored tree

A reference to a node is an offset.  `Stores` says that the nodes at some references, and the nodes
that these refer to, are those of a forest.  The bytes of a forest make its references store it, and
wherever a forest is stored, the walk from offset to offset finds what the forest finds.
-/

namespace PrefixSearch

open Bytes (Reader Source)

/-- The references to the nodes of a forest that is written at `start` stay within its bytes. -/
theorem Forest.references_bounds {w : Widths} {start : Nat} {f : Forest} {child : UInt8 × Nat}
    (hchild : child ∈ f.references w start) :
    start ≤ child.2 ∧ child.2 < start + f.byteSize w := by
  induction f generalizing start with
  | nil => cases hchild
  | cons label hits below next _ ihNext =>
      have hsize := w.nodeSize_pos label hits below.firstBytes.length
      rw [references, List.mem_cons] at hchild
      rw [byteSize]
      rcases hchild with rfl | hchild
      · show start ≤ start ∧ start < _
        omega
      · have hnext := ihNext hchild
        omega

namespace SearchData

variable {d : SearchData} {source : Source}

/-! ## Reading nodes -/

/-- The results are few enough for the width of IDs, the bytes for the width of offsets. -/
structure Roomy (d : SearchData) : Prop where
  results : d.resultCount < d.widths.id.sentinel
  file : d.size ≤ Bytes.capacity d.widths.offsetBytes

theorem Roomy.lt_capacity (hd : d.Roomy) {count : Nat} (hcount : count ≤ d.resultCount) :
    count < Bytes.capacity d.widths.idBytes :=
  WidthClass.le_maxValue_iff.mp (Nat.le_trans hcount (Nat.le_of_lt hd.results))

theorem Roomy.decodes_id (hd : d.Roomy) {id : Id} (hid : id < d.resultCount) :
    Reader.Decodes source d.readId (d.widths.idField id) id := by
  rw [← List.append_nil (d.widths.idField id)]
  refine (Reader.decodes_uint (hd.lt_capacity (Nat.le_of_lt hid))).bind ?_
  exact Reader.Decodes.of_check hid (Reader.Decodes.pure id)

theorem Roomy.decodes_ids (hd : d.Roomy) {ids : List Id} (hids : IdSet d.resultCount ids) :
    Reader.Decodes source d.readIds (d.widths.idsField ids) ids := by
  have hcount : ids.length ≤ d.resultCount := hids.length_le
  refine (Reader.decodes_uint (hd.lt_capacity hcount)).bind (Reader.Decodes.of_check hcount ?_)
  exact Reader.decodes_replicate d.widths.idField ids fun id hid => hd.decodes_id (hids.2 id hid)

theorem Roomy.decodes_child (hd : d.Roomy) {offset : Nat} {child : UInt8 × Nat}
    (hchild : offset < child.2 ∧ child.2 < d.size) :
    Reader.Decodes source (d.readChild offset) (child.1 :: d.widths.offsetField child.2) child := by
  have hoffset : child.2 < Bytes.capacity d.widths.offsetBytes :=
    Nat.lt_of_lt_of_le hchild.2 hd.file
  have hpair : (UInt8.ofNat child.1.toNat, child.2) = child := by rw [UInt8.ofNat_toNat]
  rw [← List.append_nil (d.widths.offsetField child.2)]
  refine (Reader.decodes_byte child.1).bind ((Reader.decodes_uint hoffset).bind ?_)
  refine Reader.Decodes.of_check hchild ?_
  rw [hpair]
  exact Reader.Decodes.pure child

/-- A node is read back from its bytes. -/
theorem Roomy.node_eq (hd : d.Roomy) {offset : Nat} {label : List UInt8} {hits : Hits}
    {children : List (UInt8 × Nat)}
    (hholds : d.source.Holds offset (d.widths.nodeField label hits children))
    (hoffset : d.trieOffset ≤ offset) (hlabel : label.length < Bytes.capacity d.widths.nameBytes)
    (hcount : children.length ≤ 255) (hhits : hits.Within d.resultCount)
    (hchildren : ∀ child ∈ children, offset < child.2 ∧ child.2 < d.size) :
    d.node offset = .ok { offset, label, children, hits } := by
  have hreferences : Reader.Decodes d.source (Reader.replicate (d.readChild offset) children.length)
      (children.flatMap fun child => child.1 :: d.widths.offsetField child.2) children :=
    Reader.decodes_replicate _ children fun child hchild =>
      hd.decodes_child (hchildren child hchild)
  have hnode : Reader.Decodes d.source (d.readNode offset)
      (d.widths.nodeField label hits children) { offset, label, children, hits } := by
    rw [Widths.nodeField, Widths.nameField, List.append_assoc]
    refine (Reader.decodes_uint hlabel).bind ((Reader.decodes_bytes label).bind ?_)
    refine (Reader.decodes_count hcount).bind (hreferences.bind ((hd.decodes_ids hhits.1).bind ?_))
    exact (hd.decodes_ids hhits.2).map _
  rw [node, if_neg (Nat.not_lt.mpr hoffset), Reader.run, hnode offset hholds]

/-! ## The nodes of a forest -/

/-- The nodes at the references, and those below them, are the nodes of the forest. -/
inductive Stores (d : SearchData) : List (UInt8 × Nat) → Forest → Prop
  | nil : Stores d [] .nil
  | cons {first : UInt8} {offset : Nat} {label : List UInt8} {hits : Hits}
      {children references : List (UInt8 × Nat)} {below next : Forest}
      (hfirst : label.headD 0 = first)
      (hnode : d.node offset = .ok { offset, label, children, hits })
      (hbelow : Stores d children below) (hnext : Stores d references next) :
      Stores d ((first, offset) :: references) (.cons label hits below next)

/-- The bytes of a forest make its references store it. -/
theorem Roomy.stores (hd : d.Roomy) {f : Forest} {start depth : Nat}
    (hholds : d.source.Holds start (f.encode d.widths start)) (hstart : d.trieOffset ≤ start)
    (hfits : ∀ v ∈ f.visits depth, v.Fits d.widths d.resultCount) :
    d.Stores (f.references d.widths start) f := by
  induction f generalizing start depth with
  | nil => exact .nil
  | cons label hits below next ihBelow ihNext =>
      rw [Forest.visits, List.forall_mem_cons, List.forall_mem_append] at hfits
      obtain ⟨hnode, hbelow, hnext⟩ := hfits
      have hparts := Source.holds_append.mp hholds
      rw [Widths.length_nodeField, Forest.length_references, Source.holds_append,
        Forest.length_encode] at hparts
      obtain ⟨hfield, hinner, hrest⟩ := hparts
      have hsize := d.widths.nodeSize_pos label hits below.firstBytes.length
      -- the children are written behind the node, and all of them are inside the data
      have hchildren : ∀ child ∈ below.references d.widths
          (start + d.widths.nodeSize label hits below.firstBytes.length),
          start < child.2 ∧ child.2 < d.size := by
        intro child hchild
        have hbounds := Forest.references_bounds hchild
        have hend := hinner.le_size
        rw [Forest.length_encode, source, Source.size_ofArray] at hend
        unfold size
        omega
      refine .cons rfl (hd.node_eq hfield hstart hnode.label ?_ hnode.hits hchildren) ?_ ?_
      · rw [Forest.length_references]
        exact hnode.children
      · exact ihBelow hinner (by omega) hbelow
      · exact ihNext hrest (by omega) hnext

/-! ## Walking from offset to offset -/

/-- Go on at the child that the first byte of a text leads to. -/
def follow (d : SearchData) (children : List (UInt8 × Nat)) (first : UInt8)
    (rest : List UInt8) : Except Corruption Hits :=
  match children.find? (·.1 = first) with
  | none => .ok {}
  | some child => d.enter child.2 (first :: rest)

theorem follow_children (d : SearchData) (node : StoredNode) (first : UInt8) (rest : List UInt8) :
    d.follow node.children first rest =
      match node.child? first with
      | none => .ok {}
      | some child => d.enter child (first :: rest) := by
  unfold follow StoredNode.child?
  cases node.children.find? (·.1 = first) with
  | none => rfl
  | some child => rfl

theorem enter_eq {offset : Nat} {node : StoredNode} (hnode : d.node offset = .ok node)
    (text : List UInt8) :
    d.enter offset text =
      if sharedLength node.label text < node.label.length then
        .ok (if sharedLength node.label text = text.length then
          { completions := node.hits.completions } else {})
      else
        match text.drop (sharedLength node.label text) with
        | [] => .ok node.hits
        | first :: rest => d.follow node.children first rest := by
  -- the walk keeps equations for its termination, so its matches are split and not rewritten
  rw [enter]
  split
  · next fault hfault =>
    rw [hnode] at hfault
    cases hfault
  · next found hfound =>
    rw [hnode] at hfound
    cases hfound
    dsimp only
    by_cases hinside : sharedLength node.label text < node.label.length
    · rw [if_pos hinside, if_pos hinside]
    · rw [if_neg hinside, if_neg hinside]
      cases text.drop (sharedLength node.label text) with
      | nil => rfl
      | cons first rest =>
          dsimp only
          rw [follow_children]
          split
          · next hnone => simp [hnone]
          · next child hsome => simp [hsome]

theorem lookupBytes_nil {root : StoredNode} (hroot : d.node d.trieOffset = .ok root) :
    d.lookupBytes [] = .ok root.hits := by
  rw [lookupBytes, hroot]
  rfl

theorem lookupBytes_cons {root : StoredNode} (hroot : d.node d.trieOffset = .ok root)
    (first : UInt8) (rest : List UInt8) :
    d.lookupBytes (first :: rest) = d.follow root.children first rest := by
  rw [lookupBytes, hroot, follow_children]
  rfl

/-- Where a forest is stored, the walk from offset to offset finds what the forest finds. -/
theorem Stores.follow_eq {references : List (UInt8 × Nat)} {f : Forest}
    (hstores : d.Stores references f) (hf : f.WellFormed) (first : UInt8) (rest : List UInt8) :
    d.follow references first rest = .ok (f.lookup (first :: rest)) := by
  induction hstores generalizing first rest with
  | nil => rfl
  | @cons _ offset label hits children references below next hlabelFirst hnode _ _ ihBelow ihNext =>
      subst hlabelFirst
      obtain ⟨hlabel, -, hbelow, hnext⟩ := hf
      obtain ⟨byte, tail, rfl⟩ := List.exists_cons_of_ne_nil hlabel
      -- both walks pass the siblings that begin with another byte
      by_cases hbyte : byte = first
      · subst hbyte
        have hfollow : d.follow (((byte :: tail).headD 0, offset) :: references) byte rest =
            d.enter offset (byte :: rest) := by
          simp [follow]
        have hbound := sharedLength_le (byte :: tail) (byte :: rest)
        have hsome : sharedLength (byte :: tail) (byte :: rest) ≠ 0 := by simp
        rw [hfollow, enter_eq hnode, Forest.lookup]
        dsimp only
        generalize sharedLength (byte :: tail) (byte :: rest) = shared at hbound hsome ⊢
        rw [if_neg hsome]
        by_cases hwhole : shared = (byte :: tail).length
        · rw [if_neg (by omega), if_pos hwhole]
          -- the walk is at the node: the text ends here or goes on below
          cases hdrop : (byte :: rest).drop shared with
          | nil =>
              have hend : shared = (byte :: rest).length := by
                have hall := List.drop_eq_nil_iff.mp hdrop
                omega
              rw [if_pos hend]
          | cons again others =>
              have hmore : shared ≠ (byte :: rest).length := by
                intro hend
                rw [hend, List.drop_length] at hdrop
                cases hdrop
              rw [if_neg hmore]
              exact ihBelow hbelow again others
        · rw [if_pos (by omega), if_neg hwhole]
      · have hfollow : d.follow (((byte :: tail).headD 0, offset) :: references) first rest =
            d.follow references first rest := by
          simp [follow, hbyte]
        rw [hfollow, Forest.lookup, ihNext hnext]
        simp [sharedLength_cons_of_ne hbyte]

/-- A text finds in the bytes of a tree what it finds in the tree. -/
theorem Roomy.lookupBytes_eq (hd : d.Roomy) {t : Trie}
    (hholds : d.source.Holds d.trieOffset (t.encode d.widths d.trieOffset))
    (ht : t.forest.WellFormed) (hfits : ∀ v ∈ t.visits, v.Fits d.widths d.resultCount)
    (text : List UInt8) : d.lookupBytes text = .ok (t.lookup text) := by
  have hvisits : ∀ v ∈ (Forest.cons [] t.hits t.forest .nil).visits 0,
      v.Fits d.widths d.resultCount := by
    rwa [Forest.visits, Forest.visits, List.append_nil]
  cases hd.stores hholds (Nat.le_refl _) hvisits with
  | cons _ hroot hbelow _ =>
      cases text with
      | nil => exact lookupBytes_nil hroot
      | cons first rest =>
          rw [lookupBytes_cons hroot, hbelow.follow_eq ht, Trie.lookup,
            if_neg (List.cons_ne_nil first rest)]

end SearchData

end PrefixSearch
