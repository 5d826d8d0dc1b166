import PrefixSearch.Proofs.Trie.Contents

/-!
# Merging trees of texts

Merging one tree into another merges them place by place: a place of the outcome absorbs what the
other tree has there, and it is a node if it was one in either tree or if the two trees part there.
So a tree that was put together from parts has the nodes and the exact results of the tree of all
texts, and it is that tree if it has the same completions.
-/

namespace PrefixSearch

variable [Search]

namespace Place

variable (table : ResultTable) (bound : Nat)

/-- The place where a place of one tree was added to a place of another. -/
def merge (other mine : Place) : Place :=
  { isNode := other.isNode ∨ mine.isNode ∨
      ∃ a b, a ≠ b ∧ (other.below.step a).Inside ∧ (mine.below.step b).Inside
    hits := Hits.absorb table bound other.hits mine.hits
    below := other.below.absorb table bound mine.below }

@[simp] theorem merge_nowhere (mine : Place) : merge table bound nowhere mine = mine := by
  simp [merge, nowhere, Hits.absorb, Forest.absorb, Inside]

end Place

namespace Forest

variable {table : ResultTable} {bound : Nat}

/-- What the addition of a node with everything below it does at the end of the node's label. -/
def absorbNode (table : ResultTable) (bound : Nat) (hits : Hits) (below : Forest) (found : Hits)
    (forest : Forest) : Hits × Forest :=
  (Hits.absorb table bound hits found, below.absorb table bound forest)

theorem absorb_cons (label : List UInt8) (hits : Hits) (below next mine : Forest) :
    (cons label hits below next).absorb table bound mine =
      next.absorb table bound
        (mine.graft (Hits.completeAll table bound hits) (absorbNode table bound hits below)
          label) := by
  rw [absorb]
  rfl

theorem offers_absorb (hits : Hits) (below : Forest) :
    Offers (fun set => Ranked.insertAll table (some bound) hits.completions set)
      (Hits.completeAll table bound hits) (absorbNode table bound hits below) where
  through_eq _ := rfl
  finish_completions _ _ := rfl

theorem wellFormed_absorb {other mine : Forest} (hother : other.WellFormed)
    (hmine : mine.WellFormed) : (other.absorb table bound mine).WellFormed := by
  induction other generalizing mine with
  | nil => exact hmine
  | cons label hits below next ihBelow ihNext =>
      obtain ⟨hlabel, -, hbelow, hnext⟩ := hother
      rw [absorb_cons]
      refine ihNext hnext (wellFormed_graft ?_ hmine hlabel)
      intro found forest hforest
      exact ihBelow hbelow hforest

/-- Adding a node at the end of a label merges the way to it. -/
theorem graft_eq_merge (label : List UInt8) (hits : Hits) (below : Forest) (p : Place) :
    p.graft (Hits.completeAll table bound hits) (absorbNode table bound hits below) label =
      Place.merge table bound (Place.onEdge label hits below) p := by
  -- the rest of an edge is a forest with one topmost node, so it forks where the label does
  by_cases hlabel : label = []
  · subst hlabel
    simp [Place.graft_nil, Place.merge, absorbNode]
  · rw [Place.graft_of_ne _ _ hlabel, Place.onEdge_of_ne hlabel]
    obtain ⟨first, rest, rfl⟩ := List.exists_cons_of_ne_nil hlabel
    have hfork : (∃ a b, a ≠ b ∧ ((cons (first :: rest) hits below .nil).step a).Inside ∧
        (p.below.step b).Inside) ↔ p.below.ForksFrom (first :: rest) := by
      constructor
      · rintro ⟨a, b, hne, hway, hinside⟩
        have hfirst : first = a := by
          refine Decidable.byContradiction fun hother => ?_
          rw [step_cons_of_ne hother] at hway
          exact Place.not_inside_nowhere hway
        exact ⟨a, b, by rw [hfirst]; rfl, hne, hinside⟩
      · rintro ⟨a, b, hfirst, hne, hinside⟩
        obtain rfl : first = a := by simpa using hfirst
        exact ⟨first, b, hne, by simp, hinside⟩
    simp only [Place.merge, hfork, false_or, absorb, Place.mk.injEq, true_and]
    exact ⟨rfl, rfl⟩

/-- Adding one forest to another adds what lies below every byte. -/
theorem step_absorb {other mine : Forest} (hother : other.WellFormed) (hmine : mine.WellFormed)
    (byte : UInt8) :
    (other.absorb table bound mine).step byte =
      Place.merge table bound (other.step byte) (mine.step byte) := by
  induction other generalizing mine with
  | nil => rw [absorb, step_nil, Place.merge_nowhere]
  | cons label hits below next _ ihNext =>
      obtain ⟨hlabel, hfirst, hbelow, hnext⟩ := hother
      obtain ⟨first, rest, rfl⟩ := List.exists_cons_of_ne_nil hlabel
      have hgraft : (mine.graft (Hits.completeAll table bound hits)
          (absorbNode table bound hits below) (first :: rest)).WellFormed :=
        wellFormed_graft (fun _ _ hforest => wellFormed_absorb hbelow hforest) hmine hlabel
      rw [absorb_cons, ihNext hnext hgraft]
      by_cases hbyte : first = byte
      · subst hbyte
        -- the other siblings begin with greater bytes and add nothing here
        have hout : next.step first = Place.nowhere := step_of_forall_lt hnext hfirst
        rw [hout, Place.merge_nowhere,
          step_graft_self (offers_absorb hits below) hmine, graft_eq_merge, step_cons_self]
      · rw [step_graft_of_ne hmine hbyte, step_cons_of_ne hbyte]

end Forest

namespace Place

variable {table : ResultTable} {bound : Nat}

theorem descend_merge {other mine : Place} (hother : other.below.WellFormed)
    (hmine : mine.below.WellFormed) (text : List UInt8) :
    (merge table bound other mine).descend text =
      merge table bound (other.descend text) (mine.descend text) := by
  induction text generalizing other mine with
  | nil => rfl
  | cons byte rest ih =>
      rw [descend_cons, descend_cons, descend_cons,
        ← ih (Forest.wellFormed_step hother byte) (Forest.wellFormed_step hmine byte)]
      show ((other.below.absorb table bound mine.below).step byte).descend rest = _
      rw [Forest.step_absorb hother hmine]

end Place

namespace Trie

variable (table : ResultTable)

theorem place_merge {t other : Trie} (ht : t.forest.WellFormed) (hother : other.forest.WellFormed)
    (text : List UInt8) :
    (t.merge table other).place text =
      Place.merge table t.bound (other.place text) (t.place text) := by
  have hroot : (t.merge table other).root = Place.merge table t.bound other.root t.root := by
    simp [merge, root, Place.merge]
  rw [place, hroot, Place.descend_merge hother ht]
  rfl

theorem wellFormed_merge {t other : Trie} (ht : t.forest.WellFormed)
    (hother : other.forest.WellFormed) : (t.merge table other).forest.WellFormed :=
  Forest.wellFormed_absorb hother ht

end Trie

namespace Forest

variable {table : ResultTable} {bound : Nat}

theorem absorb_eq_nil_iff (other mine : Forest) :
    other.absorb table bound mine = .nil ↔ other = .nil ∧ mine = .nil := by
  induction other generalizing mine with
  | nil => simp [absorb]
  | cons label hits below next _ ihNext =>
      rw [absorb_cons, ihNext]
      simp [graft_ne_nil]

end Forest

namespace Place

variable {table : ResultTable} {bound : Nat}

theorem inside_merge (other mine : Place) :
    (merge table bound other mine).Inside ↔ other.Inside ∨ mine.Inside := by
  have hway : ∀ (f : Forest) byte, (f.step byte).Inside → f ≠ .nil := by
    rintro f byte hinside rfl
    exact not_inside_nowhere hinside
  simp only [merge, Inside, ne_eq, Forest.absorb_eq_nil_iff, not_and_or]
  constructor
  · rintro ((hnode | hnode | ⟨a, b, -, hinside, -⟩) | hbelow | hbelow)
    · exact Or.inl (Or.inl hnode)
    · exact Or.inr (Or.inl hnode)
    · exact Or.inl (Or.inr (hway _ a hinside))
    · exact Or.inl (Or.inr hbelow)
    · exact Or.inr (Or.inr hbelow)
  · rintro ((hnode | hbelow) | hnode | hbelow)
    · exact Or.inl (Or.inl hnode)
    · exact Or.inr (Or.inl hbelow)
    · exact Or.inl (Or.inr (Or.inl hnode))
    · exact Or.inr (Or.inr hbelow)

end Place

/-! ## Trees that were put together from parts -/

namespace Trie

/-- The tree has the form and the exact results of the tree of some texts. -/
structure Holds (table : ResultTable) (terms : List Term) (t : Trie) : Prop where
  wellFormed : t.forest.WellFormed
  isNode_iff : ∀ text, (t.place text).isNode ↔ Term.Parts terms text
  inside_iff : ∀ text byte, (t.place (text ++ [byte])).Inside ↔ Term.GoesOn terms text byte
  exact_eq : ∀ text, (t.place text).hits.exact =
    Ranked.insertAll table none (Term.exactIds terms text) []

variable {table : ResultTable}

theorem holds_ofTerms (table : ResultTable) (bound : Nat) (terms : List Term) :
    Holds table terms (ofTerms table bound terms) where
  wellFormed := wellFormed_ofTerms table bound terms
  isNode_iff := isNode_place_ofTerms table bound terms
  inside_iff := inside_step_ofTerms table bound terms
  exact_eq text := by rw [hits_place_ofTerms]

/-- Merging keeps the form: the texts of both trees make the nodes of the outcome. -/
theorem Holds.merge {left right : List Term} {t other : Trie} (ht : Holds table left t)
    (hother : Holds table right other) : Holds table (left ++ right) (t.merge table other) := by
  have hplace := place_merge table ht.wellFormed hother.wellFormed
  refine ⟨wellFormed_merge table ht.wellFormed hother.wellFormed, ?_, ?_, ?_⟩
  · intro text
    rw [hplace, Term.parts_append]
    simp only [Place.merge, ← place_snoc, ht.isNode_iff, hother.isNode_iff, ht.inside_iff,
      hother.inside_iff]
    rw [or_left_comm, Term.across_comm]
  · intro text byte
    rw [hplace, Place.inside_merge, ht.inside_iff, hother.inside_iff, Term.goesOn_append, or_comm]
  · intro text
    rw [hplace, Term.exactIds_append]
    show Ranked.insertAll table none (other.place text).hits.exact (t.place text).hits.exact = _
    rw [ht.exact_eq, hother.exact_eq,
      Ranked.insertAll_insertAll (Ranked.orderIrrelevant_none table _)]

/-- Two trees with the form of the tree of some texts are the same if they have the same
completions. -/
theorem Holds.unique {terms : List Term} {t other : Trie} (ht : Holds table terms t)
    (hother : Holds table terms other) (hbound : t.bound = other.bound)
    (hcompletions : ∀ text,
      (t.place text).hits.completions = (other.place text).hits.completions) : t = other := by
  refine eq_of_places ht.wellFormed hother.wellFormed hbound (fun text => ?_) fun text => ?_
  · rw [ht.isNode_iff, hother.isNode_iff]
  · have hexact := (ht.exact_eq text).trans (hother.exact_eq text).symm
    exact congrArg₂ Hits.mk hexact (hcompletions text)

/-- A tree with the form of the tree of some texts is that tree if it has the completions. -/
theorem Holds.eq_ofTerms {bound : Nat} {terms : List Term} {t : Trie} (ht : Holds table terms t)
    (hbound : t.bound = bound)
    (hcompletions : ∀ text, (t.place text).hits.completions =
      Ranked.insertAll table (some bound) (Term.completionIds terms text) []) :
    t = ofTerms table bound terms := by
  refine ht.unique (holds_ofTerms table bound terms) ?_ fun text => ?_
  · rw [hbound, bound_ofTerms]
  · rw [hcompletions, hits_place_ofTerms]

end Trie

end PrefixSearch
