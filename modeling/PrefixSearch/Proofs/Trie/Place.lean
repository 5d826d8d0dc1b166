import PrefixSearch.Trie.Graft

/-!
# Places in a prefix tree

A text leads to a place: to a node, to a point inside an edge, or out of the tree.  Going down one
byte is a function of what lies below a place, and a point inside an edge is described by a forest
of its own, the rest of the edge.  So what a tree holds can be followed byte by byte, and where its
edges are cut does not matter for what a text finds.

The main statements: looking a text up finds what its place finds, and a well-formed tree is
determined by which places are nodes and what the places find.
-/

namespace PrefixSearch

/-! ## Shared lengths -/

@[simp] theorem sharedLength_nil_left (text : List UInt8) : sharedLength [] text = 0 := by
  simp [sharedLength]

@[simp] theorem sharedLength_nil_right (text : List UInt8) : sharedLength text [] = 0 := by
  simp [sharedLength]

@[simp] theorem sharedLength_cons_self (byte : UInt8) (left right : List UInt8) :
    sharedLength (byte :: left) (byte :: right) = sharedLength left right + 1 := by
  simp [sharedLength]

theorem sharedLength_cons_of_ne {a b : UInt8} (hne : a ≠ b) (left right : List UInt8) :
    sharedLength (a :: left) (b :: right) = 0 := by
  simp [sharedLength, hne]

theorem sharedLength_le (label text : List UInt8) :
    sharedLength label text ≤ min label.length text.length := by
  rw [← List.length_zip]
  exact (List.takeWhile_sublist _).length_le

theorem sharedLength_append (common left right : List UInt8) :
    sharedLength (common ++ left) (common ++ right) = common.length + sharedLength left right := by
  induction common with
  | nil => simp
  | cons byte common ih =>
      rw [List.cons_append, List.cons_append, sharedLength_cons_self, ih, List.length_cons]
      omega

/-- How a label and a text lie to each other. -/
inductive Meeting : List UInt8 → List UInt8 → Prop
  | same (label : List UInt8) : Meeting label label
  | beyond (label rest : List UInt8) (hrest : rest ≠ []) : Meeting label (label ++ rest)
  | within (text tail : List UInt8) (htail : tail ≠ []) : Meeting (text ++ tail) text
  | fork (common : List UInt8) (a b : UInt8) (tail rest : List UInt8) (hne : a ≠ b) :
      Meeting (common ++ a :: tail) (common ++ b :: rest)

theorem meeting (label text : List UInt8) : Meeting label text := by
  induction label generalizing text with
  | nil =>
      cases text with
      | nil => exact .same []
      | cons b rest => exact .beyond [] (b :: rest) (List.cons_ne_nil b rest)
  | cons a tail ih =>
      cases text with
      | nil => exact .within [] (a :: tail) (List.cons_ne_nil a tail)
      | cons b rest =>
          by_cases hab : a = b
          · subst hab
            cases ih rest with
            | same => exact .same (a :: tail)
            | beyond _ rest hrest => exact .beyond (a :: tail) rest hrest
            | within _ tail htail => exact .within (a :: rest) tail htail
            | fork common c d tail rest hne => exact .fork (a :: common) c d tail rest hne
          · exact .fork [] a b tail rest hab

/-! ## Well-formed forests -/

namespace Forest

/-- No label is empty, and siblings stand in the strict order of their first bytes. -/
def WellFormed : Forest → Prop
  | .nil => True
  | .cons label _ below next =>
      label ≠ [] ∧ (∀ first ∈ next.firstBytes, label.headD 0 < first) ∧
        below.WellFormed ∧ next.WellFormed

@[simp] theorem wellFormed_nil : Forest.nil.WellFormed := trivial

theorem wellFormed_edge {label : List UInt8} {hits : Hits} {below : Forest} (hlabel : label ≠ [])
    (hbelow : below.WellFormed) : (cons label hits below .nil).WellFormed :=
  ⟨hlabel, by simp [firstBytes], hbelow, trivial⟩

end Forest

/-- Where a text leads to. -/
structure Place where
  isNode : Prop
  hits : Hits
  below : Forest

namespace Place

/-- Out of the tree. -/
def nowhere : Place :=
  { isNode := False, hits := {}, below := .nil }

/-- The place from which the rest of a label leads to a node. -/
def onEdge (rest : List UInt8) (hits : Hits) (below : Forest) : Place :=
  if rest = [] then
    { isNode := True, hits, below }
  else
    { isNode := False
      hits := { completions := hits.completions }
      below := .cons rest hits below .nil }

@[simp] theorem onEdge_nil (hits : Hits) (below : Forest) :
    onEdge [] hits below = { isNode := True, hits, below } := rfl

theorem onEdge_of_ne {rest : List UInt8} (hrest : rest ≠ []) (hits : Hits) (below : Forest) :
    onEdge rest hits below =
      { isNode := False
        hits := { completions := hits.completions }
        below := .cons rest hits below .nil } :=
  if_neg hrest

/-- The place is in the tree. -/
def Inside (p : Place) : Prop :=
  p.isNode ∨ p.below ≠ .nil

@[simp] theorem not_inside_nowhere : ¬ nowhere.Inside := by
  simp [Inside, nowhere]

@[simp] theorem inside_onEdge (rest : List UInt8) (hits : Hits) (below : Forest) :
    (onEdge rest hits below).Inside := by
  by_cases hrest : rest = []
  · subst hrest
    exact Or.inl trivial
  · rw [onEdge_of_ne hrest]
    exact Or.inr (by simp)

end Place

namespace Forest

/-- The place one byte further down. -/
def step (byte : UInt8) : Forest → Place
  | .nil => Place.nowhere
  | .cons label hits below next =>
      if label.head? = some byte then Place.onEdge label.tail hits below else next.step byte

@[simp] theorem step_nil (byte : UInt8) : Forest.nil.step byte = Place.nowhere := rfl

@[simp] theorem step_cons_self (byte : UInt8) (rest : List UInt8) (hits : Hits)
    (below next : Forest) :
    (cons (byte :: rest) hits below next).step byte = Place.onEdge rest hits below := by
  simp [step]

theorem step_cons_of_ne {a b : UInt8} (hne : a ≠ b) (rest : List UInt8) (hits : Hits)
    (below next : Forest) :
    (cons (a :: rest) hits below next).step b = next.step b := by
  simp [step, hne]

/-- A byte with which no sibling begins leads out of the tree. -/
theorem step_of_not_mem {byte : UInt8} {f : Forest} (hf : f.WellFormed)
    (hbyte : byte ∉ f.firstBytes) : f.step byte = Place.nowhere := by
  induction f with
  | nil => rfl
  | cons label hits below next _ ih =>
      obtain ⟨hlabel, -, -, hnext⟩ := hf
      obtain ⟨first, rest, rfl⟩ := List.exists_cons_of_ne_nil hlabel
      simp only [firstBytes, List.headD_cons, List.mem_cons, not_or] at hbyte
      rw [step_cons_of_ne (Ne.symm hbyte.1), ih hnext hbyte.2]

theorem step_of_forall_lt {byte : UInt8} {f : Forest} (hf : f.WellFormed)
    (hbyte : ∀ first ∈ f.firstBytes, byte < first) : f.step byte = Place.nowhere :=
  step_of_not_mem hf fun hmem => UInt8.lt_irrefl byte (hbyte byte hmem)

theorem wellFormed_below_onEdge {rest : List UInt8} {hits : Hits} {below : Forest}
    (hbelow : below.WellFormed) : (Place.onEdge rest hits below).below.WellFormed := by
  by_cases hrest : rest = []
  · subst hrest
    exact hbelow
  · rw [Place.onEdge_of_ne hrest]
    exact wellFormed_edge hrest hbelow

theorem wellFormed_step {f : Forest} (hf : f.WellFormed) (byte : UInt8) :
    (f.step byte).below.WellFormed := by
  induction f with
  | nil => trivial
  | cons label hits below next _ ih =>
      obtain ⟨-, -, hbelow, hnext⟩ := hf
      unfold step
      split
      · exact wellFormed_below_onEdge hbelow
      · exact ih hnext

/-- Looking a text up goes down its first byte. -/
theorem lookup_cons {f : Forest} (hf : f.WellFormed) (byte : UInt8) (rest : List UInt8) :
    f.lookup (byte :: rest) =
      if rest = [] then (f.step byte).hits else (f.step byte).below.lookup rest := by
  induction f with
  | nil =>
      simp only [lookup, step_nil, Place.nowhere]
      split <;> rfl
  | cons label hits below next _ ih =>
      obtain ⟨hlabel, -, hbelow, hnext⟩ := hf
      obtain ⟨first, tail, rfl⟩ := List.exists_cons_of_ne_nil hlabel
      by_cases hfirst : first = byte
      · subst hfirst
        rw [step_cons_self]
        by_cases htail : tail = []
        · subst htail
          by_cases hrest : rest = []
          · simp [lookup, hrest]
          · simp [lookup, hrest]
        · rw [Place.onEdge_of_ne htail]
          by_cases hrest : rest = []
          · subst hrest
            simp [lookup, htail]
          · simp only [lookup, hrest, if_false, sharedLength_cons_self, List.length_cons,
              List.drop_succ_cons, Nat.add_right_cancel_iff, Nat.add_eq_zero_iff]
            -- The two look-ups differ only if the rest of the label and of the text share nothing.
            by_cases hshared : sharedLength tail rest = 0
            · simp [hshared, htail, hrest, eq_comm]
            · simp [hshared]
      · rw [step_cons_of_ne hfirst, ← ih hnext]
        simp [lookup, sharedLength_cons_of_ne hfirst]

end Forest

/-! ## Going down a text -/

namespace Place

/-- The place that a text leads to from here. -/
def descend (p : Place) (text : List UInt8) : Place :=
  text.foldl (fun p byte => p.below.step byte) p

@[simp] theorem descend_nil (p : Place) : p.descend [] = p := rfl

@[simp] theorem descend_cons (p : Place) (byte : UInt8) (rest : List UInt8) :
    p.descend (byte :: rest) = (p.below.step byte).descend rest := rfl

theorem descend_append (p : Place) (left right : List UInt8) :
    p.descend (left ++ right) = (p.descend left).descend right := by
  simp [descend]

@[simp] theorem descend_nowhere (text : List UInt8) : nowhere.descend text = nowhere := by
  induction text with
  | nil => rfl
  | cons byte rest ih => exact ih

/-- Going down part of an edge leaves the rest of it. -/
theorem descend_onEdge_append (text rest : List UInt8) (hits : Hits) (below : Forest) :
    (onEdge (text ++ rest) hits below).descend text = onEdge rest hits below := by
  induction text with
  | nil => rfl
  | cons byte text ih =>
      rw [List.cons_append, onEdge_of_ne (List.cons_ne_nil byte _), descend_cons,
        Forest.step_cons_self, ih]

@[simp] theorem descend_onEdge (rest : List UInt8) (hits : Hits) (below : Forest) :
    (onEdge rest hits below).descend rest = { isNode := True, hits, below } := by
  have hwhole := descend_onEdge_append rest [] hits below
  rwa [List.append_nil] at hwhole

theorem descend_onEdge_fork {a b : UInt8} (hne : a ≠ b) (common tail rest : List UInt8)
    (hits : Hits) (below : Forest) :
    (onEdge (common ++ a :: tail) hits below).descend (common ++ b :: rest) = nowhere := by
  rw [descend_append, descend_onEdge_append, onEdge_of_ne (List.cons_ne_nil a tail), descend_cons,
    Forest.step_cons_of_ne hne, Forest.step_nil, descend_nowhere]

end Place

theorem Forest.lookup_eq_descend {f : Forest} (hf : f.WellFormed) (byte : UInt8)
    (rest : List UInt8) : f.lookup (byte :: rest) = ((f.step byte).descend rest).hits := by
  induction rest generalizing f byte with
  | nil => rw [lookup_cons hf, if_pos rfl, Place.descend_nil]
  | cons next rest ih =>
      rw [lookup_cons hf, if_neg (List.cons_ne_nil next rest), Place.descend_cons,
        ih (wellFormed_step hf byte)]

namespace Trie

/-- The root as a place. -/
def root (t : Trie) : Place :=
  { isNode := True, hits := t.hits, below := t.forest }

/-- The place that a text leads to. -/
def place (t : Trie) (text : List UInt8) : Place :=
  t.root.descend text

@[simp] theorem place_nil (t : Trie) : t.place [] = t.root := rfl

theorem place_snoc (t : Trie) (text : List UInt8) (byte : UInt8) :
    t.place (text ++ [byte]) = (t.place text).below.step byte := by
  rw [place, Place.descend_append]
  rfl

/-- A text finds what its place finds. -/
theorem lookup_eq_place {t : Trie} (ht : t.forest.WellFormed) (text : List UInt8) :
    t.lookup text = (t.place text).hits := by
  cases text with
  | nil => rfl
  | cons byte rest =>
      rw [lookup, if_neg (List.cons_ne_nil byte rest), Forest.lookup_eq_descend ht]
      rfl

end Trie

/-! ## The nodes with their paths -/

namespace Forest

/-- What the nodes find, with the texts that lead to them, in depth-first order. -/
def nodes (above : List UInt8) : Forest → List (List UInt8 × Hits)
  | .nil => []
  | .cons label hits below next =>
      (above ++ label, hits) :: (below.nodes (above ++ label) ++ next.nodes above)

theorem descend_label {f : Forest} {first : UInt8} {rest : List UInt8} {hits : Hits}
    {below next : Forest} (hcons : f = cons (first :: rest) hits below next) :
    (f.step first).descend rest = { isNode := True, hits, below } := by
  rw [hcons, step_cons_self, Place.descend_onEdge]

/-- A listed node is where its path leads to. -/
theorem descend_of_mem_nodes {f : Forest} (hf : f.WellFormed) {above path : List UInt8}
    {hits : Hits} (hmem : (path, hits) ∈ f.nodes above) :
    ∃ first rest, first ∈ f.firstBytes ∧ path = above ++ first :: rest ∧
      ((f.step first).descend rest).isNode ∧ ((f.step first).descend rest).hits = hits := by
  induction f generalizing above with
  | nil => cases hmem
  | cons label own below next ihBelow ihNext =>
      obtain ⟨hlabel, hfirst, hbelow, hnext⟩ := hf
      obtain ⟨byte, tail, rfl⟩ := List.exists_cons_of_ne_nil hlabel
      have hstep := descend_label (rfl : cons (byte :: tail) own below next = _)
      rw [nodes, List.mem_cons, List.mem_append] at hmem
      rcases hmem with hhere | hmem | hmem
      · obtain ⟨rfl, rfl⟩ := Prod.mk.inj hhere
        exact ⟨byte, tail, by simp [firstBytes], rfl, by rw [hstep]; trivial, by rw [hstep]⟩
      · obtain ⟨first, rest, -, hpath, hnode, hhits⟩ := ihBelow hbelow hmem
        refine ⟨byte, tail ++ first :: rest, by simp [firstBytes], by simp [hpath], ?_, ?_⟩
        · rw [Place.descend_append, hstep]
          exact hnode
        · rw [Place.descend_append, hstep]
          exact hhits
      · obtain ⟨first, rest, hmemFirst, hpath, hnode, hhits⟩ := ihNext hnext hmem
        have hne : byte ≠ first := fun heq =>
          UInt8.lt_irrefl first (by simpa [heq] using hfirst first hmemFirst)
        refine ⟨first, rest, by simp [firstBytes, hmemFirst], hpath, ?_, ?_⟩
        · rw [step_cons_of_ne hne]
          exact hnode
        · rw [step_cons_of_ne hne]
          exact hhits

end Forest

namespace Trie

/-- What the nodes find, with the texts that lead to them, in depth-first order. -/
def nodes (t : Trie) : List (List UInt8 × Hits) :=
  ([], t.hits) :: t.forest.nodes []

theorem place_of_mem_nodes {t : Trie} (ht : t.forest.WellFormed) {path : List UInt8} {hits : Hits}
    (hmem : (path, hits) ∈ t.nodes) : (t.place path).isNode ∧ (t.place path).hits = hits := by
  rw [nodes, List.mem_cons] at hmem
  rcases hmem with hroot | hmem
  · obtain ⟨rfl, rfl⟩ := Prod.mk.inj hroot
    exact ⟨trivial, rfl⟩
  · obtain ⟨first, rest, -, rfl, hnode, hhits⟩ := Forest.descend_of_mem_nodes ht hmem
    exact ⟨hnode, hhits⟩

end Trie

/-! ## Places determine a tree -/

namespace Forest

/-- Two forests have the same nodes and find the same. -/
def Agree (f g : Forest) : Prop :=
  ∀ first rest,
    (((f.step first).descend rest).isNode ↔ ((g.step first).descend rest).isNode) ∧
      ((f.step first).descend rest).hits = ((g.step first).descend rest).hits

theorem Agree.symm {f g : Forest} (h : f.Agree g) : g.Agree f :=
  fun first rest => ⟨(h first rest).1.symm, (h first rest).2.symm⟩

/-- The number of labels and of the bytes on them. -/
def weight : Forest → Nat
  | .nil => 0
  | .cons label _ below next => label.length + 1 + below.weight + next.weight

theorem not_agree_nil_cons {label : List UInt8} {hits : Hits} {below next : Forest}
    (hlabel : label ≠ []) : ¬ Forest.nil.Agree (cons label hits below next) := by
  intro hagree
  obtain ⟨first, rest, rfl⟩ := List.exists_cons_of_ne_nil hlabel
  have hnode := (hagree first rest).1
  rw [descend_label rfl, step_nil, Place.descend_nowhere] at hnode
  exact hnode.mpr trivial

/-- Forests that agree begin with the same byte. -/
theorem Agree.not_lt_first {f g : Forest} {a b : UInt8} {left right : List UInt8} {hf hg : Hits}
    {fBelow fNext gBelow gNext : Forest} (hagree : f.Agree g)
    (hfCons : f = cons (a :: left) hf fBelow fNext)
    (hgCons : g = cons (b :: right) hg gBelow gNext) (hgWell : g.WellFormed) : ¬ a < b := by
  intro hlt
  have houtside : g.step a = Place.nowhere := by
    refine step_of_forall_lt hgWell ?_
    rw [hgCons] at hgWell ⊢
    simp only [firstBytes, List.headD_cons, List.mem_cons]
    rintro first (rfl | hfirst)
    · exact hlt
    · exact UInt8.lt_trans hlt (hgWell.2.1 first hfirst)
  have hnode := (hagree a left).1
  rw [descend_label hfCons, houtside, Place.descend_nowhere] at hnode
  exact hnode.mp trivial

section

variable {first : UInt8} {left right : List UInt8} {leftHits rightHits : Hits}
  {leftBelow leftNext rightBelow rightNext : Forest}

/-- Forests that begin with the same byte agree behind the first edge. -/
theorem Agree.next
    (hagree : (cons (first :: left) leftHits leftBelow leftNext).Agree
      (cons (first :: right) rightHits rightBelow rightNext))
    (hleft : (cons (first :: left) leftHits leftBelow leftNext).WellFormed)
    (hright : (cons (first :: right) rightHits rightBelow rightNext).WellFormed) :
    leftNext.Agree rightNext := by
  obtain ⟨-, hleftFirst, -, hleftNext⟩ := hleft
  obtain ⟨-, hrightFirst, -, hrightNext⟩ := hright
  intro byte rest
  by_cases hbyte : first = byte
  · subst hbyte
    have hleftOut : leftNext.step first = Place.nowhere := step_of_forall_lt hleftNext hleftFirst
    have hrightOut : rightNext.step first = Place.nowhere :=
      step_of_forall_lt hrightNext hrightFirst
    rw [hleftOut, hrightOut]
    exact ⟨Iff.rfl, rfl⟩
  · have hsame := hagree byte rest
    rwa [step_cons_of_ne hbyte, step_cons_of_ne hbyte] at hsame

/-- Forests that begin with the same byte agree on the first edge. -/
theorem Agree.edge
    (hagree : (cons (first :: left) leftHits leftBelow leftNext).Agree
      (cons (first :: right) rightHits rightBelow rightNext)) (rest : List UInt8) :
    (((Place.onEdge left leftHits leftBelow).descend rest).isNode ↔
      ((Place.onEdge right rightHits rightBelow).descend rest).isNode) ∧
    ((Place.onEdge left leftHits leftBelow).descend rest).hits =
      ((Place.onEdge right rightHits rightBelow).descend rest).hits := by
  have hsame := hagree first rest
  rwa [step_cons_self, step_cons_self] at hsame

end

theorem isNode_onEdge (rest : List UInt8) (hits : Hits) (below : Forest) :
    (Place.onEdge rest hits below).isNode ↔ rest = [] := by
  unfold Place.onEdge
  split
  · next hrest => simp [hrest]
  · next hrest => simp [hrest]

/-- A well-formed forest is determined by which places are nodes and what the places find. -/
theorem eq_of_agree {f g : Forest} (hf : f.WellFormed) (hg : g.WellFormed) (hagree : f.Agree g) :
    f = g := by
  -- the rest of an edge is no part of the forest, so the induction is on the weight
  induction hsize : f.weight using Nat.strongRecOn generalizing f g with
  | _ size ih =>
      subst hsize
      cases f with
      | nil =>
          cases g with
          | nil => rfl
          | cons label hits below next => exact absurd hagree (not_agree_nil_cons hg.1)
      | cons fLabel fHits fBelow fNext =>
          cases g with
          | nil => exact absurd hagree.symm (not_agree_nil_cons hf.1)
          | cons gLabel gHits gBelow gNext =>
              obtain ⟨a, left, rfl⟩ := List.exists_cons_of_ne_nil hf.1
              obtain ⟨b, right, rfl⟩ := List.exists_cons_of_ne_nil hg.1
              have hab : a = b := by
                have hlt := hagree.not_lt_first rfl rfl hg
                have hgt := hagree.symm.not_lt_first rfl rfl hf
                exact UInt8.le_antisymm (UInt8.not_lt.mp hgt) (UInt8.not_lt.mp hlt)
              subst hab
              have hnext : fNext = gNext :=
                ih fNext.weight (by simp only [weight]; omega) hf.2.2.2 hg.2.2.2
                  (hagree.next hf hg) rfl
              have hedge := hagree.edge
              have hends : left = [] ↔ right = [] := by
                rw [← isNode_onEdge left fHits fBelow, ← isNode_onEdge right gHits gBelow]
                exact (hedge []).1
              by_cases hleft : left = []
              · -- the edge ends here, and what lies below agrees
                obtain rfl := hends.mp hleft
                subst hleft
                have hhits : fHits = gHits := (hedge []).2
                have hbelow : fBelow = gBelow :=
                  ih fBelow.weight (by simp only [weight]; omega) hf.2.2.1 hg.2.2.1
                    (fun first rest => hedge (first :: rest)) rfl
                rw [hhits, hbelow, hnext]
              · -- the rest of the edge is a forest of its own with a shorter label
                have hright : right ≠ [] := fun hnil => hleft (hends.mpr hnil)
                have hrest : cons left fHits fBelow .nil = cons right gHits gBelow .nil := by
                  refine ih (cons left fHits fBelow .nil).weight
                    (by simp only [weight, List.length_cons]; omega)
                    (wellFormed_edge hleft hf.2.2.1) (wellFormed_edge hright hg.2.2.1) ?_ rfl
                  intro first rest
                  have hsame := hedge (first :: rest)
                  rwa [Place.onEdge_of_ne hleft, Place.onEdge_of_ne hright] at hsame
                injection hrest with hlabel hhits hbelow
                rw [hlabel, hhits, hbelow, hnext]

end Forest

namespace Trie

/-- A well-formed tree is determined by which places are nodes and what the places find. -/
theorem eq_of_places {t u : Trie} (ht : t.forest.WellFormed) (hu : u.forest.WellFormed)
    (hbound : t.bound = u.bound) (hnodes : ∀ text, (t.place text).isNode ↔ (u.place text).isNode)
    (hhits : ∀ text, (t.place text).hits = (u.place text).hits) : t = u := by
  have hforest : t.forest = u.forest :=
    Forest.eq_of_agree ht hu fun first rest => ⟨hnodes (first :: rest), hhits (first :: rest)⟩
  have hroot : t.hits = u.hits := hhits []
  cases t
  cases u
  simp_all

end Trie

end PrefixSearch
