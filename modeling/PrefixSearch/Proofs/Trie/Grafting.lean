import PrefixSearch.Proofs.Trie.Place

/-!
# How additions change places

Adding a text and adding a tree both go down along a text, and both offer the same completions to
every node they pass and to the node at the end.  Seen from its places, an addition then changes
exactly the places on the way: where the edges were cut before cannot be told from the outcome.
-/

namespace PrefixSearch

/-- The nodes that are passed and the node at the end are offered the same completions, and what is
passed keeps its exact results. -/
structure Offers (offer : List Id → List Id) (through : Hits → Hits)
    (finish : Hits → Forest → Hits × Forest) : Prop where
  through_eq : ∀ hits, through hits = { hits with completions := offer hits.completions }
  finish_completions : ∀ hits below, (finish hits below).1.completions = offer hits.completions

namespace Forest

/-- Some byte that does not begin the text leads into the forest. -/
def ForksFrom (f : Forest) (text : List UInt8) : Prop :=
  ∃ a b, text.head? = some a ∧ a ≠ b ∧ (f.step b).Inside

theorem not_forksFrom_nil (text : List UInt8) : ¬ Forest.nil.ForksFrom text := by
  rintro ⟨a, b, -, -, hinside⟩
  exact Place.not_inside_nowhere hinside

theorem forksFrom_edge {a b : UInt8} {tail rest : List UInt8} {hits : Hits} {below : Forest} :
    (cons (a :: tail) hits below .nil).ForksFrom (b :: rest) ↔ a ≠ b := by
  constructor
  · rintro ⟨first, other, hfirst, hne, hinside⟩ rfl
    obtain rfl : a = first := by simpa using hfirst
    rw [step_cons_of_ne hne] at hinside
    exact Place.not_inside_nowhere hinside
  · intro hne
    exact ⟨b, a, rfl, hne.symm, by simp⟩

end Forest

namespace Place

variable (through : Hits → Hits) (finish : Hits → Forest → Hits × Forest)

/-- The place after a text was added below it. -/
def graft (text : List UInt8) (p : Place) : Place :=
  if text = [] then
    { isNode := True
      hits := (finish p.hits p.below).1
      below := (finish p.hits p.below).2 }
  else
    { isNode := p.isNode ∨ p.below.ForksFrom text
      hits := through p.hits
      below := p.below.graft through finish text }

theorem graft_nil (p : Place) :
    p.graft through finish [] =
      { isNode := True
        hits := (finish p.hits p.below).1
        below := (finish p.hits p.below).2 } := rfl

theorem graft_of_ne {text : List UInt8} (htext : text ≠ []) (p : Place) :
    p.graft through finish text =
      { isNode := p.isNode ∨ p.below.ForksFrom text
        hits := through p.hits
        below := p.below.graft through finish text } :=
  if_neg htext

end Place

namespace Forest

variable {offer : List Id → List Id} {through : Hits → Hits}
  {finish : Hits → Forest → Hits × Forest}

/-! What an addition does to an edge, by how its label and the text lie to each other. -/

theorem graft_same {label : List UInt8} (hlabel : label ≠ []) (hits : Hits)
    (below next : Forest) :
    (cons label hits below next).graft through finish label =
      node label (finish hits below) next := by
  have hshared := sharedLength_append label [] []
  rw [List.append_nil, sharedLength_nil_left, Nat.add_zero] at hshared
  simp [graft, hshared, hlabel]

theorem graft_beyond {label rest : List UInt8} (hlabel : label ≠ []) (hrest : rest ≠ [])
    (hits : Hits) (below next : Forest) :
    (cons label hits below next).graft through finish (label ++ rest) =
      cons label (through hits) (below.graft through finish rest) next := by
  have hshared := sharedLength_append label [] rest
  rw [List.append_nil, sharedLength_nil_left, Nat.add_zero] at hshared
  simp [graft, hshared, hlabel, hrest]

theorem graft_within {text tail : List UInt8} (htext : text ≠ []) (htail : tail ≠ [])
    (hits : Hits) (below next : Forest) :
    (cons (text ++ tail) hits below next).graft through finish text =
      node text (finish { completions := hits.completions } (cons tail hits below .nil)) next := by
  have hshared := sharedLength_append text tail []
  rw [List.append_nil, sharedLength_nil_right, Nat.add_zero] at hshared
  simp [graft, hshared, htext, htail]

/-- The nodes below a new fork, in the order of their first bytes. -/
def fork (finish : Hits → Forest → Hits × Forest) (a b : UInt8) (tail rest : List UInt8)
    (hits : Hits) (below : Forest) : Forest :=
  if b < a then
    node (b :: rest) (finish {} .nil) (cons (a :: tail) hits below .nil)
  else
    cons (a :: tail) hits below (node (b :: rest) (finish {} .nil) .nil)

theorem graft_fork {common : List UInt8} (hcommon : common ≠ []) {a b : UInt8} (hne : a ≠ b)
    (tail rest : List UInt8) (hits : Hits) (below next : Forest) :
    (cons (common ++ a :: tail) hits below next).graft through finish (common ++ b :: rest) =
      cons common (through { completions := hits.completions })
        (fork finish a b tail rest hits below) next := by
  have hshared := sharedLength_append common (a :: tail) (b :: rest)
  rw [sharedLength_cons_of_ne hne, Nat.add_zero] at hshared
  by_cases hlt : b < a
  · simp [graft, hshared, hcommon, fork, goesBefore, hlt]
  · simp [graft, hshared, hcommon, fork, goesBefore, hlt]

theorem graft_of_lt {a b : UInt8} (hlt : b < a) (tail rest : List UInt8) (hits : Hits)
    (below next : Forest) :
    (cons (a :: tail) hits below next).graft through finish (b :: rest) =
      node (b :: rest) (finish {} .nil) (cons (a :: tail) hits below next) := by
  have hne : a ≠ b := fun heq => UInt8.lt_irrefl b (heq ▸ hlt)
  simp [graft, sharedLength_cons_of_ne hne, goesBefore, hlt]

theorem graft_of_gt {a b : UInt8} (hlt : a < b) (tail rest : List UInt8) (hits : Hits)
    (below next : Forest) :
    (cons (a :: tail) hits below next).graft through finish (b :: rest) =
      cons (a :: tail) hits below (next.graft through finish (b :: rest)) := by
  have hne : a ≠ b := fun heq => UInt8.lt_irrefl b (heq ▸ hlt)
  have hnlt : ¬ b < a := UInt8.lt_asymm hlt
  simp [graft, sharedLength_cons_of_ne hne, goesBefore, hnlt]

/-- A leaf that is grown, seen from its first byte. -/
theorem step_leaf (hoffers : Offers offer through finish) (a : UInt8) (rest : List UInt8)
    (next : Forest) :
    (node (a :: rest) (finish {} .nil) next).step a =
      Place.nowhere.graft through finish rest := by
  rw [node, step_cons_self]
  by_cases hrest : rest = []
  · subst hrest
    rfl
  · rw [Place.onEdge_of_ne hrest, Place.graft_of_ne _ _ hrest, hoffers.through_eq,
      hoffers.finish_completions]
    simp [Place.nowhere, not_forksFrom_nil, graft, node]

theorem step_node_of_ne {a b : UInt8} (hne : a ≠ b) (rest : List UInt8) (inner : Hits × Forest)
    (next : Forest) : (node (a :: rest) inner next).step b = next.step b :=
  step_cons_of_ne hne rest inner.1 inner.2 next

/-- What an addition does to the rest of an edge whose first byte was passed. -/
theorem step_graft_edge (hoffers : Offers offer through finish) (a : UInt8)
    (tail rest : List UInt8) (hits : Hits) (below next : Forest) :
    ((cons (a :: tail) hits below next).graft through finish (a :: rest)).step a =
      (Place.onEdge tail hits below).graft through finish rest := by
  have hmeeting := meeting tail rest
  cases hmeeting with
  | same =>
      rw [graft_same (List.cons_ne_nil a tail), node, step_cons_self]
      by_cases htail : tail = []
      · subst htail
        rfl
      · rw [Place.onEdge_of_ne htail, Place.onEdge_of_ne htail, Place.graft_of_ne _ _ htail,
          graft_same htail, hoffers.through_eq, hoffers.finish_completions, node]
        obtain ⟨first, tail, rfl⟩ := List.exists_cons_of_ne_nil htail
        simp [forksFrom_edge]
  | beyond _ rest hrest =>
      rw [← List.cons_append, graft_beyond (List.cons_ne_nil a tail) hrest, step_cons_self]
      by_cases htail : tail = []
      · subst htail
        simp [Place.graft_of_ne, hrest]
      · have happend : tail ++ rest ≠ [] := fun heq => htail (List.append_eq_nil_iff.mp heq).1
        rw [Place.onEdge_of_ne htail, Place.onEdge_of_ne htail, Place.graft_of_ne _ _ happend,
          graft_beyond htail hrest, hoffers.through_eq, hoffers.through_eq]
        obtain ⟨first, tail, rfl⟩ := List.exists_cons_of_ne_nil htail
        simp [forksFrom_edge]
  | within _ tail htail =>
      -- the text ends inside the edge and cuts it there
      rw [← List.cons_append, graft_within (List.cons_ne_nil a rest) htail, node, step_cons_self]
      have happend : rest ++ tail ≠ [] := fun heq => htail (List.append_eq_nil_iff.mp heq).2
      rw [Place.onEdge_of_ne happend]
      by_cases hrest : rest = []
      · subst hrest
        rfl
      · rw [Place.onEdge_of_ne hrest, Place.graft_of_ne _ _ hrest, graft_within hrest htail,
          hoffers.through_eq, hoffers.finish_completions, node]
        obtain ⟨first, rest, rfl⟩ := List.exists_cons_of_ne_nil hrest
        simp [forksFrom_edge]
  | fork common b c tail rest hne =>
      -- the text leaves the edge, which may happen right behind its first byte
      have hlabel : common ++ b :: tail ≠ [] := by simp
      have htext : common ++ c :: rest ≠ [] := by simp
      rw [← List.cons_append, ← List.cons_append, graft_fork (List.cons_ne_nil a common) hne,
        step_cons_self, Place.onEdge_of_ne hlabel, Place.graft_of_ne _ _ htext]
      by_cases hcommon : common = []
      · subst hcommon
        have hforks : (cons (b :: tail) hits below .nil).ForksFrom (c :: rest) :=
          forksFrom_edge.mpr hne
        simp only [Place.onEdge_nil, List.nil_append, hforks, or_true, Place.mk.injEq, true_and]
        by_cases hlt : c < b
        · rw [fork, if_pos hlt, graft_of_lt hlt]
        · have hgt : b < c := UInt8.lt_of_le_of_ne (UInt8.not_lt.mp hlt) hne
          rw [fork, if_neg hlt, graft_of_gt hgt, graft]
      · rw [Place.onEdge_of_ne hcommon, graft_fork hcommon hne, hoffers.through_eq]
        obtain ⟨first, common, rfl⟩ := List.exists_cons_of_ne_nil hcommon
        simp [forksFrom_edge]

/-- Going down the first byte of an added text, the addition goes on below. -/
theorem step_graft_self (hoffers : Offers offer through finish) {f : Forest} (hf : f.WellFormed)
    (byte : UInt8) (rest : List UInt8) :
    (f.graft through finish (byte :: rest)).step byte =
      (f.step byte).graft through finish rest := by
  induction f with
  | nil => exact step_leaf hoffers byte rest .nil
  | cons label hits below next _ ih =>
      obtain ⟨first, tail, rfl⟩ := List.exists_cons_of_ne_nil hf.1
      by_cases hfirst : first = byte
      · subst hfirst
        rw [step_graft_edge hoffers, step_cons_self]
      · by_cases hlt : byte < first
        · have houtside : (cons (first :: tail) hits below next).step byte = Place.nowhere := by
            refine step_of_forall_lt hf ?_
            simp only [firstBytes, List.headD_cons, List.mem_cons]
            rintro other (rfl | hother)
            · exact hlt
            · exact UInt8.lt_trans hlt (hf.2.1 other hother)
          rw [graft_of_lt hlt, step_leaf hoffers, houtside]
        · have hgt : first < byte := UInt8.lt_of_le_of_ne (UInt8.not_lt.mp hlt) hfirst
          rw [graft_of_gt hgt, step_cons_of_ne hfirst, step_cons_of_ne hfirst, ih hf.2.2.2]

/-- An addition that begins like the first edge changes what follows its first byte only. -/
theorem exists_graft_head (through : Hits → Hits) (finish : Hits → Forest → Hits × Forest)
    (byte : UInt8) (tail rest : List UInt8) (hits : Hits) (below next : Forest) :
    ∃ label found inner, (cons (byte :: tail) hits below next).graft through finish (byte :: rest) =
      cons (byte :: label) found inner next := by
  have hmeeting := meeting tail rest
  cases hmeeting with
  | same => exact ⟨tail, _, _, graft_same (List.cons_ne_nil byte tail) hits below next⟩
  | beyond _ rest hrest =>
      rw [← List.cons_append, graft_beyond (List.cons_ne_nil byte tail) hrest]
      exact ⟨tail, _, _, rfl⟩
  | within _ tail htail =>
      rw [← List.cons_append, graft_within (List.cons_ne_nil byte rest) htail]
      exact ⟨rest, _, _, rfl⟩
  | fork common c d tail rest hcd =>
      rw [← List.cons_append, ← List.cons_append, graft_fork (List.cons_ne_nil byte common) hcd]
      exact ⟨common, _, _, rfl⟩

/-- An addition leaves the ways that begin with another byte alone. -/
theorem step_graft_of_ne {f : Forest} (hf : f.WellFormed) {a b : UInt8} (hne : a ≠ b)
    (rest : List UInt8) : (f.graft through finish (a :: rest)).step b = f.step b := by
  induction f with
  | nil => exact step_node_of_ne hne rest _ .nil
  | cons label hits below next _ ih =>
      obtain ⟨first, tail, rfl⟩ := List.exists_cons_of_ne_nil hf.1
      by_cases hfirst : first = a
      · subst hfirst
        obtain ⟨label, found, inner, hgraft⟩ :=
          exists_graft_head through finish first tail rest hits below next
        rw [hgraft, step_cons_of_ne hne, step_cons_of_ne hne]
      · by_cases hlt : a < first
        · rw [graft_of_lt hlt, step_node_of_ne hne]
        · have hgt : first < a := UInt8.lt_of_le_of_ne (UInt8.not_lt.mp hlt) hfirst
          rw [graft_of_gt hgt]
          by_cases hb : first = b
          · subst hb
            rw [step_cons_self, step_cons_self]
          · rw [step_cons_of_ne hb, step_cons_of_ne hb, ih hf.2.2.2]

theorem graft_ne_nil (f : Forest) (text : List UInt8) : f.graft through finish text ≠ .nil := by
  cases f with
  | nil => simp [graft, node]
  | cons label hits below next =>
      unfold graft
      dsimp only
      (repeat' split) <;> simp [node]

/-! ## Additions keep forests well formed -/

/-- Forest-building functions that are handed well-formed forests build well-formed ones. -/
def KeepsForm (finish : Hits → Forest → Hits × Forest) : Prop :=
  ∀ hits below, below.WellFormed → (finish hits below).2.WellFormed

theorem wellFormed_node {label : List UInt8} {inner : Hits × Forest} {next : Forest}
    (hlabel : label ≠ []) (hfirst : ∀ first ∈ next.firstBytes, label.headD 0 < first)
    (hinner : inner.2.WellFormed) (hnext : next.WellFormed) :
    (node label inner next).WellFormed :=
  ⟨hlabel, hfirst, hinner, hnext⟩

theorem wellFormed_fork (hfinish : KeepsForm finish) {a b : UInt8} (hne : a ≠ b)
    (tail rest : List UInt8) (hits : Hits) {below : Forest} (hbelow : below.WellFormed) :
    (fork finish a b tail rest hits below).WellFormed := by
  have hleaf : (finish {} .nil).2.WellFormed := hfinish {} .nil trivial
  have hedge : (cons (a :: tail) hits below .nil).WellFormed :=
    wellFormed_edge (List.cons_ne_nil a tail) hbelow
  unfold fork
  split
  · next hlt =>
    refine wellFormed_node (List.cons_ne_nil b rest) ?_ hleaf hedge
    simpa [firstBytes] using hlt
  · next hlt =>
    refine ⟨List.cons_ne_nil a tail, ?_, hbelow,
      wellFormed_node (List.cons_ne_nil b rest) (by simp [firstBytes]) hleaf trivial⟩
    simpa [node, firstBytes] using UInt8.lt_of_le_of_ne (UInt8.not_lt.mp hlt) hne

/-- An addition begins no siblings with other bytes than those there were and its own. -/
theorem mem_firstBytes_graft {f : Forest} (hf : f.WellFormed) {byte x : UInt8}
    {rest : List UInt8} (hx : x ∈ (f.graft through finish (byte :: rest)).firstBytes) :
    x = byte ∨ x ∈ f.firstBytes := by
  induction f with
  | nil => simpa [graft, node, firstBytes] using hx
  | cons label hits below next _ ih =>
      obtain ⟨first, tail, rfl⟩ := List.exists_cons_of_ne_nil hf.1
      by_cases hfirst : first = byte
      · subst hfirst
        right
        obtain ⟨label, found, inner, hgraft⟩ :=
          exists_graft_head through finish first tail rest hits below next
        rw [hgraft] at hx
        exact hx
      · by_cases hlt : byte < first
        · rw [graft_of_lt hlt] at hx
          simpa [node, firstBytes] using hx
        · have hgt : first < byte := UInt8.lt_of_le_of_ne (UInt8.not_lt.mp hlt) hfirst
          rw [graft_of_gt hgt] at hx
          simp only [firstBytes, List.headD_cons, List.mem_cons] at hx ⊢
          rcases hx with rfl | hx
          · exact Or.inr (Or.inl rfl)
          · exact (ih hf.2.2.2 hx).imp_right Or.inr

theorem wellFormed_graft (hfinish : KeepsForm finish) {f : Forest} (hf : f.WellFormed)
    {text : List UInt8} (htext : text ≠ []) : (f.graft through finish text).WellFormed := by
  induction f generalizing text with
  | nil => exact wellFormed_node htext (by simp [firstBytes]) (hfinish {} .nil trivial) trivial
  | cons label hits below next ihBelow ihNext =>
      obtain ⟨hlabel, hsiblings, hbelow, hnext⟩ := hf
      obtain ⟨first, tail, rfl⟩ := List.exists_cons_of_ne_nil hlabel
      obtain ⟨byte, rest, rfl⟩ := List.exists_cons_of_ne_nil htext
      by_cases hfirst : first = byte
      · subst hfirst
        have hmeeting := meeting tail rest
        cases hmeeting with
        | same =>
            rw [graft_same (List.cons_ne_nil first _)]
            exact wellFormed_node hlabel hsiblings (hfinish hits below hbelow) hnext
        | beyond _ rest hrest =>
            rw [← List.cons_append, graft_beyond (List.cons_ne_nil first tail) hrest]
            exact ⟨hlabel, hsiblings, ihBelow hbelow hrest, hnext⟩
        | within _ tail htail =>
            rw [← List.cons_append, graft_within (List.cons_ne_nil first rest) htail]
            exact wellFormed_node htext hsiblings
              (hfinish _ _ (wellFormed_edge htail hbelow)) hnext
        | fork common c d tail rest hcd =>
            rw [← List.cons_append, ← List.cons_append,
              graft_fork (List.cons_ne_nil first common) hcd]
            exact ⟨List.cons_ne_nil first common, hsiblings,
              wellFormed_fork hfinish hcd tail rest hits hbelow, hnext⟩
      · -- the new sibling comes before the first one or somewhere behind it
        by_cases hlt : byte < first
        · rw [graft_of_lt hlt]
          refine wellFormed_node htext ?_ (hfinish {} .nil trivial)
            ⟨hlabel, hsiblings, hbelow, hnext⟩
          simp only [firstBytes, List.headD_cons, List.mem_cons]
          rintro other (rfl | hother)
          · exact hlt
          · exact UInt8.lt_trans hlt (hsiblings other hother)
        · have hgt : first < byte := UInt8.lt_of_le_of_ne (UInt8.not_lt.mp hlt) hfirst
          rw [graft_of_gt hgt]
          refine ⟨hlabel, ?_, hbelow, ihNext hnext htext⟩
          intro other hother
          rcases mem_firstBytes_graft hnext hother with rfl | hother
          · exact hgt
          · exact hsiblings other hother

end Forest

/-! ## Additions seen from a place further down -/

namespace Place

variable {offer : List Id → List Id} {through : Hits → Hits}
  {finish : Hits → Forest → Hits × Forest} {p : Place}

/-- Where the query is on the way, the rest of the text was added. -/
theorem descend_graft_append (hoffers : Offers offer through finish) (hp : p.below.WellFormed)
    (query rest : List UInt8) :
    (p.graft through finish (query ++ rest)).descend query =
      (p.descend query).graft through finish rest := by
  induction query generalizing p with
  | nil => rfl
  | cons byte query ih =>
      rw [List.cons_append, graft_of_ne _ _ (List.cons_ne_nil byte (query ++ rest)),
        descend_cons, Forest.step_graft_self hoffers hp, ih (Forest.wellFormed_step hp byte),
        descend_cons]

/-- Where the query leaves the way or goes on behind its end, nothing has changed. -/
theorem descend_graft_off_way (hoffers : Offers offer through finish)
    (hkeeps : ∀ hits below, (finish hits below).2 = below) (hp : p.below.WellFormed)
    {query text : List UInt8} (hquery : ¬ query <+: text) :
    (p.graft through finish text).descend query = p.descend query := by
  induction query generalizing p text with
  | nil => exact absurd List.nil_prefix hquery
  | cons byte query ih =>
      cases text with
      | nil => rw [graft_nil, descend_cons, hkeeps, descend_cons]
      | cons first rest =>
          rw [graft_of_ne _ _ (List.cons_ne_nil first rest), descend_cons, descend_cons]
          by_cases hfirst : first = byte
          · subst hfirst
            rw [Forest.step_graft_self hoffers hp]
            refine ih (Forest.wellFormed_step hp first) fun hbegins => ?_
            exact hquery (List.cons_prefix_cons.mpr ⟨rfl, hbegins⟩)
          · rw [Forest.step_graft_of_ne hp hfirst]

theorem inside_graft {text : List UInt8} : (p.graft through finish text).Inside := by
  by_cases htext : text = []
  · subst htext
    exact Or.inl trivial
  · rw [graft_of_ne _ _ htext]
    right
    exact Forest.graft_ne_nil p.below text

end Place

end PrefixSearch
