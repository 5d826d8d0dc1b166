import PrefixSearch.Proofs.Bytes.Extension
import PrefixSearch.Proofs.OpenedData

/-!
# Looking up a text in any data

A label that is empty matches without using up the text, so the text alone does not bound the walk.
`Follows` is the walk itself with the offsets of the nodes that it reads.  Every child lies behind
its parent and inside the data, for else the parent is not read, so the offsets rise as the walk
goes on and the bytes of the tree bound their number.
-/

namespace PrefixSearch

open Bytes (Reader Source)

namespace SearchData

variable {d : SearchData}

/-! ## The walk -/

/-- The walk for a text on from a node that has been read: the offsets of the nodes that it reads,
and how it ends. -/
inductive Follows (d : SearchData) :
    StoredNode → List UInt8 → List Nat → Except Corruption Hits → Prop
  /-- Nothing is left of the text. -/
  | arrives (node : StoredNode) : Follows d node [] [] (.ok node.hits)
  /-- No child is listed for the next byte. -/
  | noChild {node : StoredNode} {first : UInt8} {rest : List UInt8}
      (hchild : node.child? first = none) : Follows d node (first :: rest) [] (.ok {})
  /-- The child cannot be read. -/
  | unreadable {node : StoredNode} {first : UInt8} {rest : List UInt8} {child : Nat}
      {fault : Corruption} (hchild : node.child? first = some child)
      (hnode : d.node child = .error fault) : Follows d node (first :: rest) [child] (.error fault)
  /-- Inside the label of the child the text ends or goes on in another way. -/
  | endsInside {node next : StoredNode} {first : UInt8} {rest : List UInt8} {child : Nat}
      (hchild : node.child? first = some child) (hnode : d.node child = .ok next)
      (hinside : sharedLength next.label (first :: rest) < next.label.length) :
      Follows d node (first :: rest) [child]
        (.ok (if sharedLength next.label (first :: rest) = (first :: rest).length then
          { completions := next.hits.completions } else {}))
  /-- The text begins with the label of the child, however short it is. -/
  | passes {node next : StoredNode} {first : UInt8} {rest : List UInt8} {child : Nat}
      {offsets : List Nat} {found : Except Corruption Hits}
      (hchild : node.child? first = some child) (hnode : d.node child = .ok next)
      (hwhole : ¬ sharedLength next.label (first :: rest) < next.label.length)
      (hfollows : Follows d next ((first :: rest).drop (sharedLength next.label (first :: rest)))
        offsets found) :
      Follows d node (first :: rest) (child :: offsets) found

/-- The whole walk for a text: it begins at the root, whose label does not count. -/
inductive Looks (d : SearchData) (text : List UInt8) :
    List Nat → Except Corruption Hits → Prop
  | unreadable {fault : Corruption} (hnode : d.node d.trieOffset = .error fault) :
      Looks d text [d.trieOffset] (.error fault)
  | reads {root : StoredNode} {offsets : List Nat} {found : Except Corruption Hits}
      (hnode : d.node d.trieOffset = .ok root) (hfollows : d.Follows root text offsets found) :
      Looks d text (d.trieOffset :: offsets) found

/-- What is found on from a node that has been read. -/
def findFrom (d : SearchData) (node : StoredNode) : List UInt8 → Except Corruption Hits
  | [] => .ok node.hits
  | first :: rest => d.follow node.children first rest

theorem enter_of_whole {offset : Nat} {node : StoredNode} {text : List UInt8}
    (hnode : d.node offset = .ok node) (hwhole : ¬ sharedLength node.label text < node.label.length) :
    d.enter offset text = d.findFrom node (text.drop (sharedLength node.label text)) := by
  rw [enter_eq hnode, if_neg hwhole]
  cases text.drop (sharedLength node.label text) with
  | nil => rfl
  | cons first rest => rfl

/-- There is a walk to what is found. The offset of the node rises with every step. -/
theorem exists_follows {offset : Nat} {node : StoredNode} (hnode : d.node offset = .ok node)
    (text : List UInt8) : ∃ offsets, d.Follows node text offsets (d.findFrom node text) := by
  induction hmeasure : d.size - offset using Nat.strong_induction_on
    generalizing offset node text with
  | _ measure ih =>
      cases text with
      | nil => exact ⟨[], .arrives node⟩
      | cons first rest =>
          rw [findFrom, follow_children]
          cases hchild : node.child? first with
          | none => exact ⟨[], .noChild hchild⟩
          | some child =>
              dsimp only
              cases hnext : d.node child with
              | error fault =>
                  rw [enter_of_error hnext]
                  exact ⟨[child], .unreadable hchild hnext⟩
              | ok next =>
                  by_cases hinside : sharedLength next.label (first :: rest) < next.label.length
                  · rw [enter_eq hnext, if_pos hinside]
                    exact ⟨[child], .endsInside hchild hnext hinside⟩
                  · rw [enter_of_whole hnext hinside]
                    have hbehind := child?_of_node hnode hchild
                    obtain ⟨offsets, hfollows⟩ := ih (d.size - child) (by omega) hnext
                      ((first :: rest).drop (sharedLength next.label (first :: rest))) rfl
                    exact ⟨child :: offsets, .passes hchild hnext hinside hfollows⟩

/-- There is a walk to what a lookup gives. -/
theorem exists_looks (d : SearchData) (text : List UInt8) :
    ∃ offsets, d.Looks text offsets (d.lookupBytes text) := by
  cases hroot : d.node d.trieOffset with
  | error fault =>
      have hfault : d.lookupBytes text = .error fault := by
        rw [lookupBytes, hroot]
        rfl
      rw [hfault]
      exact ⟨[d.trieOffset], .unreadable hroot⟩
  | ok root =>
      have hfind : d.lookupBytes text = d.findFrom root text := by
        cases text with
        | nil => exact lookupBytes_nil hroot
        | cons first rest => exact lookupBytes_cons hroot first rest
      obtain ⟨offsets, hfollows⟩ := exists_follows hroot text
      rw [hfind]
      exact ⟨d.trieOffset :: offsets, .reads hroot hfollows⟩

/-! ## What a walk reads -/

/-- The offsets rise from node to node and stay inside the data. -/
theorem Follows.offsets {offset : Nat} {node : StoredNode} {text : List UInt8} {offsets : List Nat}
    {found : Except Corruption Hits} (hfollows : d.Follows node text offsets found)
    (hnode : d.node offset = .ok node) :
    (offset :: offsets).Pairwise (· < ·) ∧ ∀ later ∈ offsets, later < d.size := by
  induction hfollows generalizing offset with
  | arrives node => simp
  | noChild hchild => simp
  | unreadable hchild _ =>
      have hbehind := child?_of_node hnode hchild
      simp [hbehind]
  | endsInside hchild _ _ =>
      have hbehind := child?_of_node hnode hchild
      simp [hbehind]
  | passes hchild hnext _ _ ih =>
      have hbehind := child?_of_node hnode hchild
      obtain ⟨hrising, hinside⟩ := ih hnext
      refine ⟨List.pairwise_cons.mpr ⟨?_, hrising⟩, List.forall_mem_cons.mpr ⟨hbehind.2, hinside⟩⟩
      -- what lies behind the child lies behind its parent
      intro later hlater
      rcases List.mem_cons.mp hlater with rfl | hlater
      · exact hbehind.1
      · exact Nat.lt_trans hbehind.1 (List.rel_of_pairwise_cons hrising hlater)

theorem Follows.hits {offset : Nat} {node : StoredNode} {text : List UInt8} {offsets : List Nat}
    {found : Except Corruption Hits} (hfollows : d.Follows node text offsets found)
    (hnode : d.node offset = .ok node) {hits : Hits} (hfound : found = .ok hits) :
    hits.Exist d.resultCount := by
  have hnone : ({} : Hits).Exist d.resultCount := ⟨by simp, by simp, by simp, by simp⟩
  induction hfollows generalizing offset with
  | arrives node =>
      cases hfound
      exact hits_of_node hnode
  | noChild _ =>
      cases hfound
      exact hnone
  | unreadable _ _ => cases hfound
  | endsInside _ hnext _ =>
      cases hfound
      have hexist := hits_of_node hnext
      split
      · exact ⟨by simp, hexist.completions_lt, by simp, hexist.completions_length⟩
      · exact hnone
  | passes _ hnext _ _ ih => exact ih hnext hfound

theorem Looks.offsets {text : List UInt8} {offsets : List Nat} {found : Except Corruption Hits}
    (hlooks : d.Looks text offsets found) (hroot : d.trieOffset < d.size) :
    offsets.Pairwise (· < ·) ∧ ∀ offset ∈ offsets, d.trieOffset ≤ offset ∧ offset < d.size := by
  cases hlooks with
  | unreadable _ => simp [hroot]
  | reads hnode hfollows =>
      obtain ⟨hrising, hinside⟩ := hfollows.offsets hnode
      refine ⟨hrising, List.forall_mem_cons.mpr ⟨⟨Nat.le_refl _, hroot⟩, ?_⟩⟩
      intro later hlater
      exact ⟨Nat.le_of_lt (List.rel_of_pairwise_cons hrising hlater), hinside later hlater⟩

theorem Looks.hits {text : List UInt8} {offsets : List Nat} {hits : Hits}
    (hlooks : d.Looks text offsets (.ok hits)) : hits.Exist d.resultCount := by
  cases hlooks with
  | reads hnode hfollows => exact hfollows.hits hnode rfl

/-- Offsets that rise between two bounds are no more than fit between them. -/
theorem length_le_of_rising {offsets : List Nat} {first last : Nat} (hrising : offsets.Pairwise (· < ·))
    (hbounds : ∀ offset ∈ offsets, first ≤ offset ∧ offset < last) :
    offsets.length ≤ last - first := by
  have hnodup : offsets.Nodup := hrising.imp Nat.ne_of_lt
  have hsub : offsets ⊆ List.range' first (last - first) := by
    intro offset hoffset
    have hbound := hbounds offset hoffset
    rw [List.mem_range'_1]
    omega
  have hlength := hnodup.length_le_of_subset hsub
  rwa [List.length_range'] at hlength

/-! ## Reads that stay inside -/

/-- Reading the node at `offset` moves forward inside the data, and what follows the data in memory
has no part in the outcome. -/
structure ReadsInside (d : SearchData) (offset : Nat) : Prop where
  position : offset ≤ (d.readNode offset d.source offset).2 ∧
    (d.readNode offset d.source offset).2 ≤ d.size
  outcome : ∀ behind : Array UInt8,
    d.readNode offset { bytes := d.data ++ behind, stop := d.size } offset =
      d.readNode offset d.source offset

theorem confined_readIds (d : SearchData) : Reader.Confined d.readIds := by
  have hid : Reader.Confined d.readId :=
    (Reader.Confined.uint _).bind fun _ => (Reader.Confined.check _ _).bind fun _ => .pure _
  exact (Reader.Confined.uint _).bind fun count =>
    (Reader.Confined.check _ _).bind fun _ => hid.replicate count

theorem confined_readNode (d : SearchData) (offset : Nat) : Reader.Confined (d.readNode offset) := by
  have hchild : Reader.Confined (d.readChild offset) :=
    (Reader.Confined.uint _).bind fun _ => (Reader.Confined.uint _).bind fun _ =>
      (Reader.Confined.check _ _).bind fun _ => .pure _
  exact (Reader.Confined.uint _).bind fun length => (Reader.Confined.bytes length).bind fun _ =>
    (Reader.Confined.uint 1).bind fun count => (hchild.replicate count).bind fun _ =>
      d.confined_readIds.bind fun _ => d.confined_readIds.bind fun _ => .pure _

theorem readsInside {offset : Nat} (hoffset : offset < d.size) : d.ReadsInside offset where
  position := by
    have hsize : d.source.size = d.size := Source.size_ofArray d.data
    have hinside : offset ≤ d.source.size := hsize ▸ Nat.le_of_lt hoffset
    rw [← hsize]
    exact (d.confined_readNode offset).position hinside
  outcome behind :=
    ((d.confined_readNode offset).outcome (Source.alike_append d.data behind)).symm

/-! ## Lookups -/

/-- Whatever bytes were taken for search data, a lookup reads nodes at rising offsets inside the
tree, each of them once and without leaving the data, so it ends, with a fault or with results that
exist. -/
theorem lookup_ends {data : Array UInt8} {d : SearchData} (hparse : parse data = .ok d)
    (query : String) :
    ∃ offsets, d.Looks (Text.utf8 (Text.normalize d.caseInsensitive query)) offsets (d.lookup query) ∧
      offsets.Pairwise (· < ·) ∧
      (∀ offset ∈ offsets, d.trieOffset ≤ offset ∧ offset < data.size ∧ d.ReadsInside offset) ∧
      offsets.length ≤ data.size - d.trieOffset ∧
      ∀ hits, d.lookup query = .ok hits → hits.Exist d.resultCount := by
  obtain ⟨hdata, htrie⟩ := sections_of_parse hparse
  have hsize : d.size = data.size := by rw [size, hdata]
  rw [← hsize] at htrie ⊢
  obtain ⟨offsets, hlooks⟩ := d.exists_looks (Text.utf8 (Text.normalize d.caseInsensitive query))
  obtain ⟨hrising, hbounds⟩ := hlooks.offsets htrie
  refine ⟨offsets, hlooks, hrising, ?_, length_le_of_rising hrising hbounds, ?_⟩
  · intro offset hoffset
    obtain ⟨hfirst, hlast⟩ := hbounds offset hoffset
    exact ⟨hfirst, hlast, readsInside hlast⟩
  · intro hits hhits
    rw [lookup] at hhits
    rw [hhits] at hlooks
    exact hlooks.hits

theorem lookup_ends_sharedChildData :
    ∃ d, parse sharedChildData = .ok d ∧ d.trieOffset = 32 ∧
      ∃ offsets, d.Looks (Text.utf8 (Text.normalize d.caseInsensitive "a")) offsets (d.lookup "a") ∧
        offsets.Pairwise (· < ·) ∧ offsets.length ≤ 35 := by
  have htrie : (parse sharedChildData).toOption.map (·.trieOffset) = some 32 := by
    decide +kernel
  cases hparse : parse sharedChildData with
  | error fault =>
      rw [hparse] at htrie
      cases htrie
  | ok d =>
      rw [hparse, Except.toOption, Option.map_some, Option.some.injEq] at htrie
      obtain ⟨offsets, hlooks, hrising, -, hlength, -⟩ := lookup_ends hparse "a"
      rw [htrie] at hlength
      exact ⟨d, rfl, htrie, offsets, hlooks, hrising, hlength⟩

end SearchData

end PrefixSearch
