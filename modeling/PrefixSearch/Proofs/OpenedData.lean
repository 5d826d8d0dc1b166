import PrefixSearch.Proofs.Runs
import PrefixSearch.Proofs.StoredTree

/-!
# Search data from anywhere

What is known of bytes that were taken for search data, whoever wrote them.  The header says nothing
about the nodes and the records behind it, so whatever is read there is known to be right only as
far as the readers check it.
-/

namespace PrefixSearch

open Bytes (Reader Source)

namespace Bytes.Reader

variable {source : Source} {pos after : Nat}

theorem of_check {condition : Prop} [Decidable condition] {fault : Corruption} {done : Unit}
    (hread : check condition fault source pos = (.ok done, after)) : condition := by
  unfold check at hread
  split at hread
  · assumption
  · cases hread

theorem length_of_replicate {α : Type} {read : Reader α} {count : Nat} {values : List α}
    (hread : replicate read count source pos = (.ok values, after)) : values.length = count := by
  induction count generalizing pos after values with
  | zero =>
      cases hread
      rfl
  | succ count ih =>
      obtain ⟨value, mid, -, hrest⟩ := bind_eq_ok hread
      obtain ⟨rest, last, hmore, hlast⟩ := bind_eq_ok hrest
      cases hlast
      rw [List.length_cons, ih hmore]

end Bytes.Reader

/-- The results exist, and neither set has more members than there are results. -/
structure Hits.Exist (hits : Hits) (count : Nat) : Prop where
  exact_lt : ∀ id ∈ hits.exact, id < count
  completions_lt : ∀ id ∈ hits.completions, id < count
  exact_length : hits.exact.length ≤ count
  completions_length : hits.completions.length ≤ count

namespace SearchData

variable {d : SearchData}

/-! ## The header -/

/-- Bytes are search data if signature and version are right and the header can be read. -/
theorem parse_eq_ok_iff {data : Array UInt8} {d : SearchData} :
    parse data = .ok d ↔ (Source.ofArray data).slice? 0 3 = some signature ∧
      data[3]? = some formatVersion ∧
        (readHeader data formatVersion).run (.ofArray data) 4 = .ok d := by
  unfold parse
  cases hversion : data[3]? with
  | none => simp
  | some version =>
      dsimp only
      by_cases hsignature : (Source.ofArray data).slice? 0 3 = some signature
      · rw [if_neg (not_not_intro hsignature)]
        by_cases heq : version = formatVersion
        · subst heq
          rw [if_neg (not_not_intro rfl), mapError_eq_ok]
          simp [hsignature]
        · rw [if_pos heq]
          simp [heq]
      · rw [if_pos hsignature]
        simp [hsignature]

/-- The header keeps the data, and the tree begins inside the data. -/
theorem sections_of_parse {data : Array UInt8} {d : SearchData} (hparse : parse data = .ok d) :
    d.data = data ∧ d.trieOffset < data.size := by
  obtain ⟨-, -, hread⟩ := parse_eq_ok_iff.mp hparse
  have hrun : readHeader data formatVersion (.ofArray data) 4 =
      (.ok d, (readHeader data formatVersion (.ofArray data) 4).2) := Prod.ext hread rfl
  -- widths, flags, result count, three section offsets, prefix and position come before the checks
  obtain ⟨_, _, _, hrun⟩ := Reader.bind_eq_ok hrun
  obtain ⟨_, _, _, hrun⟩ := Reader.bind_eq_ok hrun
  obtain ⟨_, _, _, hrun⟩ := Reader.bind_eq_ok hrun
  obtain ⟨_, _, _, hrun⟩ := Reader.bind_eq_ok hrun
  obtain ⟨_, _, _, hrun⟩ := Reader.bind_eq_ok hrun
  obtain ⟨_, _, _, hrun⟩ := Reader.bind_eq_ok hrun
  obtain ⟨_, _, _, hrun⟩ := Reader.bind_eq_ok hrun
  obtain ⟨_, _, _, hrun⟩ := Reader.bind_eq_ok hrun
  obtain ⟨_, _, _, hrun⟩ := Reader.bind_eq_ok hrun
  obtain ⟨_, _, hsections, hrun⟩ := Reader.bind_eq_ok hrun
  obtain ⟨_, _, _, hrun⟩ := Reader.bind_eq_ok hrun
  obtain ⟨_, _, _, hrun⟩ := Reader.bind_eq_ok hrun
  cases hrun
  exact ⟨rfl, (Reader.of_check hsections).2.2.2⟩

/-! ## Nodes and records -/

theorem ids_of_readIds {source : Source} {pos after : Nat} {ids : List Id}
    (hread : d.readIds source pos = (.ok ids, after)) :
    ids.length ≤ d.resultCount ∧ ∀ id ∈ ids, id < d.resultCount := by
  obtain ⟨count, mid, -, hrest⟩ := Reader.bind_eq_ok hread
  obtain ⟨_, _, hcount, hids⟩ := Reader.bind_eq_ok hrest
  refine ⟨(Reader.length_of_replicate hids).trans_le (Reader.of_check hcount), ?_⟩
  refine Reader.forall_mem_of_replicate ?_ hids
  intro pos id after hid
  obtain ⟨_, _, -, hchecked⟩ := Reader.bind_eq_ok hid
  obtain ⟨_, _, hlt, hlast⟩ := Reader.bind_eq_ok hchecked
  cases hlast
  exact Reader.of_check hlt

/-- A node that can be read is in the tree and knows its offset, and its sets were read one behind the
other. -/
theorem parts_of_node {offset : Nat} {node : StoredNode} (hnode : d.node offset = .ok node) :
    d.trieOffset ≤ offset ∧ node.offset = offset ∧ ∃ start mid stop,
      d.readIds d.source start = (.ok node.hits.exact, mid) ∧
        d.readIds d.source mid = (.ok node.hits.completions, stop) := by
  unfold SearchData.node at hnode
  split at hnode
  · cases hnode
  · next hbehind =>
    have hrun : d.readNode offset d.source offset = (.ok node, (d.readNode offset d.source offset).2) :=
      Prod.ext hnode rfl
    -- length, label, number of children and children come before the sets
    obtain ⟨_, _, -, hrun⟩ := Reader.bind_eq_ok hrun
    obtain ⟨_, _, -, hrun⟩ := Reader.bind_eq_ok hrun
    obtain ⟨_, _, -, hrun⟩ := Reader.bind_eq_ok hrun
    obtain ⟨_, _, -, hrun⟩ := Reader.bind_eq_ok hrun
    obtain ⟨exact, _, hexact, hrun⟩ := Reader.bind_eq_ok hrun
    obtain ⟨completions, _, hcompletions, hrun⟩ := Reader.bind_eq_ok hrun
    cases hrun
    exact ⟨Nat.not_lt.mp hbehind, rfl, _, _, _, hexact, hcompletions⟩

theorem offset_of_node {offset : Nat} {node : StoredNode} (hnode : d.node offset = .ok node) :
    node.offset = offset :=
  (parts_of_node hnode).2.1

/-- The results that a node lists exist. -/
theorem hits_of_node {offset : Nat} {node : StoredNode} (hnode : d.node offset = .ok node) :
    node.hits.Exist d.resultCount := by
  obtain ⟨-, -, start, mid, stop, hexact, hcompletions⟩ := parts_of_node hnode
  have hexactIds := ids_of_readIds hexact
  have hcompletionIds := ids_of_readIds hcompletions
  exact ⟨hexactIds.2, hcompletionIds.2, hexactIds.1, hcompletionIds.1⟩

theorem enter_of_error {offset : Nat} {fault : Corruption} (hnode : d.node offset = .error fault)
    (text : List UInt8) : d.enter offset text = .error fault := by
  rw [enter]
  split
  · next found hfound =>
    rw [hnode] at hfound
    cases hfound
    rfl
  · next node hfound =>
    rw [hnode] at hfound
    cases hfound

/-- A record that is read lies between two offsets of the table. -/
theorem bounds_of_record {i : Id} {record : Record} (hrecord : d.record i = .ok record) :
    ∃ start stop, i < d.resultCount ∧
      d.source.uint? (d.resultsOffset + i * d.widths.offsetBytes) d.widths.offsetBytes = some start ∧
      d.source.uint? (d.resultsOffset + (i + 1) * d.widths.offsetBytes) d.widths.offsetBytes =
        some stop ∧
      (d.recordsOffset ≤ start ∧ start ≤ stop ∧ stop ≤ d.trieOffset) ∧
      (d.readRecord i).run { d.source with stop } start = .ok record := by
  rw [Nat.succ_mul, ← Nat.add_assoc]
  unfold SearchData.record at hrecord
  split at hrecord
  · cases hrecord
  · next hi =>
    dsimp only at hrecord
    split at hrecord
    · next start hstart =>
      split at hrecord
      · next stop hstop =>
        split at hrecord
        · cases hrecord
        · next hbounds =>
          exact ⟨start, stop, Nat.not_le.mp hi, hstart, hstop, by omega, hrecord⟩
      · cases hrecord
    · cases hrecord

/-! ## A file that no index is written to -/

/-- A file of one result. Its root refers to one node twice, by an edge that has no label. -/
def sharedChildData : Array UInt8 :=
  #[0x4D, 0x43, 0x53, 2, 0, 0, 0, 0, 1, 0, 0, 0, 25, 0, 0, 0, 26, 0, 0, 0, 32, 0, 0, 0, 0,
    0, 0, 0, 0, 0, 0, 0,
    0, 2, 97, 46, 0, 0, 97, 46, 0, 0, 0, 0, 0, 0,
    0, 1, 97, 56, 0, 0, 0, 0, 0, 0,
    1, 97, 0, 1, 0, 0, 0, 1, 0, 0, 0]

end SearchData

end PrefixSearch
