import PrefixSearch.Proofs.Bytes.Extension
import PrefixSearch.Proofs.OpenedData
import PrefixSearch.Proofs.ScriptData
import PrefixSearch.Proofs.StoredRecords

/-!
# Search data with more bytes behind it

The length of the data decides whether the sections and the children are inside, how far a field may
reach, and how many nodes a walk may visit.  More bytes only allow more in each of these places, and
the end of a record is stored, so everything that is answered is answered in the same way when bytes
are appended.
-/

namespace PrefixSearch

open Bytes (Reader Source)

namespace SearchData

variable {d : SearchData}

/-- The same header, with more bytes behind the data. -/
def followedBy (d : SearchData) (more : Array UInt8) : SearchData :=
  { d with data := d.data ++ more }

/-- Everything that is answered by `d` is answered by `long` in the same way. -/
structure AnsweredBy (d long : SearchData) : Prop where
  lookup : ∀ query hits, d.lookup query = .ok hits → long.lookup query = .ok hits
  query : ∀ query results, d.query query = .ok results → long.query query = .ok results
  result : ∀ id result, d.result id = .ok result → long.result id = .ok result
  node : ∀ offset node, d.node offset = .ok node → long.node offset = .ok node
  walk : ∀ {σ : Type} (visit : σ → Nat → StoredNode → σ) (first last : σ),
    d.walk visit first = .ok last → long.walk visit first = .ok last

/-! ## Nodes -/

section

variable {more : Array UInt8}

theorem size_followedBy : (d.followedBy more).size = d.size + more.size :=
  Array.size_append

theorem extends_followedBy : (d.followedBy more).source.Extends d.source := by
  refine Source.extends_append d.data more ?_
  show d.size ≤ (d.followedBy more).size
  rw [size_followedBy]
  exact Nat.le_add_right _ _

theorem carries_readId :
    Reader.Carries (d.followedBy more).source d.source id d.readId (d.followedBy more).readId :=
  (Reader.Carries.uint extends_followedBy _).bind fun _ =>
    (Reader.Carries.check fun hid => hid).bind fun _ => Reader.Carries.pure id _

theorem carries_readIds :
    Reader.Carries (d.followedBy more).source d.source id d.readIds (d.followedBy more).readIds :=
  (Reader.Carries.uint extends_followedBy _).bind fun _ =>
    (Reader.Carries.check fun hcount => hcount).bind fun _ => carries_readId.replicate _

theorem carries_readChild (offset : Nat) :
    Reader.Carries (d.followedBy more).source d.source id (d.readChild offset)
      ((d.followedBy more).readChild offset) := by
  refine (Reader.Carries.uint extends_followedBy _).bind fun _ => ?_
  refine (Reader.Carries.uint extends_followedBy _).bind fun child => ?_
  refine (Reader.Carries.check ?_).bind fun _ => Reader.Carries.pure id _
  rintro ⟨hbehind, hinside⟩
  rw [size_followedBy]
  exact ⟨hbehind, Nat.lt_add_right _ hinside⟩

theorem node_followedBy {offset : Nat} {node : StoredNode} (hnode : d.node offset = .ok node) :
    (d.followedBy more).node offset = .ok node := by
  have hreadNode : Reader.Carries (d.followedBy more).source d.source id (d.readNode offset)
      ((d.followedBy more).readNode offset) :=
    (Reader.Carries.uint extends_followedBy _).bind fun _ =>
      (Reader.Carries.bytes extends_followedBy _).bind fun _ =>
        (Reader.Carries.uint extends_followedBy _).bind fun count =>
          ((carries_readChild offset).replicate count).bind fun _ =>
            carries_readIds.bind fun _ => carries_readIds.bind fun _ => Reader.Carries.pure id _
  unfold SearchData.node at hnode ⊢
  split at hnode
  · cases hnode
  · next hbehind =>
    rw [if_neg (show ¬ offset < (d.followedBy more).trieOffset from hbehind)]
    exact hreadNode.run_eq hnode

/-! ## Records -/

/-- The reader of a record stops where the record ends, before and after. -/
theorem carries_readRecord (i : Id) (stop : Nat) :
    Reader.Carries { (d.followedBy more).source with stop } { d.source with stop } id
      (d.readRecord i) ((d.followedBy more).readRecord i) := by
  have hext : { (d.followedBy more).source with stop }.Extends { d.source with stop } :=
    Source.extends_append d.data more (Nat.le_refl stop)
  exact (Reader.Carries.uint hext _).bind fun _ => (Reader.Carries.uint hext _).bind fun _ =>
    (Reader.Carries.require _ _).bind fun _ => (Reader.Carries.uint hext _).bind fun _ =>
      (Reader.Carries.uint hext _).bind fun _ => (Reader.Carries.text hext _).bind fun _ =>
        (Reader.Carries.text hext _).bind fun _ =>
          (Reader.Carries.check fun haligned => haligned).bind fun _ => Reader.Carries.pure id _

theorem record_followedBy {i : Id} {record : Record} (hrecord : d.record i = .ok record) :
    (d.followedBy more).record i = .ok record := by
  obtain ⟨start, stop, hi, hstart, hstop, hbounds, hread⟩ := bounds_of_record hrecord
  rw [record_of_bounds (d := d.followedBy more) hi (Source.uint?_of_extends extends_followedBy hstart)
    (Source.uint?_of_extends extends_followedBy hstop) hbounds]
  exact (carries_readRecord i stop).run_eq hread

theorem target_followedBy {i : Id} {hops : Nat} {record last : Record}
    (htarget : d.target i hops record = .ok last) :
    (d.followedBy more).target i hops record = .ok last := by
  induction hops generalizing record with
  | zero =>
      unfold target at htarget ⊢
      exact htarget
  | succ hops ih =>
      unfold target at htarget ⊢
      split at htarget
      · next next _ _ =>
        dsimp only at htarget ⊢
        obtain ⟨following, hfollowing, hrest⟩ := except_bind_eq_ok.mp htarget
        exact except_bind_eq_ok.mpr ⟨following, record_followedBy hfollowing, ih hrest⟩
      · exact htarget

theorem result_followedBy {i : Id} {result : SearchResult} (hresult : d.result i = .ok result) :
    (d.followedBy more).result i = .ok result := by
  obtain ⟨record, hrecord, hrest⟩ := except_bind_eq_ok.mp hresult
  obtain ⟨resolved, hresolved, hrow⟩ := except_bind_eq_ok.mp hrest
  exact except_bind_eq_ok.mpr ⟨record, record_followedBy hrecord,
    except_bind_eq_ok.mpr ⟨resolved, target_followedBy hresolved, hrow⟩⟩

/-! ## Requests -/

theorem enter_followedBy {offset : Nat} {text : List UInt8} {hits : Hits}
    (henter : d.enter offset text = .ok hits) : (d.followedBy more).enter offset text = .ok hits := by
  -- the walk goes on at a child, whose offset is larger, with what is left of the text
  induction hmeasure : d.size - offset using Nat.strong_induction_on generalizing offset text with
  | _ measure ih =>
      cases hnode : d.node offset with
      | error fault =>
          rw [enter_of_error hnode] at henter
          cases henter
      | ok node =>
          rw [enter_eq hnode] at henter
          rw [enter_eq (node_followedBy hnode)]
          by_cases hinside : sharedLength node.label text < node.label.length
          · rw [if_pos hinside] at henter ⊢
            exact henter
          · rw [if_neg hinside] at henter ⊢
            cases hrest : text.drop (sharedLength node.label text) with
            | nil =>
                rw [hrest] at henter
                exact henter
            | cons first rest =>
                rw [hrest] at henter
                dsimp only at henter ⊢
                rw [follow_children] at henter ⊢
                cases hchild : node.child? first with
                | none =>
                    rw [hchild] at henter
                    exact henter
                | some child =>
                    rw [hchild] at henter
                    have hbehind := child?_of_node hnode hchild
                    exact ih (d.size - child) (by omega) henter rfl

theorem lookup_followedBy {query : String} {hits : Hits} (hlookup : d.lookup query = .ok hits) :
    (d.followedBy more).lookup query = .ok hits := by
  have hbytes : ∀ text, d.lookupBytes text = .ok hits →
      (d.followedBy more).lookupBytes text = .ok hits := by
    intro text hfound
    obtain ⟨root, hroot, hrest⟩ := except_bind_eq_ok.mp hfound
    refine except_bind_eq_ok.mpr ⟨root, node_followedBy hroot, ?_⟩
    cases text with
    | nil => exact hrest
    | cons first rest =>
        dsimp only at hrest ⊢
        cases hchild : root.child? first with
        | none =>
            rw [hchild] at hrest
            exact hrest
        | some child =>
            rw [hchild] at hrest
            exact enter_followedBy hrest
  exact hbytes _ hlookup

theorem query_followedBy {query : String} {results : List SearchResult}
    (hquery : d.query query = .ok results) : (d.followedBy more).query query = .ok results := by
  obtain ⟨hits, hlookup, hresults⟩ := except_bind_eq_ok.mp hquery
  exact except_bind_eq_ok.mpr ⟨hits, lookup_followedBy hlookup,
    mapM_eq_ok_of_imp (fun _ _ hresult => result_followedBy hresult) hresults⟩

/-- More bytes let a walk visit more nodes, and those that it visited before are the same. -/
theorem walkFrom_followedBy {σ : Type} {visit : σ → Nat → StoredNode → σ} {budget larger : Nat}
    (hbudget : budget ≤ larger) {waiting : List (Nat × Nat)} {state last : σ}
    (hwalk : d.walkFrom visit budget waiting state = .ok last) :
    (d.followedBy more).walkFrom visit larger waiting state = .ok last := by
  induction budget generalizing larger waiting state with
  | zero =>
      cases waiting with
      | nil =>
          cases larger <;> exact hwalk
      | cons item waiting => cases hwalk
  | succ budget ih =>
      obtain ⟨larger, rfl⟩ : ∃ rest, larger = rest + 1 := ⟨larger - 1, by omega⟩
      cases waiting with
      | nil => exact hwalk
      | cons item waiting =>
          obtain ⟨depth, offset⟩ := item
          rw [walkFrom] at hwalk ⊢
          cases hnode : d.node offset with
          | error fault =>
              rw [hnode] at hwalk
              cases hwalk
          | ok node =>
              rw [hnode] at hwalk
              rw [node_followedBy hnode]
              exact ih (Nat.le_of_succ_le_succ hbudget) hwalk

theorem walk_followedBy {σ : Type} {visit : σ → Nat → StoredNode → σ} {first last : σ}
    (hwalk : d.walk visit first = .ok last) : (d.followedBy more).walk visit first = .ok last := by
  refine walkFrom_followedBy ?_ hwalk
  show d.size - d.trieOffset ≤ (d.followedBy more).size - d.trieOffset
  rw [size_followedBy]
  omega

theorem answeredBy_followedBy (d : SearchData) (more : Array UInt8) :
    d.AnsweredBy (d.followedBy more) where
  lookup _ _ := lookup_followedBy
  query _ _ := query_followedBy
  result _ _ := result_followedBy
  node _ _ := node_followedBy
  walk _ _ _ := walk_followedBy

end

/-! ## The header -/

section

variable {long short : Source} (hext : long.Extends short)
include hext

theorem carries_readWidths : Reader.Carries long short id readWidths readWidths :=
  (Reader.Carries.uint hext 1).bind fun _ => (Reader.Carries.uint hext 1).bind fun _ =>
    (Reader.Carries.uint hext 1).bind fun _ => (Reader.Carries.require _ _).bind fun _ =>
      (Reader.Carries.require _ _).bind fun _ => (Reader.Carries.require _ _).bind fun _ =>
        Reader.Carries.pure id _

theorem carries_readTypeMap (w : Widths) :
    Reader.Carries long short id (readTypeMap w) (readTypeMap w) := by
  refine (Reader.Carries.uint hext 1).bind fun count => Reader.Carries.replicate ?_ count
  exact (Reader.Carries.uint hext 1).bind fun _ => (Reader.Carries.uint hext 1).bind fun _ =>
    (Reader.Carries.text hext _).bind fun _ => (Reader.Carries.require _ _).bind fun _ =>
      (Reader.Carries.require _ _).bind fun _ => Reader.Carries.pure id _

end

theorem carries_readHeader (data more : Array UInt8) (version : UInt8) :
    Reader.Carries (Source.ofArray (data ++ more)) (Source.ofArray data) (·.followedBy more)
      (readHeader data version) (readHeader (data ++ more) version) := by
  have hsize : data.size ≤ (data ++ more).size := by
    rw [Array.size_append]
    exact Nat.le_add_right _ _
  have hext : (Source.ofArray (data ++ more)).Extends (Source.ofArray data) :=
    Source.extends_append data more hsize
  refine (carries_readWidths hext).bind fun widths => ?_
  refine (Reader.Carries.uint hext 1).bind fun flags => ?_
  refine (Reader.Carries.uint hext 4).bind fun resultCount => ?_
  refine (Reader.Carries.uint hext 4).bind fun typeMapOffset => ?_
  refine (Reader.Carries.uint hext 4).bind fun resultsOffset => ?_
  refine (Reader.Carries.uint hext 4).bind fun trieOffset => ?_
  refine (Reader.Carries.text hext _).bind fun symbolPrefix => ?_
  refine Reader.Carries.position.bind fun headerEnd => ?_
  refine (Reader.Carries.check fun hresults => hresults).bind fun _ => ?_
  refine (Reader.Carries.check ?_).bind fun _ => ?_
  · rintro ⟨hheader, hmap, hrows, htrie⟩
    exact ⟨hheader, hmap, hrows, Nat.lt_of_lt_of_le htrie hsize⟩
  refine (Reader.Carries.check fun hoffsets => hoffsets).bind fun _ => ?_
  -- the type map is read at its own position, not behind the header
  have hmap : Reader.Carries (Source.ofArray (data ++ more)) (Source.ofArray data) id
      (fun source _ => readTypeMap widths source typeMapOffset)
      (fun source _ => readTypeMap widths source typeMapOffset) :=
    fun _ rows after hrows => carries_readTypeMap hext widths typeMapOffset rows after hrows
  exact hmap.bind fun _ => Reader.Carries.pure _ _

/-- The header is read in the same way if more bytes are behind the data. -/
theorem parse_append {data : Array UInt8} {d : SearchData} (hparse : parse data = .ok d)
    (more : Array UInt8) : parse (data ++ more) = .ok (d.followedBy more) := by
  obtain ⟨hsignature, hversion, hread⟩ := parse_eq_ok_iff.mp hparse
  have hsize : data.size ≤ (data ++ more).size := by
    rw [Array.size_append]
    exact Nat.le_add_right _ _
  have hinside : 3 < data.size := (Array.getElem?_eq_some_iff.mp hversion).1
  refine parse_eq_ok_iff.mpr ⟨?_, ?_, ?_⟩
  · exact Source.extends_append data more hsize _ _ _ hsignature
  · rw [Array.getElem?_append_left hinside, hversion]
  · exact (carries_readHeader data more formatVersion).run_eq hread

/-! ## Longer and shorter files -/

/-- Bytes behind search data change no answer, so what is cut off a file that can still be read, and
what a script puts behind the data, changes none either. -/
theorem answeredBy_of_longer {data : Array UInt8} {d : SearchData} (hparse : parse data = .ok d) :
    (∀ more, parse (data ++ more) = .ok { d with data := data ++ more } ∧
      d.AnsweredBy { d with data := data ++ more }) ∧
    (∀ length cut, parse (data.extract 0 length) = .ok cut →
      d = { cut with data } ∧ cut.AnsweredBy d) ∧
    ∃ zeros < 4, Script.decode? (Script.encode data.toList) =
        some (data.toList ++ List.replicate zeros 0) ∧
      parse (data ++ Array.replicate zeros 0) =
        .ok { d with data := data ++ Array.replicate zeros 0 } ∧
      d.AnsweredBy { d with data := data ++ Array.replicate zeros 0 } := by
  have hlonger : ∀ {short : Array UInt8} {e : SearchData}, parse short = .ok e →
      ∀ more, parse (short ++ more) = .ok { e with data := short ++ more } ∧
        e.AnsweredBy { e with data := short ++ more } := by
    intro short e hshort more
    have hmore : e.followedBy more = { e with data := short ++ more } := by
      rw [followedBy, (sections_of_parse hshort).1]
    rw [← hmore]
    exact ⟨parse_append hshort more, answeredBy_followedBy e more⟩
  refine ⟨hlonger hparse, ?_, ?_⟩
  · intro length cut hcut
    have hwhole : data.extract 0 length ++ data.extract length data.size = data := by
      simp
    obtain ⟨hagain, hanswers⟩ := hlonger hcut (data.extract length data.size)
    rw [hwhole] at hagain hanswers
    have heq : d = { cut with data } := Except.ok.inj (hparse.symm.trans hagain)
    exact ⟨heq, heq ▸ hanswers⟩
  · exact ⟨Base85.fill data.toList.length, Base85.fill_lt _, Script.decode?_encode data.toList,
      hlonger hparse _⟩

theorem answeredBy_of_longer_sharedChildData :
    ∃ d, parse sharedChildData = .ok d ∧
      (SearchData.node { d with data := sharedChildData ++ #[7] } 56 =
        .ok { offset := 56, label := [97], children := [],
              hits := { exact := [0], completions := [0] } }) ∧
      parse (sharedChildData ++ #[7]) = .ok { d with data := sharedChildData ++ #[7] } := by
  have hnode : (parse sharedChildData).toOption.bind (fun d => (d.node 56).toOption) =
      some { offset := 56, label := [97], children := [],
             hits := { exact := [0], completions := [0] } } := by
    decide +kernel
  cases hparse : parse sharedChildData with
  | error fault =>
      rw [hparse] at hnode
      cases hnode
  | ok d =>
      rw [hparse, Except.toOption, Option.bind_some, toOption_eq_some] at hnode
      obtain ⟨hlonger, -, -⟩ := answeredBy_of_longer hparse
      obtain ⟨hagain, hanswers⟩ := hlonger #[7]
      exact ⟨d, rfl, hanswers.node 56 _ hnode, hagain⟩

end SearchData

end PrefixSearch
