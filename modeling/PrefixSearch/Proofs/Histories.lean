import Mathlib.Logic.Relation
import PrefixSearch.Proofs.AddingEntries
import PrefixSearch.Proofs.Operations

/-!
# Histories of an index

What an index is like at the end of a history often depends on what was done to it before.  Here
the operations are data, and a run is a history of operations that succeeded, each of which was
allowed where it was called.

`Grows` says once what an operation can do that is no merge of two entries: append a row to the
table, and add a text of an entry that was not merged.  An invariant of all histories is one that
these two steps keep, and merges.
-/

namespace PrefixSearch

namespace Trie.Sound

/-- Replacing a result that is not in the table yet changes nothing. -/
theorem replace_eq_self [Search] {t : Trie} {table : ResultTable} {size : Nat} (ht : t.Sound size)
    {old : Id} (hold : size ≤ old) (new : Id) : t.replace table old new = t := by
  refine Trie.replace_eq_self table new ht.wellFormed ?_ ?_
  · exact fun path hmem => Nat.not_lt_of_le hold ((ht.place path).1.2 old hmem)
  · exact fun path hmem => Nat.not_lt_of_le hold ((ht.place path).2.2 old hmem)

end Trie.Sound

namespace ResultTable

variable {t : ResultTable} {id : Id}

namespace AliasForest

/-- The end of a chain was not merged, and neither was what a duplicate was merged into. -/
theorem isKept_canonicalId (ht : t.AliasForest) (hid : id < t.size) :
    t.IsKept (t.canonicalId id) := by
  refine ⟨ht.canonicalId_lt hid, ?_⟩
  cases hmerged : t.isMerged id with
  | false => rwa [canonicalId_of_isMerged_false hmerged]
  | true => exact ht.isMerged_of_isEnd (ht.next?_of_isMerged hmerged).2

/-- No row leads to one that is not there yet. -/
theorem not_to_size (ht : t.AliasForest) (id : Id) (row : Row) (hrow : t.rows[id]? = some row) :
    row.entry.target ≠ some t.size ∧ row.mergedInto ≠ some t.size := by
  have htarget : row.entry.target ≠ some t.size := fun hsome =>
    Nat.lt_irrefl t.size (ht.target_lt id row hrow t.size hsome)
  exact ⟨htarget, fun hsome => htarget (ht.merged id row hrow t.size hsome).1⟩

end AliasForest

end ResultTable

namespace Index

/-! ## Operations and runs -/

/-- What can be done to an index. -/
inductive Operation where
  | pushEntry (entry : Entry)
  | add (entry : Entry)
  | addAlias (name : String) (target : Id)
  | insert (text : String) (id : Id) (exact : Bool)
  | mergeDuplicate (kept gone : Id)
deriving DecidableEq, Repr

variable [Search]

/-- The index after an operation. -/
def apply (index : Index) : Operation → Except IndexError Index
  | .pushEntry entry => return (← index.pushEntry entry).2
  | .add entry => return (← index.add entry).2
  | .addAlias name target => return (← index.addAlias name target).2
  | .insert text id exact => index.insert text id exact
  | .mergeDuplicate kept gone => (index.mergeDuplicate kept gone).mapError .misuse

/-- The index after operations, one after the other. -/
def applyAll (index : Index) (ops : List Operation) : Except IndexError Index :=
  ops.foldlM apply index

/-- Operations lead from one index to another, each of them allowed where it is called. -/
inductive Run (may : Index → Operation → Prop) (first : Index) : Index → Prop
  | start : Run may first first
  | next {index last : Index} {op : Operation} (hrun : Run may first index)
      (hmay : may index op) (happly : index.apply op = .ok last) : Run may first last

/-- Every operation is allowed. -/
def Any (_ : Index) (_ : Operation) : Prop := True

/-- The operation merges no two entries that were added before. -/
def NoMerge (_ : Index) (op : Operation) : Prop :=
  ∀ kept gone, op ≠ .mergeDuplicate kept gone

namespace Run

variable {may also : Index → Operation → Prop} {first mid last : Index}

theorem mono (hrun : Run may first last) (himp : ∀ index op, may index op → also index op) :
    Run also first last := by
  induction hrun with
  | start => exact .start
  | next _ hmay happly ih => exact ih.next (himp _ _ hmay) happly

theorem any (hrun : Run may first last) : Run Any first last :=
  hrun.mono fun _ _ _ => trivial

theorem append (hrun : Run may first mid) (hmore : Run may mid last) : Run may first last := by
  induction hmore with
  | start => exact hrun
  | next _ hmay happly ih => exact ih.next hmay happly

/-- What every step of a run keeps holds at its end. -/
theorem keeps {P : Index → Prop} (hrun : Run may first last)
    (hstep : ∀ index op next, P index → may index op → index.apply op = .ok next → P next)
    (hfirst : P first) : P last := by
  induction hrun with
  | start => exact hfirst
  | next _ hmay happly ih => exact hstep _ _ _ ih hmay happly

theorem of_applyAll {ops : List Operation} (hall : first.applyAll ops = .ok last)
    (hmay : ∀ index, ∀ op ∈ ops, may index op) : Run may first last := by
  induction ops generalizing first with
  | nil =>
      cases hall
      exact .start
  | cons op ops ih =>
      obtain ⟨next, happly, hnext⟩ := foldlM_cons_eq_ok.mp hall
      have hhead : Run may first next :=
        .next .start (hmay first op List.mem_cons_self) happly
      exact hhead.append (ih hnext fun index op hop => hmay index op (List.mem_cons_of_mem _ hop))

end Run

/-! ## What the operations consist of -/

variable {index next : Index}

/-- A row is appended to the table, or a text is added of an entry that was not merged. -/
inductive Grows : Index → Index → Prop
  | row {index : Index} {table : ResultTable} {row : Row}
      (hrows : table.rows = (index.table.append row).rows) (hsound : { index with table }.Sound) :
      Grows index { index with table }
  | text {index : Index} {term : Term} (hkept : index.table.IsKept term.id) :
      Grows index { index with trie := index.trie.insert index.table term }

theorem grows_texts {terms : List Term} (hterms : ∀ term ∈ terms, index.table.IsKept term.id) :
    Relation.ReflTransGen Grows index
      { index with trie := index.trie.insertAll index.table terms } := by
  induction terms generalizing index with
  | nil => exact .refl
  | cons term terms ih =>
      obtain ⟨hterm, hrest⟩ := List.forall_mem_cons.mp hterms
      have hnext : Relation.ReflTransGen Grows
          { index with trie := index.trie.insert index.table term }
          { index with
            trie := (index.trie.insert index.table term).insertAll index.table terms } :=
        ih hrest
      exact .head (.text hterm) hnext

/-- A registration appends a row, also if that row is merged at once, and collects texts of an entry
that was not merged. -/
theorem Sound.register_grows {entry : Entry} {id : Id} {terms : List Term} (hindex : index.Sound)
    (hregister : index.register entry = .ok (id, terms, next)) :
    Grows index next ∧ ∀ term ∈ terms, next.table.IsKept term.id := by
  have hsound := (hindex.register hregister).1
  have houtcome := register_outcome hregister
  cases houtcome with
  | fresh =>
      have hrows := tableWith_rows index entry
      refine ⟨.row hrows hsound, ?_⟩
      rintro ⟨text, id, exact⟩ hterm
      have hid : id = index.table.size := by
        rcases mem_termsOf.mp hterm with ⟨-, hid, -⟩ | ⟨-, hid, -⟩
        · exact hid
        · exact hid
      exact (ResultTable.isKept_iff hrows id).mpr (Or.inr ⟨hid, rfl⟩)
  | duplicate _ hkept hkind =>
      have hrows : (index.tableMerged entry id).rows =
          (index.table.append (Row.mergeInto id { entry })).rows :=
        ResultTable.rows_merge_last (Nat.ne_of_lt hkept) entry hindex.forest.not_to_size
      -- the duplicate has the next ID, which no set of the tree has yet
      have htrie : index.trie.replace (index.tableMerged entry id) index.table.size id =
          index.trie := hindex.trie.replace_eq_self (Nat.le_refl _) id
      rw [htrie] at hsound ⊢
      refine ⟨.row hrows hsound, ?_⟩
      rintro ⟨text, found, exact⟩ hterm
      obtain ⟨-, rfl, -⟩ := mem_keywordTerms.mp hterm
      have hend := ResultTable.isEnd_of_ne_redirect hkind
      exact (ResultTable.isKept_iff hrows found).mpr
        (Or.inl ⟨hkept, hindex.forest.isMerged_of_isEnd hend⟩)

theorem Sound.add_grows {entry : Entry} {id : Id} (hindex : index.Sound)
    (hadd : index.add entry = .ok (id, next)) : Relation.ReflTransGen Grows index next := by
  obtain ⟨⟨new, terms, mid⟩, hregister, hresult⟩ := except_bind_eq_ok.mp hadd
  obtain ⟨hgrows, hterms⟩ := hindex.register_grows hregister
  cases hresult
  exact .head hgrows (grows_texts hterms)

theorem Sound.pushEntry_grows {entry : Entry} {id : Id} (hindex : index.Sound)
    (hpush : index.pushEntry entry = .ok (id, next)) : Grows index next := by
  have hsound := hindex.pushEntry hpush
  obtain ⟨_, -, hpush⟩ := except_bind_eq_ok.mp hpush
  obtain ⟨⟨new, table⟩, hrow, hresult⟩ := except_bind_eq_ok.mp hpush
  obtain ⟨-, -, rfl, rfl⟩ := ResultTable.push_eq_ok (mapError_eq_ok.mp hrow)
  cases hresult
  exact .row rfl hsound

theorem Sound.insert_grows {text : String} {id : Id} {exact : Bool} (hindex : index.Sound)
    (hinsert : index.insert text id exact = .ok next) : Grows index next := by
  obtain ⟨term, hterm, hid, rfl⟩ := insert_eq_ok hinsert
  refine .text ?_
  rw [hterm]
  exact hindex.forest.isKept_canonicalId hid

/-- All that an operation can do to a sound index. -/
inductive ApplyOutcome (index : Index) : Operation → Index → Prop
  | merged {kept gone : Id} (hmay : index.table.Mergeable kept gone) :
      ApplyOutcome index (.mergeDuplicate kept gone) (index.merged kept gone)
  | grown {op : Operation} {next : Index} (hop : ∀ kept gone, op ≠ .mergeDuplicate kept gone)
      (hgrown : Relation.ReflTransGen Grows index next) : ApplyOutcome index op next

theorem Sound.apply_outcome {op : Operation} (hindex : index.Sound)
    (happly : index.apply op = .ok next) : ApplyOutcome index op next := by
  cases op with
  | pushEntry entry =>
      obtain ⟨id, hpush⟩ := second_eq_ok.mp happly
      exact .grown (fun _ _ => nofun) (.single (hindex.pushEntry_grows hpush))
  | add entry =>
      obtain ⟨id, hadd⟩ := second_eq_ok.mp happly
      exact .grown (fun _ _ => nofun) (hindex.add_grows hadd)
  | addAlias name target =>
      obtain ⟨id, hadd⟩ := second_eq_ok.mp happly
      exact .grown (fun _ _ => nofun) (hindex.add_grows hadd)
  | insert text id exact =>
      exact .grown (fun _ _ => nofun) (.single (hindex.insert_grows happly))
  | mergeDuplicate kept gone =>
      obtain ⟨hmay, rfl⟩ := mergeDuplicate_eq_ok (mapError_eq_ok.mp happly)
      exact .merged hmay

theorem Grows.sound (hgrows : Grows index next) (hindex : index.Sound) : next.Sound := by
  cases hgrows with
  | row _ hsound => exact hsound
  | text hkept => exact ⟨hindex.trie.insert hkept.1, hindex.forest⟩

/-- A property of sound indexes that is kept by growing is kept by any growth. -/
theorem Sound.grown_keeps {P : Index → Prop} (hindex : index.Sound)
    (hgrown : Relation.ReflTransGen Grows index next)
    (hgrows : ∀ index next, index.Sound → P index → Grows index next → P next) (hP : P index) :
    P next := by
  have hboth : next.Sound ∧ P next := by
    induction hgrown with
    | refl => exact ⟨hindex, hP⟩
    | tail _ hstep ih => exact ⟨hstep.sound ih.1, hgrows _ _ ih.1 ih.2 hstep⟩
  exact hboth.2

/-- A property of sound indexes that is kept by growing and by the merge is kept by the
operation. -/
theorem Sound.apply_keeps {P : Index → Prop} {op : Operation} (hindex : index.Sound)
    (happly : index.apply op = .ok next)
    (hgrows : ∀ index next, index.Sound → P index → Grows index next → P next)
    (hmerged : ∀ kept gone, index.table.Mergeable kept gone → P (index.merged kept gone))
    (hP : P index) : P next := by
  cases hindex.apply_outcome happly with
  | merged hmay => exact hmerged _ _ hmay
  | grown _ hgrown => exact hindex.grown_keeps hgrown hgrows hP

theorem Sound.apply {op : Operation} (hindex : index.Sound) (happly : index.apply op = .ok next) :
    next.Sound :=
  hindex.apply_keeps happly (fun _ _ hmid _ hgrows => hgrows.sound hmid)
    (fun _ _ hmay => hindex.merged hmay) hindex

/-- What every operation on a sound index keeps, and merging a tree over its table, holds of every
index that operations lead to. -/
theorem Reachable.keeps {P : Index → Prop} {config : Config} (hreach : Reachable config index)
    (hempty : P (Index.empty config))
    (happly : ∀ index op next, index.Sound → P index → index.apply op = .ok next → P next)
    (hmerge : ∀ index other, index.Sound → P index → Trie.BuiltOver index.table.size other →
      P (index.mergeTrie other)) : P index := by
  induction hreach with
  | empty => exact hempty
  | @pushEntry index next entry id hreach hpush ih =>
      exact happly index (.pushEntry entry) next hreach.sound ih (second_eq_ok.mpr ⟨id, hpush⟩)
  | @add index next entry id hreach hadd ih =>
      exact happly index (.add entry) next hreach.sound ih (second_eq_ok.mpr ⟨id, hadd⟩)
  | @addAlias index next name target id hreach hadd ih =>
      exact happly index (.addAlias name target) next hreach.sound ih (second_eq_ok.mpr ⟨id, hadd⟩)
  | @insert index next text id exact hreach hinsert ih =>
      exact happly index (.insert text id exact) next hreach.sound ih hinsert
  | @mergeDuplicate index next kept gone hreach hmerged ih =>
      exact happly index (.mergeDuplicate kept gone) next hreach.sound ih
        (mapError_eq_ok.mpr hmerged)
  | mergeTrie hreach hother ih => exact hmerge _ _ hreach.sound ih hother

theorem Run.reachable {may : Index → Operation → Prop} {config : Config} {last : Index}
    (hrun : Run may (empty config) last) : Reachable config last := by
  refine hrun.keeps (fun index op next hreach _ happly => ?_) .empty
  cases op with
  | pushEntry entry =>
      obtain ⟨id, hpush⟩ := second_eq_ok.mp happly
      exact hreach.pushEntry hpush
  | add entry =>
      obtain ⟨id, hadd⟩ := second_eq_ok.mp happly
      exact hreach.add hadd
  | addAlias name target =>
      obtain ⟨id, hadd⟩ := second_eq_ok.mp happly
      exact hreach.addAlias hadd
  | insert text id exact => exact hreach.insert happly
  | mergeDuplicate kept gone => exact hreach.mergeDuplicate (mapError_eq_ok.mp happly)

end Index

end PrefixSearch
