import PrefixSearch.Proofs.OpenedData

/-!
# Aliases in any data

The records of a file from anywhere may refer to each other in any way, also in a circle.  A chain of
aliases that ends at a record that is no alias passes no result twice, since what is left of the chain has
another length after every hop.  So it has fewer hops than there are results, and the bound on the hops is
reached exactly by the chains that do not end.
-/

namespace PrefixSearch

open Bytes (Reader Source)

namespace SearchData

variable {d : SearchData} {id next other last : Id} {record : Record} {passed more : List Id}

/-! ## Records -/

/-- A record that can be read is in the table, and it has a target exactly if it is an alias. -/
theorem alias_iff_of_record (hrecord : d.record id = .ok record) :
    id < d.resultCount ∧ (record.kind = .redirect ↔ record.target.isSome = true) := by
  obtain ⟨start, stop, hid, -, -, -, hread⟩ := bounds_of_record hrecord
  refine ⟨hid, ?_⟩
  have hrun : d.readRecord id { d.source with stop } start =
      (.ok record, (d.readRecord id { d.source with stop } start).2) := Prod.ext hread rfl
  -- flags, tag, kind, reference, suffix length, name and URL come before the check
  obtain ⟨_, _, -, hrun⟩ := Reader.bind_eq_ok hrun
  obtain ⟨_, _, -, hrun⟩ := Reader.bind_eq_ok hrun
  obtain ⟨_, _, -, hrun⟩ := Reader.bind_eq_ok hrun
  obtain ⟨_, _, -, hrun⟩ := Reader.bind_eq_ok hrun
  obtain ⟨_, _, -, hrun⟩ := Reader.bind_eq_ok hrun
  obtain ⟨_, _, -, hrun⟩ := Reader.bind_eq_ok hrun
  obtain ⟨_, _, -, hrun⟩ := Reader.bind_eq_ok hrun
  obtain ⟨_, _, hcheck, hrun⟩ := Reader.bind_eq_ok hrun
  cases hrun
  exact iff_of_eq (Reader.of_check hcheck)

theorem target_of_alias (hrecord : d.record id = .ok record) (hkind : record.kind = .redirect) :
    ∃ next, record.target = some next :=
  Option.isSome_iff_exists.mp ((alias_iff_of_record hrecord).2.mp hkind)

theorem kind_of_target (hrecord : d.record id = .ok record) (hnext : record.target = some next) :
    record.kind = .redirect :=
  (alias_iff_of_record hrecord).2.mpr (Option.isSome_iff_exists.mpr ⟨next, hnext⟩)

/-! ## Chains -/

/-- The aliases of the file lead from one result to another, and these are the results that they pass
after the first one. -/
inductive Chain (d : SearchData) : Id → List Id → Id → Prop
  | here (id : Id) : Chain d id [] id
  | along {id next last : Id} {record : Record} {passed : List Id}
      (hrecord : d.record id = .ok record) (hnext : record.target = some next)
      (hrest : Chain d next passed last) : Chain d id (next :: passed) last

/-- The result has a record of its own, which is no alias. -/
def IsPlain (d : SearchData) (id : Id) : Prop :=
  ∃ record, d.record id = .ok record ∧ record.kind ≠ .redirect

theorem IsPlain.ne_target (hplain : d.IsPlain id) (hrecord : d.record id = .ok record)
    (hnext : record.target = some next) : False := by
  obtain ⟨found, hfound, hkind⟩ := hplain
  obtain rfl := Except.ok.inj (hfound.symm.trans hrecord)
  exact hkind (kind_of_target hrecord hnext)

namespace Chain

/-- A chain that ends at a plain record is determined by where it begins. -/
theorem unique (hchain : d.Chain id passed last) (hlast : d.IsPlain last)
    (hother : d.Chain id more other) (hend : d.IsPlain other) : passed = more := by
  induction hchain generalizing more with
  | here id =>
      cases hother with
      | here => rfl
      | along hrecord hnext _ => exact (hlast.ne_target hrecord hnext).elim
  | along hrecord hnext _ ih =>
      cases hother with
      | here => exact (hend.ne_target hrecord hnext).elim
      | along hrecord' hnext' hrest' =>
          obtain rfl := Except.ok.inj (hrecord.symm.trans hrecord')
          obtain rfl := Option.some.inj (hnext.symm.trans hnext')
          rw [ih hlast hrest']

/-- What is left of a chain at a result that it passes is shorter. -/
theorem rest_of_mem (hchain : d.Chain id passed last) (hmem : other ∈ passed) :
    ∃ rest, d.Chain other rest last ∧ rest.length < passed.length := by
  induction hchain with
  | here id => cases hmem
  | @along id next last record passed _ _ hrest ih =>
      rcases List.mem_cons.mp hmem with rfl | hmem
      · exact ⟨passed, hrest, Nat.lt_succ_self _⟩
      · obtain ⟨rest, hchain, hshorter⟩ := ih hmem
        exact ⟨rest, hchain, Nat.lt_succ_of_lt hshorter⟩

/-- A chain that ends at a plain record passes no result twice. -/
theorem nodup (hchain : d.Chain id passed last) (hlast : d.IsPlain last) : (id :: passed).Nodup := by
  induction hchain with
  | here id => exact List.nodup_singleton id
  | @along id next last record passed hrecord hnext hrest ih =>
      refine List.nodup_cons.mpr ⟨fun hagain => ?_, ih hlast⟩
      have hwhole : d.Chain id (next :: passed) last := .along hrecord hnext hrest
      obtain ⟨rest, hshort, hlength⟩ := hwhole.rest_of_mem hagain
      rw [hshort.unique hlast hwhole hlast] at hlength
      exact Nat.lt_irrefl _ hlength

/-- All results of a chain that ends at a plain record are in the table. -/
theorem lt_resultCount (hchain : d.Chain id passed last) (hlast : d.IsPlain last) :
    ∀ other ∈ id :: passed, other < d.resultCount := by
  induction hchain with
  | here id =>
      obtain ⟨record, hrecord, -⟩ := hlast
      simpa using (alias_iff_of_record hrecord).1
  | along hrecord _ _ ih =>
      exact List.forall_mem_cons.mpr ⟨(alias_iff_of_record hrecord).1, ih hlast⟩

/-- A chain that ends at a plain record has fewer hops than there are results. -/
theorem length_lt (hchain : d.Chain id passed last) (hlast : d.IsPlain last) :
    passed.length < d.resultCount := by
  have hsubset : id :: passed ⊆ List.range d.resultCount := fun other hother =>
    List.mem_range.mpr (hchain.lt_resultCount hlast other hother)
  have hlength := (hchain.nodup hlast).length_le_of_subset hsubset
  rwa [List.length_range, List.length_cons] at hlength

end Chain

/-- What has every target of its members has every result that a chain from one of them leads to. -/
theorem Chain.mem_of_closed (hchain : d.Chain id passed last) (inside : Id → Prop)
    (hclosed : ∀ id record next, inside id → d.record id = .ok record →
      record.target = some next → inside next) (hid : inside id) : inside last := by
  induction hchain with
  | here id => exact hid
  | along hrecord hnext _ ih => exact ih (hclosed _ _ _ hid hrecord hnext)

/-! ## Following a chain -/

/-- One hop. -/
theorem target_succ (id : Id) (hops : Nat) (hkind : record.kind = .redirect)
    (hnext : record.target = some next) :
    d.target id (hops + 1) record = d.record next >>= d.target id hops := by
  rw [target]
  simp only [hkind, hnext]

theorem target_zero (id : Id) (hkind : record.kind = .redirect)
    (hnext : record.target = some next) : d.target id 0 record = .error (.aliasCycle id) := by
  rw [target]
  simp only [hkind, hnext]

theorem target_of_plain (id : Id) (hops : Nat) (hkind : record.kind ≠ .redirect) :
    d.target id hops record = .ok record := by
  unfold target
  split
  · next hredirect _ => exact absurd hredirect hkind
  · rfl

/-- With enough hops the end of a chain is found. -/
theorem Chain.target_eq (hchain : d.Chain id passed last) {own found : Record}
    (hown : d.record id = .ok own) (hfound : d.record last = .ok found)
    (hkind : found.kind ≠ .redirect) (start : Id) {hops : Nat} (hhops : passed.length ≤ hops) :
    d.target start hops own = .ok found := by
  induction hchain generalizing own hops with
  | here id =>
      obtain rfl := Except.ok.inj (hown.symm.trans hfound)
      exact target_of_plain start hops hkind
  | @along id next last record passed hrecord hnext hrest ih =>
      obtain rfl := Except.ok.inj (hown.symm.trans hrecord)
      obtain ⟨hops, rfl⟩ : ∃ fewer, hops = fewer + 1 :=
        Nat.exists_eq_add_one_of_ne_zero (Nat.ne_of_gt (Nat.lt_of_lt_of_le (Nat.succ_pos _) hhops))
      obtain ⟨following, hfollowing⟩ : ∃ record, d.record next = .ok record := by
        cases hrest with
        | here => exact ⟨found, hfound⟩
        | along hrecord' _ _ => exact ⟨_, hrecord'⟩
      rw [target_succ start hops (kind_of_target hrecord hnext) hnext, hfollowing]
      exact ih hfollowing hfound (Nat.le_of_succ_le_succ hhops)

/-- If all records of a chain can be read and are aliases, no number of hops is enough. -/
theorem target_of_endless {own : Record} (hown : d.record id = .ok own)
    (hendless : ∀ passed other, d.Chain id passed other →
      ∃ record, d.record other = .ok record ∧ record.kind = .redirect)
    (start : Id) (hops : Nat) : d.target start hops own = .error (.aliasCycle start) := by
  induction hops generalizing id own with
  | zero =>
      obtain ⟨record, hrecord, hkind⟩ := hendless [] id (.here id)
      obtain rfl := Except.ok.inj (hown.symm.trans hrecord)
      obtain ⟨next, hnext⟩ := target_of_alias hown hkind
      exact target_zero start hkind hnext
  | succ hops ih =>
      obtain ⟨record, hrecord, hkind⟩ := hendless [] id (.here id)
      obtain rfl := Except.ok.inj (hown.symm.trans hrecord)
      obtain ⟨next, hnext⟩ := target_of_alias hown hkind
      obtain ⟨following, hfollowing, -⟩ := hendless [next] next (.along hown hnext (.here next))
      rw [target_succ start hops hkind hnext, hfollowing]
      exact ih hfollowing fun passed other hchain =>
        hendless (next :: passed) other (.along hown hnext hchain)

/-- Whatever the records are, what is found in the end is no alias. -/
theorem kind_of_target_eq {own found : Record} {start : Id} {hops : Nat}
    (hown : d.record id = .ok own) (htarget : d.target start hops own = .ok found) :
    found.kind ≠ .redirect := by
  induction hops generalizing id own with
  | zero =>
      by_cases hkind : own.kind = .redirect
      · obtain ⟨next, hnext⟩ := target_of_alias hown hkind
        rw [target_zero start hkind hnext] at htarget
        cases htarget
      · rw [target_of_plain start 0 hkind] at htarget
        cases htarget
        exact hkind
  | succ hops ih =>
      by_cases hkind : own.kind = .redirect
      · obtain ⟨next, hnext⟩ := target_of_alias hown hkind
        rw [target_succ start hops hkind hnext] at htarget
        obtain ⟨following, hfollowing, hrest⟩ := except_bind_eq_ok.mp htarget
        exact ih hfollowing hrest
      · rw [target_of_plain start (hops + 1) hkind] at htarget
        cases htarget
        exact hkind

/-! ## Results -/

theorem kind_of_result {found : SearchResult} (hresult : d.result id = .ok found) :
    found.kind ≠ .redirect := by
  obtain ⟨own, hown, hrest⟩ := except_bind_eq_ok.mp hresult
  obtain ⟨resolved, hresolved, hrow⟩ := except_bind_eq_ok.mp hrest
  split at hrow
  · cases hrow
  · cases hrow
    exact kind_of_target_eq hown hresolved

end SearchData

/-- The result of a record that is resolved to another one, whose kind has the row.  Name, flags, suffix
length and target are its own, the rest is that of the other one. -/
def Record.resolvedTo (own resolved : Record) (id : Id) (row : TypeRow) : SearchResult :=
  { id
    name := own.name
    url := resolved.url
    kind := resolved.kind
    cssClass := row.cssClass
    label := row.label
    deprecated := own.flags.isDeprecated
    deleted := own.flags.isDeleted
    suffixLength := own.suffixLength
    target := own.target }

namespace SearchData

variable {d : SearchData} {id : Id}

theorem result_of_target_error {own : Record} {fault : Corruption} (hown : d.record id = .ok own)
    (htarget : d.target id d.resultCount own = .error fault) : d.result id = .error fault := by
  rw [result, hown]
  change d.target id d.resultCount own >>= _ = _
  rw [htarget]
  rfl

theorem result_of_target {own found : Record} (hown : d.record id = .ok own)
    (htarget : d.target id d.resultCount own = .ok found) :
    d.result id = match d.typeMap.find? (·.kind = found.kind) with
      | none => .error (.kindNotInTypeMap found.kind)
      | some row => .ok (own.resolvedTo found id row) := by
  rw [result, hown]
  change d.target id d.resultCount own >>= _ = _
  rw [htarget]
  change (match d.typeMap.find? (·.kind = found.kind) with | none => _ | some row => _) = _
  cases d.typeMap.find? (·.kind = found.kind) with
  | none => rfl
  | some row => rfl

/-- If all records on the chain of a result can be read, an alias cycle is reported exactly if none of them
is anything but an alias.  Otherwise the chain ends at a record that is no alias, and the result has its
URL and its kind, unless the type map has no row for that kind.  The kind of a result is never that of
an alias. -/
theorem result_of_readable_chain
    (hreadable : ∀ passed other, d.Chain id passed other → ∃ record, d.record other = .ok record) :
    (d.result id = .error (.aliasCycle id) ↔
      ∀ passed other record, d.Chain id passed other → d.record other = .ok record →
        record.kind = .redirect) ∧
    (∀ passed last resolved, d.Chain id passed last → d.record last = .ok resolved →
      resolved.kind ≠ .redirect →
        passed.length ≤ d.resultCount - 1 ∧ (id :: passed).Nodup ∧
        ∃ own, d.record id = .ok own ∧
          (∀ row, d.typeMap.find? (·.kind = resolved.kind) = some row →
            d.result id = .ok (own.resolvedTo resolved id row)) ∧
          ((∀ row ∈ d.typeMap, row.kind ≠ resolved.kind) →
            d.result id = .error (.kindNotInTypeMap resolved.kind))) ∧
    ∀ other found, d.result other = .ok found → found.kind ≠ .redirect := by
  obtain ⟨own, hown⟩ := hreadable [] id (.here id)
  have hends : ∀ passed last resolved, d.Chain id passed last → d.record last = .ok resolved →
      resolved.kind ≠ .redirect → passed.length < d.resultCount ∧
        d.target id d.resultCount own = .ok resolved := by
    intro passed last resolved hchain hresolved hkind
    have hlength := hchain.length_lt ⟨resolved, hresolved, hkind⟩
    exact ⟨hlength, hchain.target_eq hown hresolved hkind id (Nat.le_of_lt hlength)⟩
  refine ⟨⟨fun hcycle passed last resolved hchain hresolved => ?_, fun hendless => ?_⟩, ?_, ?_⟩
  · by_contra hkind
    obtain ⟨-, htarget⟩ := hends passed last resolved hchain hresolved hkind
    rw [result_of_target hown htarget] at hcycle
    split at hcycle <;> cases hcycle
  · refine result_of_target_error hown (target_of_endless hown ?_ id d.resultCount)
    intro passed other hchain
    obtain ⟨record, hrecord⟩ := hreadable passed other hchain
    exact ⟨record, hrecord, hendless passed other record hchain hrecord⟩
  · intro passed last resolved hchain hresolved hkind
    obtain ⟨hlength, htarget⟩ := hends passed last resolved hchain hresolved hkind
    have hresult := result_of_target hown htarget
    refine ⟨by omega, hchain.nodup ⟨resolved, hresolved, hkind⟩, own, hown, ?_, ?_⟩
    · intro row hrow
      rw [hresult, hrow]
    · intro hnone
      have hfind : d.typeMap.find? (·.kind = resolved.kind) = none := by
        simpa [List.find?_eq_none] using hnone
      rw [hresult, hfind]
  · exact fun other found hresult => kind_of_result hresult

/-- A file of five results.  The first one is an alias of the second one, which is one of the third one,
which leads back to the second one.  The fourth one is an alias of the last one, a page. -/
def circlingData : Array UInt8 :=
  #[0x4D, 0x43, 0x53, 2, 0, 0, 0, 0, 5, 0, 0, 0, 25, 0, 0, 0, 30, 0, 0, 0, 89, 0, 0, 0, 0,
    1, 1, 2, 1, 0x70,
    48, 0, 0, 56, 0, 0, 64, 0, 0, 72, 0, 0, 80, 0, 0, 89, 0, 0,
    0, 0, 1, 0, 0, 1, 0x72, 0,
    0, 0, 2, 0, 0, 1, 0x73, 0,
    0, 0, 1, 0, 0, 1, 0x74, 0,
    0, 0, 4, 0, 0, 1, 0x75, 0,
    0, 1, 0xFF, 0xFF, 0, 1, 0x76, 1, 0x70,
    0, 0, 0, 0, 0, 0]

theorem result_of_readable_chain_circlingData :
    ∃ d, parse circlingData = .ok d ∧ d.result 0 = .error (.aliasCycle 0) ∧
      d.Chain 0 [1, 2, 1] 1 ∧ d.Chain 3 [4] 4 ∧
      ∃ own resolved row, d.record 3 = .ok own ∧ d.record 4 = .ok resolved ∧
        resolved.kind = .page ∧ d.result 3 = .ok (own.resolvedTo resolved 3 row) := by
  have hfacts : (parse circlingData).toOption.map (fun d =>
      ([0, 1, 2, 3, 4].map fun id => (d.record id).toOption.map fun record =>
        (record.target, record.kind), (d.typeMap.find? (·.kind = .page)).isSome)) =
      some ([some (some 1, .redirect), some (some 2, .redirect), some (some 1, .redirect),
        some (some 4, .redirect), some (none, .page)], true) := by
    decide +kernel
  obtain ⟨d, hparse, hfacts⟩ := Option.map_eq_some_iff.mp hfacts
  rw [toOption_eq_some] at hparse
  simp only [List.map_cons, List.map_nil, Prod.mk.injEq, List.cons.injEq, Option.map_eq_some_iff,
    toOption_eq_some, and_true] at hfacts
  obtain ⟨⟨⟨first, h0, hto1, hkind0⟩, ⟨second, h1, hto2, hkind1⟩, ⟨third, h2, hback, hkind2⟩,
    ⟨fourth, h3, hto4, hkind3⟩, ⟨page, h4, hplain, hkind⟩⟩, hrow⟩ := hfacts
  obtain ⟨row, hrow⟩ := Option.isSome_iff_exists.mp hrow
  -- the first three results lead to each other, the fourth one to the last one
  have hcircle : ∀ passed other, d.Chain 0 passed other → other = 0 ∨ other = 1 ∨ other = 2 := by
    intro passed other hchain
    refine hchain.mem_of_closed (fun id => id = 0 ∨ id = 1 ∨ id = 2) ?_ (.inl rfl)
    rintro id record next (rfl | rfl | rfl) hrecord hnext <;> grind
  have hpair : ∀ passed other, d.Chain 3 passed other → other = 3 ∨ other = 4 := by
    intro passed other hchain
    refine hchain.mem_of_closed (fun id => id = 3 ∨ id = 4) ?_ (.inl rfl)
    rintro id record next (rfl | rfl) hrecord hnext <;> grind
  have hlist : d.Chain 3 [4] 4 := .along h3 hto4 (.here 4)
  have hreadCircle : ∀ passed other, d.Chain 0 passed other → ∃ record, d.record other = .ok record := by
    intro passed other hchain
    obtain rfl | rfl | rfl := hcircle passed other hchain
    exacts [⟨first, h0⟩, ⟨second, h1⟩, ⟨third, h2⟩]
  have hreadPair : ∀ passed other, d.Chain 3 passed other → ∃ record, d.record other = .ok record := by
    intro passed other hchain
    obtain rfl | rfl := hpair passed other hchain
    exacts [⟨fourth, h3⟩, ⟨page, h4⟩]
  obtain ⟨hcycle, -, -⟩ := result_of_readable_chain hreadCircle
  obtain ⟨-, hends, -⟩ := result_of_readable_chain hreadPair
  obtain ⟨-, -, own, hown, hresult, -⟩ := hends [4] 4 page hlist h4 (by rw [hkind]; decide)
  refine ⟨d, hparse, hcycle.mpr fun passed other record hchain hrecord => ?_,
    .along h0 hto1 (.along h1 hto2 (.along h2 hback (.here 1))), hlist, own, page, row, hown, h4,
    hkind, hresult row (by rw [hkind, hrow])⟩
  obtain rfl | rfl | rfl := hcircle passed other hchain <;> grind

end SearchData

end PrefixSearch
