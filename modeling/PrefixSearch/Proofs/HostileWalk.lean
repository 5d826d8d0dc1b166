import PrefixSearch.Proofs.Unfoldings

/-!
# Walks through any data

A walk keeps a stack of the nodes that wait and counts its visits.  What it visits before it ends does not
depend on what is done at a visit, so it is said apart from that, as a trace.  Siblings on the stack that
unfold are visited in the order of their addresses before anything that waits behind them.  The count of
visits matters only if it is too small for the whole unfolding, and then the walk fails.
-/

namespace PrefixSearch

namespace SearchData

variable {d : SearchData} {budget depth offset last : Nat} {waiting : List (Nat × Nat)}
variable {node : StoredNode} {fault : Corruption}

/-- The visits of a walk from the nodes that are waiting, in their order and with their depths, and how
the walk ends. -/
def traceFrom (d : SearchData) :
    (budget : Nat) → (waiting : List (Nat × Nat)) → List (Nat × StoredNode) × Except Corruption Unit
  | _, [] => ([], .ok ())
  | 0, _ :: _ => ([], .error .tooManyNodes)
  | budget + 1, (depth, offset) :: waiting =>
      match d.node offset with
      | .error fault => ([], .error fault)
      | .ok node =>
          let rest := d.traceFrom budget
            (node.children.map (fun child => (depth + 1, child.2)) ++ waiting)
          ((depth, node) :: rest.1, rest.2)

/-- The visits of a walk through the whole tree, and how it ends. -/
def trace (d : SearchData) : List (Nat × StoredNode) × Except Corruption Unit :=
  d.traceFrom (d.size - d.trieOffset) [(0, d.trieOffset)]

@[simp] theorem traceFrom_nil (d : SearchData) (budget : Nat) : d.traceFrom budget [] = ([], .ok ()) := by
  cases budget <;> rfl

/-- One visit. -/
theorem traceFrom_of_node (hnode : d.node offset = .ok node) (depth budget : Nat)
    (waiting : List (Nat × Nat)) :
    d.traceFrom (budget + 1) ((depth, offset) :: waiting) =
      ((depth, node) ::
        (d.traceFrom budget (node.children.map (fun child => (depth + 1, child.2)) ++ waiting)).1,
        (d.traceFrom budget (node.children.map (fun child => (depth + 1, child.2)) ++ waiting)).2) := by
  rw [traceFrom, hnode]

/-- A walk does what is to be done at its visits, one after the other. -/
theorem walkFrom_eq {σ : Type} (visit : σ → Nat → StoredNode → σ) (state : σ) :
    d.walkFrom visit budget waiting state = (d.traceFrom budget waiting).2.map fun _ =>
      (d.traceFrom budget waiting).1.foldl (fun state seen => visit state seen.1 seen.2) state := by
  fun_induction traceFrom d budget waiting generalizing state with
  | case1 => rw [walkFrom]; rfl
  | case2 => rw [walkFrom]; rfl
  | case3 budget depth offset waiting fault hnode => rw [walkFrom, hnode]; rfl
  | case4 budget depth offset waiting node hnode rest ih =>
      rw [walkFrom, hnode]
      exact ih (visit state depth node)

theorem walk_eq {σ : Type} (visit : σ → Nat → StoredNode → σ) (state : σ) :
    d.walk visit state = d.trace.2.map fun _ =>
      d.trace.1.foldl (fun state seen => visit state seen.1 seen.2) state :=
  walkFrom_eq visit state

/-! ## What a walk visits -/

theorem length_traceFrom_le (d : SearchData) (budget : Nat) (waiting : List (Nat × Nat)) :
    (d.traceFrom budget waiting).1.length ≤ budget := by
  fun_induction traceFrom d budget waiting with
  | case1 => exact Nat.zero_le _
  | case2 => exact Nat.zero_le _
  | case3 => exact Nat.zero_le _
  | case4 budget depth offset waiting node hnode rest ih => exact Nat.succ_le_succ ih

/-- A way from one of the nodes that are put on the stack for a node begins at the node or at one of those
that were waiting before. -/
theorem exists_leads_of_children (hnode : d.node offset = .ok node) {P : Nat → Nat → Prop}
    (hfound : ∃ start ∈ node.children.map (fun child => (depth + 1, child.2)) ++ waiting,
      ∃ address last, d.Leads start.2 address last ∧ P (start.1 + address.length) last) :
    ∃ start ∈ (depth, offset) :: waiting,
      ∃ address last, d.Leads start.2 address last ∧ P (start.1 + address.length) last := by
  obtain ⟨start, hstart, address, last, hleads, hP⟩ := hfound
  rcases List.mem_append.mp hstart with hchild | hwaiting
  · obtain ⟨child, hlisted, rfl⟩ := List.mem_map.mp hchild
    obtain ⟨i, hi⟩ := List.mem_iff_getElem?.mp hlisted
    refine ⟨(depth, offset), List.mem_cons_self, i :: address, last, .down hnode hi hleads, ?_⟩
    rwa [List.length_cons, ← Nat.add_assoc, Nat.add_right_comm]
  · exact ⟨start, List.mem_cons_of_mem _ hwaiting, address, last, hleads, hP⟩

/-- Every visit is at the end of a way from a node that is waiting, as deep as the way is long. -/
theorem leads_of_traceFrom (d : SearchData) (budget : Nat) (waiting : List (Nat × Nat)) :
    ∀ seen ∈ (d.traceFrom budget waiting).1, ∃ start ∈ waiting, ∃ address last,
      d.Leads start.2 address last ∧ seen.1 = start.1 + address.length ∧ d.node last = .ok seen.2 := by
  fun_induction traceFrom d budget waiting with
  | case1 => exact fun seen hseen => absurd hseen List.not_mem_nil
  | case2 => exact fun seen hseen => absurd hseen List.not_mem_nil
  | case3 => exact fun seen hseen => absurd hseen List.not_mem_nil
  | case4 budget depth offset waiting node hnode rest ih =>
      intro seen hseen
      rcases List.mem_cons.mp hseen with rfl | hrest
      · exact ⟨(depth, offset), List.mem_cons_self, [], offset, .here offset, rfl, hnode⟩
      · exact exists_leads_of_children hnode
          (P := fun depth last => seen.1 = depth ∧ d.node last = .ok seen.2) (ih seen hrest)

/-- A walk that fails has no visits left, or it comes to a node that cannot be read. -/
theorem fault_of_traceFrom (d : SearchData) (budget : Nat) (waiting : List (Nat × Nat)) :
    ∀ fault, (d.traceFrom budget waiting).2 = .error fault →
      fault = .tooManyNodes ∧ (d.traceFrom budget waiting).1.length = budget ∨
        ∃ start ∈ waiting, ∃ address last,
          d.Leads start.2 address last ∧ d.node last = .error fault := by
  fun_induction traceFrom d budget waiting with
  | case1 => intro fault hfault; cases hfault
  | case2 => intro fault hfault; cases hfault; exact .inl ⟨rfl, rfl⟩
  | case3 budget depth offset waiting found hnode =>
      intro fault hfault
      cases hfault
      exact .inr ⟨(depth, offset), List.mem_cons_self, [], offset, .here offset, hnode⟩
  | case4 budget depth offset waiting node hnode rest ih =>
      intro fault hfault
      rcases ih fault hfault with ⟨rfl, hlength⟩ | hfound
      · exact .inl ⟨rfl, congrArg Nat.succ hlength⟩
      · exact .inr (exists_leads_of_children hnode (P := fun _ last => d.node last = .error fault) hfound)

/-- A walk that does not fail can read all nodes below those that are waiting. -/
theorem decodesBelow_of_traceFrom (d : SearchData) (budget : Nat) (waiting : List (Nat × Nat))
    (hok : (d.traceFrom budget waiting).2 = .ok ()) :
    ∀ start ∈ waiting, d.DecodesBelow start.2 := by
  fun_induction traceFrom d budget waiting with
  | case1 => exact fun start hstart => absurd hstart List.not_mem_nil
  | case2 => cases hok
  | case3 => cases hok
  | case4 budget depth offset waiting node hnode rest ih =>
      have hall := ih hok
      rw [List.forall_mem_append] at hall
      refine List.forall_mem_cons.mpr ⟨fun address last hleads => ?_, hall.2⟩
      obtain ⟨rfl, rfl⟩ | ⟨i, child, address, rfl, hi, hrest⟩ := hleads.cases_node hnode
      · exact ⟨node, hnode⟩
      · have hchild := List.mem_map_of_mem (f := fun child => (depth + 1, child.2))
          (List.mem_of_getElem? hi)
        exact hall.1 _ hchild address last hrest

/-- More visits than a walk needs change nothing. -/
theorem traceFrom_add (d : SearchData) (budget more : Nat) (waiting : List (Nat × Nat))
    (hok : (d.traceFrom budget waiting).2 = .ok ()) :
    d.traceFrom (budget + more) waiting = d.traceFrom budget waiting := by
  fun_induction traceFrom d budget waiting with
  | case1 => rw [traceFrom_nil]
  | case2 => cases hok
  | case3 => cases hok
  | case4 budget depth offset waiting node hnode rest ih =>
      rw [Nat.succ_add, traceFrom_of_node hnode, ih hok]

/-- Siblings that unfold are visited first, each visit one deeper than their parent for every number of its
address. -/
theorem Unfolds.traceFrom_eq {i : Nat} {siblings : List (UInt8 × Nat)}
    {located : List (List Nat × StoredNode)} (hunfolds : d.Unfolds i siblings located)
    (depth budget : Nat) (waiting : List (Nat × Nat)) :
    d.traceFrom (located.length + budget)
        (siblings.map (fun child => (depth + 1, child.2)) ++ waiting) =
      (located.map (fun v => (depth + v.1.length, v.2)) ++ (d.traceFrom budget waiting).1,
        (d.traceFrom budget waiting).2) := by
  induction hunfolds generalizing depth budget waiting with
  | nil i => simp
  | @cons i child siblings node below next hnode _ _ ihBelow ihNext =>
      have hlength : (([i], node) :: below.map (fun v => (i :: v.1, v.2)) ++ next).length + budget =
          below.length + (next.length + budget) + 1 := by
        simp only [List.length_cons, List.length_append, List.length_map]
        omega
      rw [hlength, List.map_cons, List.cons_append, traceFrom_of_node hnode, ihBelow, ihNext]
      simp [Nat.add_assoc, Nat.add_comm 1]

/-- If all nodes can be read, the tree has an unfolding, which a walk visits if it has enough visits. -/
theorem exists_unfolding (hdecodes : d.DecodesBelow offset) :
    ∃ located, d.Unfolding offset located ∧
      ∀ budget, d.traceFrom (located.length + budget) [(0, offset)] =
        (located.map fun v => (v.1.length, v.2), .ok ()) := by
  obtain ⟨node, hnode⟩ := hdecodes [] offset (.here offset)
  obtain ⟨below, hbelow⟩ := exists_unfolds (fun child hchild => hdecodes.child hnode hchild) 0
  refine ⟨([], node) :: below, hbelow.unfolding hnode hdecodes, fun budget => ?_⟩
  rw [List.length_cons, Nat.succ_add, traceFrom_of_node hnode, hbelow.traceFrom_eq, traceFrom_nil]
  simp

/-- Whatever bytes were taken for search data, a walk through the tree ends after no more visits than the
tree has bytes.  On every way down the offsets rise and stay inside the tree.  A walk that does not fail
visits the whole unfolding of the tree, in the order of the addresses; a walk does not fail if all nodes
can be read and their unfolding is no longer than that. -/
theorem walk_ends {data : Array UInt8} {d : SearchData} (hparse : parse data = .ok d) :
    (∀ {σ : Type} (visit : σ → Nat → StoredNode → σ) (state : σ),
      d.walk visit state = d.trace.2.map fun _ =>
        d.trace.1.foldl (fun state seen => visit state seen.1 seen.2) state) ∧
    d.trace.1.length ≤ data.size - d.trieOffset ∧
    (∀ seen ∈ d.trace.1, ∃ address, d.Leads d.trieOffset address seen.2.offset ∧
      seen.1 = address.length ∧ d.node seen.2.offset = .ok seen.2) ∧
    (∀ front back last, d.Leads d.trieOffset (front ++ back) last →
      d.trieOffset ≤ last ∧ last < data.size ∧
        ∃ mid, d.Leads d.trieOffset front mid ∧ (back ≠ [] → mid < last)) ∧
    (∀ fault, d.trace.2 = .error fault →
      fault = .tooManyNodes ∧ d.trace.1.length = data.size - d.trieOffset ∨
        ∃ address last, d.Leads d.trieOffset address last ∧ d.node last = .error fault) ∧
    (d.trace.2 = .ok () → ∃ located, d.Unfolding d.trieOffset located ∧
      d.trace.1 = located.map fun v => (v.1.length, v.2)) ∧
    (d.DecodesBelow d.trieOffset → ∃ located, d.Unfolding d.trieOffset located ∧
      (∀ other, d.Unfolding d.trieOffset other → other = located) ∧
      (located.length ≤ data.size - d.trieOffset →
        d.trace = (located.map fun v => (v.1.length, v.2), .ok ()))) := by
  obtain ⟨hdata, htrie⟩ := sections_of_parse hparse
  have hsize : d.size = data.size := by rw [size, hdata]
  rw [← hsize] at htrie ⊢
  refine ⟨walk_eq, length_traceFrom_le d _ _, ?_, ?_, ?_, ?_, ?_⟩
  · intro seen hseen
    obtain ⟨start, hstart, address, last, hleads, hdepth, hnode⟩ := leads_of_traceFrom d _ _ seen hseen
    obtain rfl := List.mem_singleton.mp hstart
    obtain rfl := offset_of_node hnode
    exact ⟨address, hleads, hdepth.trans (Nat.zero_add _), hnode⟩
  · intro front back last hleads
    obtain ⟨hle, hlast, -⟩ := hleads.bounds htrie
    obtain ⟨mid, hfront, -⟩ := hleads.split
    exact ⟨hle, hlast, mid, hfront, hleads.rising htrie hfront⟩
  · intro fault hfault
    rcases fault_of_traceFrom d _ _ fault hfault with hbudget | ⟨start, hstart, hfound⟩
    · exact .inl hbudget
    · obtain rfl := List.mem_singleton.mp hstart
      exact .inr hfound
  · intro hok
    have hdecodes := decodesBelow_of_traceFrom d _ _ hok _ (List.mem_singleton_self _)
    obtain ⟨located, hlocated, htrace⟩ := exists_unfolding hdecodes
    -- with the visits that the unfolding needs added, the walk is still the same
    have hmore := traceFrom_add d (d.size - d.trieOffset) located.length _ hok
    rw [Nat.add_comm, htrace] at hmore
    exact ⟨located, hlocated, (congrArg Prod.fst hmore).symm⟩
  · intro hdecodes
    obtain ⟨located, hlocated, htrace⟩ := exists_unfolding hdecodes
    refine ⟨located, hlocated, fun other hother => hother.unique hlocated, fun hlength => ?_⟩
    rw [trace, ← Nat.add_sub_cancel' hlength, htrace]

/-- The node that is shared is visited twice, and so is the one below it. -/
theorem walk_ends_sharedChildData :
    ∃ d, parse sharedChildData = .ok d ∧ d.trieOffset = 32 ∧ d.trace.1.length ≤ 35 ∧
      d.walk (fun seen depth node => seen ++ [(depth, node.offset)]) [] =
        .ok [(0, 32), (1, 46), (2, 56), (1, 46), (2, 56)] ∧
      ∃ located, d.Unfolding 32 located ∧
        located.map (fun v => (v.1.length, v.2.offset)) =
          [(0, 32), (1, 46), (2, 56), (1, 46), (2, 56)] := by
  have hfacts : (parse sharedChildData).toOption.map (fun d => (d.trieOffset, d.trace.2.toOption,
      d.trace.1.map fun seen => (seen.1, seen.2.offset))) =
      some (32, some (), [(0, 32), (1, 46), (2, 56), (1, 46), (2, 56)]) := by
    decide +kernel
  obtain ⟨d, hparse, hfacts⟩ := Option.map_eq_some_iff.mp hfacts
  rw [toOption_eq_some] at hparse
  simp only [Prod.mk.injEq, toOption_eq_some] at hfacts
  obtain ⟨htrie, hok, hseen⟩ := hfacts
  obtain ⟨hwalk, hlength, -, -, -, hunfolding, -⟩ := walk_ends hparse
  rw [htrie] at hlength hunfolding
  obtain ⟨located, hlocated, hvisits⟩ := hunfolding hok
  refine ⟨d, hparse, htrie, hlength, ?_, located, hlocated, ?_⟩
  · rw [hwalk, hok, Except.map]
    refine congrArg Except.ok (Eq.trans ?_ (congrArg (List.foldl (fun seen x => seen ++ [x]) []) hseen))
    rw [List.foldl_map]
  · rw [← hseen, hvisits, List.map_map]
    rfl

end SearchData

end PrefixSearch
