import PrefixSearch.Proofs.Arena.Absorption

/-!
# Adding a tree to an arena

Adding a tree goes down along every edge of that tree, from a node with the path of the edge's upper
end to one with the path of its lower end.  `Merging` is the invariant of the loop: the nodes on the
stack are matched with sources that wait, no path was appended that a set of paths closed under
common prefixes does not hold anyway, and the texts that were reached have absorbed what they find
in the other tree.

So after the merge every text finds what it found before together with what it finds in the other
tree (`HasPaths.lookup_merge`), wherever edges were cut on the way.
-/

namespace PrefixSearch

namespace Arena

variable {a other : Arena} {paths otherPaths : List (List UInt8)} {S : List UInt8 → Prop}

/-- What is appended on the way to a path stays within a closed set that holds the path. -/
theorem within_of_common {path : List UInt8} {added : List (List UInt8)}
    (hcommon : ∀ new ∈ added, new = path ∨ ∃ old ∈ paths, new = commonPrefix path old)
    (hclosed : ClosedUnderPrefixes S) (hpaths : ∀ old ∈ paths, S old) (hpath : S path) :
    ∀ new ∈ paths ++ added, S new := by
  intro new hmem
  rcases List.mem_append.mp hmem with hold | hmem
  · exact hpaths new hold
  · rcases hcommon new hmem with rfl | ⟨old, hold, rfl⟩
    · exact hpath
    · exact hclosed path old hpath (hpaths old hold)

/-- A node and a node of another tree that have the same path. -/
def Matched (paths otherPaths : List (List UInt8)) (pair : NodeId × NodeId) : Prop :=
  ∃ path, paths[pair.1]? = some path ∧ otherPaths[pair.2]? = some path

theorem Matched.append {pair : NodeId × NodeId} (h : Matched paths otherPaths pair)
    (added : List (List UInt8)) : Matched (paths ++ added) otherPaths pair := by
  obtain ⟨path, hpath, hother⟩ := h
  exact ⟨path, HasPaths.path_old hpath added, hother⟩

variable [Search]

/-- A merge on its way: the sources that were worked off have their paths among the paths, the nodes
on the stack are matched with sources that wait, and all paths are in the set.  The children that
are still to be gone down to are `pending`.  What the nodes find is what they found at the start,
and where a text was reached it has absorbed what it finds in the other tree. -/
structure Merging (table : ResultTable) (start other : Arena) (otherPaths : List (List UInt8))
    (S : List UInt8 → Prop) (done pending : List NodeId) (waiting : List (NodeId × NodeId))
    (a : Arena) (paths : List (List UInt8)) (found : List UInt8 → Hits) : Prop where
  hasPaths : a.HasPaths paths
  bound_eq : a.bound = start.bound
  frontier : other.Frontier done (pending ++ waiting.map Prod.snd)
  matched : ∀ pair ∈ waiting, Matched paths otherPaths pair
  covered : ∀ source ∈ done, ∀ path, otherPaths[source]? = some path → path ∈ paths
  within : ∀ path ∈ paths, S path
  follows : FollowsNodes (· ∈ paths) start.lookup
  finds : a.Finds paths found
  absorbed : Absorbed table start.bound (Reached otherPaths done (waiting.map Prod.snd))
    other.lookup start.lookup found

namespace Merging

variable {table : ResultTable} {start : Arena} {done pending : List NodeId}
  {waiting : List (NodeId × NodeId)} {target source child : NodeId} {found : List UInt8 → Hits}

theorem initial (table : ResultTable) (h : a.HasPaths paths) (hother : other.HasPaths otherPaths)
    (hpaths : ∀ path ∈ paths, S path) :
    Merging table a other otherPaths S [] [] [(root, root)] a paths a.lookup where
  hasPaths := h
  bound_eq := rfl
  frontier := Frontier.start hother
  matched pair hpair := by
    rw [List.mem_singleton.mp hpair]
    exact ⟨[], h.root_path, hother.root_path⟩
  covered _ hsource := nomatch hsource
  within := hpaths
  follows := h.followsNodes_lookup
  finds := h.finds_lookup
  absorbed := ⟨fun _ hreached => absurd hreached hother.not_reached_start, fun _ _ => rfl⟩

/-- A source is taken from the stack: its node absorbs all it finds, and its children are pending. -/
theorem take
    (h : Merging table start other otherPaths S done [] ((target, source) :: waiting) a paths found)
    (hother : other.HasPaths otherPaths) :
    ∃ more, Merging table start other otherPaths S (done ++ [source]) (other.childrenOf source)
      waiting (a.change (Hits.absorb table a.bound (other.node source).hits) target) paths
      more := by
  obtain ⟨path, htarget, hsource⟩ := h.matched _ List.mem_cons_self
  have hgiven : (other.node source).hits = other.lookup path :=
    hother.finds_lookup source path hsource
  refine ⟨_, h.hasPaths.change _ _, h.bound_eq,
    h.frontier.step hother (List.Perm.refl _), fun pair hpair =>
      h.matched pair (List.mem_cons_of_mem _ hpair), fun node hnode lower hlower => ?_, h.within,
    h.follows, h.finds.change h.hasPaths htarget _, ?_⟩
  · rcases List.mem_append.mp hnode with hdone | hself
    · exact h.covered node hdone lower hlower
    · rw [List.mem_singleton.mp hself, hsource, Option.some.injEq] at hlower
      exact hlower ▸ List.mem_of_getElem? htarget
  · rw [hgiven, h.bound_eq]
    exact h.absorbed.change (h.frontier.not_reached_source hother hsource) fun text =>
      reached_take_iff hsource

/-- Going down to a pending child puts it on the stack with a node of its path, which is appended if
there was none. -/
theorem push
    (h : Merging table start other otherPaths S done (child :: pending) waiting a paths found)
    (hother : other.HasPaths otherPaths) (hclosed : ClosedUnderPrefixes S)
    (hotherPaths : ∀ path ∈ otherPaths, S path)
    (hsource : Matched paths otherPaths (target, source))
    (hchild : child ∈ other.childrenOf source) :
    ∃ added last more,
      (graftChild table other target (waiting, a) child).1 = (last, child) :: waiting ∧
      Merging table start other otherPaths S done pending ((last, child) :: waiting)
        (graftChild table other target (waiting, a) child).2 (paths ++ added) more := by
  obtain ⟨above, htarget, habove⟩ := hsource
  obtain ⟨byte, hslot⟩ := mem_childrenOf.mp hchild
  obtain ⟨below, hlabel, hlower⟩ := hother.edge habove hslot
  rw [← hlabel] at hlower
  obtain ⟨added, hdown⟩ := h.hasPaths.descend
    (Hits.completeAll table a.bound (other.hits child)) htarget (other.label child)
  have hnew : ∀ new ∈ added, NextNode (· ∈ otherPaths) new (above ++ other.label child) :=
    fun new hnew => hother.nextNode_edge hchild habove hlower (hdown.below new hnew)
      (hdown.hasPaths.ne_of_mem_added (List.mem_of_getElem? htarget) hnew) (hdown.le_path hnew)
  have hfree : ∀ {new text}, NextNode (· ∈ otherPaths) new (above ++ other.label child) →
      new <+: text → ¬ Reached otherPaths done (waiting.map Prod.snd) text :=
    fun hnext htext => h.frontier.not_reached hother List.mem_cons_self hlower hnext htext
  have hinside : ∀ text, Between above (above ++ other.label child) text →
      NextNode (· ∈ otherPaths) text (above ++ other.label child) ∧
        text ≠ above ++ other.label child := fun text hbetween =>
    (hother.between_iff_nextNode hchild habove hlower).mp hbetween
  refine ⟨added, _, _, rfl, hdown.hasPaths, hdown.bound_eq.trans h.bound_eq,
    h.frontier.perm List.perm_middle.symm, ?_, ?_, ?_, ?_, hdown.finds h.finds ?_, ?_⟩
  · intro pair hpair
    rcases List.mem_cons.mp hpair with rfl | hold
    · exact ⟨_, hdown.arrived, hlower⟩
    · exact (h.matched pair hold).append added
  · exact fun node hnode path hpath =>
      List.mem_append_left added (h.covered node hnode path hpath)
  · exact within_of_common hdown.common hclosed h.within
      (hotherPaths _ (List.mem_of_getElem? hlower))
  · exact h.follows.mono h.hasPaths.closed fun node hnode => List.mem_append_left added hnode
  · -- what is appended has not been reached, and neither has anything below it
    exact fun new hmem => (h.follows new).congr (fun _ _ => Iff.rfl) fun text htext =>
      h.absorbed.kept_eq text (hfree (hnew new hmem) htext)
  · rw [h.bound_eq]
    refine h.absorbed.pass (fun text hbetween => hfree (hinside text hbetween).1 List.prefix_rfl)
      (fun text hbetween => ?_) fun text => reached_push_iff hother hchild habove hlower
    obtain ⟨hnext, hne⟩ := hinside text hbetween
    rw [(hother.followsNodes_lookup text).onEdge hnext hne,
      hother.finds_lookup child _ hlower]

/-- Going down to all pending children. -/
theorem pushAll
    (h : Merging table start other otherPaths S done pending waiting a paths found)
    (hother : other.HasPaths otherPaths) (hclosed : ClosedUnderPrefixes S)
    (hotherPaths : ∀ path ∈ otherPaths, S path)
    (hsource : Matched paths otherPaths (target, source))
    (hpending : pending ⊆ other.childrenOf source) :
    ∃ added more, Merging table start other otherPaths S done []
      (pending.foldl (graftChild table other target) (waiting, a)).1
      (pending.foldl (graftChild table other target) (waiting, a)).2 (paths ++ added) more := by
  induction pending generalizing waiting a paths found with
  | nil => exact ⟨[], found, by rwa [List.append_nil]⟩
  | cons child pending ih =>
      obtain ⟨hchild, hpending⟩ := List.cons_subset.mp hpending
      obtain ⟨added, last, more, hstack, hstep⟩ := h.push hother hclosed hotherPaths hsource hchild
      rw [List.foldl_cons]
      generalize graftChild table other target (waiting, a) child = state at hstack hstep ⊢
      obtain ⟨stack, b⟩ := state
      obtain rfl : stack = (last, child) :: waiting := hstack
      obtain ⟨rest, all, hrest⟩ := ih hstep (hsource.append added) hpending
      exact ⟨added ++ rest, all, by rwa [← List.append_assoc]⟩

/-- One step of a merge: a source is worked off, and its children come to the stack. -/
theorem step
    (h : Merging table start other otherPaths S done [] ((target, source) :: waiting) a paths found)
    (hother : other.HasPaths otherPaths) (hclosed : ClosedUnderPrefixes S)
    (hotherPaths : ∀ path ∈ otherPaths, S path) :
    ∃ added more, Merging table start other otherPaths S (done ++ [source]) []
      (a.absorbNode table other target source waiting).1
      (a.absorbNode table other target source waiting).2 (paths ++ added) more := by
  obtain ⟨more, htaken⟩ := h.take hother
  exact htaken.pushAll hother hclosed hotherPaths (h.matched _ List.mem_cons_self)
    (List.Subset.refl _)

theorem mergeFrom_nil (table : ResultTable) (a other : Arena) (budget : Nat) :
    a.mergeFrom table other budget [] = a := by
  cases budget <;> rfl

theorem waiting_eq_nil (h : Merging table start other otherPaths S done [] waiting a paths found)
    (hdone : other.size ≤ done.length) : waiting = [] :=
  List.map_eq_nil_iff.mp (h.frontier.waiting_eq_nil hdone)

/-- A merge that has as many steps left as there are sources left works all of them off. -/
theorem mergeFrom (h : Merging table start other otherPaths S done [] waiting a paths found)
    (hother : other.HasPaths otherPaths) (hclosed : ClosedUnderPrefixes S)
    (hotherPaths : ∀ path ∈ otherPaths, S path) {budget : Nat}
    (hbudget : other.size ≤ done.length + budget) :
    ∃ all added more, Merging table start other otherPaths S all [] []
      (a.mergeFrom table other budget waiting) (paths ++ added) more := by
  induction budget generalizing done waiting a paths found with
  | zero =>
      rw [Arena.mergeFrom]
      exact ⟨done, [], found, by rw [List.append_nil]; exact h.waiting_eq_nil hbudget ▸ h⟩
  | succ budget ih =>
      cases waiting with
      | nil =>
          rw [mergeFrom_nil]
          exact ⟨done, [], found, by rwa [List.append_nil]⟩
      | cons pair waiting =>
          obtain ⟨target, source⟩ := pair
          obtain ⟨added, more, hadded⟩ := h.step hother hclosed hotherPaths
          obtain ⟨all, rest, last, hrest⟩ := ih hadded (by simp; omega)
          rw [Arena.mergeFrom]
          exact ⟨all, added ++ rest, last, by rwa [← List.append_assoc]⟩

/-- More steps change nothing, since the merge ends with an empty stack. -/
theorem mergeFrom_add (h : Merging table start other otherPaths S done [] waiting a paths found)
    (hother : other.HasPaths otherPaths) (hclosed : ClosedUnderPrefixes S)
    (hotherPaths : ∀ path ∈ otherPaths, S path) {budget : Nat}
    (hbudget : other.size ≤ done.length + budget) (more : Nat) :
    a.mergeFrom table other (budget + more) waiting = a.mergeFrom table other budget waiting := by
  induction budget generalizing done waiting a paths found with
  | zero => rw [h.waiting_eq_nil hbudget, mergeFrom_nil, mergeFrom_nil]
  | succ budget ih =>
      cases waiting with
      | nil => rw [mergeFrom_nil, mergeFrom_nil]
      | cons pair waiting =>
          obtain ⟨target, source⟩ := pair
          obtain ⟨added, found, hadded⟩ := h.step hother hclosed hotherPaths
          rw [Nat.succ_add, Arena.mergeFrom, Arena.mergeFrom]
          exact ih hadded (by simp; omega)

/-- After a merge that worked all sources off, the other tree's paths are there. -/
theorem subset_paths (h : Merging table start other otherPaths S done [] [] a paths found)
    (hother : other.HasPaths otherPaths) : otherPaths ⊆ paths := by
  intro path hpath
  obtain ⟨source, hsource⟩ := List.mem_iff_getElem?.mp hpath
  refine h.covered source ?_ path hsource
  rw [(h.frontier.perm_range hother).mem_iff, List.mem_range]
  exact hother.lt_size hsource

/-- And every text has got what it finds there. -/
theorem found_eq (h : Merging table start other otherPaths S done [] [] a paths found)
    (hother : other.HasPaths otherPaths) (text : List UInt8) :
    found text = Hits.absorb table start.bound (other.lookup text) (start.lookup text) := by
  by_cases hbelow : ∃ path ∈ otherPaths, text <+: path
  · obtain ⟨lower, hlower, htext⟩ := hbelow
    obtain ⟨path, hnext⟩ := exists_nextNode hother.closed hlower htext
    obtain ⟨source, hsource⟩ := List.mem_iff_getElem?.mp hnext.isNode
    refine h.absorbed.got_eq text ⟨source, path, hsource, hnext, Or.inl ?_⟩
    rw [(h.frontier.perm_range hother).mem_iff, List.mem_range]
    exact hother.lt_size hsource
  · push Not at hbelow
    rw [(hother.followsNodes_lookup text).outside hbelow, h.absorbed.kept_eq text]
    · rfl
    · rintro ⟨-, path, -, hnext, -⟩
      exact hbelow path hnext.isNode hnext.below

end Merging

namespace HasPaths

/-- The end of a merge. -/
theorem exists_merging (table : ResultTable) (h : a.HasPaths paths)
    (hother : other.HasPaths otherPaths) (hclosed : ClosedUnderPrefixes S)
    (hpaths : ∀ path ∈ paths, S path) (hotherPaths : ∀ path ∈ otherPaths, S path) :
    ∃ all added found, Merging table a other otherPaths S all [] [] (a.merge table other)
      (paths ++ added) found := by
  have hbudget : other.size ≤ ([] : List NodeId).length + other.size := by simp
  exact (Merging.initial table h hother hpaths).mergeFrom hother hclosed hotherPaths hbudget

/-- Adding a tree appends its paths and nothing that a closed set with them does not hold. -/
theorem merge (table : ResultTable) (h : a.HasPaths paths) (hother : other.HasPaths otherPaths)
    (hclosed : ClosedUnderPrefixes S) (hpaths : ∀ path ∈ paths, S path)
    (hotherPaths : ∀ path ∈ otherPaths, S path) :
    ∃ added, (a.merge table other).HasPaths (paths ++ added) ∧ otherPaths ⊆ paths ++ added ∧
      ∀ path ∈ paths ++ added, S path := by
  obtain ⟨all, added, found, hend⟩ := h.exists_merging table hother hclosed hpaths hotherPaths
  exact ⟨added, hend.hasPaths, hend.subset_paths hother, hend.within⟩

theorem bound_merge (table : ResultTable) (h : a.HasPaths paths)
    (hother : other.HasPaths otherPaths) : (a.merge table other).bound = a.bound := by
  obtain ⟨all, added, found, hend⟩ := h.exists_merging table hother closedUnderPrefixes_true
    (fun _ _ => trivial) fun _ _ => trivial
  exact hend.bound_eq

/-- After a merge a text finds what it finds in both trees. -/
theorem lookup_merge (table : ResultTable) (h : a.HasPaths paths)
    (hother : other.HasPaths otherPaths) (text : List UInt8) :
    (a.merge table other).lookup text =
      Hits.absorb table a.bound (other.lookup text) (a.lookup text) := by
  obtain ⟨all, added, found, hend⟩ := h.exists_merging table hother closedUnderPrefixes_true
    (fun _ _ => trivial) fun _ _ => trivial
  have hfollows := hother.followsNodes_lookup.mono hother.closed fun _ hpath =>
    hend.subset_paths hother hpath
  refine hend.hasPaths.lookup_eq (fun id path hid => ?_)
    (hend.follows.absorb hfollows table a.bound) text
  rw [hend.finds id path hid, hend.found_eq hother]

/-- The number of nodes of the other tree is budget enough for the merge. -/
theorem mergeFrom_of_le (table : ResultTable) (h : a.HasPaths paths)
    (hother : other.HasPaths otherPaths) {budget : Nat} (hbudget : other.size ≤ budget) :
    a.mergeFrom table other budget [(root, root)] = a.merge table other := by
  have hstart : other.size ≤ ([] : List NodeId).length + other.size := by simp
  have hmore := (Merging.initial table h hother fun _ _ => trivial).mergeFrom_add hother
    closedUnderPrefixes_true (fun _ _ => trivial) hstart (budget - other.size)
  rwa [Nat.add_sub_cancel' hbudget] at hmore

end HasPaths

end Arena

end PrefixSearch
