import PrefixSearch.Proofs.Arena.Lookup
import PrefixSearch.Proofs.Runs

/-!
# Going down in an arena

Going down along a text ends at the node of the text's path.  On the way at most one edge is cut,
where the text and an older path part, and at most one leaf is grown, so nothing is appended but the
path itself and common prefixes of it with older paths.  The nodes strictly on the way are changed,
and a node that is new there finds what its path found before.
-/

namespace PrefixSearch

namespace Arena

/-- What the nodes find after the one of a path was changed. -/
def changedAt (f : Hits → Hits) (path : List UInt8) (found : List UInt8 → Hits)
    (text : List UInt8) : Hits :=
  if text = path then f (found text) else found text

/-- What the nodes find after those strictly between two texts were changed. -/
def passed (through : Hits → Hits) (above path : List UInt8) (found : List UInt8 → Hits)
    (text : List UInt8) : Hits :=
  if Between above path text then through (found text) else found text

/-- A node and an arena that a way down from one path to another ended with, and the paths that were
appended. -/
structure Descends (a : Arena) (paths : List (List UInt8)) (through : Hits → Hits)
    (above path : List UInt8) (outcome : NodeId × Arena) (added : List (List UInt8)) : Prop where
  hasPaths : outcome.2.HasPaths (paths ++ added)
  bound_eq : outcome.2.bound = a.bound
  arrived : (paths ++ added)[outcome.1]? = some path
  below : ∀ new ∈ added, above <+: new
  common : ∀ new ∈ added, new = path ∨ ∃ old ∈ paths, new = commonPrefix path old
  finds : ∀ {found}, a.Finds paths found → (∀ new ∈ added, FollowsAt (· ∈ paths) found new) →
    outcome.2.Finds (paths ++ added) (passed through above path found)

variable {a : Arena} {paths added : List (List UInt8)} {through : Hits → Hits}
  {above middle path : List UInt8} {found : List UInt8 → Hits}

theorem changedAt_self (f : Hits → Hits) (path : List UInt8) (found : List UInt8 → Hits) :
    changedAt f path found path = f (found path) :=
  if_pos rfl

theorem changedAt_of_ne {f : Hits → Hits} {text : List UInt8} (hne : text ≠ path) :
    changedAt f path found text = found text :=
  if_neg hne

theorem passed_of_not_between {text : List UInt8} (htext : ¬ Between above path text) :
    passed through above path found text = found text :=
  if_neg htext

/-- To pass the texts up to one in the middle, that one, and the texts behind it is to pass all. -/
theorem passed_passed (hmiddle : Between above path middle) (text : List UInt8) :
    passed through middle path (changedAt through middle (passed through above middle found)) text =
      passed through above path found text := by
  obtain ⟨⟨habove, hlower⟩, hpath, hupper⟩ := hmiddle
  by_cases hsame : text = middle
  · subst hsame
    rw [passed_of_not_between (fun h => h.1.2 rfl), changedAt_self,
      passed_of_not_between (fun h => h.2.2 rfl), passed,
      if_pos ⟨⟨habove, hlower⟩, hpath, hupper⟩]
  · by_cases hbetween : Between above path text
    · rw [passed, changedAt_of_ne hsame, passed, passed, if_pos hbetween]
      obtain ⟨⟨htextAbove, htextLower⟩, htextPath, htextUpper⟩ := hbetween
      rcases List.prefix_or_prefix_of_prefix hpath htextPath with hbehind | hbefore
      · have hpast : ¬ Between above middle text := fun h =>
          hsame (h.2.1.eq_of_length_le hbehind.length_le)
        rw [if_pos ⟨⟨hbehind, hsame⟩, htextPath, htextUpper⟩, if_neg hpast]
      · have hahead : ¬ Between middle path text := fun h =>
          hsame (hbefore.eq_of_length_le h.1.1.length_le)
        rw [if_neg hahead, if_pos ⟨⟨htextAbove, htextLower⟩, hbefore, hsame⟩]
    · have hahead : ¬ Between above middle text := fun h =>
        hbetween ⟨h.1, h.2.1.trans hpath, fun heq =>
          hupper (hpath.eq_of_length_le (heq ▸ h.2.1.length_le))⟩
      have hpast : ¬ Between middle path text := fun h =>
        hbetween ⟨⟨habove.trans h.1.1, fun heq =>
          hlower ((heq ▸ h.1.1).eq_of_length_le habove.length_le)⟩, h.2⟩
      rw [passed_of_not_between hpast, changedAt_of_ne hsame, passed_of_not_between hahead,
        passed_of_not_between hbetween]

/-- A node of its own path is changed. -/
theorem Finds.change (hfinds : a.Finds paths found) (h : a.HasPaths paths) {id : NodeId}
    (hid : paths[id]? = some path) (f : Hits → Hits) :
    (a.change f id).Finds paths (changedAt f path found) := by
  intro other text hother
  rw [hits_change f (h.lt_size hid), hfinds other text hother]
  refine if_congr ⟨fun hsame => ?_, fun hsame => ?_⟩ rfl rfl
  · rw [hsame, hid, Option.some.injEq] at hother
    exact hother.symm
  · exact h.eq_of_path (hsame ▸ hother) hid

namespace Descends

/-- Everything appended lies on the way, whether it is the end or not. -/
theorem le_path {outcome : NodeId × Arena} (h : a.Descends paths through above path outcome added)
    {new : List UInt8} (hnew : new ∈ added) : new <+: path := by
  rcases h.common new hnew with rfl | ⟨old, -, rfl⟩
  · exact List.prefix_rfl
  · exact commonPrefix_prefix_left path old

section

variable {first second : NodeId × Arena} {more : List (List UInt8)}
  (hfirst : a.Descends paths through above middle first added)
  (hsecond : (first.2.change through first.1).Descends (paths ++ added) through middle path second
    more)

include hfirst

/-- On the way to a common prefix with an older path only such common prefixes are appended. -/
theorem common_middle (hcommon : ∃ old ∈ paths, middle = commonPrefix path old) :
    ∀ new ∈ added, ∃ old ∈ paths, new = commonPrefix path old := by
  obtain ⟨lower, hlower, rfl⟩ := hcommon
  intro new hmem
  rcases hfirst.common new hmem with rfl | ⟨old, hold, rfl⟩
  · exact ⟨lower, hlower, rfl⟩
  · rw [commonPrefix_assoc]
    rcases commonPrefix_commonPrefix path lower old with hsame | hsame
    · exact ⟨lower, hlower, hsame⟩
    · exact ⟨old, hold, hsame⟩

include hsecond

theorem common_trans (hcommon : ∃ old ∈ paths, middle = commonPrefix path old) :
    ∀ new ∈ added ++ more, new = path ∨ ∃ old ∈ paths, new = commonPrefix path old := by
  have hmiddle := hfirst.common_middle hcommon
  intro new hmem
  rcases List.mem_append.mp hmem with hadd | hmore
  · exact Or.inr (hmiddle new hadd)
  · rcases hsecond.common new hmore with hpath | ⟨old, hin, rfl⟩
    · exact Or.inl hpath
    · rcases List.mem_append.mp hin with hin | hin
      · exact Or.inr ⟨old, hin, rfl⟩
      · obtain ⟨lower, hlower, rfl⟩ := hmiddle old hin
        rw [← commonPrefix_assoc, commonPrefix_self]
        exact Or.inr ⟨lower, hlower, rfl⟩

/-- What is appended on the second way lies below the middle, where nothing was changed or appended
yet. -/
theorem finds_trans (hmiddle : Between above path middle) (hfinds : a.Finds paths found)
    (hfollows : ∀ new ∈ added ++ more, FollowsAt (· ∈ paths) found new) :
    second.2.Finds (paths ++ (added ++ more)) (passed through above path found) := by
  have hunder : ∀ {new text}, new ∈ more → new <+: text → ¬ text <+: middle := by
    intro new text hnew hlonger hshort
    exact hsecond.hasPaths.ne_of_mem_added (List.mem_of_getElem? hfirst.arrived) hnew
      ((hlonger.trans hshort).eq_of_length_le (hsecond.below new hnew).length_le)
  have hsame : ∀ {new text}, new ∈ more → new <+: text →
      changedAt through middle (passed through above middle found) text = found text := by
    intro new text hnew hlonger
    have hnot := hunder hnew hlonger
    rw [changedAt_of_ne (fun heq : text = middle => hnot (heq ▸ List.prefix_rfl)),
      passed_of_not_between (fun h => hnot h.2.1)]
  have hnodes : ∀ {new text}, new ∈ more → new <+: text → (text ∈ paths ++ added ↔ text ∈ paths) :=
    fun hnew hlonger => ⟨fun htext => (List.mem_append.mp htext).resolve_right fun hadd =>
      hunder hnew hlonger (hfirst.le_path hadd), List.mem_append_left added⟩
  have hchanged := (hfirst.finds hfinds fun new hnew =>
    hfollows new (List.mem_append_left more hnew)).change hfirst.hasPaths hfirst.arrived through
  have hlast := hsecond.finds hchanged fun new hnew =>
    (hfollows new (List.mem_append_right added hnew)).congr (fun _ => hnodes hnew)
      fun _ => hsame hnew
  rw [List.append_assoc] at hlast
  intro id text hid
  rw [hlast id text hid, passed_passed hmiddle]

/-- Two ways down, one after the other, the first to a common prefix of the path with an older one.
The node in the middle is changed between them. -/
theorem trans (hmiddle : Between above path middle)
    (hcommon : ∃ old ∈ paths, middle = commonPrefix path old) :
    a.Descends paths through above path second (added ++ more) where
  hasPaths := by
    rw [← List.append_assoc]
    exact hsecond.hasPaths
  bound_eq := hsecond.bound_eq.trans hfirst.bound_eq
  arrived := by
    rw [← List.append_assoc]
    exact hsecond.arrived
  below new hmem := by
    rcases List.mem_append.mp hmem with hadd | hmore
    · exact hfirst.below new hadd
    · exact hmiddle.1.1.trans (hsecond.below new hmore)
  common := hfirst.common_trans hsecond hcommon
  finds hfinds hfollows := hfirst.finds_trans hsecond hmiddle hfinds hfollows

end

end Descends

/-- A text between a node's path and one that goes on with a byte goes on with that byte. -/
theorem first_of_between {byte : UInt8} {below text : List UInt8}
    (hbetween : Between above (above ++ byte :: below) text) : above ++ [byte] <+: text := by
  obtain ⟨⟨⟨rest, rfl⟩, hne⟩, hlower, -⟩ := hbetween
  cases rest with
  | nil => exact absurd (List.append_nil above) hne
  | cons first rest =>
      obtain ⟨rfl, -⟩ := List.cons_prefix_cons.mp ((List.prefix_append_right_inj above).mp hlower)
      exact (List.prefix_append_right_inj above).mpr (List.prefix_append [first] rest)

namespace HasPaths

variable {start child : NodeId} {byte : UInt8} {below : List UInt8}

/-! ## One step down -/

/-- A way down to a node that is there, past no other. -/
theorem descends_at (h : a.HasPaths paths) (through : Hits → Hits) {id : NodeId}
    (hid : paths[id]? = some path) (hclear : ∀ text ∈ paths, ¬ Between above path text) :
    a.Descends paths through above path (id, a) [] where
  hasPaths := by rwa [List.append_nil]
  bound_eq := rfl
  arrived := by rwa [List.append_nil]
  below _ hnew := nomatch hnew
  common _ hnew := nomatch hnew
  finds hfinds _ other text hother := by
    rw [List.append_nil] at hother
    rw [hfinds other text hother, passed_of_not_between (hclear text (List.mem_of_getElem? hother))]

/-- A way down that appends its end and passes no node. -/
theorem descends_new {b : Arena} (h : a.HasPaths paths) (hb : b.HasPaths (paths ++ [path]))
    (through : Hits → Hits) (hbound : b.bound = a.bound) (habove : above <+: path)
    (hclear : ∀ text ∈ paths, ¬ Between above path text)
    (hold : ∀ id < a.size, b.hits id = a.hits id)
    (hnew : ∀ {found}, a.Finds paths found → FollowsAt (· ∈ paths) found path →
      b.hits a.size = found path) :
    a.Descends paths through above path (a.size, b) [path] where
  hasPaths := hb
  bound_eq := hbound
  arrived := h.path_new path
  below _ hmem := List.mem_singleton.mp hmem ▸ habove
  common _ hmem := Or.inl (List.mem_singleton.mp hmem)
  finds {found} hfinds hfollows id text hid := by
    rcases getElem?_concat_eq_some.mp hid with hid | ⟨rfl, rfl⟩
    · rw [hold id (h.lt_size hid), hfinds id text hid,
        passed_of_not_between (hclear text (List.mem_of_getElem? hid))]
    · rw [passed_of_not_between (fun hbetween => hbetween.2.2 rfl), h.length_eq]
      exact hnew hfinds (hfollows _ (List.mem_singleton_self _))

/-- A way down for which there is no slot ends with a new leaf. -/
theorem descends_grow (h : a.HasPaths paths) (through : Hits → Hits)
    (hstart : paths[start]? = some above) (hfree : a.child? start byte = none)
    (below : List UInt8) :
    a.Descends paths through above (above ++ byte :: below)
      (a.size, a.grow start (byte :: below)) [above ++ byte :: below] := by
  refine h.descends_new (h.grow hstart hfree) through rfl (List.prefix_append above _)
    (fun text htext hbetween => ?_) (fun id hid => ?_) fun {found} _ hfollows => ?_
  · exact h.not_mem_of_free hstart hfree (first_of_between hbetween) htext
  · rw [hits_grow, if_neg (Nat.ne_of_lt hid)]
  · rw [hits_grow, if_pos rfl]
    exact (hfollows.outside fun node hnode hlonger =>
      h.not_mem_of_free hstart hfree hlonger hnode).symm

/-- No path stands between the ends of an edge, or above a point on it. -/
theorem not_between_edge (h : a.HasPaths paths) (hstart : paths[start]? = some above)
    (hchild : a.child? start byte = some child) (hbegins : byte :: below <+: a.label child)
    {text : List UInt8} (htext : text ∈ paths) : ¬ Between above (above ++ byte :: below) text := by
  intro hbetween
  have hlonger := h.label_le_of_mem hstart hchild htext (first_of_between hbetween)
  have hupper := ((List.prefix_append_right_inj above).mpr hbegins).trans hlonger
  exact hbetween.2.2 (hbetween.2.1.eq_of_length_le hupper.length_le)

/-- A way down that ends inside an edge cuts it.  The new node has the completions of the first node
below it. -/
theorem descends_split (h : a.HasPaths paths) (through : Hits → Hits)
    (hstart : paths[start]? = some above) (hchild : a.child? start byte = some child)
    {upper lower : List UInt8} {next : UInt8}
    (hlabel : a.label child = byte :: upper ++ next :: lower) :
    a.Descends paths through above (above ++ byte :: upper)
      (a.size, a.split start child (upper.length + 1)) [above ++ byte :: upper] := by
  have hbegins : byte :: upper <+: a.label child := by
    rw [hlabel]
    exact List.prefix_append _ _
  refine h.descends_new (h.split hstart hchild hlabel) through rfl (List.prefix_append above _)
    (fun text => h.not_between_edge hstart hchild hbegins) (fun id hid => ?_)
    fun {found} hfinds hfollows => ?_
  · rw [hits_split, if_neg (Nat.ne_of_lt hid)]
  · obtain ⟨below, hbelow, hpath⟩ := h.edge hstart hchild
    have hne : above ++ byte :: upper ≠ above ++ a.label child := by
      rw [hlabel]
      simp
    rw [hits_split, if_pos rfl,
      hfollows.onEdge (h.nextNode hstart hchild hbegins) hne, hbelow, hfinds child _ hpath]

/-- A step down an edge, as far as the label and the text agree, ends with the node of the slot. -/
theorem descends_nodeOnEdge (h : a.HasPaths paths) (through : Hits → Hits)
    (hstart : paths[start]? = some above) (hchild : a.child? start byte = some child)
    (rest : List UInt8) :
    ∃ below added, commonPrefix (a.label child) (byte :: rest) = byte :: below ∧
      sharedLength (a.label child) (byte :: rest) = below.length + 1 ∧
      a.Descends paths through above (above ++ byte :: below)
        (a.nodeOnEdge start child (sharedLength (a.label child) (byte :: rest))) added := by
  obtain ⟨label, hlabel, hpath⟩ := h.edge hstart hchild
  have hcommon : commonPrefix (a.label child) (byte :: rest) = byte :: commonPrefix label rest := by
    rw [hlabel, commonPrefix_cons_self]
  have hshared : sharedLength (a.label child) (byte :: rest) =
      (commonPrefix label rest).length + 1 := by
    have hle := sharedLength_le label rest
    rw [hlabel, sharedLength_cons_self, commonPrefix, List.length_take]
    omega
  obtain ⟨behind, hbehind⟩ := commonPrefix_prefix_left label rest
  rw [hshared, Arena.nodeOnEdge]
  cases behind with
  | nil =>
      -- the text goes on along the whole label
      rw [List.append_nil] at hbehind
      rw [hbehind] at hcommon ⊢
      rw [if_neg (by rw [hlabel]; exact Nat.lt_irrefl _)]
      exact ⟨label, [], hcommon, rfl, h.descends_at through hpath fun text =>
        h.not_between_edge hstart hchild (hlabel ▸ List.prefix_rfl)⟩
  | cons next behind =>
      have hcut : a.label child = byte :: commonPrefix label rest ++ next :: behind := by
        rw [hlabel, List.cons_append, hbehind]
      have hlonger : (commonPrefix label rest).length + 1 < (a.label child).length := by
        rw [hcut]
        simp
      rw [if_pos hlonger]
      exact ⟨commonPrefix label rest, _, hcommon, rfl, h.descends_split through hstart hchild hcut⟩

/-! ## The whole way -/

/-- Going down along a text comes to the node of the text. -/
theorem descend (h : a.HasPaths paths) (through : Hits → Hits)
    (hstart : paths[start]? = some above) (text : List UInt8) :
    ∃ added,
      a.Descends paths through above (above ++ text) (a.descend through start text) added := by
  induction hlength : text.length using Nat.strongRecOn generalizing a paths start above text with
  | _ length ih =>
      cases text with
      | nil =>
          rw [Arena.descend, List.append_nil]
          exact ⟨[], h.descends_at through hstart fun _ _ => not_between_same⟩
      | cons byte rest =>
          cases hchild : a.child? start byte with
          | none =>
              rw [Arena.descend, hchild]
              exact ⟨_, h.descends_grow through hstart hchild rest⟩
          | some child =>
              obtain ⟨below, added, hcommon, hshared, hstep⟩ :=
                h.descends_nodeOnEdge through hstart hchild rest
              obtain ⟨after, rfl⟩ : below <+: rest := by
                have hbegins := commonPrefix_prefix_right (a.label child) (byte :: rest)
                rw [hcommon] at hbegins
                exact (List.cons_prefix_cons.mp hbegins).2
              rw [Arena.descend, hchild]
              dsimp only
              rw [hshared, Nat.add_sub_cancel, List.drop_left]
              rw [hshared] at hstep
              generalize Arena.nodeOnEdge start child (below.length + 1) a = step at hstep ⊢
              split
              · next hafter =>
                  rw [hafter, List.append_nil]
                  exact ⟨added, hstep⟩
              · next hafter =>
                  have hrest : after.length < length := by
                    rw [← hlength, List.length_cons, List.length_append]
                    omega
                  obtain ⟨more, hmore⟩ := ih _ hrest
                    (hstep.hasPaths.change through step.1) hstep.arrived after rfl
                  rw [List.append_assoc, List.cons_append] at hmore
                  refine ⟨added ++ more, hstep.trans hmore
                    ⟨⟨List.prefix_append _ _, by simp⟩, by simp, by simpa using hafter⟩ ?_⟩
                  -- the end of the step is where the text parts from the child's path
                  obtain ⟨label, hlabel, hpath⟩ := h.edge hstart hchild
                  refine ⟨_, List.mem_of_getElem? hpath, ?_⟩
                  rw [← hlabel, commonPrefix_append, commonPrefix_comm, hcommon]

end HasPaths

end Arena

end PrefixSearch
