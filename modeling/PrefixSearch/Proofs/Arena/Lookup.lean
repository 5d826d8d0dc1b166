import PrefixSearch.Proofs.Arena.Paths
import PrefixSearch.Proofs.Trie.NextNode

/-!
# What an arena finds

A text that is the path of a node finds what the node finds.  Any other text finds what the nodes
say: the completions of the first node below it, or nothing.
-/

namespace PrefixSearch

namespace Arena

/-- What the nodes find, by their paths. -/
def Finds (a : Arena) (paths : List (List UInt8)) (found : List UInt8 → Hits) : Prop :=
  ∀ id path, paths[id]? = some path → a.hits id = found path

/-- What a text has to find, given the paths: what its node finds, or the completions of the first
node below it, or nothing. -/
structure Answers (a : Arena) (paths : List (List UInt8)) (text : List UInt8) (result : Hits) :
    Prop where
  atNode : ∀ {id}, paths[id]? = some text → result = a.hits id
  onEdge : ∀ {id path}, paths[id]? = some path → NextNode (· ∈ paths) text path → text ≠ path →
    result = { completions := (a.hits id).completions }
  outside : (∀ path ∈ paths, ¬ text <+: path) → result = {}

/-! ## Looking up below a node -/

section

variable {a : Arena} {id child : NodeId} {byte : UInt8}

theorem lookupFrom_of_free (hfree : a.child? id byte = none) (rest : List UInt8) :
    a.lookupFrom id (byte :: rest) = {} := by
  rw [lookupFrom, hfree]

variable (hchild : a.child? id byte = some child)

include hchild

/-- What a text finds below the edge in the slot for its first byte. -/
theorem lookupFrom_of_child (rest : List UInt8) :
    a.lookupFrom id (byte :: rest) =
      if a.label child <+: byte :: rest then
        a.lookupFrom child (rest.drop ((a.label child).length - 1))
      else if byte :: rest <+: a.label child then
        { completions := (a.hits child).completions }
      else
        {} := by
  rw [lookupFrom, hchild]
  simp only [List.isPrefixOf_iff_prefix]
  rfl

theorem lookupFrom_beyond {label : List UInt8} (hlabel : a.label child = byte :: label)
    (rest : List UInt8) : a.lookupFrom id (byte :: (label ++ rest)) = a.lookupFrom child rest := by
  have hbegins : byte :: label <+: byte :: (label ++ rest) :=
    List.prefix_append (byte :: label) rest
  rw [lookupFrom_of_child hchild, hlabel, if_pos hbegins, List.length_cons, Nat.add_sub_cancel,
    List.drop_left]

theorem lookupFrom_same {label : List UInt8} (hlabel : a.label child = byte :: label) :
    a.lookupFrom id (byte :: label) = a.hits child := by
  have hend := lookupFrom_beyond hchild hlabel []
  rw [List.append_nil, lookupFrom] at hend
  exact hend

theorem lookupFrom_within {rest tail : List UInt8} (hlabel : a.label child = byte :: (rest ++ tail))
    (htail : tail ≠ []) :
    a.lookupFrom id (byte :: rest) = { completions := (a.hits child).completions } := by
  have hlonger : ¬ byte :: (rest ++ tail) <+: byte :: rest := not_append_prefix_self htail (byte :: rest)
  have hinside : byte :: rest <+: byte :: (rest ++ tail) := List.prefix_append (byte :: rest) tail
  rw [lookupFrom_of_child hchild, hlabel, if_neg hlonger, if_pos hinside]

theorem lookupFrom_fork {common tail rest : List UInt8} {first second : UInt8}
    (hlabel : a.label child = byte :: (common ++ first :: tail)) (hne : first ≠ second) :
    a.lookupFrom id (byte :: (common ++ second :: rest)) = {} := by
  have hlonger : ¬ byte :: (common ++ first :: tail) <+: byte :: (common ++ second :: rest) :=
    fun hbegins => by simp [hne] at hbegins
  have hshorter : ¬ byte :: (common ++ second :: rest) <+: byte :: (common ++ first :: tail) :=
    fun hbegins => by simp [hne.symm] at hbegins
  rw [lookupFrom_of_child hchild, hlabel, if_neg hlonger, if_neg hshorter]

end

/-! ## Looking up from the root -/

namespace HasPaths

variable {a : Arena} {paths : List (List UInt8)} {id parent child : NodeId} {byte : UInt8}
  {above path : List UInt8}

theorem closed (h : a.HasPaths paths) : ClosedUnderPrefixes (· ∈ paths) :=
  fun _ _ hleft hright => h.commonPrefix_mem hleft hright

theorem answers_node (h : a.HasPaths paths) (hid : paths[id]? = some path) :
    a.Answers paths path (a.hits id) where
  atNode hnode := by rw [h.eq_of_path hid hnode]
  onEdge {node other} _ hnext hne := by
    have hself := hnext.first path (List.mem_of_getElem? hid) List.prefix_rfl
    exact absurd (hnext.below.eq_of_length_le hself.length_le) hne
  outside hnone := absurd List.prefix_rfl (hnone path (List.mem_of_getElem? hid))

theorem answers_edge (h : a.HasPaths paths) (hid : paths[id]? = some path) {text : List UInt8}
    (hnext : NextNode (· ∈ paths) text path) (hne : text ≠ path) :
    a.Answers paths text { completions := (a.hits id).completions } where
  atNode hnode := by
    have hself := hnext.first text (List.mem_of_getElem? hnode) List.prefix_rfl
    exact absurd (hnext.below.eq_of_length_le hself.length_le) hne
  onEdge {node other} hnode hother _ := by
    rw [hnext.unique hother] at hid
    rw [h.eq_of_path hid hnode]
  outside hnone := absurd hnext.below (hnone path hnext.isNode)

theorem answers_outside {text : List UInt8} (hnone : ∀ path ∈ paths, ¬ text <+: path) :
    a.Answers paths text {} where
  atNode hnode := absurd List.prefix_rfl (hnone text (List.mem_of_getElem? hnode))
  onEdge _ hnext _ := absurd hnext.below (hnone _ hnext.isNode)
  outside _ := rfl

/-- The node in a slot is the first node below every text that goes on with the slot's byte and ends
on its edge. -/
theorem nextNode (h : a.HasPaths paths) (hparent : paths[parent]? = some above)
    (hchild : a.child? parent byte = some child) {text : List UInt8}
    (htext : byte :: text <+: a.label child) :
    NextNode (· ∈ paths) (above ++ byte :: text) (above ++ a.label child) := by
  obtain ⟨below, hlabel, hpath⟩ := h.edge hparent hchild
  refine ⟨hlabel ▸ List.mem_of_getElem? hpath, (List.prefix_append_right_inj above).mpr htext, ?_⟩
  exact fun other hother hlonger => h.label_le_of_mem hparent hchild hother hlonger

/-- Looking a text up from a node gives what the whole path has to find. -/
theorem answers_lookupFrom (h : a.HasPaths paths) (hid : paths[id]? = some above)
    (text : List UInt8) : a.Answers paths (above ++ text) (a.lookupFrom id text) := by
  induction hlength : text.length using Nat.strongRecOn generalizing id above text with
  | _ length ih =>
      cases text with
      | nil =>
          rw [Arena.lookupFrom, List.append_nil]
          exact h.answers_node hid
      | cons byte rest =>
          cases hchild : a.child? id byte with
          | none =>
              rw [lookupFrom_of_free hchild]
              exact answers_outside fun path hpath hlonger =>
                h.not_mem_of_free hid hchild hlonger hpath
          | some child =>
              obtain ⟨label, hlabel, hpath⟩ := h.edge hid hchild
              cases meeting label rest with
              | same =>
                  rw [lookupFrom_same hchild hlabel]
                  exact h.answers_node hpath
              | beyond _ after hafter =>
                  have hshorter : after.length < length := by
                    rw [← hlength, List.length_cons, List.length_append]
                    omega
                  have hanswer := ih _ hshorter hpath after rfl
                  rw [List.append_assoc, List.cons_append] at hanswer
                  rwa [lookupFrom_beyond hchild hlabel]
              | within _ tail htail =>
                  have hinside : byte :: rest <+: a.label child := by
                    rw [hlabel]
                    exact List.prefix_append (byte :: rest) tail
                  have hnext := h.nextNode hid hchild hinside
                  rw [hlabel] at hnext
                  rw [lookupFrom_within hchild hlabel htail]
                  exact h.answers_edge hpath hnext (by simpa using htail)
              | fork common first second tail rest hne =>
                  -- a path below the text would go on with another byte than the label
                  rw [lookupFrom_fork hchild hlabel hne]
                  refine answers_outside fun path hpath hlonger => ?_
                  have hbegins := h.label_le_of_mem hid hchild hpath hlonger
                  have hline := List.prefix_or_prefix_of_prefix hbegins hlonger
                  rw [hlabel] at hline
                  simp [hne, hne.symm] at hline

theorem answers_lookup (h : a.HasPaths paths) (text : List UInt8) :
    a.Answers paths text (a.lookup text) := by
  have hanswer := h.answers_lookupFrom h.root_path text
  rwa [List.nil_append] at hanswer

theorem finds_lookup (h : a.HasPaths paths) : a.Finds paths a.lookup :=
  fun _ path hid => ((h.answers_lookup path).atNode hid).symm

theorem followsNodes_lookup (h : a.HasPaths paths) : FollowsNodes (· ∈ paths) a.lookup := by
  intro text
  refine ⟨fun {node} hnext hne => ?_, (h.answers_lookup text).outside⟩
  obtain ⟨id, hid⟩ := List.mem_iff_getElem?.mp hnext.isNode
  rw [(h.answers_lookup text).onEdge hid hnext hne, h.finds_lookup id node hid]

/-- What the nodes find determines what every text finds. -/
theorem lookup_eq (h : a.HasPaths paths) {found : List UInt8 → Hits} (hfinds : a.Finds paths found)
    (hfollows : FollowsNodes (· ∈ paths) found) (text : List UInt8) :
    a.lookup text = found text := by
  refine h.followsNodes_lookup.unique hfollows h.closed (fun node hnode => ?_) text
  obtain ⟨id, hid⟩ := List.mem_iff_getElem?.mp hnode
  rw [← hfinds id node hid, h.finds_lookup id node hid]

end HasPaths

end Arena

end PrefixSearch
