import Mathlib.Tactic.Push
import PrefixSearch.Entry
import PrefixSearch.Proofs.Trie.CommonPrefix

/-!
# Texts between nodes

A text that ends inside an edge finds the completions of the node at the edge's lower end, and a
text that leads out of the tree finds nothing.  So what a tree finds for all texts is determined by
what its nodes find, whatever form the tree has: a node is a path, and the lower end of an edge is
the first node at or below a text.
-/

namespace PrefixSearch

/-- A text between two others, and neither of them. -/
def Between (upper lower text : List UInt8) : Prop :=
  (upper <+: text ∧ text ≠ upper) ∧ text <+: lower ∧ text ≠ lower

instance (upper lower text : List UInt8) : Decidable (Between upper lower text) :=
  inferInstanceAs (Decidable (_ ∧ _))

theorem not_between_same {text other : List UInt8} : ¬ Between text text other := fun h =>
  h.1.2 (h.2.1.eq_of_length_le h.1.1.length_le)

/-- A set of paths that holds the common prefixes of its members. -/
def ClosedUnderPrefixes (S : List UInt8 → Prop) : Prop :=
  ∀ left right, S left → S right → S (commonPrefix left right)

theorem closedUnderPrefixes_true : ClosedUnderPrefixes fun _ => True := fun _ _ _ _ => trivial

variable {N M : List UInt8 → Prop} {text node other : List UInt8}

/-- The first node at or below a text: all nodes below the text are below this one. -/
structure NextNode (N : List UInt8 → Prop) (text node : List UInt8) : Prop where
  isNode : N node
  below : text <+: node
  first : ∀ other, N other → text <+: other → node <+: other

theorem NextNode.unique (h : NextNode N text node) (hother : NextNode N text other) :
    node = other :=
  (h.first other hother.isNode hother.below).eq_of_length_le
    (hother.first node h.isNode h.below).length_le

theorem nextNode_self (hnode : N node) : NextNode N node node where
  isNode := hnode
  below := List.prefix_rfl
  first _ _ hbelow := hbelow

/-- If there is a node below a text, there is a first one. -/
theorem exists_nextNode (hclosed : ClosedUnderPrefixes N) (hnode : N node) (htext : text <+: node) :
    ∃ next, NextNode N text next := by
  induction hlength : node.length using Nat.strongRecOn generalizing node with
  | _ length ih =>
      by_cases hfirst : ∀ other, N other → text <+: other → node <+: other
      · exact ⟨node, hnode, htext, hfirst⟩
      · push Not at hfirst
        obtain ⟨other, hother, hbelow, hnot⟩ := hfirst
        have hcommon := commonPrefix_prefix_left node other
        have hshorter : (commonPrefix node other).length < length := by
          rw [← hlength]
          refine Nat.lt_of_le_of_ne hcommon.length_le fun hsame => hnot ?_
          rw [← hcommon.eq_of_length hsame]
          exact commonPrefix_prefix_right node other
        exact ih _ hshorter (hclosed node other hnode hother)
          (prefix_commonPrefix_iff.mpr ⟨htext, hbelow⟩) rfl

/-- What is found at a text that is no node, given what is found at the nodes. -/
structure FollowsAt (N : List UInt8 → Prop) (found : List UInt8 → Hits) (text : List UInt8) :
    Prop where
  onEdge : ∀ {node}, NextNode N text node → text ≠ node →
    found text = { completions := (found node).completions }
  outside : (∀ node, N node → ¬ text <+: node) → found text = {}

/-- Whether a text follows the nodes depends on nothing but the nodes below it and what is found
there. -/
theorem FollowsAt.congr {found same : List UInt8 → Hits} (h : FollowsAt N found text)
    (hnodes : ∀ lower, text <+: lower → (M lower ↔ N lower))
    (hsame : ∀ lower, text <+: lower → same lower = found lower) : FollowsAt M same text where
  onEdge {node} hnext hne := by
    have hnode : NextNode N text node :=
      ⟨(hnodes node hnext.below).mp hnext.isNode, hnext.below, fun other hother hbelow =>
        hnext.first other ((hnodes other hbelow).mpr hother) hbelow⟩
    rw [hsame text List.prefix_rfl, hsame node hnext.below, h.onEdge hnode hne]
  outside hnone := by
    rw [hsame text List.prefix_rfl]
    exact h.outside fun node hnode hbelow => hnone node ((hnodes node hbelow).mpr hnode) hbelow

/-- What is found between the nodes and out of the tree is as the nodes say. -/
def FollowsNodes (N : List UInt8 → Prop) (found : List UInt8 → Hits) : Prop :=
  ∀ text, FollowsAt N found text

namespace FollowsNodes

variable {found same : List UInt8 → Hits}

/-- More nodes change nothing, if they find what was found at their paths before. -/
theorem mono (h : FollowsNodes N found) (hclosed : ClosedUnderPrefixes N)
    (hsubset : ∀ node, N node → M node) : FollowsNodes M found := by
  intro text
  refine ⟨fun {node} hnext hne => ?_, fun hnone => ?_⟩
  · by_cases hold : ∃ lower, N lower ∧ node <+: lower
    · obtain ⟨lower, hlower, hbelow⟩ := hold
      obtain ⟨next, hnode⟩ := exists_nextNode hclosed hlower hbelow
      have htext : NextNode N text next :=
        ⟨hnode.isNode, hnext.below.trans hnode.below, fun other hother hlonger =>
          hnode.first other hother (hnext.first other (hsubset other hother) hlonger)⟩
      have hdifferent : text ≠ next := by
        rintro rfl
        exact hne (hnext.below.eq_of_length_le hnode.below.length_le)
      rw [(h text).onEdge htext hdifferent]
      by_cases hsame : node = next
      · rw [hsame]
      · rw [(h node).onEdge hnode hsame]
    · push Not at hold
      have hempty : ∀ other, N other → ¬ text <+: other := fun other hother hlonger =>
        hold other hother (hnext.first other (hsubset other hother) hlonger)
      rw [(h text).outside hempty, (h node).outside hold]
  · exact (h text).outside fun node hnode => hnone node (hsubset node hnode)

/-- What is found at the nodes determines what is found everywhere. -/
theorem unique (h : FollowsNodes N found) (hsame : FollowsNodes N same)
    (hclosed : ClosedUnderPrefixes N) (hnodes : ∀ node, N node → found node = same node)
    (text : List UInt8) : found text = same text := by
  by_cases hold : ∃ lower, N lower ∧ text <+: lower
  · obtain ⟨lower, hlower, hbelow⟩ := hold
    obtain ⟨node, hnext⟩ := exists_nextNode hclosed hlower hbelow
    by_cases hnode : text = node
    · rw [hnode]
      exact hnodes node hnext.isNode
    · rw [(h text).onEdge hnext hnode, (hsame text).onEdge hnext hnode,
        hnodes node hnext.isNode]
  · push Not at hold
    rw [(h text).outside hold, (hsame text).outside hold]

/-- A change of all nodes on the way to a node, which offers the same completions to all of them. -/
theorem offered (h : FollowsNodes N found) {offer : List Id → List Id}
    {through finish : Hits → Hits}
    (hthrough : ∀ hits, through hits = { hits with completions := offer hits.completions })
    (hfinish : ∀ hits, (finish hits).completions = offer hits.completions) (hnode : N node) :
    FollowsNodes N fun text =>
      if text = node then finish (found text)
      else if text <+: node then through (found text) else found text := by
  intro text
  refine ⟨fun {next} hnext hne => ?_, fun hnone => ?_⟩
  · by_cases hway : text <+: node
    · have hlower := hnext.first node hnode hway
      have htext : text ≠ node := by
        rintro rfl
        exact hne (hnext.below.eq_of_length_le hlower.length_le)
      rw [if_neg htext, if_pos hway, hthrough, (h text).onEdge hnext hne]
      by_cases hsame : next = node
      · rw [if_pos hsame, hfinish]
      · rw [if_neg hsame, if_pos hlower, hthrough]
    · have htext : ∀ {other}, text <+: other → ¬ other <+: node := fun hlonger hshort =>
        hway (hlonger.trans hshort)
      rw [if_neg (fun heq : text = node => hway (heq ▸ List.prefix_rfl)), if_neg hway,
        (h text).onEdge hnext hne,
        if_neg (fun heq : next = node => htext hnext.below (heq ▸ List.prefix_rfl)),
        if_neg (htext hnext.below)]
  · have hway : ¬ text <+: node := hnone node hnode
    rw [if_neg (fun heq : text = node => hway (heq ▸ List.prefix_rfl)), if_neg hway,
      (h text).outside hnone]

/-- What two trees find, put together at every text. -/
theorem absorb [Search] (h : FollowsNodes N found) (hother : FollowsNodes N same) (table : ResultTable)
    (bound : Nat) :
    FollowsNodes N fun text => Hits.absorb table bound (same text) (found text) := by
  intro text
  refine ⟨fun {next} hnext hne => ?_, fun hnone => ?_⟩
  · rw [(h text).onEdge hnext hne, (hother text).onEdge hnext hne]
    rfl
  · rw [(h text).outside hnone, (hother text).outside hnone]
    rfl

end FollowsNodes

end PrefixSearch
