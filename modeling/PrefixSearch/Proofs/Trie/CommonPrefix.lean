import Mathlib.Tactic.Tauto
import PrefixSearch.Proofs.Trie.Place

/-!
# Common prefixes

Edges are cut where a text leaves them, at the longest common prefix of two texts.  Common prefixes
of common prefixes are common prefixes of texts, so no further cuts ever become necessary: the
texts, the empty text and the common prefixes of two texts are all the paths a tree of the texts
needs.
-/

namespace PrefixSearch

/-- The longest common prefix of two texts. -/
def commonPrefix (a b : List UInt8) : List UInt8 :=
  a.take (sharedLength a b)

@[simp] theorem commonPrefix_nil_left (text : List UInt8) : commonPrefix [] text = [] := by
  simp [commonPrefix]

@[simp] theorem commonPrefix_nil_right (text : List UInt8) : commonPrefix text [] = [] := by
  simp [commonPrefix]

@[simp] theorem commonPrefix_cons_self (byte : UInt8) (left right : List UInt8) :
    commonPrefix (byte :: left) (byte :: right) = byte :: commonPrefix left right := by
  simp [commonPrefix]

theorem commonPrefix_cons_of_ne {a b : UInt8} (hne : a ≠ b) (left right : List UInt8) :
    commonPrefix (a :: left) (b :: right) = [] := by
  rw [commonPrefix, sharedLength_cons_of_ne hne, List.take_zero]

theorem commonPrefix_append (common left right : List UInt8) :
    commonPrefix (common ++ left) (common ++ right) = common ++ commonPrefix left right := by
  rw [commonPrefix, sharedLength_append, List.take_length_add_append, commonPrefix]

/-- Two texts that go on from a third one with different bytes have that one in common. -/
theorem commonPrefix_fork {a b : UInt8} (hne : a ≠ b) {text left right : List UInt8}
    (hleft : text ++ [a] <+: left) (hright : text ++ [b] <+: right) :
    commonPrefix left right = text := by
  obtain ⟨left, rfl⟩ := hleft
  obtain ⟨right, rfl⟩ := hright
  rw [List.append_assoc, List.append_assoc, commonPrefix_append, List.singleton_append,
    List.singleton_append, commonPrefix_cons_of_ne hne, List.append_nil]

/-- A text is a prefix of the common prefix exactly if it is one of both texts. -/
theorem prefix_commonPrefix_iff {text a b : List UInt8} :
    text <+: commonPrefix a b ↔ text <+: a ∧ text <+: b := by
  induction text generalizing a b with
  | nil => simp
  | cons byte text ih =>
      match a, b with
      | [], b => simp
      | a, [] => simp
      | first :: a, second :: b =>
          by_cases hfirst : first = second
          · subst hfirst
            rw [commonPrefix_cons_self, List.cons_prefix_cons, List.cons_prefix_cons,
              List.cons_prefix_cons, ih]
            tauto
          · rw [commonPrefix_cons_of_ne hfirst, List.cons_prefix_cons, List.cons_prefix_cons]
            simp only [List.prefix_nil, reduceCtorEq, false_iff]
            rintro ⟨⟨rfl, -⟩, rfl, -⟩
            exact hfirst rfl

theorem commonPrefix_prefix_left (a b : List UInt8) : commonPrefix a b <+: a :=
  (prefix_commonPrefix_iff.mp List.prefix_rfl).1

theorem commonPrefix_prefix_right (a b : List UInt8) : commonPrefix a b <+: b :=
  (prefix_commonPrefix_iff.mp List.prefix_rfl).2

theorem not_append_prefix_self {tail : List UInt8} (htail : tail ≠ []) (text : List UInt8) :
    ¬ text ++ tail <+: text := by
  intro hbegins
  have hle := hbegins.length_le
  rw [List.length_append] at hle
  exact htail (List.length_eq_zero_iff.mp (by omega))

/-- A text with the same prefixes is the same text. -/
theorem eq_of_prefix_iff {a b : List UInt8} (hsame : ∀ text, text <+: a ↔ text <+: b) : a = b :=
  ((hsame a).mp List.prefix_rfl).eq_of_length_le ((hsame b).mpr List.prefix_rfl).length_le

theorem commonPrefix_comm (a b : List UInt8) : commonPrefix a b = commonPrefix b a :=
  eq_of_prefix_iff fun _ => by rw [prefix_commonPrefix_iff, prefix_commonPrefix_iff, and_comm]

theorem commonPrefix_eq_left {a b : List UInt8} (hbegins : a <+: b) : commonPrefix a b = a :=
  (commonPrefix_prefix_left a b).eq_of_length_le
    (prefix_commonPrefix_iff.mpr ⟨List.prefix_rfl, hbegins⟩).length_le

@[simp] theorem commonPrefix_self (a : List UInt8) : commonPrefix a a = a :=
  commonPrefix_eq_left List.prefix_rfl

theorem commonPrefix_assoc (a b c : List UInt8) :
    commonPrefix (commonPrefix a b) c = commonPrefix a (commonPrefix b c) :=
  eq_of_prefix_iff fun _ => by simp only [prefix_commonPrefix_iff, and_assoc]

/-- What a text has in common with a common prefix it has in common with one of the two texts: its
prefixes lie on one line, so one of the two is the shorter. -/
theorem commonPrefix_commonPrefix (text a b : List UInt8) :
    commonPrefix text (commonPrefix a b) = commonPrefix text a ∨
      commonPrefix text (commonPrefix a b) = commonPrefix text b := by
  have hboth : commonPrefix text (commonPrefix a b) =
      commonPrefix (commonPrefix text a) (commonPrefix text b) :=
    eq_of_prefix_iff fun _ => by simp only [prefix_commonPrefix_iff]; tauto
  rw [hboth]
  rcases List.prefix_or_prefix_of_prefix (commonPrefix_prefix_left text a)
    (commonPrefix_prefix_left text b) with hshort | hshort
  · exact Or.inl (commonPrefix_eq_left hshort)
  · exact Or.inr (by rw [commonPrefix_comm, commonPrefix_eq_left hshort])

/-- The path is empty, or a text, or the longest common prefix of two texts. -/
def Spanned (texts : List (List UInt8)) (path : List UInt8) : Prop :=
  path = [] ∨ path ∈ texts ∨ ∃ a ∈ texts, ∃ b ∈ texts, path = commonPrefix a b

namespace Spanned

variable {texts more : List (List UInt8)} {path other : List UInt8}

theorem of_mem (hpath : path ∈ texts) : Spanned texts path :=
  Or.inr (Or.inl hpath)

theorem mono (hsubset : texts ⊆ more) (hpath : Spanned texts path) : Spanned more path := by
  rcases hpath with rfl | hmem | ⟨a, ha, b, hb, rfl⟩
  · exact Or.inl rfl
  · exact of_mem (hsubset hmem)
  · exact Or.inr (Or.inr ⟨a, hsubset ha, b, hsubset hb, rfl⟩)

/-- A path that is not empty is the common prefix of two texts, which may be the same. -/
theorem iff_commonPrefix : Spanned texts path ↔
    path = [] ∨ ∃ a ∈ texts, ∃ b ∈ texts, path = commonPrefix a b := by
  constructor
  · rintro (hnil | hmem | hboth)
    · exact Or.inl hnil
    · exact Or.inr ⟨path, hmem, path, hmem, (commonPrefix_self path).symm⟩
    · exact Or.inr hboth
  · rintro (hnil | hboth)
    · exact Or.inl hnil
    · exact Or.inr (Or.inr hboth)

theorem commonPrefix_text {text : List UInt8} (htext : text ∈ texts) (hpath : Spanned texts path) :
    Spanned texts (commonPrefix text path) := by
  rcases iff_commonPrefix.mp hpath with rfl | ⟨a, ha, b, hb, rfl⟩
  · exact Or.inl (commonPrefix_nil_right text)
  · rcases commonPrefix_commonPrefix text a b with hsame | hsame
    · exact Or.inr (Or.inr ⟨text, htext, a, ha, hsame⟩)
    · exact Or.inr (Or.inr ⟨text, htext, b, hb, hsame⟩)

/-- The spanned paths are closed under common prefixes. -/
protected theorem commonPrefix (hpath : Spanned texts path) (hother : Spanned texts other) :
    Spanned texts (commonPrefix path other) := by
  rcases iff_commonPrefix.mp hpath with rfl | ⟨a, ha, b, hb, rfl⟩
  · exact Or.inl (commonPrefix_nil_left other)
  · rw [commonPrefix_comm]
    rcases commonPrefix_commonPrefix other a b with hsame | hsame
    · rw [hsame, commonPrefix_comm]
      exact hother.commonPrefix_text ha
    · rw [hsame, commonPrefix_comm]
      exact hother.commonPrefix_text hb

end Spanned

end PrefixSearch
