/-!
# Scope suffixes

A qualified name such as `math::vector::min` is also found without its enclosing scopes, as
`vector::min` and as `min`.
-/

namespace PrefixSearch.Text

/-- What follows each occurrence of `separator` in `text`, occurrences being taken from the left
and apart from each other. The empty separator does not occur. -/
def afterEach (separator : List Char) (text : List Char) : List (List Char) :=
  match text with
  | [] => []
  | c :: rest =>
      if separator ≠ [] ∧ separator.isPrefixOf (c :: rest) then
        let after := (c :: rest).drop separator.length
        after :: afterEach separator after
      else
        afterEach separator rest
termination_by text.length
decreasing_by
  · have : 0 < separator.length := List.length_pos_iff.2 (by simp_all)
    simp only [List.length_drop, List.length_cons]
    omega
  · simp

/-- The proper suffixes of `name` that begin just after a separator, longest first, without the
empty one. -/
def scopeSuffixes (separator name : String) : List String :=
  ((afterEach separator.toList name.toList).filter (!·.isEmpty)).map String.ofList

end PrefixSearch.Text
