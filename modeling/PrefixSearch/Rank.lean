import PrefixSearch.ResultTable

/-!
# Ranking

Results are ordered by a key that is compared field by field. Its last field is the ID, so two
results never rank equally.
-/

namespace PrefixSearch

/-- The ranking key of a result; lower ranks first. -/
structure RankKey where
  status : Nat
  kind : Nat
  suffixLength : Nat
  nameLength : Nat
  id : Id
deriving DecidableEq, Repr

namespace RankKey

/-- The fields in the order they are compared. -/
def toList (key : RankKey) : List Nat :=
  [key.status, key.kind, key.suffixLength, key.nameLength, key.id]

instance : LT RankKey :=
  ⟨fun a b => a.toList < b.toList⟩

instance (a b : RankKey) : Decidable (a < b) :=
  inferInstanceAs (Decidable (a.toList < b.toList))

end RankKey

namespace ResultTable

/-- Usable results come before deleted and deprecated ones, then pages and scopes before functions
and values, then shorter suffixes and names. -/
def rankKey (t : ResultTable) (id : Id) : RankKey :=
  let entry := t.get id
  { status := entry.flags.status
    kind := (t.resolvedKind id).tag.toNat
    suffixLength := entry.suffixLength.toNat
    nameLength := entry.nameLength
    id }

def rankKey? (t : ResultTable) (id : Id) : Option RankKey :=
  if id < t.size then some (t.rankKey id) else none

end ResultTable

end PrefixSearch
