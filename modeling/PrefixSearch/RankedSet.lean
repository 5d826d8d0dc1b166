import PrefixSearch.Search

/-!
# Sets of results

A set of results is a list without repetitions. Additions keep it in rank order. Where a new result
is put is up to a search, which matters in a set that a merge has left in another order.
-/

namespace PrefixSearch

namespace Ranked

/-- Put an ID at a spot of a set. -/
def placeAt (spot : Nat) (id : Id) (set : List Id) : List Id :=
  set.take spot ++ id :: set.drop spot

/-- Keep the best of a set, if there is a bound on it. -/
def best (bound : Option Nat) (set : List Id) : List Id :=
  match bound with
  | none => set
  | some count => set.take count

section

variable [Search]

/-- Put an ID at the spot at which a search for it ends. -/
def put (t : ResultTable) (id : Id) (set : List Id) : List Id :=
  placeAt (Search.spot t id set) id set

/-- Add a result to a set. Of two results that look the same only the one with the lower ID is
kept. -/
def insert (t : ResultTable) (bound : Option Nat) (id : Id) (set : List Id) : List Id :=
  if set.contains id then
    set
  else
    match set.find? (t.sameTarget · id) with
    | none => best bound (put t id set)
    | some other => if other < id then set else best bound (put t id (set.erase other))

/-- Add several results, one after the other. -/
def insertAll (t : ResultTable) (bound : Option Nat) (ids set : List Id) : List Id :=
  ids.foldl (fun set id => insert t bound id set) set

/-- Put `new` into the place of `old` in a set that has `old`. -/
def replace (t : ResultTable) (bound : Option Nat) (old new : Id) (set : List Id) : List Id :=
  if set.contains old then insert t bound new (set.erase old) else set

end

/-- Put an ID behind the ones at the front that rank before it. -/
def place (t : ResultTable) (id : Id) (set : List Id) : List Id :=
  let key := t.rankKey id
  let ahead := fun other => decide (t.rankKey other < key)
  set.takeWhile ahead ++ id :: set.dropWhile ahead

/-- Put a set into rank order. -/
def sort (t : ResultTable) (set : List Id) : List Id :=
  set.foldr (place t) []

end Ranked

end PrefixSearch
