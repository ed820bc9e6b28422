/-!
# Splitting at a separator

`split` cuts at every occurrence of a separator and `join` puts the pieces together again. There is
always at least one piece.
-/
namespace LazyModules.Text

/-- The pieces between the separators, of which there is at least one. -/
def split (sep : Char) : List Char → List (List Char)
  | [] => [[]]
  | c :: cs =>
    if c = sep then [] :: split sep cs
    else match split sep cs with
      | [] => [[c]]
      | p :: ps => (c :: p) :: ps

/-- The pieces with a separator between each two. -/
def join (sep : Char) : List (List Char) → List Char
  | [] => []
  | [p] => p
  | p :: ps => p ++ sep :: join sep ps

/-- Cuts at the first separator, which belongs to neither side; none if there is no separator. -/
def cut? (sep : Char) (cs : List Char) : Option (List Char × List Char) :=
  match cs.dropWhile (· ≠ sep) with
  | [] => none
  | _ :: rest => some (cs.takeWhile (· ≠ sep), rest)

end LazyModules.Text
