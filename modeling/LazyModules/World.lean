import LazyModules.World.Disk
import LazyModules.Table

/-!
# The world outside

A disk, and the network as a table of what each URL answers. The world remembers which URLs have been
asked for.
-/
namespace LazyModules

structure Response where
  text : String
  status : Nat
  reason : String

/-- A disk, the network, and the URLs asked for so far. -/
structure World where
  disk : Disk
  remote : Table Response
  fetched : List String

namespace World

def fetch (w : World) (url : String) : Except Accident String × World :=
  let answer : Except Accident String := match Table.find? w.remote url with
    | none => .error (.unreachable url)
    | some r =>
      if 400 ≤ r.status && r.status < 600 then .error (.httpStatus r.status r.reason url) else .ok r.text
  (answer, { w with fetched := w.fetched ++ [url] })

end World

end LazyModules
