import LazyModules.Parse
import LazyModules.Token.Scan

/-!
# Reading a text

A reading is what comes of a whole text: the module it says, or where the machine stopped. On a stop,
`rest` runs from the statement in progress and `shortest` from the place that could not be read. A text
that holds a meaningless piece before any such place is broken, and nothing of it counts as read.

The import section is also read by itself, as the run of pairs of a name and a string at the top.
-/
namespace LazyModules

inductive Verdict where
  | accepted (m : ModuleSyntax)
  | refused
  | broken (f : Scan.Fault)

/-- A verdict and what was left unread. -/
structure Reading where
  verdict : Verdict
  rest : String
  shortest : Option String

namespace Reading

def stopped (text : List Char) (offset : Nat) (settled : Option Nat) : Reading :=
  let from_ := min (settled.getD offset) offset
  ⟨.refused, String.ofList (text.drop from_), some (String.ofList (text.drop offset))⟩

/-- Reads a text. Tokens are taken in order, so the first trouble in the text is the one that counts. -/
def ofText (text : String) : Reading :=
  let cs := text.toList
  let scanned := Scan.scan cs
  match Parse.State.start.feedAll scanned.tokens with
  | .error h => stopped cs h.offset h.settled
  | .ok s =>
    match scanned.stop with
    | .blocked offset => stopped cs offset s.settled
    | .fault f => ⟨.broken f, text, none⟩
    | .ended =>
      match s.finish cs.length with
      | .ok m => ⟨.accepted m, "", some ""⟩
      | .error h => stopped cs h.offset h.settled

end Reading

namespace Imports

/-- The pairs of a name and a string at the front, and what comes after them. -/
def leading : List Token → List Import × List Token
  | ⟨.name n, _⟩ :: ⟨.string s, _⟩ :: ts =>
    let r := leading ts
    (⟨n, s⟩ :: r.1, r.2)
  | ts => ([], ts)

/-- Whether fewer than two tokens are left, so that one more would have been asked for. -/
def wantsMore : List Token → Bool
  | [] => true
  | [_] => true
  | _ => false

/-- Reads the import section alone. A meaningless piece in the section or right after it, where the next
pair would stand, makes the reading fail. -/
def read (text : String) : Option (List Import) :=
  let scanned := Scan.scan text.toList
  let (found, after) := leading scanned.tokens
  match scanned.stop with
  | .fault _ => if wantsMore after then none else some found
  | _ => some found

end Imports

end LazyModules
