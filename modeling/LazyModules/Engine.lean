import LazyModules.Eval.Display
import LazyModules.Library
import LazyModules.Reading

/-!
# From an address to a value

The engine brings the module at an address to its one value. A module is read once; its imports become
cells, so that a module is evaluated only if somebody looks at it, and once however many modules import
it. Declarations are bound in two passes, first every name and then every value, so that they may refer
to each other in any order.

A problem is reported once, where it arises, and the module that it arises in counts as failed from then
on, as does every module whose evaluation it ends.
-/
namespace LazyModules

/-- A module that has been read: its imports by local name, with the addresses they lead to. -/
structure Module where
  address : String
  imports : List (String × String)
  declarations : List Declaration
  body : Option Expr

/-- The name under which a module imports an address. -/
def Module.importerOf (m : Module) (address : String) : Option String :=
  (m.imports.find? (·.2 = address)).map Prod.fst

/-- Whom the engine asks about a module that it has not read. -/
inductive Source where
  | library
  | importReader
  | grammar
  deriving DecidableEq, Repr

inductive Event where
  /-- somebody wants its value -/
  | demanded (address : String)
  | consulted (source : Source) (address : String)
  /-- it has been read -/
  | stored (address : String)
  /-- its evaluation begins -/
  | entered (address : String)
  | left (address : String)
  /-- it has a value -/
  | valued (address : String)
  /-- an error is reported against it -/
  | blamed (error : SemanticError) (address : String)
  deriving DecidableEq, Repr

/-- What a run knows of modules: those that have been read, their values, those under evaluation with the
latest last, and those that failed; with the library that their texts come from, and with all that has
happened, the latest first. -/
structure Session where
  library : Library
  modules : Table Module
  values : Table Value
  evaluating : List String
  failed : List String
  journal : List Event

/-- How far a module has come. -/
inductive ModuleState where
  | unparsed
  | parsed
  | evaluating
  | evaluated
  | failed
  deriving DecidableEq, Repr

def ModuleState.name : ModuleState → String
  | .unparsed => "unparsed"
  | .parsed => "parsed"
  | .evaluating => "evaluating"
  | .evaluated => "evaluated"
  | .failed => "failed"

namespace Session

def start (library : Library) : Session := ⟨library, [], [], [], [], []⟩

def stateOf (s : Session) (address : String) : ModuleState :=
  if s.failed.contains address then .failed
  else if Table.contains s.values address then .evaluated
  else if s.evaluating.contains address then .evaluating
  else if Table.contains s.modules address then .parsed
  else .unparsed

def markFailed (s : Session) (address : String) : Session :=
  if s.failed.contains address then s else { s with failed := s.failed ++ [address] }

def note (s : Session) (e : Event) : Session := { s with journal := e :: s.journal }

def store (s : Session) (m : Module) : Session :=
  { s with modules := Table.insert s.modules m.address m }.note (.stored m.address)

/-- Puts a module on top of those under evaluation. -/
def enter (s : Session) (address : String) : Session :=
  { s with evaluating := s.evaluating ++ [address] }.note (.entered address)

def leave (s : Session) (address : String) : Session :=
  { s with evaluating := s.evaluating.dropLast }.note (.left address)

def setValue (s : Session) (address : String) (v : Value) : Session :=
  { s with values := Table.insert s.values address v }.note (.valued address)

/-- The report of a session, which shows the texts loaded so far. -/
def report (s : Session) : Report := s.library.report.attach s.library.cache.texts

def setReport (s : Session) (r : Report) : Session := { s with library := { s.library with report := r } }

end Session

namespace Engine

/-- What an engine is made with: how a text is read, and how deep an evaluation may go. -/
structure Config where
  read : String → Reading
  depth : Nat

/-- Texts are read by the grammar of the language, and the bound on depth is beyond what programs need. -/
def Config.standard : Config := ⟨Reading.ofText, 1000000000⟩

/-- How expressions are walked, given how an import is brought to its value and how deep to go. -/
abbrev Walking := Eval.Loader Session → (depth : Nat) → Eval.Walker Session

def byNeed : Walking := fun load depth => Eval.walker load depth (Eval.eval load depth)

abbrev Action (α : Type) := Eval Session α

def session : Action Session := fun m => (.ok m.rest.outer, m)

def modify (f : Session → Session) : Action Unit := fun m =>
  (.ok (), { m with rest := { m.rest with outer := f m.rest.outer } })

def note (e : Event) : Action Unit := modify (·.note e)

def withLibrary {α : Type} (a : Library.Action α) : Action α := fun m =>
  let s := m.rest.outer
  let (r, library) := a s.library
  let m := { m with rest := { m.rest with outer := { s with library := library } } }
  match r with
  | .ok x => (.ok x, m)
  | .error e => (.error (.accident e), m)
  | .exhausted => (.exhausted, m)

/-- Reports a problem and ends the phase. -/
def giveUp {α : Type} (phase : Phase) (f : Report → Report) : Action α := do
  modify fun s => s.setReport (f s.report)
  Computation.fail (.reported phase)

/-! ## Reading modules -/

/-- The trace that a verbose report shows of a text that is broken. -/
def brokenTrace (message : String) : String := Report.traceHeading ++ "\n" ++ message

def resolveImports (address : String) : List Import → Action (List (String × String))
  | [] => pure []
  | i :: is =>
    match Address.resolve address i.specifier with
    | .ok target => do return (i.name, target) :: (← resolveImports address is)
    | .error f =>
      let message := "Cannot import " ++ Text.quoted i.specifier ++ ": " ++ f.message
      giveUp .parse fun r => r.semanticError address ⟨message, i.name, [], none⟩

/-- What a text says, or the report of what is wrong with it. -/
def understand (c : Config) (address text : String) : Action ModuleSyntax :=
  let reading := c.read text
  let refuse : Action ModuleSyntax :=
    giveUp .parse fun r => r.syntaxError address reading.rest reading.shortest
  match reading.verdict with
  | .broken f => giveUp .parse fun r => r.internalError address f.message (brokenTrace f.message)
  | .refused => refuse
  | .accepted m => if reading.rest.isEmpty then pure m else refuse

/-- The accident that a document is where a text is wanted. -/
def notText : Document → Accident
  | .null => .noLength "NoneType"
  | .bool _ => .noLength "bool"
  | .int _ => .noLength "int"
  | .float _ => .noLength "float"
  | _ => .notText

/-- The module that a text at an address holds. It is kept once all of it has been read. -/
def readModule (c : Config) (address text : String) : Action Module := do
  note (.consulted .importReader address)
  let found := (Imports.read text).getD []
  note (.consulted .grammar address)
  let syntax_ ← understand c address text
  let imports ← resolveImports address found
  let m : Module := ⟨address, imports, syntax_.declarations, syntax_.body⟩
  modify (·.store m)
  return m

/-- The module at an address, which is read at most once. -/
def parse (c : Config) (address : String) : Action Module := do
  match Table.find? (← session).modules address with
  | some m => return m
  | none =>
    note (.consulted .library address)
    match ← withLibrary (Library.getOrLoad address) with
    | .text points => readModule c address (Text.legible points)
    | d => Eval.fail (notText d)

/-! ## Evaluating modules -/

/-- The module that a semantic error is reported against: the one that it remembers, or else `address`. -/
def culprit (e : SemanticError) (address : String) : String :=
  (e.address.filter (!·.isEmpty)).getD address

/-- Reports a semantic error that ends the evaluation of the module at an address. -/
def blame {α : Type} (e : SemanticError) (address : String) : Action α := do
  note (.blamed e (culprit e address))
  let s ← session
  match s.report.blame e.cause (culprit e address) with
  | .ok r =>
    modify fun s => s.setReport r
    Computation.fail (.reported .evaluate)
  | .error a => Eval.fail a

def bindImports (address : String) (scope : Scope) : List (String × String) → Action Unit
  | [] => pure ()
  | (name, target) :: is => do
    let i ← Machine.alloc (.load address name target)
    Eval.modifyFrames fun fs => scope.assign fs name (.cell i)
    bindImports address scope is

def declareAll (scope : Scope) : List Declaration → Action Unit
  | [] => pure ()
  | d :: ds => do
    Eval.modifyFrames fun fs => scope.declare fs d.name
    declareAll scope ds

/-- Gives declared names their values, which are delayed. -/
def assignAll (delay : Expr → Action Slot) (scope : Scope) : List Declaration → Action Unit
  | [] => pure ()
  | d :: ds => do
    let s ← delay d.expr
    Eval.modifyFrames fun fs => scope.assign fs d.name s
    assignAll delay scope ds

/-- A scope for the module at an address in which every name of the module is known. -/
def openScope (address : String) (m : Module) : Action Scope := do
  let scope ← Eval.makeScope (Scope.root address)
  bindImports address scope m.imports
  declareAll scope m.declarations
  return scope

/-- The scope of the module at an address, with everything that the module defines. -/
def moduleScope (w : Eval.Walker Session) (address : String) (m : Module) : Action Scope := do
  let scope ← openScope address m
  assignAll (w.delay scope) scope m.declarations
  return scope

/-- Evaluates the body of the module at an address; without one its value is nil. -/
def evaluateBody (w : Eval.Walker Session) (address : String) (m : Module) : Action Value := do
  let scope ← moduleScope w address m
  match m.body with
  | none => return .nil
  | some e => w.strict e scope

/-- Handles the trouble that ends the evaluation of a module: it fails, unless by an accident. -/
def handleTrouble (address : String) : Trouble → Action Value
  | .semantic e => do
    modify (·.markFailed address)
    blame e address
  | .reported phase => do
    modify (·.markFailed address)
    Computation.fail (.reported phase)
  | .accident a => Eval.fail a

def handleParseTrouble (address : String) : Trouble → Action Module
  | .reported phase => do
    modify (·.markFailed address)
    Computation.fail (.reported phase)
  | t => Computation.fail t

/-- The import that closes a cycle at `target`, with all modules on it. -/
def cycleError (evaluating : List String) (importer name target : String) : SemanticError :=
  let cycle := evaluating.dropWhile (· ≠ target)
  let cycle := if cycle.getLast? = some importer then cycle else cycle ++ [importer]
  (SemanticCause.cyclicImport importer name (cycle ++ [target])).raise

def pop (address : String) (m : Machine Job Value (Store Session)) : Machine Job Value (Store Session) :=
  { m with rest := { m.rest with outer := m.rest.outer.leave address } }

/-- Evaluates the module at an address, which has been read and not evaluated. -/
def evaluateModule (w : Eval.Walker Session) (address : String) (m : Module) : Action Value := do
  withLibrary (Library.info ["Evaluating", address])
  modify (·.enter address)
  let value ← ((evaluateBody w address m).tryCatch (handleTrouble address)).ensure (pop address)
  modify (·.setValue address value)
  return value

/-- The value of the module at an address, given a walker for its expressions. -/
def evaluateWith (c : Config) (w : Eval.Walker Session) (address : String) : Action Value := do
  note (.demanded address)
  match Table.find? (← session).values address with
  | some v => return v
  | none =>
    let m ← (parse c address).tryCatch (handleParseTrouble address)
    evaluateModule w address m

/-- Brings an import to its value, given a walker for the expressions of its module. An import that leads
to a module under evaluation closes a cycle. -/
def loadWith (c : Config) (w : Eval.Walker Session) : Eval.Loader Session :=
  fun importer name target => do
    let s ← session
    if s.evaluating.contains target then
      Computation.fail (.semantic (cycleError s.evaluating importer name target))
    else evaluateWith c w target

/-- Brings an import to its value, through so many nested modules. -/
def load (c : Config) (walk : Walking) : (nesting : Nat) → Eval.Loader Session
  | 0, _, _, _ => Computation.exhaust
  | nesting + 1, importer, name, target =>
    loadWith c (walk (load c walk nesting) c.depth) importer name target

/-- The walker of an engine, through modules nested as deep as an evaluation may go. -/
def walker (c : Config) (walk : Walking) : Eval.Walker Session := walk (load c walk c.depth) c.depth

def evaluateBy (c : Config) (walk : Walking) (address : String) : Action Value :=
  evaluateWith c (walker c walk) address

/-- The value of the module at an address, shown. What fails on the way is reported like any other
failure of the module. -/
def renderBy (c : Config) (walk : Walking) (address : String) : Action String := do
  let v ← evaluateBy c walk address
  (Eval.displayWith (walker c walk).force c.depth v).tryCatch fun t =>
    match t with
    | .semantic e => blame e address
    | t => Computation.fail t

def loader (c : Config) : Eval.Loader Session := load c byNeed c.depth

def evaluate (c : Config) (address : String) : Action Value := evaluateBy c byNeed address

def render (c : Config) (address : String) : Action String := renderBy c byNeed address

end Engine

/-- An engine: cells, frames and a session. -/
abbrev EngineState := Machine Job Value (Store Session)

def EngineState.start (library : Library) : EngineState := ⟨#[], ⟨#[], 0, .start library⟩⟩

end LazyModules
