import LazyModules.Text.Digit
import LazyModules.Text.Quoted
import LazyModules.Text.Split

/-!
# Arguments of the command line

One operand, the address of the main module, and four switches in any order. A long switch may be cut
short as long as it stays unambiguous, and takes its argument after an equals sign or as the next word.
Short switches may share a dash. After `--` everything is an operand.
-/
namespace LazyModules.CommandLine

inductive Switch where
  | help
  | verbose
  | cache
  | noCache
  deriving DecidableEq, Repr

def spellings : List (String × Switch) :=
  [("-h", .help), ("--help", .help), ("-v", .verbose), ("--verbose", .verbose), ("--cache", .cache),
   ("--no-cache", .noCache)]

/-- A switch in a message: all of its spellings. -/
def Switch.name (s : Switch) : String :=
  String.intercalate "/" ((spellings.filter (·.2 = s)).map Prod.fst)

/-- What is wrong with the arguments. -/
inductive Usage where
  | missingProgram
  | unrecognized (words : List String)
  | expectedArgument (s : Switch)
  | ignoredArgument (s : Switch) (argument : String)
  | ambiguous (word : String) (candidates : List String)
  deriving DecidableEq, Repr

def Usage.message : Usage → String
  | .missingProgram => "the following arguments are required: program"
  | .unrecognized words => "unrecognized arguments: " ++ String.intercalate " " words
  | .expectedArgument s => "argument " ++ s.name ++ ": expected one argument"
  | .ignoredArgument s a => "argument " ++ s.name ++ ": ignored explicit argument " ++ Text.quoted a
  | .ambiguous word candidates =>
    "ambiguous option: " ++ word ++ " could match " ++ String.intercalate ", " candidates

/-- What is to be done: run a program, or explain the arguments. -/
structure Options where
  program : String
  verbose : Bool
  cache : Option String
  noCache : Bool
  deriving DecidableEq, Repr

inductive Request where
  | run (o : Options)
  | help
  deriving DecidableEq, Repr

/-- How a word is understood. What is attached to a switch comes after an equals sign, or right after a
short switch. -/
inductive Word where
  | operand (s : String)
  | separator
  | long (s : Switch) (attached : Option (List Char))
  | short (s : Switch) (attached : Option (List Char))
  | unknown (s : String)
  deriving DecidableEq, Repr

/-- A dash and a decimal number, perhaps at the end of a line, which is an operand. -/
def isNegative (cs : List Char) : Bool :=
  match if cs.getLast? = some '\n' then cs.dropLast else cs with
  | '-' :: cs =>
    let whole := cs.takeWhile Text.isDecimal
    match cs.drop whole.length with
    | [] => !whole.isEmpty
    | '.' :: ds => !ds.isEmpty && ds.all Text.isDecimal
    | _ => false
  | _ => false

def Word.ofSpelling (spelling : String) (s : Switch) (attached : Option (List Char)) : Word :=
  if spelling.length = 2 then .short s attached else .long s attached

/-- The spellings that a word can stand for, with what is attached to them. -/
def candidates (cs : List Char) : List (String × Switch × Option (List Char)) :=
  match cs with
  | '-' :: '-' :: _ =>
    let (stem, attached) : List Char × Option (List Char) := match Text.cut? '=' cs with
      | some (stem, a) => (stem, some a)
      | none => (cs, none)
    (spellings.filter fun p => stem.isPrefixOf p.1.toList).map fun p => (p.1, p.2, attached)
  | _ =>
    (spellings.filter fun p => p.1.toList = cs.take 2).map fun p => (p.1, p.2, some (cs.drop 2))

def Word.ofText (s : String) : Except Usage Word :=
  let cs := s.toList
  if cs.head? ≠ some '-' || cs.length = 1 then .ok (.operand s) else
  match List.lookup s spellings with
  | some sw => .ok (.ofSpelling s sw none)
  | none =>
    let exact : Option Word := do
      let (stem, a) ← Text.cut? '=' cs
      let sw ← List.lookup (String.ofList stem) spellings
      return .ofSpelling (String.ofList stem) sw (some a)
    match exact, candidates cs with
    | some w, _ => .ok w
    | none, [] => .ok (if isNegative cs || cs.contains ' ' then .operand s else .unknown s)
    | none, [(spelling, sw, a)] => .ok (.ofSpelling spelling sw a)
    | none, many => .error (.ambiguous s (many.map (·.1)))

def words : List String → Except Usage (List Word)
  | [] => .ok []
  | s :: rest =>
    if s = "--" then .ok (.separator :: rest.map .operand)
    else do return (← Word.ofText s) :: (← words rest)

/-- Takes the short switches apart that share a dash, from `s` on, with characters attached to it. Each
of them must be a short switch itself. -/
def cluster (s : Switch) : List Char → Except Usage (List Switch)
  | [] => .error (.ignoredArgument s "")
  | c :: cs =>
    match List.lookup (String.ofList ['-', c]) spellings with
    | none => .error (.ignoredArgument s (String.ofList (c :: cs)))
    | some s' => if cs.isEmpty then .ok [s, s'] else (cluster s' cs).map (s :: ·)

/-- The path that is attached to a switch; two dashes stand for none. -/
def attachedPath (cs : List Char) : Option String :=
  if cs = ['-', '-'] then none else some (String.ofList cs)

structure Progress where
  program : Option String
  verbose : Bool
  cache : Option String
  noCache : Bool
  extras : List String

def Progress.start : Progress := ⟨none, false, none, false, []⟩

/-- Why processing ends early. -/
inductive Stop where
  | help
  | usage (u : Usage)

/-- Sets the switches that take no argument. -/
def Progress.set (p : Progress) : List Switch → Except Stop Progress
  | [] => .ok p
  | s :: rest =>
    match s with
    | .help => .error .help
    | .verbose => Progress.set { p with verbose := true } rest
    | .noCache => Progress.set { p with noCache := true } rest
    | .cache => .error (.usage (.expectedArgument .cache))

def process : Progress → List Word → Except Stop Progress
  | p, [] => .ok p
  | p, .unknown s :: ws => process { p with extras := p.extras ++ [s] } ws
  | p, .long .cache (some a) :: ws => process { p with cache := attachedPath a } ws
  | p, .long .cache none :: .operand s :: ws => process { p with cache := some s } ws
  | _, .long .cache none :: _ => .error (.usage (.expectedArgument .cache))
  | _, .long s (some a) :: _ => .error (.usage (.ignoredArgument s (String.ofList a)))
  | p, .long s none :: ws => match p.set [s] with
    | .ok p => process p ws
    | .error e => .error e
  | p, .short s none :: ws => match p.set [s] with
    | .ok p => process p ws
    | .error e => .error e
  | p, .short s (some a) :: ws =>
    match cluster s a with
    | .error u => .error (.usage u)
    | .ok switches => match p.set switches with
      | .ok p => process p ws
      | .error e => .error e
  | p, .operand s :: .separator :: ws =>
    match p.program with
    | none => process { p with program := some s } ws
    | some _ => process { p with extras := p.extras ++ [s, "--"] } ws
  | p, .operand s :: ws =>
    match p.program with
    | none => process { p with program := some s } ws
    | some _ => process { p with extras := p.extras ++ [s] } ws
  | p, .separator :: .operand s :: ws =>
    match p.program with
    | none => process { p with program := some s } ws
    | some _ => process { p with extras := p.extras ++ ["--", s] } ws
  | p, .separator :: ws => process { p with extras := p.extras ++ ["--"] } ws

def parse (args : List String) : Except Usage Request := do
  match process .start (← words args) with
  | .error .help => return .help
  | .error (.usage u) => throw u
  | .ok p =>
    match p.program with
    | none => throw .missingProgram
    | some program =>
      if p.extras.isEmpty then return .run ⟨program, p.verbose, p.cache, p.noCache⟩
      else throw (.unrecognized p.extras)

end LazyModules.CommandLine
