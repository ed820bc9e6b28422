import LazyModules.CommandLine.Arguments
import LazyModules.Engine

/-!
# The command line

Evaluates the main module and everything it imports, prints its value, or explains why not.
-/
namespace LazyModules.CommandLine

/-- What a run leaves: its exit status, if it set one, what it printed, and the world after it. -/
structure Result where
  status : Option Nat
  output : String
  errors : String
  world : World

def usage : String := "usage: nought [-h] [-v] [--cache CACHE] [--no-cache] program\n"

/-- What is printed without arguments. -/
def introduction : String :=
  "This is an interpreter for the nought expression language.\n\n" ++ usage ++
  "\n\nFor example:\n\n    nought program.0\n\n" ++
  "will evaluate program.0 and everything it imports, then print the value,\n" ++
  "or else try to explain why not.\n\n    nought -h\n\nwill explain all the arguments.\n"

def explanation : String :=
  usage ++ "\nLazy, module-aware interpreter for the nought expression language.\n\n" ++
  "positional arguments:\n" ++
  "  program        address of the main module: a file path or an https:// URL.\n\n" ++
  "options:\n" ++
  "  -h, --help     show this help message and exit\n" ++
  "  -v, --verbose  Explain failures in gory detail, and chatter about progress.\n" ++
  "  --cache CACHE  Where to keep fetched remote modules between runs.\n" ++
  "  --no-cache     Neither read nor write the cache file.\n"

/-- Where the snapshot is kept unless the arguments say otherwise. -/
def defaultCache : String := "nought_cache.json"

/-- The path of the snapshot, if there is to be one. -/
def cachePath (o : Options) : Option String :=
  if o.noCache then none else some ((o.cache.map Cache.pathOfText).getD defaultCache)

def failed (output : String) (a : Accident) (l : Library) : Result :=
  ⟨some 1, output, (l.report.unexpected a true).printed, l.world⟩

/-- What a run takes for granted at its end: a problem that counts as reported is in the report. -/
def assertion (outcome : Outcome Trouble String) (l : Library) : Bool :=
  match outcome with
  | .error (.reported _) => l.report.sick
  | _ => true

def breakOff (output : String) (l : Library) : Result :=
  ⟨some 1, output, (l.report.print (Report.traceHeading ++ "\nAssertionError")).printed, l.world⟩

/-- Ends a run whose program came to an outcome, once the snapshot is written. -/
def conclude (output : String) (outcome : Outcome Trouble String) (l : Library) : Result :=
  if !assertion outcome l then breakOff output l else
  match outcome with
  | .ok _ => ⟨some 0, output, l.report.printed, l.world⟩
  | .error (.accident a) => failed output a l
  | .error (.semantic e) => failed output (.custom e.cause.message) l
  | .error (.reported _) | .exhausted => ⟨some 1, output, l.report.printed, l.world⟩

/-- Evaluates and shows the main module, and writes the snapshot however that ended: how it ended, how
the writing ended, and what is left. -/
def execute (program : String) (l : Library) : Outcome Trouble String × Outcome Accident Unit × Library :=
  let (outcome, m) := Engine.render .standard program (EngineState.start l)
  (outcome, Library.save m.rest.outer.library)

/-- Runs a program: reads the snapshot and executes the program. -/
def run (o : Options) (w : World) : Result :=
  let library : Library := ⟨.empty (cachePath o), .empty o.verbose, w⟩
  match Library.load library with
  | (.error a, l) => failed "" a l
  | (.exhausted, l) => ⟨some 1, "", l.report.printed, l.world⟩
  | (.ok (), l) =>
    let (outcome, saved, l) := execute o.program l
    let output := match outcome with
      | .ok text => text ++ "\n"
      | _ => ""
    match saved with
    | .error a => failed output a l
    | _ => conclude output outcome l

/-- Does what the arguments ask for. -/
def perform (args : List String) (w : World) : Result :=
  if args.isEmpty then ⟨none, introduction, "", w⟩ else
  match parse args with
  | .ok (.run o) => run o w
  | .ok .help => ⟨some 0, explanation, "", w⟩
  | .error u => ⟨some 2, "", usage ++ "nought: error: " ++ u.message ++ "\n", w⟩

end LazyModules.CommandLine
