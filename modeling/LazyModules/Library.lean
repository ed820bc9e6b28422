import LazyModules.Address
import LazyModules.Computation
import LazyModules.Report
import LazyModules.World
import LazyModules.World.Document

/-!
# The library of source texts

Source texts by address. A remote text is fetched at most once, and a snapshot of what was fetched
survives between runs in a file. A local file is read afresh in every run, once.
-/
namespace LazyModules

/-- The texts of a library: the path of its snapshot if it has one, what goes into the snapshot, and
everything that this run has asked for. -/
structure Cache where
  path : Option String
  persisted : List (List Text.Point × Document)
  loaded : Table Document

/-- A cache, the report that hears of its doings, and the world that it reads. -/
structure Library where
  cache : Cache
  report : Report
  world : World

namespace Cache

def empty (path : Option String) : Cache := ⟨path, [], []⟩

def size (c : Cache) : Nat := c.persisted.length

/-- The loaded entries that are texts. -/
def texts (c : Cache) : Table String :=
  c.loaded.filterMap fun e => match e.2 with
    | .text s => some (e.1, Text.legible s)
    | _ => none

/-- The path that a text names, without needless slashes and dots; the parts after `..` stay. -/
def pathOfText (s : String) : String :=
  let cs := s.toList
  let root := List.replicate (Path.rootSlashes cs) '/'
  let parts := (Text.split '/' cs).filter fun p => p ≠ [] && p ≠ ['.']
  match root ++ Text.join '/' parts with
  | [] => "."
  | p => String.ofList p

end Cache

namespace Library

abbrev Action (α : Type) := Computation Library Accident α

def info (words : List String) : Action Unit :=
  Computation.modify fun l => { l with report := l.report.info words }

def getDisk : Action Disk := fun l => (.ok l.world.disk, l)

def getCache : Action Cache := fun l => (.ok l.cache, l)

def modifyCache (f : Cache → Cache) : Action Unit :=
  Computation.modify fun l => { l with cache := f l.cache }

/-- Where and why a document cannot be read, as an accident. -/
def documentAccident (text : List Char) (f : Document.Fault) : Accident :=
  let before := text.take f.offset
  match f.problem with
  | .longNumeral n => .longNumeral n
  | p => .badDocument p.message (before.count '\n' + 1)
      ((before.reverse.takeWhile (· ≠ '\n')).length + 1) f.offset

def readDocument (text : String) : Action Document :=
  match Document.read text.toList with
  | .ok d => pure d
  | .error f => Computation.fail (documentAccident text.toList f)

/-- Reads the snapshot, if there is one. -/
def load : Action Unit := do
  match (← getCache).path with
  | none => return ()
  | some path =>
    let d ← getDisk
    if !(← Computation.ofExcept (d.doesExist path)) then return ()
    let text ← Computation.ofExcept (d.readText path)
    match ← readDocument text with
    | .object table =>
      modifyCache fun c => { c with persisted := Table.insertAll c.persisted table }
      info ["Read", toString table.length, "cached entries from", path]
    | _ => Computation.fail (.notATable path)

/-- Writes the snapshot, if there is to be one. If it cannot be encoded, the file keeps what could be. -/
def save : Action Unit := do
  let c ← getCache
  match c.path with
  | none => return ()
  | some path =>
    let pieces := (Document.object c.persisted).pieces
    let d ← Computation.ofExcept ((← getDisk).write path (.text (Document.encode pieces)))
    Computation.modify fun l => { l with world := { l.world with disk := d } }
    if let some run := Document.unencodable? pieces then Computation.fail (.unencodable run)
    info ["Saved", toString c.size, "cached entries to", path]

def fetch (url : String) : Action String := do
  info ["Fetching", url]
  let answer ← fun l =>
    let (answer, world) := l.world.fetch url
    (.ok answer, { l with world := world })
  Computation.ofExcept answer

def readFile (path : String) : Action String := do
  info ["Loading", path]
  Computation.ofExcept ((← getDisk).readText path)

/-- Finds a text that has not been asked for in this run. -/
def find (address : String) : Action Document := do
  let key := Text.pointsOf address
  match Table.find? (← getCache).persisted key with
  | some d => return d
  | none =>
    if Address.isRemote address then
      let d := Document.text (Text.pointsOf (← fetch address))
      modifyCache fun c => { c with persisted := Table.insert c.persisted key d }
      return d
    else return .text (Text.pointsOf (← readFile address))

def getOrLoad (address : String) : Action Document := do
  match Table.find? (← getCache).loaded address with
  | some d => return d
  | none =>
    let d ← find address
    modifyCache fun c => { c with loaded := Table.insert c.loaded address d }
    return d

/-- The text at an address that has been asked for before. -/
def textOf (address : String) : Action Document := do
  match Table.find? (← getCache).loaded address with
  | some d => return d
  | none => Computation.fail (.unknownKey address)

/-- Runs an action with a new cache: reads the snapshot before and writes it after, however the action
ends. If writing fails, that is how all of it ends. -/
def opened {α : Type} (path : Option String) (action : Action α) : Action α := do
  modifyCache fun _ => .empty path
  load
  fun l =>
    let (outcome, l) := action l
    match save l with
    | (.ok (), l) => (outcome, l)
    | (.error a, l) => (.error a, l)
    | (.exhausted, l) => (.exhausted, l)

end Library

end LazyModules
