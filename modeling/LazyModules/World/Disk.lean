import LazyModules.Accident
import LazyModules.Address.Path

/-!
# A disk

A tree of folders and files, and the folder that relative paths start from. A path is followed segment by
segment: every segment but the last must be a folder. The tree is a whole disk or a part of one. Above the
top of a part there are only folders of which nothing else is known.
-/
namespace LazyModules

/-- What a file holds: text, or bytes that need not be text. -/
inductive FileData where
  | text (s : String)
  | raw (bytes : List UInt8)

/-- Files and folders by the segments of their paths from the top, the current folder, and whether the
tree is a whole disk. -/
structure Disk where
  files : List (List String × FileData)
  folders : List (List String)
  current : List String
  whole : Bool

namespace Disk

/-- A part of a disk with nothing in it. -/
def empty : Disk := ⟨[], [[]], [], false⟩

/-- Where a path leads. -/
inductive Target where
  | file (place : List String) (data : FileData)
  | folder
  /-- nowhere, but a file could be made there -/
  | vacant (place : List String)
  | fault (f : FileFault)

/-- A folder on the way: in the tree, or above its top. -/
inductive Way where
  | inside (place : List String)
  | above

/-- Where an absolute path starts, and where one gets above the top of the tree. -/
def root (d : Disk) : Way := if d.whole then .inside [] else .above

def file? (d : Disk) (place : List String) : Option FileData := List.lookup place d.files

def hasFolder (d : Disk) (place : List String) : Bool := d.folders.contains place

/-- The longest name that a file can have, in bytes. -/
def nameLimit : Nat := 255

/-- The longest path that can be followed, in bytes. -/
def pathLimit : Nat := 4095

/-- Follows segments from a folder. -/
def walk (d : Disk) : Way → List String → Target
  | _, [] => .folder
  | way, s :: rest =>
    if s = "" || s = "." then walk d way rest
    else if s = ".." then
      match way with
      | .inside [] => walk d d.root rest
      | .inside place => walk d (.inside place.dropLast) rest
      | .above => walk d .above rest
    else if nameLimit < s.utf8ByteSize then .fault .nameTooLong
    else match way with
      | .above => .fault .missing
      | .inside place =>
        let place := place ++ [s]
        if d.hasFolder place then walk d (.inside place) rest
        else match d.file? place with
          | some data => if rest.isEmpty then .file place data else .fault .notFolder
          | none => if rest.isEmpty then .vacant place else .fault .missing

def segments (path : String) : List String := (Text.split '/' path.toList).map String.ofList

def target (d : Disk) (path : String) : Target :=
  if path.isEmpty then .fault .missing
  else if pathLimit < path.utf8ByteSize then .fault .nameTooLong
  else if path.toList.head? = some '/' then d.walk d.root (segments path)
  else d.walk (.inside d.current) (segments path)

def hasNul (path : String) : Bool := path.toList.contains '\x00'

/-- Whether a path leads to something, unless it is too long to tell. -/
def doesExist (d : Disk) (path : String) : Except Accident Bool :=
  if hasNul path then .ok false else
  match d.target path with
  | .file _ _ | .folder => .ok true
  | .fault .nameTooLong => .error (.file .nameTooLong path)
  | _ => .ok false

def readData (d : Disk) (path : String) : Except Accident FileData :=
  if hasNul path then .error .nulInPath else
  match d.target path with
  | .file _ data => .ok data
  | .folder => .error (.file .isFolder path)
  | .vacant _ => .error (.file .missing path)
  | .fault f => .error (.file f path)

/-- Every line break as LF. -/
def unifyBreaks : List Char → List Char
  | [] => []
  | '\r' :: '\n' :: cs => '\n' :: unifyBreaks cs
  | c :: cs => (if c = '\r' then '\n' else c) :: unifyBreaks cs

/-- The text in a file, with every line break as LF. -/
def readText (d : Disk) (path : String) : Except Accident String := do
  let text ← match ← d.readData path with
    | .text s => pure s
    | .raw bytes => match Text.Utf8.decode bytes with
      | .ok s => pure s
      | .error f => throw (.undecodable f)
  return String.ofList (unifyBreaks text.toList)

/-- Puts a file at a place whose folder is there. -/
def put (d : Disk) (place : List String) (data : FileData) : Disk :=
  { d with files := (d.files.filter (·.1 ≠ place)) ++ [(place, data)] }

/-- Writes a file, whose folder must be there. -/
def write (d : Disk) (path : String) (data : FileData) : Except Accident Disk :=
  if hasNul path then .error .nulInPath else
  match d.target path with
  | .file place _ | .vacant place => .ok (d.put place data)
  | .folder => .error (.file .isFolder path)
  | .fault f => .error (.file f path)

def delete (d : Disk) (path : String) : Except Accident Disk :=
  if hasNul path then .error .nulInPath else
  match d.target path with
  | .file place _ => .ok { d with files := d.files.filter (·.1 ≠ place) }
  | .folder => .error (.file .isFolder path)
  | .vacant _ => .error (.file .missing path)
  | .fault f => .error (.file f path)

/-- The place that a path names from a folder, whether it is there or not. -/
def placeFrom (start : List String) (path : String) : List String :=
  (segments path).foldl (fun place s =>
    if s = "" || s = "." then place else if s = ".." then place.dropLast else place ++ [s]) start

/-- Makes a folder with the folders above it. -/
def makeFolder (d : Disk) (place : List String) : Disk :=
  let all := (List.range (place.length + 1)).map place.take
  { d with folders := d.folders ++ all.filter fun p => !d.hasFolder p }

/-- Puts a file where a path names it from a folder, and makes the folders that it takes. -/
def install (d : Disk) (start : List String) (path : String) (data : FileData) : Disk :=
  let place := placeFrom start path
  (d.makeFolder place.dropLast).put place data

/-- Makes a folder the one that relative paths start from. -/
def enter (d : Disk) (path : String) : Disk :=
  let place := placeFrom [] path
  { d.makeFolder place with current := place }

end Disk

end LazyModules
