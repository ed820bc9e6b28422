import LazyModules.Table

/-!
# Scopes

A scope is a chain of frames, the innermost first, and belongs to the module whose text it serves. A
frame binds names in order; a name that is declared and has no value yet is bound to nothing. Frames are
kept in a store and change over time, so that everything that shares a frame sees its new bindings.
-/
namespace LazyModules

/-- The bindings of a frame, in the order in which their names came. -/
abbrev Frame (α : Type) := Table (Option α)

/-- All frames, each known by its place. -/
abbrev Frames (α : Type) := Array (Frame α)

/-- A chain of frames, the innermost first, in the module at `address`. -/
structure Scope where
  address : String
  frames : List Nat
  deriving DecidableEq, Repr

namespace Frames

variable {α : Type}

def frame (fs : Frames α) (i : Nat) : Frame α := (fs[i]?).getD []

def bind (fs : Frames α) (i : Nat) (name : String) (value : Option α) : Frames α :=
  fs.modify i fun f => Table.insert f name value

end Frames

namespace Scope

variable {α : Type}

def modifyInner (s : Scope) (fs : Frames α) (f : Frame α → Frame α) : Frames α :=
  match s.frames with
  | [] => fs
  | i :: _ => fs.modify i f

/-- Declares a name, which then has no value. -/
def declare (s : Scope) (fs : Frames α) (name : String) : Frames α :=
  s.modifyInner fs fun f => Table.insert f name none

def assign (s : Scope) (fs : Frames α) (name : String) (value : α) : Frames α :=
  s.modifyInner fs fun f => Table.insert f name (some value)

def update (s : Scope) (fs : Frames α) (pairs : List (String × α)) : Frames α :=
  s.modifyInner fs fun f => Table.insertAll f (pairs.map fun p => (p.1, some p.2))

/-- What the innermost frame that knows a name binds it to. -/
def lookupIn (fs : Frames α) (name : String) : List Nat → Option (Option α)
  | [] => none
  | i :: is =>
    match Table.find? (fs.frame i) name with
    | some b => some b
    | none => lookupIn fs name is

/-- What a name is bound to: nothing if it is not known, and else a value or the lack of one. -/
def lookup? (s : Scope) (fs : Frames α) (name : String) : Option (Option α) :=
  lookupIn fs name s.frames

/-- The names of `more` that are not in `seen`, each once and in order, after those of `seen`. -/
def addNames (seen more : List String) : List String :=
  more.foldl (fun seen n => if seen.contains n then seen else seen ++ [n]) seen

/-- Every name that is visible, innermost frame first, each once. -/
def names (s : Scope) (fs : Frames α) : List String :=
  s.frames.foldl (fun seen i => addNames seen (Table.keys (fs.frame i))) []

/-- A scope with a new, empty frame inside `s`. -/
def child (s : Scope) (fs : Frames α) : Scope × Frames α :=
  (⟨s.address, fs.size :: s.frames⟩, fs.push [])

/-- A scope of its own for a module. -/
def root (address : String) (fs : Frames α) : Scope × Frames α :=
  (⟨address, [fs.size]⟩, fs.push [])

/-- A scope in words: its module and the names of its innermost frame. -/
def describe (s : Scope) (fs : Frames α) : String :=
  let inner := match s.frames with
    | [] => []
    | i :: _ => Table.keys (fs.frame i)
  "<Scope " ++ s.address ++ ": " ++ String.intercalate ", " inner ++ ">"

/-- What stands for a binding without a value. -/
def uninitialized : String := "<uninitialized>"

end Scope

end LazyModules
