import LazyModules.Text.Split

/-!
# Paths

A path is a sequence of segments between slashes. It is rooted if it begins with a slash; exactly two
leading slashes are told apart from one, three or more count as one. Normalising drops empty and `.`
segments and lets `..` take back the segment before it; a relative path keeps the `..` at its front that
have nothing to take back, a rooted one drops them.
-/
namespace LazyModules.Path

abbrev Segment := List Char

def here : Segment := ['.']

def up : Segment := ['.', '.']

/-- How many leading slashes a path keeps. -/
def rootSlashes : List Char → Nat
  | '/' :: '/' :: '/' :: _ => 1
  | '/' :: '/' :: _ => 2
  | '/' :: _ => 1
  | _ => 0

/-- Adds a segment to a normal path, whose segments are held in reverse. -/
def push (rooted : Bool) (done : List Segment) (s : Segment) : List Segment :=
  if s = [] || s = here then done
  else if s ≠ up then s :: done
  else match done with
    | [] => if rooted then [] else [s]
    | d :: ds => if d = up then s :: done else ds

def normalSegments (p : List Char) : List Segment :=
  ((Text.split '/' p).foldl (push (0 < rootSlashes p)) []).reverse

/-- The shortest spelling of a path; `.` where nothing is left. -/
def normalize (p : List Char) : List Char :=
  match List.replicate (rootSlashes p) '/' ++ Text.join '/' (normalSegments p) with
  | [] => here
  | q => q

/-- The part of a path up to its last slash, without slashes at its end unless it has nothing else. -/
def folder (p : List Char) : List Char :=
  let head := (p.reverse.dropWhile (· ≠ '/')).reverse
  match (head.reverse.dropWhile (· = '/')).reverse with
  | [] => head
  | trimmed => trimmed

/-- A path seen from a folder: a rooted one stands alone. -/
def append (folder p : List Char) : List Char :=
  match p with
  | '/' :: _ => p
  | _ => if folder = [] || folder.getLast? = some '/' then folder ++ p else folder ++ '/' :: p

end LazyModules.Path
