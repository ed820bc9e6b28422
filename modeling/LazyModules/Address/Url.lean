import LazyModules.Text.Split
import LazyModules.Text.Quoted
import LazyModules.Text.Percent

/-!
# URLs

A URL is taken apart into scheme, authority, path, parameters, query and fragment, and put together
again. `join` resolves a reference against the URL of the document that holds it.
-/
namespace LazyModules

/-- The parts of a URL, without the marks that set them off. -/
structure Url where
  scheme : List Char
  authority : List Char
  path : List Char
  params : List Char
  query : List Char
  fragment : List Char
  deriving DecidableEq, Repr

namespace Url

/-- Why a text is no URL. -/
inductive Fault where
  /-- a bracket in the authority where none may stand, or without its partner -/
  | misplacedBracket
  /-- a bracketed host of a future version that is ill-formed -/
  | futureAddress
  /-- a bracketed host that is an address of version 4 -/
  | bracketedV4
  /-- a bracketed host that is no address at all -/
  | notAnAddress (host : List Char)
  /-- a character in the authority that is compatible with a delimiter -/
  | hiddenDelimiter (authority : List Char)
  deriving DecidableEq, Repr

def Fault.message : Fault → String
  | .misplacedBracket => "Invalid IPv6 URL"
  | .futureAddress => "IPvFuture address is invalid"
  | .bracketedV4 => "An IPv4 address cannot be in brackets"
  | .notAnAddress host =>
    Text.quoted (String.ofList host) ++ " does not appear to be an IPv4 or IPv6 address"
  | .hiddenDelimiter authority =>
    "netloc '" ++ String.ofList authority ++ "' contains invalid characters under NFKC normalization"

/-! ## Hosts in brackets -/

def isDigit (c : Char) : Bool := '0' ≤ c && c ≤ '9'

/-- A number up to 255 without a leading zero. -/
def isOctet (cs : List Char) : Bool :=
  cs ≠ [] && cs.all isDigit && cs.length ≤ 3 && (cs.length = 1 || cs.head? ≠ some '0') &&
    cs.foldl (fun n c => n * 10 + (c.toNat - '0'.toNat)) 0 ≤ 255

/-- Four octets between dots. -/
def isV4 (cs : List Char) : Bool :=
  let parts := Text.split '.' cs
  parts.length = 4 && parts.all isOctet

/-- One to four hexadecimal digits. -/
def isGroup (cs : List Char) : Bool :=
  cs ≠ [] && cs.length ≤ 4 && cs.all fun c => (Text.Percent.hexValue c).isSome

/-- Whether groups between colons make an address of version 6: eight groups, or fewer around one
double colon, which shows as an empty group inside. -/
def areGroups (parts : List (List Char)) : Bool :=
  let n := parts.length
  let inner := (parts.drop 1).dropLast
  let gap := inner.findIdx (· = []) + 1
  if inner.any (· = []) then
    let front := parts.take gap
    let back := parts.drop (gap + 1)
    let front := if front = [[]] then [] else front
    let back := if back = [[]] then [] else back
    n ≤ 9 && front.all isGroup && back.all isGroup && front.length + back.length < 8
  else n = 8 && parts.all isGroup

/-- An address of version 6, which may end in one of version 4 and carry a zone after a percent sign. -/
def isV6 (cs : List Char) : Bool :=
  let address := cs.takeWhile (· ≠ '%')
  let zone := cs.drop address.length
  let parts := Text.split ':' address
  let last := parts.getLastD []
  let zoneOk := zone = [] || (1 < zone.length && !(zone.drop 1).contains '%')
  let parts' := if last.contains '.' then parts.dropLast ++ [['0'], ['0']] else parts
  zoneOk && 3 ≤ parts.length && (!last.contains '.' || isV4 last) && areGroups parts'

/-- A `v`, a version in hexadecimal, a dot and something more. -/
def isFuture (cs : List Char) : Bool :=
  match cs with
  | 'v' :: cs =>
    let version := cs.takeWhile fun c => (Text.Percent.hexValue c).isSome
    version ≠ [] && (match cs.drop version.length with
      | '.' :: _ :: _ => true
      | _ => false)
  | _ => false

/-- Checks a host that stands in brackets. -/
def checkHost (host : List Char) : Except Fault Unit :=
  if host.head? = some 'v' then if isFuture host then .ok () else .error .futureAddress
  else if isV4 host then .error .bracketedV4
  else if isV6 host then .ok ()
  else .error (.notAnAddress host)

/-- The characters that are compatible with one of `/ ? # @ :` or a sequence that holds one. -/
def hiddenDelimiters : List Nat :=
  [0x2047, 0x2048, 0x2049, 0x2100, 0x2101, 0x2105, 0x2106, 0x2a74, 0xfe13, 0xfe16, 0xfe55, 0xfe56,
   0xfe5f, 0xfe6b, 0xff03, 0xff0f, 0xff1a, 0xff1f, 0xff20]

/-- The host of an authority with brackets in it. What comes before the last at sign names a user. The host
itself stands in brackets right there, and only a port may follow it; without brackets after the at sign,
it ends at the port. -/
def bracketedHost (a : List Char) : Except Fault (List Char) :=
  match (a.reverse.takeWhile (· ≠ '@')).reverse with
  | '[' :: rest =>
    let (host, after) := (Text.cut? ']' rest).getD (rest, [])
    if after = [] || after.head? = some ':' then .ok host else .error .misplacedBracket
  | rest => if rest.contains '[' then .error .misplacedBracket else .ok (rest.takeWhile (· ≠ ':'))

/-- Checks an authority: its brackets, then the host between them, then its characters. -/
def checkAuthority (a : List Char) : Except Fault Unit := do
  if a.contains '[' != a.contains ']' then throw .misplacedBracket
  if a.contains '[' then checkHost (← bracketedHost a)
  if a.any fun c => hiddenDelimiters.contains c.toNat then throw (.hiddenDelimiter a)

/-! ## Taking apart and putting together -/

def isLetter (c : Char) : Bool := ('a' ≤ c && c ≤ 'z') || ('A' ≤ c && c ≤ 'Z')

def isSchemeChar (c : Char) : Bool := isLetter c || isDigit c || c = '+' || c = '-' || c = '.'

def lowerChar (c : Char) : Char := if 'A' ≤ c && c ≤ 'Z' then Char.ofNat (c.toNat + 32) else c

/-- The scheme before the first colon, in lower case, and the rest; none if there is no scheme. -/
def scheme? (cs : List Char) : Option (List Char × List Char) :=
  match Text.cut? ':' cs with
  | some (s, rest) =>
    if s.head?.any isLetter && s.all isSchemeChar then some (s.map lowerChar, rest) else none
  | none => none

/-- What counts of a text: controls and spaces at its front do not, nor tabs and line ends anywhere. -/
def clean (cs : List Char) : List Char :=
  (cs.dropWhile fun c => c.toNat ≤ 0x20).filter fun c => c ≠ '\t' && c ≠ '\n' && c ≠ '\r'

/-- The parameters after the first semicolon in the last segment of a path. -/
def splitParams (path : List Char) : List Char × List Char :=
  let last := (path.reverse.takeWhile (· ≠ '/')).reverse
  let front := path.take (path.length - last.length)
  match Text.cut? ';' last with
  | some (segment, params) => (front ++ segment, params)
  | none => (path, [])

/-- Takes a text apart; `scheme` is for a text without one. -/
def parse (scheme cs : List Char) : Except Fault Url := do
  let (scheme, rest) := (scheme? (clean cs)).getD (scheme, clean cs)
  let ends (c : Char) : Bool := c = '/' || c = '?' || c = '#'
  let (authority, rest) := match rest with
    | '/' :: '/' :: rest => (rest.takeWhile (!ends ·), rest.dropWhile (!ends ·))
    | _ => ([], rest)
  checkAuthority authority
  let (rest, fragment) := (Text.cut? '#' rest).getD (rest, [])
  let (path, query) := (Text.cut? '?' rest).getD (rest, [])
  let (path, params) := splitParams path
  return ⟨scheme, authority, path, params, query, fragment⟩

/-- Puts the parts of a URL with a hierarchical scheme together. Empty parts leave no mark, but the
authority always has its slashes, unless it is empty and the path brings two of its own. -/
def write (u : Url) : List Char :=
  let path := if u.params = [] then u.path else u.path ++ ';' :: u.params
  let location :=
    if u.authority = [] && ['/', '/'].isPrefixOf path then path
    else if path ≠ [] && path.head? ≠ some '/' then '/' :: '/' :: u.authority ++ '/' :: path
    else '/' :: '/' :: u.authority ++ path
  let set (mark : Char) (part : List Char) : List Char := if part = [] then [] else mark :: part
  u.scheme ++ ':' :: location ++ set '?' u.query ++ set '#' u.fragment

/-- Takes `.` and `..` segments away; a `..` with nothing before it is dropped. Segments are held in
reverse. -/
def pushSegment (done : List (List Char)) (s : List Char) : List (List Char) :=
  if s = ['.', '.'] then done.drop 1 else if s = ['.'] then done else s :: done

/-- Leaves out the empty segments between the first and the last. -/
def squeeze : List (List Char) → List (List Char)
  | [] => []
  | s :: ss => s :: (ss.dropLast.filter (· ≠ []) ++ ss.getLast?.toList)

/-- The path that `path` names, seen from the path `base`. -/
def joinPath (base path : List Char) : List Char :=
  let folder := Text.split '/' base
  let folder := if folder.getLast? = some [] then folder else folder.dropLast
  let segments :=
    if path.head? = some '/' then Text.split '/' path else squeeze (folder ++ Text.split '/' path)
  let kept := (segments.foldl pushSegment []).reverse
  let last := segments.getLastD []
  let kept := if last = ['.'] || last = ['.', '.'] then kept ++ [[]] else kept
  match Text.join '/' kept with
  | [] => ['/']
  | p => p

/-- The URL that a reference stands for in the document at `base`, which has the scheme `https`. A
reference with another scheme stands for itself. -/
def join (base ref : List Char) : Except Fault (List Char) :=
  if ref = [] then .ok base else do
  let b ← parse [] base
  let r ← parse b.scheme ref
  if r.scheme ≠ b.scheme then return ref
  if r.authority ≠ [] then return write r
  if r.path = [] && r.params = [] then
    return write { r with
      authority := b.authority, path := b.path, params := b.params,
      query := if r.query = [] then b.query else r.query }
  return write { r with authority := b.authority, path := joinPath b.path r.path }

end Url

end LazyModules
