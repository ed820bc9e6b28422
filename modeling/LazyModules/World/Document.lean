import LazyModules.Table
import LazyModules.Number
import LazyModules.Token.Numeral
import LazyModules.Text.Percent
import LazyModules.Text.Point
import LazyModules.Text.Quoted

/-!
# Documents

A document is a JSON value. Objects keep the order of their keys; of several equal keys the last value
counts, in the place of the first. `write` puts every element on a line of its own, indented by two
spaces for each level, and leaves all characters as they are except the quote, the backslash and the
controls. `read` tells the first thing that is wrong with a text, and where.

An escape can put half a surrogate pair into a string. Then the document can be read and kept, but not
encoded: `encode` writes the pieces before the one that holds the half.
-/
namespace LazyModules

/-- A JSON value. -/
inductive Document where
  | null
  | bool (b : Bool)
  | int (n : Int)
  | float (x : Float)
  | text (s : List Text.Point)
  | array (items : List Document)
  | object (fields : List (List Text.Point × Document))

namespace Document

open Text (Point)

/-! ## Writing -/

/-- A character between the quotes of a string. -/
def escapeChar (c : Char) : List Char :=
  if c = '"' then ['\\', '"']
  else if c = '\\' then ['\\', '\\']
  else if c = '\n' then ['\\', 'n']
  else if c = '\r' then ['\\', 'r']
  else if c = '\t' then ['\\', 't']
  else if c = '\x08' then ['\\', 'b']
  else if c = '\x0c' then ['\\', 'f']
  else if c.toNat < 0x20 then '\\' :: 'u' :: Text.hexDigits 4 c.toNat
  else [c]

/-- A code point between the quotes of a string. -/
def escapePoint : Point → List Point
  | .char c => (escapeChar c).map .char
  | .half k => [.half k]

def writeString (s : List Point) : List Point := .char '"' :: s.flatMap escapePoint ++ [.char '"']

/-- A line break and the indentation of a level. -/
def newline (level : Nat) : List Point := .char '\n' :: List.replicate (2 * level) (.char ' ')

def writeInt (n : Int) : List Char :=
  if n < 0 then '-' :: Nat.toDigits 10 n.natAbs else Nat.toDigits 10 n.natAbs

def writeFloat (x : Float) : List Char :=
  if x.isNaN then "NaN".toList
  else if x.isInf then (if x < 0.0 then "-Infinity" else "Infinity").toList
  else (Number.floatText x).toList

/-- A value without parts; none for an array or an object. -/
def writeScalar? : Document → Option (List Point)
  | .null => some (Text.pointsOf "null")
  | .bool b => some (Text.pointsOf (if b then "true" else "false"))
  | .int n => some ((writeInt n).map .char)
  | .float x => some ((writeFloat x).map .char)
  | .text s => some (writeString s)
  | .array _ => none
  | .object _ => none

mutual

/-- The pieces of a document at a level of indentation, in the order in which they are written. -/
def piecesAt (level : Nat) : Document → List (List Point)
  | .array [] => [Text.pointsOf "[]"]
  | .array ds => itemPieces (level + 1) (.char '[' :: newline (level + 1)) ds ++ [newline level, [.char ']']]
  | .object [] => [Text.pointsOf "\x7b\x7d"]
  | .object fs =>
    [.char '{'] :: fieldPieces (level + 1) (newline (level + 1)) fs ++ [newline level, [.char '}']]
  | d => (writeScalar? d).toList

/-- The pieces of the elements of an array. What stands in front of an element is one piece with it if it
has no parts, and a piece of its own otherwise. -/
def itemPieces (level : Nat) (front : List Point) : List Document → List (List Point)
  | [] => []
  | d :: ds =>
    (match writeScalar? d with
      | some s => [front ++ s]
      | none => front :: piecesAt level d) ++ itemPieces level (.char ',' :: newline level) ds

/-- The pieces of the fields of an object, each after what stands in front of it. -/
def fieldPieces (level : Nat) (front : List Point) : List (List Point × Document) → List (List Point)
  | [] => []
  | (k, d) :: fs =>
    front :: writeString k :: Text.pointsOf ": " :: piecesAt level d ++
      fieldPieces level (.char ',' :: newline level) fs

end

def pieces (d : Document) : List (List Point) := piecesAt 0 d

def write (d : Document) : List Point := d.pieces.flatten

/-- The first run of halves in pieces, by its offset in the piece that holds it. -/
def unencodable? (ps : List (List Point)) : Option Text.HalfRun := ps.findSome? (Text.halfRun? 0)

/-- What reaches a file when pieces are encoded one after the other, up to the first that holds a half. -/
def encode (ps : List (List Point)) : String :=
  Text.legible (ps.takeWhile fun p => (Text.halfRun? 0 p).isNone).flatten

/-! ## Reading -/

inductive Problem where
  | expectingValue
  | expectingName
  | expectingColon
  | expectingComma
  | extraData
  | unterminatedString
  | controlCharacter
  | unknownEscape
  | badCodeUnit
  | byteOrderMark
  /-- an integer of so many digits -/
  | longNumeral (count : Nat)
  deriving DecidableEq, Repr

def Problem.message : Problem → String
  | .expectingValue => "Expecting value"
  | .expectingName => "Expecting property name enclosed in double quotes"
  | .expectingColon => "Expecting ':' delimiter"
  | .expectingComma => "Expecting ',' delimiter"
  | .extraData => "Extra data"
  | .unterminatedString => "Unterminated string starting at"
  | .controlCharacter => "Invalid control character at"
  | .unknownEscape => "Invalid \\escape"
  | .badCodeUnit => "Invalid \\uXXXX escape"
  | .byteOrderMark => "Unexpected UTF-8 BOM (decode using utf-8-sig)"
  | .longNumeral _ => "Exceeds the limit (4300 digits) for integer string conversion"

/-- What is wrong, and at which offset. -/
structure Fault where
  problem : Problem
  offset : Nat
  deriving DecidableEq, Repr

/-- What is left of a text, and at which offset that begins. -/
structure Cursor where
  chars : List Char
  offset : Nat

/-- The cursor `n` characters on. -/
def Cursor.drop (c : Cursor) (n : Nat) : Cursor := ⟨c.chars.drop n, c.offset + n⟩

def isBlank (c : Char) : Bool := c = ' ' || c = '\t' || c = '\n' || c = '\r'

/-- The cursor after the blanks at its front. -/
def Cursor.skipBlanks (c : Cursor) : Cursor := c.drop (c.chars.takeWhile isBlank).length

/-- The number that four hexadecimal digits stand for. -/
def codeUnit? : List Char → Option Nat
  | a :: b :: c :: d :: _ => do
    let a ← Text.Percent.hexValue a
    let b ← Text.Percent.hexValue b
    let c ← Text.Percent.hexValue c
    let d ← Text.Percent.hexValue d
    return ((a * 16 + b) * 16 + c) * 16 + d
  | _ => none

def isHighSurrogate (n : Nat) : Bool := 0xd800 ≤ n && n ≤ 0xdbff

def isLowSurrogate (n : Nat) : Bool := 0xdc00 ≤ n && n ≤ 0xdfff

/-- Reads what follows `\u`, whose `u` is at `offset`: a code point, and how many characters it takes. A
string needs at least one character more after it. -/
def readCodeUnits (offset : Nat) (cs : List Char) : Except Fault (Point × Nat) :=
  if cs.length < 5 then .error ⟨.badCodeUnit, offset⟩ else
  match codeUnit? cs with
  | none => .error ⟨.badCodeUnit, offset⟩
  | some high =>
    let second := cs.drop 4
    if isHighSurrogate high && 6 < second.length && ['\\', 'u'].isPrefixOf second then
      match codeUnit? (second.drop 2) with
      | none => .error ⟨.badCodeUnit, offset + 6⟩
      | some low =>
        if isLowSurrogate low then
          .ok (.char (Char.ofNat (0x10000 + (high - 0xd800) * 0x400 + (low - 0xdc00))), 10)
        else .ok (.ofUnit high, 4)
    else .ok (.ofUnit high, 4)

/-- The character that a backslash and `c` stand for. -/
def escape? (c : Char) : Option Char :=
  if c = '"' then some '"'
  else if c = '\\' then some '\\'
  else if c = '/' then some '/'
  else if c = 'b' then some '\x08'
  else if c = 'f' then some '\x0c'
  else if c = 'n' then some '\n'
  else if c = 'r' then some '\r'
  else if c = 't' then some '\t'
  else none

/-- Reads a string after its opening quote at `start` up to its closing one; the next `skip` characters
belong to the last escape. -/
def readString (start : Nat) : List Char → (skip offset : Nat) → Except Fault (List Point × Cursor)
  | [], _, _ => .error ⟨.unterminatedString, start⟩
  | _ :: cs, skip + 1, offset => readString start cs skip (offset + 1)
  | c :: cs, 0, offset =>
    let go (x : Point) (skip : Nat) : Except Fault (List Point × Cursor) :=
      (readString start cs skip (offset + 1)).map fun r => (x :: r.1, r.2)
    if c = '"' then .ok ([], ⟨cs, offset + 1⟩)
    else if c = '\\' then
      match cs with
      | [] => .error ⟨.unterminatedString, start⟩
      | 'u' :: rest =>
        match readCodeUnits (offset + 1) rest with
        | .ok (x, n) => go x (n + 1)
        | .error f => .error f
      | d :: _ =>
        match escape? d with
        | some x => go (.char x) 1
        | none => .error ⟨.unknownEscape, offset⟩
    else if c.toNat < 0x20 then .error ⟨.controlCharacter, offset⟩
    else go (.char c) 0

/-- Reads a number at the front; none if there is none. -/
def readNumber (c : Cursor) : Option (Except Fault (Document × Cursor)) :=
  let negative := c.chars.head? = some '-'
  let cs := if negative then c.chars.drop 1 else c.chars
  let digits := cs.takeWhile Numeral.isDigit
  let whole := if digits.head? = some '0' then ['0'] else digits
  if whole.isEmpty then none else
  let rest := cs.drop whole.length
  let fraction := rest.take (Numeral.fractionLength rest)
  let rest := rest.drop fraction.length
  let exponent := rest.take (Numeral.exponentLength rest)
  let parts : Numeral.Parts := ⟨whole, fraction, exponent⟩
  let after := c.drop (parts.length + if negative then 1 else 0)
  match parts.value with
  | some (.int n) => some (.ok (.int (if negative then -n else n), after))
  | some (.float x) => some (.ok (.float (if negative then -x else x), after))
  | _ => some (.error ⟨.longNumeral whole.length, c.offset⟩)

def words : List (String × Document) :=
  [("null", .null), ("true", .bool true), ("false", .bool false), ("NaN", .float (0.0 / 0.0)),
   ("Infinity", .float (1.0 / 0.0)), ("-Infinity", .float (-1.0 / 0.0))]

/-- Reads a word or a number. -/
def readScalar (c : Cursor) : Except Fault (Document × Cursor) :=
  match words.find? fun w => w.1.toList.isPrefixOf c.chars with
  | some (w, d) => .ok (d, c.drop w.length)
  | none => (readNumber c).getD (.error ⟨.expectingValue, c.offset⟩)

mutual

def readValue : (fuel : Nat) → Cursor → Except Fault (Document × Cursor)
  | 0, c => .error ⟨.expectingValue, c.offset⟩
  | fuel + 1, c =>
    match c.chars with
    | '"' :: cs => (readString c.offset cs 0 (c.offset + 1)).map fun r => (.text r.1, r.2)
    | '{' :: _ =>
      let inner := (c.drop 1).skipBlanks
      if inner.chars.head? = some '}' then .ok (.object [], inner.drop 1) else readFields fuel [] inner
    | '[' :: _ =>
      let inner := (c.drop 1).skipBlanks
      if inner.chars.head? = some ']' then .ok (.array [], inner.drop 1) else readItems fuel [] inner
    | _ => readScalar c

/-- Reads the fields of an object up to its end. -/
def readFields : (fuel : Nat) → List (List Point × Document) → Cursor → Except Fault (Document × Cursor)
  | 0, _, c => .error ⟨.expectingName, c.offset⟩
  | fuel + 1, done, c =>
    match c.chars with
    | '"' :: cs =>
      match readString c.offset cs 0 (c.offset + 1) with
      | .error f => .error f
      | .ok (key, c) =>
        let c := c.skipBlanks
        if c.chars.head? ≠ some ':' then .error ⟨.expectingColon, c.offset⟩ else
        match readValue fuel (c.drop 1).skipBlanks with
        | .error f => .error f
        | .ok (d, c) =>
          let done := Table.insert done key d
          let c := c.skipBlanks
          match c.chars with
          | '}' :: _ => .ok (.object done, c.drop 1)
          | ',' :: _ => readFields fuel done (c.drop 1).skipBlanks
          | _ => .error ⟨.expectingComma, c.offset⟩
    | _ => .error ⟨.expectingName, c.offset⟩

/-- Reads the elements of an array up to its end, after those in `done`, the latest first. -/
def readItems : (fuel : Nat) → List Document → Cursor → Except Fault (Document × Cursor)
  | 0, _, c => .error ⟨.expectingValue, c.offset⟩
  | fuel + 1, done, c =>
    match readValue fuel c with
    | .error f => .error f
    | .ok (d, c) =>
      let c := c.skipBlanks
      match c.chars with
      | ']' :: _ => .ok (.array (d :: done).reverse, c.drop 1)
      | ',' :: _ => readItems fuel (d :: done) (c.drop 1).skipBlanks
      | _ => .error ⟨.expectingComma, c.offset⟩

end

def read (text : List Char) : Except Fault Document :=
  if text.head? = some '﻿' then .error ⟨.byteOrderMark, 0⟩ else
  match readValue (2 * text.length + 2) (Cursor.mk text 0).skipBlanks with
  | .error f => .error f
  | .ok (d, c) =>
    let c := c.skipBlanks
    if c.chars.isEmpty then .ok d else .error ⟨.extraData, c.offset⟩

end Document

end LazyModules
