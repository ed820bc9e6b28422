import LazyModules.Text.Utf8

/-!
# Percent decoding

In each run of ASCII characters an escape `%XX` stands for a byte, and the bytes of the run are read as
UTF-8 with U+FFFD for each ill-formed part. A percent sign without two hexadecimal digits stands for
itself.
-/
namespace LazyModules.Text.Percent

/-- The value of a hexadecimal digit in either case. -/
def hexValue (c : Char) : Option Nat :=
  if '0' ≤ c && c ≤ '9' then some (c.toNat - '0'.toNat)
  else if 'a' ≤ c && c ≤ 'f' then some (c.toNat - 'a'.toNat + 10)
  else if 'A' ≤ c && c ≤ 'F' then some (c.toNat - 'A'.toNat + 10)
  else none

/-- The bytes that a run of ASCII characters stands for; `skip` characters belong to the last escape. -/
def bytesOf : List Char → (skip : Nat) → List UInt8
  | [], _ => []
  | _ :: cs, skip + 1 => bytesOf cs skip
  | c :: cs, 0 =>
    match c, cs with
    | '%', a :: b :: _ =>
      match hexValue a, hexValue b with
      | some x, some y => UInt8.ofNat (x * 16 + y) :: bytesOf cs 2
      | _, _ => UInt8.ofNat c.toNat :: bytesOf cs 0
    | _, _ => UInt8.ofNat c.toNat :: bytesOf cs 0

/-- Decodes characters of which `run`, in reverse, is the run of ASCII characters read last. -/
def decodeChars : (run : List Char) → List Char → List Char
  | run, [] => Utf8.decodeLossy (bytesOf run.reverse 0) 0
  | run, c :: cs =>
    if c.toNat < 128 then decodeChars (c :: run) cs
    else Utf8.decodeLossy (bytesOf run.reverse 0) 0 ++ c :: decodeChars [] cs

def decode (s : String) : String := String.ofList (decodeChars [] s.toList)

end LazyModules.Text.Percent
