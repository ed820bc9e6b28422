/-!
# Reading UTF-8

Bytes become characters one well-formed sequence at a time. Where a sequence is ill-formed, the fault
covers its longest well-formed beginning (at least one byte) and says why it stops there.
-/
namespace LazyModules.Text.Utf8

/-- Why a sequence of bytes is no character. -/
inductive Reason where
  | invalidStart
  | invalidContinuation
  | unexpectedEnd
  deriving DecidableEq, Repr

/-- An ill-formed part: where it begins, its first byte, how many bytes it covers, and why. -/
structure Fault where
  start : Nat
  byte : UInt8
  width : Nat
  reason : Reason
  deriving DecidableEq, Repr

/-- The bytes of one sequence: a character with its width, or the width of an ill-formed part. -/
inductive Step where
  | char (c : Char) (width : Nat)
  | bad (width : Nat) (reason : Reason)

def isContinuation (b : UInt8) : Bool := 0x80 ≤ b && b ≤ 0xbf

/-- The bytes that may follow the first byte of a sequence: fewer than all continuation bytes after the
bytes that could also begin an overlong form, a surrogate, or a code point past the last. -/
def maySecond (b c : UInt8) : Bool :=
  isContinuation c &&
    !((b = 0xe0 && c < 0xa0) || (b = 0xed && 0x9f < c) || (b = 0xf0 && c < 0x90) || (b = 0xf4 && 0x8f < c))

/-- How many bytes a sequence has, by its first byte. -/
def widthOf (b : UInt8) : Option Nat :=
  if b < 0x80 then some 1
  else if b < 0xc2 then none
  else if b < 0xe0 then some 2
  else if b < 0xf0 then some 3
  else if b < 0xf5 then some 4
  else none

def payload (b : UInt8) : Nat := b.toNat % 64

/-- Reads the first sequence of `b :: rest`. -/
def step (b : UInt8) (rest : List UInt8) : Step :=
  match widthOf b with
  | none => .bad 1 .invalidStart
  | some 1 => .char (Char.ofNat b.toNat) 1
  | some 2 =>
    match rest with
    | [] => .bad 1 .unexpectedEnd
    | c :: _ =>
      if maySecond b c then .char (Char.ofNat (b.toNat % 32 * 64 + payload c)) 2
      else .bad 1 .invalidContinuation
  | some 3 =>
    match rest with
    | [] => .bad 1 .unexpectedEnd
    | c :: rest =>
      if !maySecond b c then .bad 1 .invalidContinuation else
      match rest with
      | [] => .bad 2 .unexpectedEnd
      | d :: _ =>
        if isContinuation d then
          .char (Char.ofNat ((b.toNat % 16 * 64 + payload c) * 64 + payload d)) 3
        else .bad 2 .invalidContinuation
  | some _ =>
    match rest with
    | [] => .bad 1 .unexpectedEnd
    | c :: rest =>
      if !maySecond b c then .bad 1 .invalidContinuation else
      match rest with
      | [] => .bad 2 .unexpectedEnd
      | d :: rest =>
        if !isContinuation d then .bad 2 .invalidContinuation else
        match rest with
        | [] => .bad 3 .unexpectedEnd
        | e :: _ =>
          if isContinuation e then
            .char (Char.ofNat (((b.toNat % 8 * 64 + payload c) * 64 + payload d) * 64 + payload e)) 4
          else .bad 3 .invalidContinuation

/-- Reads bytes as characters; `skip` bytes belong to the sequence read last, and the next is number
`pos`. The first ill-formed part ends the reading. -/
def decodeFrom : List UInt8 → (skip pos : Nat) → Except Fault (List Char)
  | [], _, _ => .ok []
  | _ :: rest, skip + 1, pos => decodeFrom rest skip (pos + 1)
  | b :: rest, 0, pos =>
    match step b rest with
    | .char c w => (decodeFrom rest (w - 1) (pos + 1)).map (c :: ·)
    | .bad w r => .error ⟨pos, b, w, r⟩

/-- Reads bytes as text, or says where they stop being text. -/
def decode (bytes : List UInt8) : Except Fault String :=
  (decodeFrom bytes 0 0).map String.ofList

/-- Reads bytes as characters, with U+FFFD in place of each ill-formed part. -/
def decodeLossy : List UInt8 → (skip : Nat) → List Char
  | [], _ => []
  | _ :: rest, skip + 1 => decodeLossy rest skip
  | b :: rest, 0 =>
    match step b rest with
    | .char c w => c :: decodeLossy rest (w - 1)
    | .bad w _ => '�' :: decodeLossy rest (w - 1)

end LazyModules.Text.Utf8
