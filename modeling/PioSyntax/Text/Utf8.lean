import PioSyntax.Text

namespace PioSyntax

abbrev Bytes := List UInt8

namespace Utf8

inductive Fault where
  | startByte
  | continuationByte
  | endOfData
deriving DecidableEq

def Fault.message : Fault → Text
  | startByte => "invalid start byte"
  | continuationByte => "invalid continuation byte"
  | endOfData => "unexpected end of data"

/-- The bytes from `start` up to `stop`, the first of them `byte`, are not a character. -/
structure Error where
  fault : Fault
  byte : Nat
  start : Nat
  stop : Nat
deriving DecidableEq

def Error.message (e : Error) : Text :=
  "'utf-8' codec can't decode " ++
    (if e.stop = e.start + 1 then
      "byte 0x" ++ Text.ofHex 2 e.byte ++ " in position " ++ Text.ofNat e.start
    else
      "bytes in position " ++ Text.ofNat e.start ++ "-" ++ Text.ofNat (e.stop - 1)) ++
    ": " ++ e.fault.message

def encodeChar (c : Char) : Bytes :=
  let n := c.toNat
  if n < 0x80 then [n.toUInt8]
  else if n < 0x800 then [(0xC0 + n / 0x40).toUInt8, (0x80 + n % 0x40).toUInt8]
  else if n < 0x10000 then
    [(0xE0 + n / 0x1000).toUInt8, (0x80 + n / 0x40 % 0x40).toUInt8, (0x80 + n % 0x40).toUInt8]
  else
    [(0xF0 + n / 0x40000).toUInt8, (0x80 + n / 0x1000 % 0x40).toUInt8,
      (0x80 + n / 0x40 % 0x40).toUInt8, (0x80 + n % 0x40).toUInt8]

def encode (text : Text) : Bytes := text.flatMap encodeChar

def secondRange (first : Nat) : Nat × Nat :=
  if first = 0xE0 then (0xA0, 0xBF)
  else if first = 0xED then (0x80, 0x9F)
  else if first = 0xF0 then (0x90, 0xBF)
  else if first = 0xF4 then (0x80, 0x8F)
  else (0x80, 0xBF)

def lead? (first : Nat) : Option (Nat × Nat) :=
  if first < 0x80 then some (1, first)
  else if 0xC2 ≤ first && first < 0xE0 then some (2, first - 0xC0)
  else if 0xE0 ≤ first && first < 0xF0 then some (3, first - 0xE0)
  else if 0xF0 ≤ first && first < 0xF5 then some (4, first - 0xF0)
  else none

/-- Adds `count` continuation bytes to a value, the first of them within bounds. On failure it says
how many bytes were good before the fault. -/
def continuation (good value : Nat) (bounds : Nat × Nat) : (count : Nat) → Bytes →
    Except (Fault × Nat) Nat
  | 0, _ => .ok value
  | _ + 1, [] => .error (.endOfData, good)
  | count + 1, b :: rest =>
    if bounds.1 ≤ b.toNat && b.toNat ≤ bounds.2 then
      continuation (good + 1) (0x40 * value + (b.toNat - 0x80)) (0x80, 0xBF) count rest
    else .error (.continuationByte, good)

/-- The character at the head of the bytes and its size, or a fault and the number of bytes that it
concerns. -/
def first (b : UInt8) (rest : Bytes) : Except (Fault × Nat) (Char × Nat) :=
  match lead? b.toNat with
  | none => .error (.startByte, 1)
  | some (size, value) =>
    (continuation 1 value (secondRange b.toNat) (size - 1) rest).map fun n => (Char.ofNat n, size)

/-- Decodes a rest of the bytes at `offset`. Of the last character, `skip` bytes are left. -/
def decodeFrom (skip offset : Nat) : Bytes → Except Error Text
  | [] => .ok []
  | b :: rest =>
    match skip with
    | skip + 1 => decodeFrom skip (offset + 1) rest
    | 0 =>
      match first b rest with
      | .error (fault, size) => .error ⟨fault, b.toNat, offset, offset + size⟩
      | .ok (c, size) =>
        match decodeFrom (size - 1) (offset + 1) rest with
        | .ok text => .ok (c :: text)
        | .error e => .error e

def decode (bytes : Bytes) : Except Error Text := decodeFrom 0 0 bytes

def replacement : Char := '\uFFFD'

def decodeLenientFrom (skip : Nat) : Bytes → Text
  | [] => []
  | b :: rest =>
    match skip with
    | skip + 1 => decodeLenientFrom skip rest
    | 0 =>
      match first b rest with
      | .error (_, size) => replacement :: decodeLenientFrom (size - 1) rest
      | .ok (c, size) => c :: decodeLenientFrom (size - 1) rest

def decodeLenient (bytes : Bytes) : Text := decodeLenientFrom 0 bytes

end Utf8

end PioSyntax
