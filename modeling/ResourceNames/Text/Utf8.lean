import ResourceNames.Text.Quoted

/-!
Bytes as characters in UTF-8.

The first byte of a character says which bytes may follow it. Reading stops at the first byte
that cannot stand where it does; the error covers the bytes of the character begun there.
-/
namespace ResourceNames.Text

inductive Utf8Fault where
  | badStart
  | badContinuation
  | cutOff
  deriving DecidableEq, Repr

/-- Bytes that are no character: their place, their number, the first of them, and what is wrong
with them. -/
structure Utf8Error where
  start : Nat
  length : Nat
  first : UInt8
  fault : Utf8Fault
  deriving DecidableEq, Repr

def Utf8Fault.words : Utf8Fault → String
  | .badStart => "invalid start byte"
  | .badContinuation => "invalid continuation byte"
  | .cutOff => "unexpected end of data"

def Utf8Error.message (e : Utf8Error) : String :=
  let bytes :=
    if e.length = 1 then
      "byte 0x" ++ String.ofList (hexDigits 2 e.first.toNat) ++ " in position " ++ toString e.start
    else "bytes in position " ++ toString e.start ++ "-" ++ toString (e.start + e.length - 1)
  "'utf-8' codec can't decode " ++ bytes ++ ": " ++ e.fault.words

/-- A character of which some bytes have been read. -/
structure Begun where
  first : UInt8
  /-- How many bytes have been read. -/
  length : Nat
  /-- The value of the bits read. -/
  value : Nat
  /-- The least and the greatest value of each byte to come. -/
  owed : List (Nat × Nat)
  deriving Repr

/-- A byte after the first, as a rule. -/
def continuation : Nat × Nat := (0x80, 0xBF)

def Begun.ofByte? (b : UInt8) : Option Begun :=
  let n := b.toNat
  if n < 0x80 then some ⟨b, 1, n, []⟩
  else if n < 0xC2 then none
  else if n < 0xE0 then some ⟨b, 1, n - 0xC0, [continuation]⟩
  else if n = 0xE0 then some ⟨b, 1, 0, [(0xA0, 0xBF), continuation]⟩
  else if n = 0xED then some ⟨b, 1, n - 0xE0, [(0x80, 0x9F), continuation]⟩
  else if n < 0xF0 then some ⟨b, 1, n - 0xE0, [continuation, continuation]⟩
  else if n = 0xF0 then some ⟨b, 1, 0, [(0x90, 0xBF), continuation, continuation]⟩
  else if n < 0xF4 then some ⟨b, 1, n - 0xF0, [continuation, continuation, continuation]⟩
  else if n = 0xF4 then some ⟨b, 1, n - 0xF0, [(0x80, 0x8F), continuation, continuation]⟩
  else none

/-- Reads bytes from a position on, after the characters `done`, the latest first, and the bytes
of one that is begun. -/
def decodeFrom : List UInt8 → Nat → List Char → Option Begun → Except Utf8Error (List Char)
  | [], _, done, none => .ok done.reverse
  | [], position, _, some c =>
    .error ⟨position - c.length, c.length, c.first, .cutOff⟩
  | b :: bs, position, done, none =>
    match Begun.ofByte? b with
    | none => .error ⟨position, 1, b, .badStart⟩
    | some ⟨_, _, value, []⟩ => decodeFrom bs (position + 1) (Char.ofNat value :: done) none
    | some c => decodeFrom bs (position + 1) done (some c)
  | b :: bs, position, done, some c =>
    match c.owed with
    | [] => .error ⟨position - c.length, c.length, c.first, .badStart⟩
    | (least, greatest) :: owed =>
      if least ≤ b.toNat ∧ b.toNat ≤ greatest then
        let value := 64 * c.value + (b.toNat - 0x80)
        match owed with
        | [] => decodeFrom bs (position + 1) (Char.ofNat value :: done) none
        | _ :: _ => decodeFrom bs (position + 1) done (some ⟨c.first, c.length + 1, value, owed⟩)
      else .error ⟨position - c.length, c.length, c.first, .badContinuation⟩

def decodeUtf8 (bytes : ByteArray) : Except Utf8Error (List Char) :=
  decodeFrom bytes.toList 0 [] none

end ResourceNames.Text
