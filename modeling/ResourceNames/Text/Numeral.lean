import ResourceNames.Text.Digits
import ResourceNames.Text.Quoted

/-!
Whole numbers as they are written.

A numeral may stand between blanks and have one sign; single underscores may stand between its
digits. Decimal numerals take the digits of any script, but not too many of them. Numerals in
base sixteen may begin with `0x`, which an underscore may follow.
-/
namespace ResourceNames.Text

inductive Base where
  | ten
  | sixteen
  deriving DecidableEq, Repr

namespace Base

def size : Base → Nat
  | .ten => 10
  | .sixteen => 16

def digit? (b : Base) (c : Char) : Option Nat :=
  let n := c.toNat
  let value :=
    if '0'.toNat ≤ n ∧ n ≤ '9'.toNat then some (n - '0'.toNat)
    else if 'a'.toNat ≤ n ∧ n ≤ 'f'.toNat then some (n - 'a'.toNat + 10)
    else if 'A'.toNat ≤ n ∧ n ≤ 'F'.toNat then some (n - 'A'.toNat + 10)
    else none
  value.filter fun v => v < b.size

def maxDigits? : Base → Option Nat
  | .ten => some 4300
  | .sixteen => none

end Base

inductive NumeralError where
  | malformed (base : Base) (text : String)
  | tooLong (digits limit : Nat)
  deriving DecidableEq, Repr

def NumeralError.message : NumeralError → String
  | .malformed base text =>
    "invalid literal for int() with base " ++ toString base.size ++ ": " ++
      String.ofList ((quoted text).toList.take 200)
  | .tooLong digits limit =>
    "Exceeds the limit (" ++ toString limit ++
      " digits) for integer string conversion: value has " ++ toString digits ++
      " digits; use sys.set_int_max_str_digits() to increase the limit"

/-- A digit or a blank of any script as the one of ASCII. -/
def plainChar (c : Char) : Char :=
  if c.toNat < 127 then c
  else if isWideBlank c then ' '
  else
    match digitValue? c with
    | some v => Char.ofNat ('0'.toNat + v)
    | none => c

/-- Whether a digit or an underscore may stand here. -/
def isDigitOrMark (b : Base) (c : Char) : Bool := (b.digit? c).isSome || c == '_'

def marksFit : List Char → Bool
  | [] => true
  | ['_'] => false
  | '_' :: '_' :: _ => false
  | _ :: cs => marksFit cs

def digitsValue (b : Base) (cs : List Char) : Nat :=
  cs.foldl (fun n c =>
    match b.digit? c with
    | some d => b.size * n + d
    | none => n) 0

/-- Takes the sign off a numeral: whether it is a minus, and what follows it. -/
def takeSign : List Char → Bool × List Char
  | '+' :: cs => (false, cs)
  | '-' :: cs => (true, cs)
  | cs => (false, cs)

def dropMark : Base → List Char → List Char
  | .sixteen, '0' :: x :: cs =>
    if x = 'x' ∨ x = 'X' then
      match cs with
      | '_' :: rest => rest
      | rest => rest
    else '0' :: x :: cs
  | _, cs => cs

def readNumeral (b : Base) (text : String) : Except NumeralError Int :=
  let (minus, cs) := takeSign ((text.toList.map plainChar).dropWhile isBlank)
  let cs := dropMark b cs
  let run := cs.takeWhile (isDigitOrMark b)
  let rest := cs.dropWhile (isDigitOrMark b)
  let count := (run.filter (· ≠ '_')).length
  if run.head? = some '_' ∨ !marksFit run then .error (.malformed b text)
  else
    match b.maxDigits?.filter (· < count) with
    | some limit => .error (.tooLong count limit)
    | none =>
      if count = 0 ∨ !rest.all isBlank then .error (.malformed b text)
      else
        let n := digitsValue b run
        .ok (if minus then -(n : Int) else n)

/-- The digits of a number in base sixteen, without leading zeros. -/
def hexNat (n : Nat) : List Char :=
  if _h : n < 16 then [hexDigit n] else hexNat (n / 16) ++ [hexDigit (n % 16)]

def hex (i : Int) : String :=
  (if i < 0 then "-0x" else "0x") ++ String.ofList (hexNat i.natAbs)

def upperHex (i : Int) : String := String.ofList ((hex i).toList.map Char.toUpper)

/-- A number in base sixteen in capitals, filled up with zeros after the sign to a width of
eight. -/
def paddedHex (i : Int) : String :=
  let sign := if i < 0 then ['-'] else []
  let digits := (hexNat i.natAbs).map Char.toUpper
  String.ofList (sign ++ List.replicate (8 - (sign.length + digits.length)) '0' ++ digits)

end ResourceNames.Text
