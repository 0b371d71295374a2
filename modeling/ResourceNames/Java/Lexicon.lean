import ResourceNames.Java.Kind
import ResourceNames.Text.Pattern

/-!
The words of Java, one pattern for each kind of token, in the order in which the kinds are
preferred when they describe the same word.
-/
namespace ResourceNames.Java.Lexicon

open Text (Pattern)
open Text.Pattern (oneOf noneOf range ranges word opt plus all)

/-- A run of decimal digits; underscores may stand between them. -/
def digits : Pattern :=
  .seq (range '0' '9') (opt (.seq (.star (ranges [('0', '9'), ('_', '_')])) (range '0' '9')))

def hexDigit : Pattern := ranges [('0', '9'), ('a', 'f'), ('A', 'F')]

def hexDigitOrLine : Pattern := ranges [('0', '9'), ('a', 'f'), ('A', 'F'), ('_', '_')]

def hexDigits : Pattern := .seq hexDigit (opt (.seq (.star hexDigitOrLine) hexDigit))

def longMark : Pattern := opt (oneOf "lL")

def floatMark : Pattern := opt (oneOf "fFdD")

def exponent : Pattern := all [oneOf "eE", opt (oneOf "+-"), digits]

def escape : Pattern :=
  .seq (oneOf "\\") (.alt (oneOf "btnfr\"'\\") (.alt
    (.seq (opt (.seq (opt (range '0' '3')) (range '0' '7'))) (range '0' '7'))
    (all [plus (oneOf "u"), hexDigit, hexDigit, hexDigit, hexDigit])))

def beyondAscii : Pattern := .one ⟨true, [('\x00', '\x7f')]⟩

/-- A letter: an ASCII letter, `$`, `_`, or any character beyond ASCII. -/
def letter : Pattern :=
  .alt (ranges [('a', 'z'), ('A', 'Z'), ('$', '$'), ('_', '_')]) beyondAscii

def letterOrDigit : Pattern := .alt letter (range '0' '9')

/-- A comment in stars ends at the first star and slash after its opening. -/
def starComment : Pattern :=
  all [word "/*", .star (.alt (noneOf "*") (.seq (plus (oneOf "*")) (noneOf "*/"))),
    plus (oneOf "*"), oneOf "/"]

/-- The words of a kind that has more than one spelling. -/
def varied : Kind → Pattern
  | .decimalLiteral =>
    .seq (.alt (oneOf "0") (.seq (range '1' '9')
        (.alt (opt digits) (.seq (plus (oneOf "_")) digits))))
      longMark
  | .hexLiteral =>
    all [oneOf "0", oneOf "xX", hexDigit, opt (.seq (.star hexDigitOrLine) hexDigit), longMark]
  | .octLiteral =>
    all [oneOf "0", .star (oneOf "_"), range '0' '7',
      opt (.seq (.star (ranges [('0', '7'), ('_', '_')])) (range '0' '7')), longMark]
  | .binaryLiteral =>
    all [oneOf "0", oneOf "bB", oneOf "01", opt (.seq (.star (oneOf "01_")) (oneOf "01")), longMark]
  | .floatLiteral =>
    .alt (all [.alt (all [digits, oneOf ".", opt digits]) (.seq (oneOf ".") digits),
        opt exponent, floatMark])
      (.seq digits (.alt (.seq exponent floatMark) (oneOf "fFdD")))
  | .hexFloatLiteral =>
    all [oneOf "0", oneOf "xX",
      .alt (.seq hexDigits (opt (oneOf "."))) (all [opt hexDigits, oneOf ".", hexDigits]),
      oneOf "pP", opt (oneOf "+-"), digits, floatMark]
  | .boolLiteral => .alt (word "true") (word "false")
  | .charLiteral => all [oneOf "'", .alt (noneOf "'\\\r\n") escape, oneOf "'"]
  | .stringLiteral => all [oneOf "\"", .star (.alt (noneOf "\"\\\r\n") escape), oneOf "\""]
  | .ws => plus (oneOf " \t\r\n\x0c")
  | .comment => starComment
  | .lineComment => .seq (word "//") (.star (noneOf "\r\n"))
  | .identifier => .seq letter (.star letterOrDigit)
  | _ => .empty

def pattern (k : Kind) : Pattern :=
  match k.spelling? with
  | some s => word s
  | none => varied k

def rules : List (Kind × Pattern) := (Kind.all.erase .eof).map fun k => (k, pattern k)

/-- Takes one character: what remains of the words still possible. -/
def step (c : Char) (live : List (Kind × Pattern)) : List (Kind × Pattern) :=
  (live.flatMap fun r => (r.2.after c).map fun p => (r.1, p)).eraseDups

/-- The preferred kind among those whose word is complete. -/
def complete? (live : List (Kind × Pattern)) : Option Kind :=
  (live.find? fun r => r.2.nullable).map (·.1)

/-- A stretch of text taken off the front of the input: a word of some kind, or, without a kind,
characters that start no word. -/
structure Munch where
  kind : Option Kind
  length : Nat
  deriving DecidableEq, Repr

/-- Follows all kinds at once until none can go on. `taken` characters have been read and `best`
is the longest word met so far. Without any word, the stretch ends with the character that
stopped the last kind. -/
def race (live : List (Kind × Pattern)) (taken : Nat) (best : Option Munch) :
    List Char → Munch
  | [] => best.getD ⟨none, taken⟩
  | c :: cs =>
    match step c live with
    | [] => best.getD ⟨none, taken + 1⟩
    | live' =>
      let best' := match complete? live' with
        | some k => some ⟨some k, taken + 1⟩
        | none => best
      race live' (taken + 1) best' cs

/-- The longest word at the front of the input, of the preferred kind. -/
def munch (input : List Char) : Munch := race rules 0 none input

end ResourceNames.Java.Lexicon
