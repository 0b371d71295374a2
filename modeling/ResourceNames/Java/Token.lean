import ResourceNames.Java.Lexicon

/-!
Tokens of a source text.

`pieces` cuts a text into words and stretches that are no word; nothing is lost or moved. A
`Source` holds the words as numbered tokens, closed by an end token, and the other stretches as
lexical errors with the number of tokens that stand before them.
-/
namespace ResourceNames.Java

/-- A place in a text: how many characters stand before it, its line from one, and how many
characters stand before it on that line. -/
structure Place where
  offset : Nat
  line : Nat
  column : Nat
  deriving DecidableEq, Repr, Inhabited

namespace Place

def start : Place := ⟨0, 1, 0⟩

/-- The place after a character. Only a line feed begins a new line. -/
def advance (p : Place) (c : Char) : Place :=
  if c = '\n' then ⟨p.offset + 1, p.line + 1, 0⟩ else ⟨p.offset + 1, p.line, p.column + 1⟩

def listed (p : Place) : String := toString p.line ++ ":" ++ toString p.column

end Place

/-- A stretch of a text: a word of some kind, or no word. -/
structure Piece where
  kind : Option Kind
  start : Place
  text : List Char
  deriving DecidableEq, Repr

/-- Cuts a text into pieces. `skip` characters at the front belong to the piece before. -/
def piecesFrom : List Char → Place → Nat → List Piece
  | [], _, _ => []
  | c :: cs, p, skip + 1 => piecesFrom cs (p.advance c) skip
  | c :: cs, p, 0 =>
    let m := Lexicon.munch (c :: cs)
    ⟨m.kind, p, (c :: cs).take m.length⟩ :: piecesFrom cs (p.advance c) (m.length - 1)

def pieces (text : List Char) : List Piece := piecesFrom text Place.start 0

/-- A token with its number among all tokens of the text. -/
structure Token where
  kind : Kind
  index : Nat
  start : Place
  text : String
  deriving DecidableEq, Repr, Inhabited

namespace Token

/-- How many characters of the text a token covers; the end token covers none. -/
def length (t : Token) : Nat := if t.kind = .eof then 0 else t.text.length

def stop (t : Token) : Int := (t.start.offset : Int) + t.length - 1

def isVisible (t : Token) : Bool := !t.kind.isHidden

end Token

/-- Writes the blank characters of a text visibly: tab, line feed and carriage return. -/
def showBlanks (text : String) : String :=
  String.join (text.toList.map fun c =>
    match c with
    | '\t' => "\\t"
    | '\n' => "\\n"
    | '\r' => "\\r"
    | c => String.singleton c)

/-- A stretch of text that is no word; `before` tokens stand before it. -/
structure LexicalError where
  before : Nat
  start : Place
  text : String
  deriving DecidableEq, Repr

def LexicalError.message (e : LexicalError) : String :=
  "token recognition error at: '" ++ showBlanks e.text ++ "'"

/-- A source text cut into tokens. -/
structure Source where
  /-- All tokens; the last one is the end. -/
  tokens : Array Token
  /-- The tokens that the grammar sees; the last one is the end. -/
  visible : Array Token
  errors : List LexicalError
  deriving Repr

namespace Source

def number : Nat → List Piece → List Token
  | _, [] => []
  | n, p :: ps =>
    match p.kind with
    | some k => ⟨k, n, p.start, String.ofList p.text⟩ :: number (n + 1) ps
    | none => number n ps

/-- The stretches without a kind, with `n` tokens before the first piece. -/
def rejected : Nat → List Piece → List LexicalError
  | _, [] => []
  | n, p :: ps =>
    match p.kind with
    | some _ => rejected (n + 1) ps
    | none => ⟨n, p.start, String.ofList p.text⟩ :: rejected n ps

def endToken (n : Nat) (text : List Char) : Token :=
  ⟨.eof, n, text.foldl Place.advance Place.start, "<EOF>"⟩

def ofString (text : String) : Source :=
  let chars := text.toList
  let ps := pieces chars
  let words := number 0 ps
  let tokens := words ++ [endToken words.length chars]
  ⟨tokens.toArray, (tokens.filter Token.isVisible).toArray, rejected 0 ps⟩

/-- How many tokens are fetched to see the first `n` visible ones. -/
def fetchedFor (s : Source) : Nat → Nat
  | 0 => 0
  | n + 1 => ((s.visible[n]?).map fun t => t.index + 1).getD s.tokens.size

/-- How many lexical errors are met while fetching the first `n` tokens. -/
def errorsWithin (s : Source) (n : Nat) : Nat :=
  (s.errors.takeWhile fun e => e.before < n).length

end Source

end ResourceNames.Java
