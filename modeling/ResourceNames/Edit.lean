import ResourceNames.Java.Token

/-!
Edits of a source by its tokens.

A program is a list of edits: texts to insert before a token and texts to put in place of tokens.
It can be carried out when it has an insertion and each token is edited once; a program without
edits gives the tokens as they are. An insertion before a token that an earlier edit replaces is
joined with it, which leaves a gap in the program.
-/
namespace ResourceNames

open Java

inductive Edit where
  /-- A text before the token with a number. -/
  | insert (index : Nat) (text : String)
  /-- A text in place of the tokens from one number until another. -/
  | replace (index last : Nat) (text : String)
  deriving DecidableEq, Repr

namespace Edit

def index : Edit → Nat
  | .insert i _ => i
  | .replace i _ _ => i

def text : Edit → String
  | .insert _ t => t
  | .replace _ _ t => t

def isInsert : Edit → Bool
  | .insert .. => true
  | .replace .. => false

def range? : Edit → Option (Nat × Nat)
  | .insert .. => none
  | .replace i last _ => some (i, last)

/-- Puts a text in front of that of a replacement of the tokens from `index` on. -/
def join (index : Nat) (text : String) : Edit → Edit
  | .insert i t => .insert i t
  | .replace i last t => if i = index then .replace i last (text ++ t) else .replace i last t

end Edit

inductive ProgramError where
  /-- Tokens are replaced that were replaced before. -/
  | replacedAgain
  /-- Other tokens were replaced before. -/
  | replacedElsewhere
  /-- There is no insertion. -/
  | noInsertion
  /-- Two edits stand at one token. -/
  | taken
  deriving DecidableEq, Repr

def ProgramError.message : ProgramError → String
  | .replacedAgain => "'ReplaceOp' object has no attribute 'instructioIndex'"
  | .replacedElsewhere => "'>' not supported between instances of 'int' and 'ReplaceOp'"
  | .noInsertion => "'NoneType' object has no attribute 'get'"
  | .taken => "should be only one op per index"

/-- Edits in the order in which they were made; a gap is an edit joined with another one. -/
abbrev Program := List (Option Edit)

namespace Program

def edits (p : Program) : List Edit := p.filterMap id

def ranges (p : Program) : List (Nat × Nat) := p.edits.filterMap Edit.range?

/-- Two replacements are one too many: the second of them is compared with the first. -/
def clash? (p : Program) : Option ProgramError :=
  match p.ranges with
  | (i, last) :: (j, last') :: _ =>
    some (if j ≤ i ∧ last ≤ last' then .replacedAgain else .replacedElsewhere)
  | _ => none

/-- Joins the first insertion with the replacements before it at the same token. -/
def settle (p : Program) : Option Program :=
  match p.findIdx? fun e => e.any Edit.isInsert with
  | none => none
  | some k =>
    match p[k]? with
    | some (some (.insert i text)) =>
      let before := p.take k
      if before.any fun e => e.any fun r => r.range?.any fun range => range.1 = i then
        some (before.map (Option.map (Edit.join i text)) ++ none :: p.drop (k + 1))
      else some p
    | _ => some p

/-- Whether two edits stand at one token. -/
def repeats : List Edit → Bool
  | [] => false
  | e :: es => es.any (fun d => d.index == e.index) || repeats es

def written (t : Token) : String := if t.kind = .eof then "" else t.text

/-- Writes tokens with their edits, beginning with the token numbered `next`. -/
def write (edits : List Edit) : List Token → Nat → String
  | [], _ => ""
  | t :: ts, next =>
    if t.index < next then write edits ts next
    else
      match edits.find? fun e => e.index == t.index with
      | none => written t ++ write edits ts (t.index + 1)
      | some (.insert _ text) => text ++ written t ++ write edits ts (t.index + 1)
      | some (.replace _ last text) => text ++ write edits ts (last + 1)

def between (tokens : List Token) (start stop : Int) : List Token :=
  (tokens.drop start.toNat).take (stop + 1 - max start 0).toNat

/-- The text of the tokens between two numbers after the edits, and the program as it is then.
Edits at the end of the source are written once more if the text goes to the end. -/
def text (tokens : List Token) (start stop : Int) (p : Program) :
    Program × Except ProgramError String :=
  if p.isEmpty then
    (p, .ok (if start < 0 then "" else
      String.join ((between tokens start stop).map written)))
  else
    match p.clash? with
    | some e => (p, .error e)
    | none =>
      match p.settle with
      | none => (p, .error .noInsertion)
      | some p' =>
        if repeats p'.edits then (p', .error .taken)
        else
          let final := (tokens.length : Int) - 1
          let atEnd := p'.edits.filter fun e => final ≤ (e.index : Int)
          (p', .ok (write p'.edits (between tokens start stop) 0 ++
            (if final ≤ stop then String.join (atEnd.map Edit.text) else "")))

end Program

end ResourceNames
