/-!
Regular patterns over characters.

`Pattern.Matches` says which words a pattern describes. A pattern is run one character at a
time: `Pattern.after c p` lists patterns that together describe what may follow `c` in a word of
`p`. The list holds only parts of `p`, so it stays short however long the word grows, and it is
empty exactly when no word of `p` starts with `c`.
-/
namespace ResourceNames.Text

/-- A set of characters: those inside the ranges, or those outside them. -/
structure CharSet where
  outside : Bool
  ranges : List (Char × Char)
  deriving DecidableEq, Repr

namespace CharSet

def contains (s : CharSet) (c : Char) : Bool :=
  s.outside ^^ s.ranges.any fun r => r.1 ≤ c && c ≤ r.2

def of (chars : String) : CharSet := ⟨false, chars.toList.map fun c => (c, c)⟩

def but (chars : String) : CharSet := ⟨true, chars.toList.map fun c => (c, c)⟩

end CharSet

/-- A regular pattern. -/
inductive Pattern where
  | empty
  | one (s : CharSet)
  | seq (p q : Pattern)
  | alt (p q : Pattern)
  | star (p : Pattern)
  deriving DecidableEq, Repr

namespace Pattern

inductive Matches : Pattern → List Char → Prop where
  | empty : Matches .empty []
  | one {s : CharSet} {c : Char} (h : s.contains c = true) : Matches (.one s) [c]
  | seq {p q : Pattern} {u v : List Char} (hu : Matches p u) (hv : Matches q v) :
      Matches (.seq p q) (u ++ v)
  | left {p q : Pattern} {u : List Char} (h : Matches p u) : Matches (.alt p q) u
  | right {p q : Pattern} {u : List Char} (h : Matches q u) : Matches (.alt p q) u
  | done {p : Pattern} : Matches (.star p) []
  | more {p : Pattern} {u v : List Char} (hu : Matches p u) (hv : Matches (.star p) v) :
      Matches (.star p) (u ++ v)

def nullable : Pattern → Bool
  | .empty => true
  | .one _ => false
  | .seq p q => p.nullable && q.nullable
  | .alt p q => p.nullable || q.nullable
  | .star _ => true

def andThen (p q : Pattern) : Pattern :=
  match p with
  | .empty => q
  | p => .seq p q

/-- What may stand after the character `c` in a word of the pattern. -/
def after (c : Char) : Pattern → List Pattern
  | .empty => []
  | .one s => if s.contains c then [.empty] else []
  | .seq p q =>
    (p.after c).map (·.andThen q) ++ (if p.nullable then q.after c else [])
  | .alt p q => p.after c ++ q.after c
  | .star p => (p.after c).map (·.andThen (.star p))

def oneOf (chars : String) : Pattern := .one (CharSet.of chars)

def noneOf (chars : String) : Pattern := .one (CharSet.but chars)

def range (lo hi : Char) : Pattern := .one ⟨false, [(lo, hi)]⟩

def ranges (rs : List (Char × Char)) : Pattern := .one ⟨false, rs⟩

def word (w : String) : Pattern :=
  w.toList.foldr (fun c p => .seq (.one ⟨false, [(c, c)]⟩) p) .empty

def opt (p : Pattern) : Pattern := .alt p .empty

def plus (p : Pattern) : Pattern := .seq p (.star p)

def all (ps : List Pattern) : Pattern := ps.foldr .seq .empty

end Pattern

end ResourceNames.Text
