import ResourceNames.Java.Follow
import ResourceNames.Java.Tree

/-!
The parts of a node by name.

Each kind of token and each rule that the body of a rule mentions names the children of that
sort. If some reading of the body has more than one of them the name stands for a list.
-/
namespace ResourceNames.Java

/-- A sort of child: a token of a kind or a node of a rule. -/
inductive Part where
  | token (kind : Kind)
  | rule (rule : Rule)
  deriving DecidableEq, Repr

def Part.name : Part → String
  | .token k => k.name
  | .rule r => r.name

def Part.holds : Part → Tree → Bool
  | .token k, t => t.isKind k
  | .rule r, t => t.isRule r

def Tree.child? (node : Tree) (part : Part) : Option Tree := node.children.find? part.holds

/-- How a name gives the children of its sort: the only one, or all of them. -/
structure Accessor where
  part : Part
  isList : Bool
  deriving DecidableEq, Repr

namespace Accessor

/-- How often each sort can occur, as far as that is told apart: once or more often. -/
abbrev Counts := List (Part × Nat)

def Counts.get (cs : Counts) (s : Part) : Nat := (cs.lookup s).getD 0

def Counts.combine (f : Nat → Nat → Nat) (a b : Counts) : Counts :=
  a.map (fun e => (e.1, f e.2 (b.get e.1))) ++
    (b.filter fun e => !a.any fun d => d.1 == e.1).map fun e => (e.1, f 0 e.2)

mutual

/-- How often each sort occurs in a phrase at most; a loop counts as twice. -/
def counts : Phrase → Counts
  | .token kind _ => [(.token kind, 1)]
  | .oneOf kinds _ => kinds.map fun k => (.token k, 1)
  | .call rule _ _ => [(.rule rule, 1)]
  | .seq parts => countsAll parts
  | .choice alts => countsAny alts
  | .opt alts => countsAny alts
  | .star body => (counts body).map fun e => (e.1, 2 * e.2)
  | .plus body => (counts body).map fun e => (e.1, 2 * e.2)

def countsAll : List Phrase → Counts
  | [] => []
  | p :: ps => Counts.combine (· + ·) (counts p) (countsAll ps)

def countsAny : List Phrase → Counts
  | [] => []
  | p :: ps => Counts.combine max (counts p) (countsAny ps)

end

/-- The alternatives of a rule; a tail stands after an expression. -/
def alternatives (r : Rule) : List Phrase :=
  match Grammar.body r with
  | .alternatives alts => alts
  | .operators heads tails => heads ++ tails.map fun t => .seq [.call r 0 none, t.2]

def ofRule (r : Rule) : List Accessor :=
  (countsAny (alternatives r)).map fun e => ⟨e.1, 1 < e.2⟩

def children (a : Accessor) (node : Tree) : List Tree := node.children.filter a.part.holds

end Accessor

structure NoLevels where
  rule : Int
  deriving DecidableEq, Repr

def NoLevels.message (e : NoLevels) : String := "No predicate with index:" ++ toString e.rule

/-- Whether the tail with a number, counted from zero, may follow an expression read with a
level; nothing is known of other numbers. -/
def tailAllowed? (rule number level : Int) : Except NoLevels (Option Bool) :=
  match (Rule.all.find? fun r => (r.index : Int) == rule).map Grammar.body with
  | some (.operators _ tails) =>
    .ok (if number < 0 then none else tails[number.toNat]?.map fun t => decide (level ≤ t.1))
  | _ => .error ⟨rule⟩

end ResourceNames.Java
