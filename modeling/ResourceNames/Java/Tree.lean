import ResourceNames.Java.Grammar
import ResourceNames.Java.Token

/-!
Parse trees.

A leaf is a token of the source, or a token made up where one was missing. A node of a rule keeps
its children in order, the tokens at which it started and stopped, and its named parts.
-/
namespace ResourceNames.Java

inductive Tree where
  /-- A token of the source; `stray` if it was skipped because it fits nowhere. -/
  | leaf (token : Token) (stray : Bool)
  /-- A token that was missing. -/
  | missing (kind : Kind)
  /-- A rule. `start` is the token before which the rule began, `stop` the last token read
  when it ended. -/
  | node (rule : Rule) (start : Token) (stop : Option Token) (fields : List (Field × Tree))
      (children : List Tree)
  deriving Repr, Inhabited

namespace Tree

def missingText (k : Kind) : String := "<missing " ++ k.wanted ++ ">"

mutual

def text : Tree → String
  | .leaf t _ => t.text
  | .missing k => missingText k
  | .node _ _ _ _ children => texts children

def texts : List Tree → String
  | [] => ""
  | t :: ts => t.text ++ texts ts

end

mutual

def listed : Tree → String
  | .leaf t _ => showBlanks t.text
  | .missing k => showBlanks (missingText k)
  | .node rule _ _ _ [] => rule.name
  | .node rule _ _ _ (c :: cs) => "(" ++ rule.name ++ listedAll (c :: cs) ++ ")"

def listedAll : List Tree → String
  | [] => ""
  | t :: ts => " " ++ t.listed ++ listedAll ts

end

mutual

def nodes : Tree → List Tree
  | .leaf .. => []
  | .missing _ => []
  | .node rule start stop fields children =>
    .node rule start stop fields children :: nodesAll children

def nodesAll : List Tree → List Tree
  | [] => []
  | t :: ts => t.nodes ++ nodesAll ts

end

def children : Tree → List Tree
  | .node _ _ _ _ children => children
  | _ => []

def rule? : Tree → Option Rule
  | .node rule .. => some rule
  | _ => none

def start? : Tree → Option Token
  | .node _ start .. => some start
  | _ => none

def stop? : Tree → Option Token
  | .node _ _ stop .. => stop
  | _ => none

def isRule (r : Rule) : Tree → Bool
  | .node rule .. => rule == r
  | _ => false

/-- Whether a tree is a leaf of a kind, skipped and missing tokens included. -/
def isKind (k : Kind) : Tree → Bool
  | .leaf t _ => t.kind == k
  | .missing kind => kind == k
  | .node .. => false

def isError : Tree → Bool
  | .leaf _ stray => stray
  | .missing _ => true
  | .node .. => false

end Tree

end ResourceNames.Java
