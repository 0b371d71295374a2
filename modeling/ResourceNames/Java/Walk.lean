import ResourceNames.Java.Context

/-!
Walks through a parse tree.

A walk enters each node, goes through its children from left to right, and leaves the node. A
visitor changes a state at every visit; a visit that faults ends the walk, and the state stays as
it was then. The visits of a tree can also be listed first, without the nodes of some rules, and
made one after another.
-/
namespace ResourceNames.Java

/-- The state after some visits, and the fault of the last one, if it ended the walk. -/
structure Visited (σ ε : Type) where
  state : σ
  fault : Option ε
  deriving Repr

namespace Visited

variable {σ ε : Type}

def ok (state : σ) : Visited σ ε := ⟨state, none⟩

def failed (state : σ) (fault : ε) : Visited σ ε := ⟨state, some fault⟩

def andThen (v : Visited σ ε) (next : σ → Visited σ ε) : Visited σ ε :=
  match v.fault with
  | none => next v.state
  | some _ => v

end Visited

/-- What is done when a node is entered and when it is left. -/
structure Visitor (σ ε : Type) where
  enter : Tree → σ → Visited σ ε := fun _ s => .ok s
  exit : Tree → σ → Visited σ ε := fun _ s => .ok s

mutual

def Tree.walk {σ ε : Type} (v : Visitor σ ε) : Tree → σ → Visited σ ε
  | .leaf .., s => .ok s
  | .missing _, s => .ok s
  | .node rule start stop fields children, s =>
    let node := Tree.node rule start stop fields children
    ((v.enter node s).andThen (Tree.walkAll v children)).andThen (v.exit node)

def Tree.walkAll {σ ε : Type} (v : Visitor σ ε) : List Tree → σ → Visited σ ε
  | [], s => .ok s
  | t :: ts, s => (t.walk v s).andThen (Tree.walkAll v ts)

end

inductive Visit where
  | enter (node : Tree)
  | exit (node : Tree)
  deriving Repr

namespace Visit

def make {σ ε : Type} (v : Visitor σ ε) : Visit → σ → Visited σ ε
  | .enter node, s => v.enter node s
  | .exit node, s => v.exit node s

def makeAll {σ ε : Type} (v : Visitor σ ε) : List Visit → σ → Visited σ ε
  | [], s => .ok s
  | x :: xs, s => (x.make v s).andThen (makeAll v xs)

def rule? : Visit → Option Rule
  | .enter (.node rule ..) => some rule
  | .exit (.node rule ..) => some rule
  | _ => none

def listed (x : Visit) : String :=
  let number := (x.rule?.map fun r => toString r.index).getD ""
  match x with
  | .enter _ => "enter " ++ number
  | .exit _ => "exit " ++ number

end Visit

mutual

/-- The visits of a tree in order, without those of nodes of some rules. -/
def Tree.visits (skipped : List Rule) : Tree → List Visit
  | .leaf .. => []
  | .missing _ => []
  | .node rule start stop fields children =>
    if skipped.contains rule then Tree.visitsAll skipped children
    else
      let node := Tree.node rule start stop fields children
      [.enter node] ++ Tree.visitsAll skipped children ++ [.exit node]

def Tree.visitsAll (skipped : List Rule) : List Tree → List Visit
  | [] => []
  | t :: ts => t.visits skipped ++ Tree.visitsAll skipped ts

end

end ResourceNames.Java
