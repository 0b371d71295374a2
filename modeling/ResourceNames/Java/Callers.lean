import ResourceNames.Java.Layout

/-!
Sets of call stacks.

A call stack is the list of the points to which the open calls return, the innermost first.
`Callers` is a finite set of such stacks, stored by their tops: stacks with the same top share
it. The empty stack stands for the place where reading began, about whose callers nothing is
known.
-/
namespace ResourceNames.Java

/-- A set of call stacks. The tops of a set are in increasing order. -/
inductive Callers where
  /-- No stack. -/
  | none
  /-- The empty stack only. -/
  | bottom
  /-- The stacks with the top `ret` over those of `below`, and `others`. -/
  | top (ret : Point) (below others : Callers)
  deriving DecidableEq, Repr, Inhabited

namespace Callers

def toList : Callers → List (List Point)
  | .none => []
  | .bottom => [[]]
  | .top ret below others => below.toList.map (ret :: ·) ++ others.toList

/-- Puts one return point on all stacks of a set. -/
def push (ret : Point) (s : Callers) : Callers := .top ret s .none

/-- Puts return points on all stacks of a set; the first one ends up on top. -/
def pushAll (rets : List Point) (s : Callers) : Callers := rets.foldr push s

def ofStack (rets : List Point) : Callers := pushAll rets .bottom

def addBottom : Callers → Callers
  | .none => .bottom
  | .bottom => .bottom
  | .top ret below others => .top ret below (addBottom others)

/-- Changes the stacks under the top `ret`, or puts `fresh` there if there are none. -/
def alter (ret : Point) (change : Callers → Callers) (fresh : Callers) : Callers → Callers
  | .none => .top ret fresh .none
  | .bottom => .top ret fresh .bottom
  | .top ret' below others =>
    if ret < ret' then .top ret fresh (.top ret' below others)
    else if ret = ret' then .top ret (change below) others
    else .top ret' below (alter ret change fresh others)

/-- The union of two sets. With `anyCaller` the empty stack stands for every stack, so a set
that holds it holds nothing else. -/
def union (anyCaller : Bool) : Callers → Callers → Callers
  | .none, s => s
  | .bottom, s => if anyCaller then .bottom else s.addBottom
  | .top ret below others, s =>
    if anyCaller && s == .bottom then .bottom
    else alter ret (union anyCaller below) below (union anyCaller others s)

/-- Whether there is a stack and every stack has a top that satisfies `p`. -/
def allTops (p : Point → Bool) : Callers → Bool
  | .none => false
  | .bottom => false
  | .top ret _ .none => p ret
  | .top ret _ others => p ret && others.allTops p

end Callers

end ResourceNames.Java
