import ResourceNames.Java.Walk
import ResourceNames.Resource.Table
import ResourceNames.Text.Numeral

/-!
Reading the names of resources from the classes that declare them.

On its way through the tree of such a file a reader keeps the names of the classes around it. A
declared variable enters its value, with the names of the classes and its own name joined by dots.
A variable that is being read keeps its value as the last of the names, so a walk that faults
leaves names behind, and files read later begin with them.
-/
namespace ResourceNames.Resource

open Java Text

/-- Why the walk through a file ends early. -/
inductive Fault where
  /-- A node lacks a part that is needed. -/
  | missingPart
  /-- A value is no number. -/
  | numeral (e : NumeralError)
  deriving DecidableEq, Repr

def Fault.message : Fault → String
  | .missingPart => "'NoneType' object has no attribute 'getText'"
  | .numeral e => e.message

structure Reader where
  package : String := ""
  /-- The names around the place of the reader, the outermost first. -/
  names : List String := []
  table : Table := []
  deriving Repr

namespace Reader

def push (name : String) (r : Reader) : Reader := { r with names := r.names ++ [name] }

def pop (r : Reader) : Reader := { r with names := r.names.dropLast }

def pushPart (node : Tree) (part : Part) (r : Reader) : Visited Reader Fault :=
  match node.child? part with
  | some t => .ok (r.push t.text)
  | none => .failed r .missingPart

/-- Enters the value of a variable, the last of the names, under the names before it. -/
def enterValue (r : Reader) : Visited Reader Fault :=
  let named := r.pop
  match readNumeral .ten (r.names.getLast?.getD "") with
  | .ok id => .ok { named.pop with table := r.table.insert id (".".intercalate named.names) }
  | .error e => .failed named (.numeral e)

/-- The walk of a reader: packages, classes and variables change what it knows. -/
def visitor : Visitor Reader Fault where
  enter node r :=
    match node.rule? with
    | some .packageDeclaration =>
      match node.child? (.rule .qualifiedName) with
      | some t => .ok { r with package := t.text }
      | none => .failed r .missingPart
    | some .classDeclaration => r.pushPart node (.token .identifier)
    | some .variableDeclarator =>
      (r.pushPart node (.rule .variableDeclaratorId)).andThen
        (pushPart node (.rule .variableInitializer))
    | _ => .ok r
  exit node r :=
    match node.rule? with
    | some .classDeclaration => .ok r.pop
    | some .variableDeclarator => r.enterValue
    | _ => .ok r

def read (tree : Tree) (r : Reader) : Visited Reader Fault := tree.walk visitor r

end Reader

end ResourceNames.Resource
