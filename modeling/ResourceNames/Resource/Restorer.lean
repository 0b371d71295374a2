import ResourceNames.Edit
import ResourceNames.Resource.Reader

/-!
Putting names of resources in place of their numbers.

On its way through the tree of a file a restorer replaces every literal in base sixteen whose
value is in the table by the name of the resource, and imports the resources after the
declaration of the package.
-/
namespace ResourceNames.Resource

open Java Text

/-- What a restorer has done so far, and the package from which it imports. -/
structure Restorer where
  package : Option String := none
  program : Program := []
  /-- How many literals were replaced. -/
  count : Nat := 0
  deriving Repr

namespace Restorer

def importOf (package : String) : String := "\n\nimport " ++ package ++ ".R;"

def edit (e : Edit) (r : Restorer) : Restorer := { r with program := r.program ++ [some e] }

def literal (table : Table) (node : Tree) (r : Restorer) : Visited Restorer Fault :=
  match node.start?, node.child? (.token .hexLiteral) with
  | some start, some t =>
    match readNumeral .sixteen t.text with
    | .error e => .failed r (.numeral e)
    | .ok id =>
      match table.get? id with
      | some name =>
        .ok { r.edit (.replace start.index start.index name) with count := r.count + 1 }
      | none => .ok r
  | _, _ => .ok r

/-- Imports the resources after the declaration of a package. -/
def addImport (node : Tree) (r : Restorer) : Restorer :=
  match node.stop?, r.package.filter fun p => !p.isEmpty with
  | some stop, some package => r.edit (.insert (stop.index + 1) (importOf package))
  | _, _ => r

def visitor (table : Table) : Visitor Restorer Fault where
  enter node r :=
    match node.rule? with
    | some .integerLiteral => r.literal table node
    | _ => .ok r
  exit node r :=
    match node.rule? with
    | some .packageDeclaration => .ok (r.addImport node)
    | _ => .ok r

def restore (table : Table) (tree : Tree) (r : Restorer) : Visited Restorer Fault :=
  tree.walk (visitor table) r

end Restorer

end ResourceNames.Resource
