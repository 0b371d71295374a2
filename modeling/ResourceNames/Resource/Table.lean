/-!
Tables of resources.

A table names resources by their numbers, in the order in which the numbers were first entered.
-/
namespace ResourceNames.Resource

/-- Numbers of resources with their names. -/
abbrev Table := List (Int × String)

namespace Table

def get? (t : Table) (id : Int) : Option String := t.lookup id

/-- Enters a name. A number that is in the table keeps its place. -/
def insert (id : Int) (name : String) : Table → Table
  | [] => [(id, name)]
  | e :: es => if e.1 = id then (id, name) :: es else e :: insert id name es

def ofList (entries : List (Int × String)) : Table :=
  entries.foldl (fun t e => t.insert e.1 e.2) []

end Table

end ResourceNames.Resource
