import ResourceNames.Java.Diagnostics
import ResourceNames.Java.Walk
import ResourceNames.Project.Files
import ResourceNames.Resource.Restorer
import ResourceNames.Sample.Consumer
import ResourceNames.Sample.Showcase

/-!
What the samples give when they are read.

Each survey reads sample sources and counts what it finds: the parts of nodes that can be asked
for by name, the resources that are declared, and the literals that are replaced.
-/
namespace ResourceNames.Sample

open Java Resource

def unitTree (text : String) : Tree :=
  ((Parser.ofSource (.ofString text)).parse .compilationUnit).1

mutual

def nodesFromRight : Tree → List Tree
  | .leaf .. => []
  | .missing _ => []
  | .node rule start stop fields children =>
    .node rule start stop fields children :: nodesFromRightAll children

def nodesFromRightAll : List Tree → List Tree
  | [] => []
  | t :: ts => nodesFromRightAll ts ++ nodesFromRight t

end

def smallest? : List Tree → Option Tree
  | [] => none
  | t :: ts => some (ts.foldl (fun best u =>
      if u.children.length < best.children.length then u else best) t)

/-- How many names give something for a node: a name for a list always does. -/
def namesAnswered (rule : Rule) (node : Tree) : Nat :=
  ((Accessor.ofRule rule).filter fun a => a.isList || !(a.children node).isEmpty).length

def surveyVisits : Nat := 10

/-- Asks for the parts of the smallest node of each rule, and once for a level where there is
none, and visits every node: how many questions were answered, and how many visits were made. -/
def surveyNames (copies : Int) : Nat × Nat :=
  let tree := unitTree (showcase copies)
  let nodes := nodesFromRight tree
  let answered := Rule.all.map fun rule =>
    ((smallest? (nodes.filter (Tree.isRule rule))).map (namesAnswered rule)).getD 0
  (answered.foldl (· + ·) 0 + 1, surveyVisits * tree.nodes.length)

def surveyResources (n : Int) : Table :=
  (({} : Reader).read (unitTree (resourceFile n))).state.table

/-- Restores a source: how many literals get a name of the table, and how many tokens it has. -/
def surveySource (table : Table) (text : String) : Nat × Nat :=
  let source := Source.ofString text
  let tree := ((Parser.ofSource source).parse .compilationUnit).1
  ((({} : Restorer).restore table tree).state.count, source.tokens.size)

/-- How many resources are asked for when `n` uses of them are surveyed. -/
def askedFor (n : Int) : Int := max 40 n

/-- A consumer with `n` uses that go around all the resources asked for. -/
def roundConsumer (n : Int) : String := consumer n firstId (max 1 (resourceCount (askedFor n)))

/-- Restores a consumer with `n` uses by the names that are read from a file of resources. -/
def surveyConsumer (n : Int) : Nat × Nat :=
  surveySource (surveyResources (askedFor n)) (roundConsumer n)

/-- A project with a file of resources, a consumer with `n` uses of them, and one without. -/
def sampleProject (n : Int) : Project.Files :=
  .ofList [("R.java", (resourceFile (askedFor n)).toUTF8), ("src/Consumer.java", (roundConsumer n).toUTF8),
    ("src/Idle.java", (roundConsumer 0).toUTF8)]

/-- Finds the sources of a project and restores its consumers: how many sources there are, and how
many literals are replaced. -/
def surveyProject (n : Int) : Nat × Nat :=
  let table := surveyResources (askedFor n)
  (((sampleProject n).find "." ".java").length,
    (surveySource table (roundConsumer n)).1 + (surveySource table (roundConsumer 0)).1)

end ResourceNames.Sample
