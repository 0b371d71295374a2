import ResourceNames.Java.Diagnostics
import ResourceNames.Resource.Restorer
import ResourceNames.Text.Newlines

/-!
Sessions: files that are read and edited one after another.

All files of resources enter into one table. A file that is opened for editing uses a table of
its own or that of the session, as it is when the file is gone through. What the parser has
learned to expect in loops is kept from file to file.
-/
namespace ResourceNames

open Java Resource Text

/-- A file opened for editing: its parser, the latest tree, the table it has of its own, and what
was done. -/
structure Opened where
  parser : Parser
  tree : Tree
  table : Option Table
  restorer : Restorer

structure Session where
  /-- What the files of resources gave. -/
  reader : Reader := {}
  /-- Whether a file of resources was read. -/
  hasRead : Bool := false
  widened : Widened := []
  opened : Option Opened := none

/-- What a step leads to: the session after it, the errors that it printed, and its result. -/
structure Step (α : Type) where
  session : Session
  diagnostics : List Diagnostic
  result : α

namespace Session

def sourceOf (text : String) : Source :=
  Source.ofString (String.ofList (unifyNewlines text.toList))

/-- Reads a file of resources. Its package is not known until it is declared. -/
def readResources (text : String) (s : Session) : Step (Option Fault) :=
  let (tree, p, ds) := (Parser.ofSource (sourceOf text) s.widened).compilationUnit
  let v := { s.reader with package := "" }.read tree
  ⟨{ s with reader := v.state, hasRead := true, widened := p.widened }, ds, v.fault⟩

/-- The table for a file opened now, if it is not that of the session: the one given, or an empty
one before any resources were read. -/
def ownTable (given : Option Table) (s : Session) : Option Table :=
  given.or (if s.hasRead then none else some [])

/-- The package for a file opened now: the one given, or, if it is to be imported, that of the
resources read last. -/
def packageFor (given : Option String) (wantsImport : Bool) (s : Session) : Option String :=
  given.or (if wantsImport ∧ s.hasRead then some s.reader.package else none)

/-- Opens a file for editing; the result is the number of its tokens. -/
def openFile (text : String) (table : Option Table) (package : Option String) (wantsImport : Bool)
    (s : Session) : Step Nat :=
  let (tree, p, ds) := (Parser.ofSource (sourceOf text) s.widened).compilationUnit
  let restorer := { package := s.packageFor package wantsImport }
  ⟨{ s with widened := p.widened, opened := some ⟨p, tree, s.ownTable table, restorer⟩ }, ds,
    p.fetched⟩

def restore (s : Session) (o : Opened) : Step (Restorer × Option Fault) :=
  let v := o.restorer.restore (o.table.getD s.reader.table) o.tree
  ⟨{ s with opened := some { o with restorer := v.state } }, [], (v.state, v.fault)⟩

/-- Reads on in the open file, where the latest tree ends. -/
def reread (s : Session) (o : Opened) : Step Tree :=
  let (tree, p, ds) := { o.parser with widened := s.widened }.compilationUnit
  ⟨{ s with widened := p.widened, opened := some { o with parser := p, tree } }, ds, tree⟩

def text (start stop : Option Int) (s : Session) (o : Opened) :
    Step (Program × Except ProgramError String) :=
  let tokens := o.parser.source.tokens.toList
  let (program, result) :=
    o.restorer.program.text tokens (start.getD 0) (stop.getD ((tokens.length : Int) - 1))
  ⟨{ s with opened := some { o with restorer := { o.restorer with program } } }, [],
    (program, result)⟩

end Session

end ResourceNames
