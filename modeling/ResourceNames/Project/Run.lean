import ResourceNames.Java.Diagnostics
import ResourceNames.Project.Arguments
import ResourceNames.Project.Files
import ResourceNames.Resource.Restorer
import ResourceNames.Text.Newlines
import ResourceNames.Text.Utf8

/-!
The command at work on a project.

The resources are read and listed first. Then every source file of the project is gone through;
one in which some literal is a resource is gone through once more, and its text is printed or
stored. What was done and printed before an error stays.

A text that is to be stored is held back while its file is open, unless it is long; the file is
empty until then. A file is closed when the next one is opened, and the last one at the end of the
work. Only if the parser gave up a rule of some source may the last one stay open, and its text is
lost then; whether it does so is not settled by the command, and left open here.
-/
namespace ResourceNames.Project

open Java Resource Text

/-- What has been done so far. -/
structure Progress where
  files : Files
  /-- What was printed. -/
  out : String := ""
  /-- What was printed about errors in the sources. -/
  err : String := ""
  widened : Widened := []
  /-- The text that is held back, with its path. -/
  held : Option (String × ByteArray) := none
  /-- Whether a rule was given up in some source. -/
  gaveUp : Bool := false

namespace Progress

def longText : Nat := 8192

/-- Closes the open file: the text that is held back is stored. -/
def close (p : Progress) : Except PathError Progress :=
  match p.held with
  | none => .ok p
  | some (path, bytes) =>
    (p.files.write path bytes).map fun files => { p with files, held := none }

/-- Opens a file, which closes the one before it, and stores a text. -/
def store (path : String) (bytes : ByteArray) (p : Progress) : Except PathError Progress :=
  p.close.bind fun p =>
    if bytes.size < longText then
      (p.files.write path ByteArray.empty).map fun files =>
        { p with files, held := some (path, bytes) }
    else (p.files.write path bytes).map fun files => { p with files }

/-- What is left at the end of the work: the open file is closed, unless it `lingers` because a rule
was given up. -/
def finish (lingers : Bool) (p : Progress) : Progress :=
  if lingers && p.gaveUp then p else p.close.toOption.getD p

end Progress

inductive Failure where
  | path (e : PathError)
  | bytes (e : Utf8Error)
  | walk (e : Fault)
  | program (e : ProgramError)
  deriving DecidableEq, Repr

def Failure.message : Failure → String
  | .path e => e.message
  | .bytes e => e.message
  | .walk e => e.message
  | .program e => e.message

/-- Work on a project. A failure ends it and keeps the progress. -/
abbrev Job := ExceptT Failure (StateM Progress)

namespace Job

def say (line : String) : Job Unit := modify fun p => { p with out := p.out ++ line ++ "\n" }

def orFail {ε α : Type} (failure : ε → Failure) : Except ε α → Job α
  | .ok a => pure a
  | .error e => throw (failure e)

def openSource (path : String) : Job Source := do
  let bytes ← orFail .path ((← get).files.read path)
  let chars ← orFail .bytes (decodeUtf8 bytes)
  pure (Source.ofString (String.ofList (unifyNewlines chars)))

/-- Reads a compilation unit from where a parser stands, and prints the errors. -/
def readUnit (parser : Parser) : Job (Tree × Parser) := do
  let progress ← get
  let (tree, p, ds) := { parser with widened := progress.widened }.compilationUnit
  set { progress with
    err := progress.err ++ Diagnostic.printed ds
    widened := p.widened
    gaveUp := progress.gaveUp || p.everGaveUp }
  pure (tree, p)

def walked {σ : Type} (v : Visited σ Fault) : Job σ :=
  match v.fault with
  | none => pure v.state
  | some e => throw (.walk e)

def readResources (path : String) : Job Reader := do
  let source ← openSource path
  let (tree, _) ← readUnit (.ofSource source)
  let reader ← walked (({} : Reader).read tree)
  reader.table.forM fun e => say (upperHex e.1 ++ " = " ++ e.2)
  pure reader

def deliver (options : Options) (path text : String) : Job Unit := do
  if options.overwrite then
    say ("Overwriting file: " ++ path)
    set (← orFail .path ((← get).store path text.toUTF8))
  else say text

/-- Goes through a source file once more, and stores or prints its text; the result is how many
literals were replaced in that. The literals are edited in what follows the unit that is read
first. -/
def rewriteFile (options : Options) (reader : Reader) (path : String) (found : Restorer) : Job Nat := do
  say "Rewriting tokens"
  let source ← openSource path
  let (tree, parser) ← readUnit (.ofSource source)
  let _ ← walked (found.restore reader.table tree)
  let (rest, _) ← readUnit parser
  let package := if options.addImport then some reader.package else none
  let edited ← walked (({ package } : Restorer).restore reader.table rest)
  let tokens := source.tokens.toList
  let text ← orFail .program (edited.program.text tokens 0 ((tokens.length : Int) - 1)).2
  deliver options path text
  pure edited.count

/-- Goes through a source file; the result is how many literals were replaced in its text. -/
def restoreFile (options : Options) (reader : Reader) (path : String) : Job Nat := do
  say ("First pass: " ++ path)
  let source ← openSource path
  let (tree, _) ← readUnit (.ofSource source)
  let found ← walked (({} : Restorer).restore reader.table tree)
  if found.count = 0 then
    pure 0
  else
    say ("Identified " ++ toString found.count ++ " hex values to be replaced.")
    rewriteFile options reader path found

def isResources (path : String) : Bool := (steps path).getLast? = some "R.java"

/-- Goes through source files; files of resources are left out. -/
def restoreAll (options : Options) (reader : Reader) : List String → Job Nat
  | [] => pure 0
  | path :: paths => do
    let count ← if isResources path then pure 0 else restoreFile options reader path
    let more ← restoreAll options reader paths
    pure (count + more)

def restoreProject (options : Options) : Job Unit := do
  let reader ← readResources options.resources
  let paths := (← get).files.find options.project ".java"
  let count ← restoreAll options reader paths
  say ("Replaced " ++ toString count ++ " hex values.")

end Job

inductive Ending where
  | finished
  /-- The arguments gave nothing to do. -/
  | refused (r : Refusal)
  | failed (f : Failure)
  deriving DecidableEq, Repr

/-- Runs the command on the files of a folder; a file that is left open after a rule was given up may
linger, or not. -/
def run (arguments : List String) (files : Files) (lingers : Bool := true) : Progress × Ending :=
  match Options.ofArguments arguments with
  | .error .help => ({ files, out := helpText }, .refused .help)
  | .error (.wrong e) => ({ files, err := e.printed }, .refused (.wrong e))
  | .ok options =>
    match (Job.restoreProject options).run.run { files } with
    | (.ok (), progress) => (progress.finish lingers, .finished)
    | (.error f, progress) => (progress.finish lingers, .failed f)

end ResourceNames.Project
