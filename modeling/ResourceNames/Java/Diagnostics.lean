import ResourceNames.Java.Parser

/-!
The errors found while a source is read.

Tokens are fetched when they are looked at, so a lexical error is met when some token behind it
is looked at first. Between two states of a parser the lexical errors and the syntax errors stand
in the order in which they were found.
-/
namespace ResourceNames.Java

/-- An error at a place of the source. -/
structure Diagnostic where
  start : Place
  message : String
  deriving DecidableEq, Repr

namespace Diagnostic

def ofLexicalError (e : LexicalError) : Diagnostic := ⟨e.start, e.message⟩

def ofReport (r : Report) : Diagnostic := ⟨r.start, r.message⟩

def listed (d : Diagnostic) : String := d.start.listed ++ " " ++ d.message

def printed (ds : List Diagnostic) : String :=
  String.join (ds.map fun d => "line " ++ d.listed ++ "\n")

end Diagnostic

namespace Parser

def fetched (s : Parser) : Nat := s.source.fetchedFor s.seen

def lexicalErrorsMet (s : Parser) : Nat := s.source.errorsWithin s.fetched

def lexicalErrorsSince (before s : Parser) : List Diagnostic :=
  ((s.source.errors.take s.lexicalErrorsMet).drop before.lexicalErrorsMet).map
    Diagnostic.ofLexicalError

/-- The syntax errors reported since an earlier state, in their order. -/
def reportsSince (before s : Parser) : List Report :=
  (s.reports.take (s.reports.length - before.reports.length)).reverse

/-- The lexical errors after the first `met` ones until the first `last` ones, each before the
reports that were made after it was met. -/
def interleave (source : Source) (last : Nat) : Nat → List Report → List Diagnostic
  | met, [] => ((source.errors.take last).drop met).map Diagnostic.ofLexicalError
  | met, r :: rs =>
    let now := source.errorsWithin (source.fetchedFor r.seen)
    ((source.errors.take now).drop met).map Diagnostic.ofLexicalError ++
      Diagnostic.ofReport r :: interleave source last now rs

/-- All errors found since an earlier state, in the order in which they were found. -/
def diagnosticsSince (before s : Parser) : List Diagnostic :=
  interleave s.source s.lexicalErrorsMet before.lexicalErrorsMet (before.reportsSince s)

def compilationUnit (s : Parser) : Tree × Parser × List Diagnostic :=
  let (tree, o) := s.parse .compilationUnit
  (tree, o.parser, s.diagnosticsSince o.parser)

end Parser

end ResourceNames.Java
