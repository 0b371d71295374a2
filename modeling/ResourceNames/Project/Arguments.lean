import ResourceNames.Text.Digits
import ResourceNames.Text.Quoted

/-!
The arguments of the command.

Words that begin with a dash are options. A long option may be cut short as long as it stays
the only one; its value may follow an equals sign. Short options may be put together; the
value of one may follow it directly. After two dashes alone no word is an option.
-/
namespace ResourceNames.Project

inductive Flag where
  | help
  | addImport
  | resources
  | project
  | overwrite
  deriving DecidableEq, Repr

namespace Flag

def all : List Flag := [.help, .addImport, .resources, .project, .overwrite]

def spellings : Flag → List String
  | .help => ["-h", "--help"]
  | .addImport => ["-i"]
  | .resources => ["-r"]
  | .project => ["-p", "--project"]
  | .overwrite => ["--overwrite"]

def title (f : Flag) : String := "/".intercalate f.spellings

/-- Whether an option has a value; such an option must be given. -/
def takesValue : Flag → Bool
  | .resources => true
  | .project => true
  | _ => false

def table : List (String × Flag) := all.flatMap fun f => f.spellings.map fun s => (s, f)

def ofSpelling? (s : String) : Option Flag := table.lookup s

end Flag

inductive ArgumentError where
  | ambiguous (word : String) (spellings : List String)
  | valueMissing (flag : Flag)
  | valueIgnored (flag : Flag) (value : String)
  | flagsMissing (flags : List Flag)
  | unrecognized (words : List String)
  deriving DecidableEq, Repr

def ArgumentError.message : ArgumentError → String
  | .ambiguous word spellings =>
    "ambiguous option: " ++ word ++ " could match " ++ ", ".intercalate spellings
  | .valueMissing flag => "argument " ++ flag.title ++ ": expected one argument"
  | .valueIgnored flag value =>
    "argument " ++ flag.title ++ ": ignored explicit argument " ++ Text.quoted value
  | .flagsMissing flags =>
    "the following arguments are required: " ++ ", ".intercalate (flags.map Flag.title)
  | .unrecognized words => "unrecognized arguments: " ++ " ".intercalate words

inductive Word where
  /-- A word that is no option. -/
  | plain (text : String)
  /-- The two dashes after which no word is an option. -/
  | divider
  /-- An option with what is written behind it in the same word. -/
  | option (flag : Flag) (attached : Option String) (isShort : Bool)
  /-- A word that looks like an option and is none. -/
  | unknown (text : String)
  deriving DecidableEq, Repr

namespace Word

def divide (cs : List Char) : String × Option String :=
  let name := String.ofList (cs.takeWhile (· ≠ '='))
  match cs.dropWhile (· ≠ '=') with
  | [] => (name, none)
  | _ :: value => (name, some (String.ofList value))

def hasOneDash (spelling : String) : Bool := (spelling.toList.drop 1).head? ≠ some '-'

/-- Whether a word is a negative number; a line feed may follow it. -/
def isNegative (cs : List Char) : Bool :=
  let isDigit := fun c => (Text.digitValue? c).isSome
  match if cs.getLast? = some '\n' then cs.dropLast else cs with
  | '-' :: ds =>
    let fraction := ds.dropWhile isDigit
    match fraction with
    | [] => !ds.isEmpty
    | '.' :: es => !es.isEmpty && es.all isDigit
    | _ => false
  | _ => false

/-- The options that a word may mean, if it is not a spelling: the long options that begin with
it, or the short option that it begins with. -/
def candidates (cs : List Char) : List (String × Word) :=
  if cs.take 2 = ['-', '-'] then
    let (name, attached) := divide cs
    (Flag.table.filter fun e => name.toList.isPrefixOf e.1.toList).map fun e =>
      (e.1, .option e.2 attached false)
  else
    (Flag.table.filter fun e => e.1.toList = cs.take 2).map fun e =>
      (e.1, .option e.2 (some (String.ofList (cs.drop 2))) true)

def ofString (text : String) : Except ArgumentError Word :=
  let cs := text.toList
  if cs.head? ≠ some '-' then .ok (.plain text)
  else
    match Flag.ofSpelling? text with
    | some flag => .ok (.option flag none (hasOneDash text))
    | none =>
      if cs.length = 1 then .ok (.plain text)
      else
        match divide cs with
        | (name, some value) =>
          match Flag.ofSpelling? name with
          | some flag => .ok (.option flag (some value) (hasOneDash name))
          | none => fromCandidates text cs
        | (_, none) => fromCandidates text cs
where
  /-- The only candidate; without candidates the word is no option of the command. -/
  fromCandidates (text : String) (cs : List Char) : Except ArgumentError Word :=
    match candidates cs with
    | [(_, word)] => .ok word
    | [] =>
      .ok (if isNegative cs ∨ cs.contains ' ' then .plain text else .unknown text)
    | several => .error (.ambiguous text (several.map Prod.fst))

def ofStrings : List String → Except ArgumentError (List Word)
  | [] => .ok []
  | text :: texts =>
    if text = "--" then .ok (.divider :: texts.map .plain)
    else (ofString text).bind fun w => (ofStrings texts).map (w :: ·)

end Word

structure Options where
  /-- The path of the file of resources. -/
  resources : String
  /-- The path of the folder of the project. -/
  project : String
  addImport : Bool
  overwrite : Bool
  deriving DecidableEq, Repr

inductive Refusal where
  /-- Help was asked for. -/
  | help
  | wrong (e : ArgumentError)
  deriving DecidableEq, Repr

structure Settings where
  resources : Option String := none
  project : Option String := none
  addImport : Bool := false
  overwrite : Bool := false
  /-- The words that mean nothing, the latest first. -/
  extra : List String := []
  deriving Repr

namespace Settings

def take (flag : Flag) (value : String) (s : Settings) : Except Refusal Settings :=
  match flag with
  | .help => .error .help
  | .addImport => .ok { s with addImport := true }
  | .resources => .ok { s with resources := some value }
  | .project => .ok { s with project := some value }
  | .overwrite => .ok { s with overwrite := true }

def takeAll (flags : List Flag) (s : Settings) : Except Refusal Settings :=
  flags.foldlM (fun s f => s.take f "") s

/-- Short options put together: those before the last one, the last one, and its value, if one
follows it. -/
def together (flag : Flag) : List Char → Except ArgumentError (List Flag × Flag × Option String)
  | [] => .ok ([], flag, none)
  | c :: cs =>
    if flag.takesValue then .ok ([], flag, some (String.ofList (c :: cs)))
    else
      match Flag.ofSpelling? (String.ofList ['-', c]) with
      | none => .error (.valueIgnored flag (String.ofList (c :: cs)))
      | some next => (together next cs).map fun r => (flag :: r.1, r.2)

def inWord (flag : Flag) (attached : Option String) (isShort : Bool) :
    Except ArgumentError (List Flag × Flag × Option String) :=
  match attached with
  | none => .ok ([], flag, none)
  | some value =>
    if flag.takesValue then .ok ([], flag, some value)
    else if isShort ∧ value ≠ "" then together flag value.toList
    else .error (.valueIgnored flag value)

/-- Goes through the words; the value of an option may be the word after it. -/
def readWords : List Word → Settings → Except Refusal Settings
  | [], s => .ok s
  | .plain text :: ws, s => readWords ws { s with extra := text :: s.extra }
  | .divider :: ws, s => readWords ws { s with extra := "--" :: s.extra }
  | .unknown text :: ws, s => readWords ws { s with extra := text :: s.extra }
  | .option flag attached isShort :: ws, s =>
    match inWord flag attached isShort with
    | .error e => .error (.wrong e)
    | .ok (before, last, some value) =>
      ((s.takeAll before).bind (take last value)).bind (readWords ws)
    | .ok (before, last, none) =>
      if last.takesValue then
        match ws with
        | .plain value :: ws' => ((s.takeAll before).bind (take last value)).bind (readWords ws')
        | _ => .error (.wrong (.valueMissing last))
      else ((s.takeAll before).bind (take last "")).bind (readWords ws)

def missing (s : Settings) : List Flag :=
  (if s.resources.isNone then [.resources] else []) ++
    (if s.project.isNone then [.project] else [])

end Settings

def Options.ofArguments (arguments : List String) : Except Refusal Options :=
  match Word.ofStrings arguments with
  | .error e => .error (.wrong e)
  | .ok words =>
    (Settings.readWords words {}).bind fun s =>
      match s.resources, s.project with
      | some resources, some project =>
        if s.extra.isEmpty then .ok ⟨resources, project, s.addImport, s.overwrite⟩
        else .error (.wrong (.unrecognized s.extra.reverse))
      | _, _ => .error (.wrong (.flagsMissing s.missing))

def usage : String := "usage: RestoreR.py [-h] [-i] -r R_FILE -p J_FILES [--overwrite]\n"

def helpText : String :=
  usage ++ "\nRestore R Values in Android Code\n\noptions:\n" ++
    "  -h, --help            show this help message and exit\n" ++
    "  -i                    add import for R into java files\n" ++
    "  -r R_FILE             specify location of R java file\n" ++
    "  -p J_FILES, --project J_FILES\n" ++
    "                        specify location of Android project\n" ++
    "  --overwrite           overwrite the source files with the new values\n"

def ArgumentError.printed (e : ArgumentError) : String :=
  usage ++ "RestoreR.py: error: " ++ e.message ++ "\n"

end ResourceNames.Project
