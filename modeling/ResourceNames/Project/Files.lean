import ResourceNames.Text.Quoted

/-!
Files in folders.

A folder keeps its entries in the order of their names. A path leads from the working folder
through folders to an entry; `find` lists the files with an extension below a folder, in every
folder its own files first.

There is nothing here but the working folder. What lies around it is left out: a path from the root,
and one that leads out of the working folder by two dots, is answered as if nothing were there.
-/
namespace ResourceNames.Project

/-- A file with its content, or a folder with its entries. -/
inductive Entry where
  | file (name : String) (content : ByteArray)
  | folder (name : String) (entries : List Entry)

namespace Entry

def name : Entry → String
  | .file name _ => name
  | .folder name _ => name

end Entry

abbrev Files := List Entry

/-- The steps of a path, which stand between its slashes. -/
def steps (path : String) : List String := (path.toList.splitOn '/').map String.ofList

namespace Files

def entry? (name : String) (es : Files) : Option Entry := es.find? fun e => e.name == name

/-- Puts an entry where its name belongs; it takes the place of one with the same name. -/
def putEntry (e : Entry) : Files → Files
  | [] => [e]
  | d :: ds =>
    if e.name = d.name then e :: ds
    else if e.name < d.name then e :: d :: ds
    else d :: putEntry e ds

/-- The entries of the folder with a name; there are none if there is no such folder. -/
def inside (name : String) (es : Files) : Files :=
  match es.entry? name with
  | some (.folder _ entries) => entries
  | _ => []

/-- Stores a file under the names of the folders around it and its own. -/
def put (content : ByteArray) : List String → Files → Files
  | [], es => es
  | [name], es => es.putEntry (.file name content)
  | name :: names, es => es.putEntry (.folder name (put content names (es.inside name)))

/-- The entry below some names; without names it is the folder itself. -/
def get? : List String → Files → Option Entry
  | [], es => some (.folder "" es)
  | name :: names, es =>
    match es.entry? name with
    | some (.folder n entries) =>
      if names.isEmpty then some (.folder n entries) else get? names entries
    | some (.file n content) => if names.isEmpty then some (.file n content) else none
    | none => none

def ofList (files : List (String × ByteArray)) : Files :=
  files.foldl (fun es f => es.put f.2 (steps f.1)) []

end Files

def join (folder name : String) : String :=
  if folder.isEmpty ∨ folder.toList.getLast? = some '/' then folder ++ name
  else folder ++ "/" ++ name

mutual

def Entry.contents (folder : String) : Entry → List (String × ByteArray)
  | .file name content => [(join folder name, content)]
  | .folder name entries => Files.contents (join folder name) entries

def Files.contents (folder : String) : List Entry → List (String × ByteArray)
  | [] => []
  | e :: es => e.contents folder ++ Files.contents folder es

end

inductive PathError where
  | missing (path : String)
  | isFolder (path : String)
  | notFolder (path : String)
  deriving DecidableEq, Repr

def PathError.message : PathError → String
  | .missing path => "[Errno 2] No such file or directory: " ++ Text.quoted path
  | .isFolder path => "[Errno 21] Is a directory: " ++ Text.quoted path
  | .notFolder path => "[Errno 20] Not a directory: " ++ Text.quoted path

namespace Files

/-- Follows the steps of a path from the entry below `place`; the result is the place reached. The
empty step and the dot stay in a folder, two dots lead to the folder around it. -/
def follow (path : String) (es : Files) : List String → List String → Except PathError (List String)
  | [], place => .ok place
  | step :: steps, place =>
    match es.get? place with
    | none => .error (.missing path)
    | some (.file ..) => .error (.notFolder path)
    | some (.folder ..) =>
      if step = "" ∨ step = "." then follow path es steps place
      else if step = ".." then
        if place.isEmpty then .error (.missing path) else follow path es steps place.dropLast
      else if (es.get? (place ++ [step])).isSome then follow path es steps (place ++ [step])
      else .error (.missing path)

def locate (path : String) (es : Files) : Except PathError (List String) :=
  if path.isEmpty ∨ path.toList.head? = some '/' then .error (.missing path)
  else es.follow path (steps path) []

def read (path : String) (es : Files) : Except PathError ByteArray :=
  (es.locate path).bind fun place =>
    match es.get? place with
    | some (.file _ content) => .ok content
    | some (.folder ..) => .error (.isFolder path)
    | none => .error (.missing path)

def write (path : String) (content : ByteArray) (es : Files) : Except PathError Files :=
  (es.locate path).map fun place => es.put content place

end Files

/-- The extension of a name, from its last dot on. Dots at the beginning do not count. -/
def extension (name : String) : String :=
  let body := name.toList.dropWhile (· = '.')
  if body.contains '.' then
    String.ofList ('.' :: (body.reverse.takeWhile (· ≠ '.')).reverse)
  else ""

def ownFiles (ext folder : String) (es : Files) : List String :=
  es.filterMap fun e =>
    match e with
    | .file name _ => if extension name = ext then some (join folder name) else none
    | .folder .. => none

mutual

def Entry.find (ext folder : String) : Entry → List String
  | .file .. => []
  | .folder name entries =>
    ownFiles ext (join folder name) entries ++ Files.findBelow ext (join folder name) entries

def Files.findBelow (ext folder : String) : List Entry → List String
  | [] => []
  | e :: es => e.find ext folder ++ Files.findBelow ext folder es

end

def Files.find (path ext : String) (es : Files) : List String :=
  match (es.locate path).toOption.bind fun place => es.get? place with
  | some (.folder _ entries) => ownFiles ext path entries ++ Files.findBelow ext path entries
  | _ => []

end ResourceNames.Project
