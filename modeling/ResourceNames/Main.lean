import ResourceNames.Project.Run

/-!
The command.

The files of the working folder are read, the command runs on them, and the files that it changed
are written back.
-/
namespace ResourceNames

open Project

/-- Reads a file, or a folder with all that is in it. -/
partial def loadEntry (e : IO.FS.DirEntry) : IO Entry := do
  if ← e.path.isDir then
    let entries ← (← e.path.readDir).toList.mapM loadEntry
    pure (.folder e.fileName (entries.foldl (fun es d => Files.putEntry d es) []))
  else
    pure (.file e.fileName (← IO.FS.readBinFile e.path))

def loadFiles : IO Files := do
  let entries ← (← (← IO.currentDir).readDir).toList.mapM loadEntry
  pure (entries.foldl (fun es d => Files.putEntry d es) [])

def storeFiles (before after : Files) : IO Unit :=
  ((Files.contents "" after).zip (Files.contents "" before)).forM fun (new, old) => do
    if new.2 != old.2 then
      IO.FS.writeBinFile new.1 new.2

end ResourceNames

def main (arguments : List String) : IO UInt32 := do
  let files ← ResourceNames.loadFiles
  let (progress, ending) := ResourceNames.Project.run arguments files
  IO.print progress.out
  IO.eprint progress.err
  ResourceNames.storeFiles files progress.files
  match ending with
  | .finished => pure 0
  | .refused .help => pure 0
  | .refused (.wrong _) => pure 2
  | .failed f => do
    IO.eprintln f.message
    pure 1
