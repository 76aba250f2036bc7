import TypeOutline.Command.Run

/-!
# The program

The working directory, and what the command line names outside of it, is read into a tree of files,
the command line is carried out on that tree, and the texts that are new in what it leaves are
written back. Usage faults exit with 2, failed runs with 1.
-/

namespace TypeOutline

def FileFault.ofIO : IO.Error → FileFault
  | .permissionDenied .. => .denied
  | e => .other (toString e)

/-- What is at an absolute path, down to some depth. What cannot be read is there all the same, and
barred. -/
def snapshot : (depth : Nat) → (path : String) → StateT (List Barrier) IO Entry
  | depth, path => do
    let bar (e : IO.Error) (known : Entry) : StateT (List Barrier) IO Entry := do
      modify (⟨Path.parts path, .read, .ofIO e⟩ :: ·)
      return known
    let file := (← IO.currentDir) / path
    if ← file.isDir then
      try
        let names := (← file.readDir).toList.map (·.fileName)
        match depth with
        | 0 => return .directory []
        | depth + 1 =>
          return .directory (← names.mapM fun name => do
            return (name, ← snapshot depth (Path.join path name)))
      catch e => bar e (.directory [])
    else
      try return .ofBytes (← IO.FS.readBinFile file)
      catch e => bar e .binary

/-- A tree with what is at an absolute path. -/
def FileTree.readIn (t : FileTree) (depth : Nat) (path : String) : IO FileTree := do
  let (found, barriers) ← (snapshot depth path).run t.barriers
  let place := Path.parts path
  let entries := if place.isEmpty then found.entries else found.putIn place t.entries
  return { t with entries, barriers }

/-- The paths that a command line speaks of. -/
def namedPaths (args : List String) : List String :=
  match Command.parse args with
  | .ok (.render r) => r.config.toList ++ r.out.toList ++ r.inputs.patterns
  | _ => []

/-- The names of a path in front of the first one with wildcards, and how deep a search goes from
there. -/
def searchFrom (path : String) : String × Nat :=
  let names := Path.pieces path
  let plain := names.takeWhile (!PathPattern.isPattern ·)
  let sought := names.drop plain.length
  (if plain = [""] then "/" else "/".intercalate plain,
    if sought.contains "**" then FileTree.maxPath else sought.length)

/-- What is in the working directory, and at the paths that a command line speaks of. A directory is
read before those below it. -/
def filesFor (args : List String) : IO FileTree := do
  let current ← IO.currentDir
  let here := Path.parts current.toString
  let mut depth := 0
  let mut paths := []
  for (base, sought) in (namedPaths args).map searchFrom do
    try
      let path := (← IO.FS.realPath (current / base)).toString
      unless here.isPrefixOf (Path.parts path) do
        paths := path :: paths
        depth := max depth sought
    catch _ => pure ()
  let ordered := paths.mergeSort fun a b => (Path.parts a).length ≤ (Path.parts b).length
  let around ← ordered.foldlM (fun t path => t.readIn depth path) { here : FileTree }
  around.readIn FileTree.maxPath current.toString

/-- Write a text to the file at a place. -/
def writeBack (place : Place) (text : String) : IO Unit := do
  IO.FS.createDirAll ("/" ++ "/".intercalate place.dropLast)
  IO.FS.writeFile ("/" ++ "/".intercalate place) text

/-- The help text. -/
def usage : List String := [
  "Usage: type-outline <COMMAND>",
  "",
  "Commands:",
  "  hello   show the built-in example as an OpenAPI document",
  "  render  show the outline of each input document",
  "  help    show this text"]

def version : String := "type-outline 0.1.0"

end TypeOutline

open TypeOutline in
def main (args : List String) : IO UInt32 := do
  let files ← filesFor args
  match Command.run args files with
  | .ok r =>
    IO.print r.output
    for (place, text) in r.files.newTexts files do writeBack place text
    return 0
  | .error (.refused .helpWanted) =>
    usage.forM IO.println
    return 0
  | .error (.refused .versionWanted) =>
    IO.println version
    return 0
  | .error (.refused _) =>
    usage.forM IO.eprintln
    return 2
  | .error e =>
    IO.eprintln ("Error: " ++ e.message)
    return 1
