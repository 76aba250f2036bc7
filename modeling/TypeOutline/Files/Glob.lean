import TypeOutline.Failure

/-!
# The paths of a pattern

A pattern is followed through a tree of files from the working directory, or from the top if it
starts with a slash. A name without wildcards is only looked up, so `.` and `..` may stand in
a pattern; a name with wildcards is compared with what a directory holds, in the order of the names.
Two stars take in a directory before what it holds. A directory that cannot be listed gives its
fault in the place of what it holds.
-/

namespace TypeOutline.Glob

/-- Without the recursive patterns at the front. -/
def dropRecursive : List Pattern → List Pattern
  | [] => []
  | p :: ps => if p.isRecursive then dropRecursive ps else p :: ps

/-- The path of something in a directory; what is in the directory where a pattern starts goes by
its name alone. -/
def under (dir name : String) : String := if Path.isHere dir then name else Path.join dir name

/-- The name is looked up rather than compared; `isDir` tells whether it is in a directory. -/
def found (t : FileTree) (dir name : String) (isDir : Bool) : Bool :=
  if name = "." || name = ".." then isDir else t.has (under dir name)

/-- The entries `..` and `.` of a directory, which only a pattern that starts with a dot stands for.
-/
def dots (p : Pattern) : List String :=
  if p.head? = some (.char '.') then ["..", "."].filter fun d => p.accepts d.toList else []

/-- A path that a pattern stands for, or why there may be others in its place. -/
abbrev Finding := Except Failure String

mutual

/-- What the patterns lead to from a path; `isDir` tells whether a directory was seen there. -/
def inside (t : FileTree) (directory : Bool) :
    (fuel : Nat) → List Pattern → (dir : String) → (isDir : Bool) → List Finding
  | 0, _, _, _ | _, [], _, _ => []
  | fuel + 1, p :: ps, dir, isDir =>
    let goOn (path : String) : List Finding :=
      let isDir := t.isDirectory path
      if ps.isEmpty then if !directory || isDir then [.ok path] else []
      else inside t directory fuel ps path isDir
    match p.literal? with
    | some name => if found t dir name isDir then goOn (under dir name) else []
    | none =>
      if isDir then match t.list dir with
        | .error cause => [.error (.unreadable dir cause)]
        | .ok entries => (dots p).flatMap (fun d => goOn (Path.join dir d))
            ++ entries.flatMap fun (name, e) =>
              onward t directory fuel (p :: ps) (under dir name) name e.isDirectory
      else []

/-- What the patterns lead to from something in a directory on, its own path among that. -/
def onward (t : FileTree) (directory : Bool) :
    (fuel : Nat) → List Pattern → (path name : String) → (isDir : Bool) → List Finding
  | 0, _, _, _, _ => []
  | fuel + 1, ps, path, name, isDir =>
    let matching : List Pattern → List Finding
      | [] => if isDir then [.ok path] else []
      | p :: rest =>
        if !p.accepts name.toList then []
        else if rest.isEmpty then if !directory || isDir then [.ok path] else []
        else inside t directory fuel rest path isDir
    let rest := dropRecursive ps
    let recursive := ps.take (ps.length - rest.length)
    matching rest ++
      if isDir then
        recursive.getLast?.elim [] fun p => inside t directory fuel (p :: rest) path isDir
      else []

end

/-- A bound on the steps of a search: for each name of the pattern no more than two to each
directory on the longest way. -/
def depthBound (t : FileTree) (p : PathPattern) : Nat :=
  2 * (p.names.length + 1) * (t.depth + 2)

/-- What a pattern stands for, in order. -/
def findings (t : FileTree) (p : PathPattern) : List Finding :=
  let start := if p.absolute then "/" else "."
  inside t p.directory (depthBound t p) p.names start (t.isDirectory start)

/-- The paths of one argument: those of a pattern, of which there must be one, or the path itself.
-/
def pathsOf (t : FileTree) (text : String) : Except Failure (List String) :=
  if PathPattern.isPattern text then
    match PathPattern.parse text with
    | .error e => .error (.pattern e)
    | .ok p => do
      let found ← (findings t p).mapM id
      if found.isEmpty then .error (.noMatch text) else .ok found
  else .ok [text]

/-- The paths of several arguments, in order. -/
def resolve (t : FileTree) (texts : List String) : Except Failure (List String) :=
  (texts.mapM (pathsOf t)).map (·.flatten)

end TypeOutline.Glob
