import TypeOutline.Text.Blank

/-!
# Path texts

A path is a text of names between slashes. Between two slashes nothing, or a dot, says only that
what stands before is a directory; a dot counts as a name at the front alone.
-/

namespace TypeOutline.Path

/-- The texts between the slashes of a path. -/
def pieces (path : String) : List String := (Text.pieces '/' path.toList).map String.ofList

/-- The text between two slashes leads nowhere. -/
def isIdle (name : String) : Bool := name = "" || name = "."

/-- A path that starts at the top of the file system. -/
def isAbsolute (path : String) : Bool := path.toList.head? = some '/'

/-- The names of a path that lead somewhere. -/
def parts (path : String) : List String := (pieces path).filter (!isIdle ·)

/-- A path that stays at the directory where it starts. -/
def isHere (path : String) : Bool := path.toList.head? = some '.' && (parts path).isEmpty

/-- A path that can only be that of a directory. -/
def namesDirectory (path : String) : Bool :=
  (pieces path).getLast?.any fun name => isIdle name || name = ".."

/-- The path of something in a directory. -/
def join (dir name : String) : String :=
  if dir = "" || dir.toList.getLast? = some '/' then dir ++ name else dir ++ "/" ++ name

/-- A path without the slashes at its end; slashes alone are kept. -/
def withoutSlash (path : String) : String :=
  let shown := String.ofList (path.toList.reverse.dropWhile (· = '/')).reverse
  if shown = "" then path else shown

/-- The names of a path, the last one first, from the first that leads somewhere; a dot at the front
of the path is kept. -/
def dropIdle : List String → List String
  | [] => []
  | [name] => if name = "" then [] else [name]
  | name :: above => if isIdle name then dropIdle above else name :: above

/-- The path of the directory that a path is in: empty for a single name, and none for a path
without names. -/
def parent? (path : String) : Option String :=
  match dropIdle (pieces path).reverse with
  | [] => none
  | _ :: above => some ("/".intercalate (dropIdle above).reverse)

end TypeOutline.Path
