import TypeOutline.Files.Entry
import TypeOutline.Files.Path

/-!
# A tree of files

What a file system holds, as a value, with the directory that paths start from. Paths are followed
name by name, so a path through something that is no directory fails even where `..` would lead
back. What stands somewhere is one thing, and what may be done there another: any place can be
barred, for whatever reason the system has.
-/

namespace TypeOutline

/-- Why a path cannot be read or written. -/
inductive FileFault where
  | notFound | alreadyExists | notDirectory | isDirectory | nameTooLong | noText | nulByte
  | denied
  /-- Anything else that the system reports. -/
  | other (message : String)
deriving Repr, DecidableEq

namespace FileFault

def message : FileFault → String
  | notFound => "No such file or directory (os error 2)"
  | denied => "Permission denied (os error 13)"
  | alreadyExists => "File exists (os error 17)"
  | notDirectory => "Not a directory (os error 20)"
  | isDirectory => "Is a directory (os error 21)"
  | nameTooLong => "File name too long (os error 36)"
  | noText => "stream did not contain valid UTF-8"
  | nulByte => "file name contained an unexpected NUL byte"
  | other message => message

end FileFault

/-- What can be asked of a place. -/
inductive Access where
  /-- To read a file, or to list a directory. -/
  | read
  /-- To write to a file, or to make something in a directory. -/
  | write
  /-- To look for a name in a directory. -/
  | enter
deriving Repr, DecidableEq

/-- What is asked of a place fails there, with a fault. -/
structure Barrier where
  place : Place
  access : Access
  fault : FileFault
deriving Repr, DecidableEq

/-- What is in the directory at the top of a file system, the place of the working directory, and
what the system refuses. -/
structure FileTree where
  entries : List (String × Entry) := []
  here : Place := []
  barriers : List Barrier := []
deriving Repr

/-- The names that lead to a place from the top, the last one first. -/
abbrev Trail := List String

namespace FileTree

/-- The top as a directory. -/
def top (t : FileTree) : Entry := .directory t.entries

/-- Put an entry at a place. -/
def set (t : FileTree) (place : Place) (e : Entry) : FileTree :=
  { t with entries := e.putIn place t.entries }

/-- The longest way down. -/
def depth (t : FileTree) : Nat := t.top.depth

/-- The texts of a tree that another does not have at the same place. -/
def newTexts (t old : FileTree) : List (Place × String) :=
  (t.top.textsAt []).filter fun (place, s) => (old.top.at? place).bind Entry.text? ≠ some s

/-! ## Following paths -/

/-- The length of the longest name that a directory can hold, in bytes. -/
def maxName : Nat := 255

/-- The length of the longest path, in bytes. -/
def maxPath : Nat := 4095

/-- What stands at the end of a trail. -/
def standing (t : FileTree) (way : Trail) : Option Entry := t.top.at? way.reverse

/-- What is refused at the end of a trail, and why. -/
def fault? (t : FileTree) (access : Access) (way : Trail) : Option FileFault :=
  (t.barriers.find? fun b => b.place = way.reverse && b.access = access).map (·.fault)

/-- What is asked at the end of a trail must not be refused there. -/
def allow (t : FileTree) (access : Access) (way : Trail) : Except FileFault Unit :=
  (t.fault? access way).elim (.ok ()) .error

/-- One name further down, or one directory up; there is nothing above the top. -/
def goOn (way : Trail) (name : String) : Trail :=
  if Path.isIdle name then way else if name = ".." then way.tail else name :: way

/-- A directory must be entered to look for a name in it; where there is no name nothing is looked
for. -/
def allowName (t : FileTree) (way : Trail) (name : String) : Except FileFault Unit :=
  if name = "" then .ok () else t.allow .enter way

/-- The next step along a path. -/
def follow (t : FileTree) (way : Trail) (name : String) : Except FileFault Trail :=
  match t.standing way with
  | none => .error .notFound
  | some (.directory _) => do
    t.allowName way name
    if maxName < name.utf8ByteSize then .error .nameTooLong else .ok (goOn way name)
  | some _ => .error .notDirectory

/-- Where a path starts. -/
def start (t : FileTree) (path : String) : Trail :=
  if Path.isAbsolute path then [] else t.here.reverse

/-- The trail along some names at the front of a path. What is wrong with the path as a text is
found before anything is looked up. -/
def trailAlong (t : FileTree) (path : String) (names : List String) : Except FileFault Trail :=
  if path.toList.contains '\x00' then .error .nulByte
  else if path = "" then .error .notFound
  else if maxPath < path.utf8ByteSize then .error .nameTooLong
  else names.foldlM t.follow (t.start path)

/-- The trail of a path; there need not be anything at its end. -/
def trailOf (t : FileTree) (path : String) : Except FileFault Trail :=
  t.trailAlong path (Path.pieces path)

/-- The trail of a path with what stands at its end. -/
def look (t : FileTree) (path : String) : Except FileFault (Trail × Entry) := do
  let way ← t.trailOf path
  match t.standing way with
  | some e => .ok (way, e)
  | none => .error .notFound

/-- There is something at a path. -/
def has (t : FileTree) (path : String) : Bool := (t.look path).toOption.isSome

def isDirectory (t : FileTree) (path : String) : Bool :=
  match t.look path with
  | .ok (_, e) => e.isDirectory
  | .error _ => false

/-- What is in the directory at a path, in the order of the names. -/
def list (t : FileTree) (path : String) : Except FileFault (List (String × Entry)) := do
  let (way, e) ← t.look path
  match e with
  | .directory es => do
    t.allow .read way
    return es.mergeSort fun a b => decide (a.1 ≤ b.1)
  | _ => .error .notDirectory

/-- The text of the file at a path. -/
def read (t : FileTree) (path : String) : Except FileFault String := do
  let (way, e) ← t.look path
  t.allow .read way
  match e with
  | .text s => .ok s
  | .binary => .error .noText
  | .directory _ => .error .isDirectory

/-! ## Writing -/

/-- Make the directory at a path, in a directory that is there. -/
def makeDirectory (t : FileTree) (path : String) : Except FileFault FileTree := do
  let way ← t.trailAlong path (Path.pieces (Path.withoutSlash path))
  if (t.standing way).isSome then .error .alreadyExists
  else do
    t.allow .write way.tail
    return t.set way.reverse (.directory [])

/-- Make the directory at a path and those above it that are not there. No path has more directories
above it than characters, which is what `fuel` counts. -/
def makeDirectoriesWithin : (fuel : Nat) → FileTree → String → Except FileFault FileTree
  | 0, t, _ => .ok t
  | fuel + 1, t, path =>
    if path = "" then .ok t
    else match t.makeDirectory path with
      | .ok t => .ok t
      | .error .notFound => do
        let above ← (Path.parent? path).elim (.error .notFound) (makeDirectoriesWithin fuel t)
        match above.makeDirectory path with
        | .ok t => .ok t
        | .error e => if above.isDirectory path then .ok above else .error e
      | .error e => if t.isDirectory path then .ok t else .error e

def makeDirectories (t : FileTree) (path : String) : Except FileFault FileTree :=
  makeDirectoriesWithin (path.length + 1) t path

/-- What may be written at the end of a trail: over a file, or into the directory above where there
is nothing. -/
def allowWriting (t : FileTree) (way : Trail) : Except FileFault Unit :=
  match t.standing way with
  | none => t.allow .write way.tail
  | some (.directory _) => .error .isDirectory
  | some _ => t.allow .write way

/-- Write a text to the file at a path, in a directory that is there. A path that ends like that of
a directory is one, however long its last name is. -/
def write (t : FileTree) (path text : String) : Except FileFault FileTree := do
  let names := Path.pieces (Path.withoutSlash path)
  let above ← t.trailAlong path names.dropLast
  match t.standing above with
  | none => .error .notFound
  | some (.directory _) => do
    t.allow .enter above
    if Path.namesDirectory path then .error .isDirectory
    else
      let way ← t.follow above (names.getLast?.getD "")
      t.allowWriting way
      return t.set way.reverse (.text text)
  | some _ => .error .notDirectory

end FileTree

end TypeOutline
