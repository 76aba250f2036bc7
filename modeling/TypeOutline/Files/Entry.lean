import TypeOutline.Dictionary

/-!
# What a directory holds

A directory holds files and further directories, each under a name of its own.
-/

namespace TypeOutline

/-- A file or a directory. -/
inductive Entry where
  | text (content : String)
  /-- A file whose bytes are no UTF-8 text, or are not known. -/
  | binary
  | directory (entries : List (String × Entry))
deriving Repr

/-- The names that lead to a place from a directory, the outermost first. -/
abbrev Place := List String

namespace Entry

/-- The file with some bytes. -/
def ofBytes (bytes : ByteArray) : Entry :=
  match String.fromUTF8? bytes with
  | some s => .text s
  | none => .binary

/-- The text of a file. -/
def text? : Entry → Option String
  | .text s => some s
  | .binary | .directory _ => none

def isDirectory : Entry → Bool
  | .directory _ => true
  | .text _ | .binary => false

/-- What a directory holds; there is nothing in a file. -/
def entries : Entry → List (String × Entry)
  | .directory es => es
  | .text _ | .binary => []

/-- What stands at a place. -/
def at? : Place → Entry → Option Entry
  | [], e => some e
  | name :: place, e => (e.entries.lookup name).bind (at? place)

/-- Put an entry at a place among others, in directories that are made where there are none. -/
def putIn (e : Entry) : Place → List (String × Entry) → List (String × Entry)
  | [], es => es
  | [name], es => Dictionary.insertIn name e es
  | name :: place, es =>
    let inner := ((es.lookup name).map entries).getD []
    Dictionary.insertIn name (.directory (putIn e place inner)) es

mutual

/-- The longest way down. -/
def depth : Entry → Nat
  | .text _ | .binary => 0
  | .directory es => depthIn es

/-- The longest way down from a directory that holds some entries. -/
def depthIn : List (String × Entry) → Nat
  | [] => 0
  | (_, e) :: es => max (e.depth + 1) (depthIn es)

end

mutual

/-- The texts at a place and below it, each with its place. -/
def textsAt (place : Place) : Entry → List (Place × String)
  | .text s => [(place, s)]
  | .binary => []
  | .directory es => textsBelow place es

/-- The texts below a place where some entries are. -/
def textsBelow (place : Place) : List (String × Entry) → List (Place × String)
  | [] => []
  | (name, e) :: es => e.textsAt (place ++ [name]) ++ textsBelow place es

end

end Entry

end TypeOutline
