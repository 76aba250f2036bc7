import TypeOutline.Filter.Run
import TypeOutline.Files.Glob
import TypeOutline.Json.Pointer

/-!
# Input documents

Inputs are files, named by paths and patterns. A file holds one document, or one on each line that
is not blank. A pointer narrows each document to a part of it, and a filter turns that into any
number of documents. All patterns are resolved before a file is read, and all documents of a file
are read before one of them is narrowed.
-/

namespace TypeOutline

/-- A document, under the name that headers and messages show. -/
structure Document where
  origin : String
  value : Json

/-- The document that a text starts with. -/
def Json.parseFrom (origin text : String) : Except Failure Json :=
  (Json.parse text).mapError (.malformed origin)

/-- What to make of input files. -/
structure InputSettings where
  /-- A document on each line. -/
  perLine : Bool := false
  pointer : Option String := none
  filter : Option String := none
  patterns : List String := []
deriving Repr, DecidableEq

namespace InputSettings

/-- The documents on the lines of a text. -/
def readLines (path text : String) : Except Failure (List Json) :=
  let numbered := (Text.lines text.toList).zipIdx 1
  (numbered.filter fun (line, _) => !(Text.trim line).isEmpty).mapM fun (line, n) =>
    Json.parseFrom (path ++ ":" ++ toString n) (String.ofList line)

/-- The part of a document that a pointer leads to. -/
def narrow (pointer : Option String) (path : String) (j : Json) : Except Failure Json :=
  match pointer with
  | none => .ok j
  | some p => (j.pointer? p).elim (.error (.pointer path p)) .ok

/-- The documents that a filter makes of one. -/
def refine (filter : Option String) (j : Json) : Except Failure (List Json) :=
  (Filter.builtIn.documents filter j).mapError .filter

/-- The documents made of one, named after its place in the file if there are several. -/
def named (path : String) (many : Bool) (index : Nat) (values : List Json) : List Document :=
  if many || values.length > 1 then
    (values.zipIdx index).map fun (value, n) => { origin := path ++ "#" ++ toString n, value }
  else values.map fun value => { origin := path, value }

/-- The documents of a file's text. -/
def documentsOf (s : InputSettings) (path text : String) : Except Failure (List Document) := do
  let values ← if s.perLine then readLines path text
    else (Json.parseFrom path text).map ([·])
  let documents ← values.zipIdx.mapM fun (j, index) => do
    return named path s.perLine index (← refine s.filter (← narrow s.pointer path j))
  return documents.flatten

/-- The documents of a file. -/
def loadFile (s : InputSettings) (t : FileTree) (path : String) :
    Except Failure (List Document) := do
  s.documentsOf path (← (t.read path).mapError (.unreadable path))

/-- All documents, in the order of the paths. -/
def load (s : InputSettings) (t : FileTree) : Except Failure (List Document) := do
  let documents ← (← Glob.resolve t s.patterns).mapM (s.loadFile t)
  return documents.flatten

end InputSettings

end TypeOutline
