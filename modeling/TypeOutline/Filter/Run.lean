import TypeOutline.Filter.Eval
import TypeOutline.Filter.Prelude
import TypeOutline.Json.Reader

/-!
# Filters on documents

A filter is a text. Its language says whether it is a filter at all, and what outputs it gives for
a document. Each output is a text that is read back as a document; the first that is none, such as
a number beyond the range of numbers, or that fails, is the failure of the filter.
-/

namespace TypeOutline.Filter

/-! ## Languages -/

/-- What is wrong with the text of a filter. -/
inductive Fault where
  /-- The text cannot be read, for some reasons. -/
  | unreadable (reasons : List String)
  /-- Names stand for nothing, each of which is told with what it should stand for. -/
  | undefined (names : List (String × String))
deriving Repr, DecidableEq

/-- What is wrong with a filter, a line for each thing. -/
def Fault.message (filter : String) (e : Fault) : String :=
  let things := match e with
    | unreadable reasons => reasons.map ("parse error: " ++ ·)
    | undefined names => names.map fun (name, kind) => "undefined `" ++ name ++ "`: " ++ kind
  "\n".intercalate (things.map (· ++ " in `" ++ filter ++ "`"))

/-- Which texts are filters, and the outputs of each for a document, in their order. An output is
a text, or the reason why it fails. -/
abbrev Language := String → Except Fault (Json → List (Except String String))

/-- The document that a whole text is. -/
def readDocument (text : String) : Except Json.ReadError Json := do
  let (j, c) ← Json.readValue (.ofString text)
  let c := c.skipSpace
  if c.rest.isEmpty then .ok j else Json.failAhead .trailingCharacters c

/-- The document that an output is. -/
def readOutput (output : Except String String) : Except String Json := do
  let text ← output
  (readDocument text).mapError fun e =>
    "filter produced non-JSON output `" ++ text ++ "`: " ++ e.message

/-- The documents that the filter of a text makes of one. Without a filter it is the document. -/
def Language.documents (lang : Language) (filter : Option String) (j : Json) :
    Except String (List Json) :=
  match filter with
  | none => .ok [j]
  | some text => do
    let outputs ← (lang text).mapError (Fault.message text)
    (outputs j).mapM readOutput

/-! ## The filters of this library -/

/-- How deep a run may nest. -/
def maxNesting : Nat := 5000

/-- What is shown of an outcome. A way out of a label that is nowhere is a failure. -/
def Outcome.shown : Outcome Located → Except String String
  | .value v => .ok v.value.text
  | .failure cause => .error cause.text
  | .leave _ => .error "no label to break from"

/-- What is shown of a stream. One that was given up on fails at its end. -/
def Stream.shown (s : Stream Located) : List (Except String String) :=
  s.outcomes.map Outcome.shown ++ if s.complete then [] else [.error "nested too deep"]

/-- The filters that are run here. -/
def builtIn : Language := fun text =>
  match parse? (scopeOf prelude) text with
  | none => .error (.unreadable ["no filter"])
  | some filter => .ok fun j => (eval maxNesting prelude filter (.plain (.ofJson j))).shown

end TypeOutline.Filter
