import TypeOutline.Tag

/-!
# Override blocks

What one dialect says about a node, each part overriding the language-neutral value when it is not
empty, and the option set that a block carries. Applying a tag to a block excludes, renames, or adds
options; the last word on each wins.
-/

namespace TypeOutline

/-- The dialect of the language that the values come from. -/
def nativeDialect : String := "rust"

/-- The dialect whose overrides the JSON and OpenAPI renderings follow. -/
def jsonDialect : String := "json"

/-- Whether a dialect shows a node. -/
inductive Inclusion where
  | undefined | included | excluded
deriving Repr, DecidableEq, Inhabited

def Inclusion.name : Inclusion → String
  | undefined => "undefined" | included => "true" | excluded => "false"

/-! ## Option sets -/

/-- Options in insertion order, unique by key; the value of a flag is empty. -/
structure OptionSet where
  entries : Dictionary String := {}
deriving Repr, DecidableEq

namespace OptionSet

/-- Add a flag. -/
def addFlag (o : OptionSet) (key : String) : OptionSet :=
  if key = "" then o else ⟨o.entries.insert key ""⟩

def delete (o : OptionSet) (key : String) : OptionSet := ⟨o.entries.erase key⟩

/-- Set `key=value`; an empty value removes the key. -/
def set (o : OptionSet) (key value : String) : OptionSet :=
  if key = "" then o
  else if value = "" then o.delete key
  else ⟨o.entries.insert key value⟩

/-- Set a key to `true` or `false`. -/
def setBool (o : OptionSet) (key : String) (value : Bool) : OptionSet :=
  if key = "" then o else ⟨o.entries.insert key (if value then "true" else "false")⟩

def get? (o : OptionSet) (key : String) : Option String := o.entries.find? key

/-- Take over every option of another set. -/
def merge (o other : OptionSet) : OptionSet :=
  ⟨o.entries.insertAll other.entries.entries⟩

def isEmpty (o : OptionSet) : Bool := o.entries.isEmpty

/-- One option as text. -/
def text (e : String × String) : String := if e.2 = "" then e.1 else e.1 ++ "=" ++ e.2

/-- The options as sorted texts. -/
def toSortedList (o : OptionSet) : List String :=
  (o.entries.entries.map text).mergeSort fun a b => decide (a ≤ b)

end OptionSet

/-! ## Blocks -/

/-- The block of one dialect on a node. -/
structure Override where
  dialect : String
  name : String := ""
  type : String := ""
  typeRef : String := ""
  inclusion : Inclusion := .included
  options : OptionSet := {}
  error : String := ""
deriving Repr, DecidableEq

namespace Override

/-- A block that overrides nothing. -/
def fresh (dialect : String) : Override := { dialect }

/-- One option of a tag, as it is added to a block. -/
def addOption (o : OptionSet) (e : String × String) : OptionSet :=
  if e.2 = "" then o.addFlag e.1 else o.set e.1 e.2

/-- Apply a tag: ignoring excludes, a name renames, options are added in order. -/
def apply (b : Override) (t : Tag) : Override :=
  { b with
    inclusion := if t.ignore then .excluded else b.inclusion
    name := if t.name = "" then b.name else t.name
    options := t.options.foldl addOption b.options }

end Override

end TypeOutline
