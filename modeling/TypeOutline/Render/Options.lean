/-!
# Dialects and rendering options
-/

namespace TypeOutline

/-- The output dialects. -/
inductive Dialect where
  /-- One dotted path per node. -/
  | simple
  /-- Dotted paths as the `json` overrides show them. -/
  | json
  /-- Indented blocks of an OpenAPI document. -/
  | openApi
deriving Repr, DecidableEq, Inhabited

namespace Dialect

def name : Dialect → String
  | simple => "simple" | json => "json" | openApi => "openapi"

def all : List Dialect := [simple, json, openApi]

def ofName? (s : String) : Option Dialect := all.find? (·.name == s)

theorem ofName?_name (d : Dialect) : ofName? d.name = some d := by cases d <;> decide

end Dialect

structure RenderOptions where
  /-- Show the members of named types at each use instead of a reference. -/
  dereference : Bool := false
  /-- The text of one indent step. OpenAPI blocks have a step of their own. -/
  unit : String := ""
  /-- The indent of the outermost lines. The step below the greatest one is the outermost. -/
  indent : UInt64 := 0
deriving Repr, DecidableEq

end TypeOutline
