import TypeOutline.Json.Basic
import TypeOutline.Schema.Basic

/-!
# The tree dump

Both trees of a schema as one JSON value. Empty texts, false flags and empty lists are left out, and
so are the blocks of the tops.
-/

namespace TypeOutline

/-- A member with a text, left out if the text is empty. -/
def textMember (key value : String) : List (String × Json) :=
  if value = "" then [] else [(key, .string value)]

/-- A member with a list, left out if the list is empty. -/
def listMember (key : String) (items : List Json) : List (String × Json) :=
  if items.isEmpty then [] else [(key, .array items)]

namespace Override

def dump (b : Override) : Json :=
  .object ([("dialect", .string b.dialect)]
    ++ textMember "name" b.name
    ++ textMember "type" b.type
    ++ textMember "type_ref" b.typeRef
    ++ [("include", .string b.inclusion.name)]
    ++ listMember "options" (b.options.toSortedList.map .string)
    ++ textMember "error" b.error)

end Override

namespace Attributes

/-- The blocks of a node, if it has any and is no top. -/
def dumpOverrides (a : Attributes) : List (String × Json) :=
  if a.isRoot || a.overrides.isEmpty then []
  else [("native", .object (a.overrides.entries.map fun e => (e.1, e.2.dump)))]

/-- The members of a node without those of its children. -/
def dumpOwn (a : Attributes) : List (String × Json) :=
  textMember "name" a.name
    ++ [("type", .string a.typeLabel), ("type_category", .string a.category.name)]
    ++ textMember "type_ref" a.typeRef
    ++ (if a.nullable then [("nullable", .bool true)] else [])
    ++ a.defect.elim [] (fun d => [("error", .string d.message)])
    ++ a.dumpOverrides

end Attributes

namespace Schema

mutual

/-- The dump of a tree of attributes. -/
def dumpTree : Rose Attributes → Json
  | .node a ts => .object (a.dumpOwn ++ listMember "children" (dumpTrees ts))

def dumpTrees : List (Rose Attributes) → List Json
  | [] => []
  | t :: ts => dumpTree t :: dumpTrees ts

end

/-- The dump of both trees. -/
def dump (s : Schema) : Json :=
  .object [(rootName, dumpTree (s.tree s.root)), (typeRefsName, dumpTree (s.tree s.typeRefs))]

end Schema

end TypeOutline
