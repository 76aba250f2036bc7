import TypeOutline.Render.Walk

/-!
# The JSON dialect

The lines of the simple dialect as the `json` overrides show them: other names and types, and
without the members that are left out. The value's own tree starts with `$`, the definitions with
`definitions`.
-/

namespace TypeOutline.JsonPath

/-- The node is left out. The top of a tree never is. -/
def hidden (a : Attributes) : Bool := !a.isRoot && a.isExcluded jsonDialect

def segment (o : RenderOptions) (a : Attributes) : String :=
  let view := a.view jsonDialect
  let type := if a.category = .invalid then a.typeLabel else Generic.tokenOfSlug view.type
  markDefect a.defect (segmentOf view.name type (shownRef o a view.typeRef))

/-- How the top of a tree is shown. -/
def topToken (name : String) : String :=
  if name = rootName then "$" else if name = typeRefsName then "definitions" else name

/-- The segments from the nearest top down to a node. -/
def path (s : Schema) (o : RenderOptions) (id : NodeId) : List String :=
  (s.lineage (·.isRoot) id).map fun a => if a.isRoot then topToken a.name else segment o a

/-- The line of a node; tops have none. -/
def line? (s : Schema) (o : RenderOptions) (id : NodeId) : Option String :=
  let a := s.attrs id
  if a.isRoot then none else some (pathLine ((path s o id).map quoteSegment) a.defect)

/-- The nodes shown at and below a node. -/
def shown (s : Schema) (o : RenderOptions) (id : NodeId) : List NodeId :=
  s.shown o hidden (s.orderedSubtree id)

def lines (s : Schema) (o : RenderOptions) (id : NodeId) : List String :=
  ((shown s o id).filterMap (line? s o)).filter (· ≠ "")

end TypeOutline.JsonPath
