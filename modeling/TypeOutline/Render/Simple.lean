import TypeOutline.Render.Walk

/-!
# The simple dialect

One line per node: the dotted path from the top of its tree, in the language-neutral names and
types.
-/

namespace TypeOutline.Simple

def segment (o : RenderOptions) (a : Attributes) : String :=
  markDefect a.defect (segmentOf a.name a.pathType (shownRef o a a.native.typeRef))

/-- The segments from the top down to a node; the top is shown by its name alone. -/
def path (s : Schema) (o : RenderOptions) (id : NodeId) : List String :=
  match s.lineage (fun _ => false) id with
  | [] => []
  | top :: below => top.name :: below.map fun a => quoteSegment (segment o a)

/-- The line of a node; tops have none. -/
def line? (s : Schema) (o : RenderOptions) (id : NodeId) : Option String :=
  let a := s.attrs id
  if a.isRoot then none else some (pathLine (path s o id) a.defect)

/-- The nodes shown at and below a node. -/
def shown (s : Schema) (o : RenderOptions) (id : NodeId) : List NodeId :=
  s.shown o (fun _ => false) (s.orderedSubtree id)

def lines (s : Schema) (o : RenderOptions) (id : NodeId) : List String :=
  ((shown s o id).filterMap (line? s o)).filter (· ≠ "")

end TypeOutline.Simple
