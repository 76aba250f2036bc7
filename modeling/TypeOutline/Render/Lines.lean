import TypeOutline.Render.JsonPath
import TypeOutline.Render.OpenApi
import TypeOutline.Render.Simple

/-!
# The lines of a schema

A schema is shown as its definitions, unless references are resolved, and then the value's own tree.
An empty tree has no lines, and no line is empty. A URL path matters to OpenAPI alone.
-/

namespace TypeOutline

namespace Schema

/-- The lines of a node and of what is shown below it. -/
def elementLines (s : Schema) (d : Dialect) (o : RenderOptions) (url : Option String)
    (id : NodeId) : List String :=
  match d with
  | .simple => Simple.lines s o id
  | .json => JsonPath.lines s o id
  | .openApi => OpenApi.lines s o url id

/-- The lines of a top, if there is something below it. -/
def treeLines (s : Schema) (d : Dialect) (o : RenderOptions) (url : Option String)
    (top : NodeId) : List String :=
  if (s.children top).isEmpty then [] else s.elementLines d o url top

/-- The lines before both trees. -/
def headerLines (d : Dialect) (url : Option String) : List String :=
  if d = .openApi && url.isSome then ["openapi: 3.0.0"] else []

/-- The lines of a schema. -/
def lines (s : Schema) (d : Dialect) (o : RenderOptions) (url : Option String) : List String :=
  headerLines d url
    ++ ((if o.dereference then [] else s.treeLines d o url s.typeRefs)
      ++ s.treeLines d o url s.root).filter (· ≠ "")

/-- The path of a node, segment by segment. OpenAPI blocks have no paths. -/
def path (s : Schema) (d : Dialect) (o : RenderOptions) (id : NodeId) : List String :=
  match d with
  | .simple => Simple.path s o id
  | .json => JsonPath.path s o id
  | .openApi => []

/-- The way up from a node leaves the arena before it reaches a top. -/
def pathFaults (s : Schema) (d : Dialect) (id : NodeId) : Bool :=
  match d with
  | .simple => (s.lineage? (fun _ => false) id).isNone
  | .json => (s.lineage? (·.isRoot) id).isNone
  | .openApi => !s.has id

/-- The lines of a node cannot be made: some path that they need leaves the arena, or some indent
is too wide. -/
def elementFaults (s : Schema) (d : Dialect) (o : RenderOptions) (url : Option String)
    (id : NodeId) : Bool :=
  !s.has id || match d with
  | .simple => (Simple.shown s o id).any fun c => !(s.attrs c).isRoot && s.pathFaults d c
  | .json => (JsonPath.shown s o id).any fun c => !(s.attrs c).isRoot && s.pathFaults d c
  | .openApi => (OpenApi.blockOf s o url id).any (·.tooWide)

/-- The lines of the schema cannot be made. -/
def linesFault (s : Schema) (d : Dialect) (o : RenderOptions) (url : Option String) : Bool :=
  (!o.dereference && !(s.children s.typeRefs).isEmpty && s.elementFaults d o url s.typeRefs)
    || (!(s.children s.root).isEmpty && s.elementFaults d o url s.root)

end Schema

end TypeOutline
