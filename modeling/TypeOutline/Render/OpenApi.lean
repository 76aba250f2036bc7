import TypeOutline.Render.Walk

/-!
# The OpenAPI dialect

Blocks of `key:` lines, two spaces per step. A plain document has the sections `definitions:` and
`root:`; one bound to a URL path is a whole OpenAPI document, with the definitions as component
schemas and the value as the response of a `GET` operation. Indents are counted in 64 bits, and the
one after the greatest is none at all.
-/

namespace TypeOutline.OpenApi

/-- A line at an indent. -/
structure Line where
  indent : UInt64 := 0
  content : String
deriving Repr, DecidableEq

namespace Line

/-- Two spaces for each step of the indent, and the content. -/
def text (l : Line) : String := "".pushn ' ' (2 * l.indent.toNat) ++ l.content

/-- No text can hold as many bytes as the indent needs. -/
def tooWide (l : Line) : Bool := l.indent ≥ 0x4000000000000000

end Line

/-- Where references point to. -/
def refBase (url : Option String) : String :=
  if url.isSome then "#/components/schemas/" else "#/definitions/"

/-- The node is left out. The top of a tree never is. -/
def hidden (a : Attributes) : Bool := !a.isRoot && a.isExcluded jsonDialect

/-- The lines that open the section of a top, and the indent of what stands in it. -/
def openSection (url : Option String) (name : String) (indent : UInt64) : List Line × UInt64 :=
  if name = rootName then
    match url with
    | none => ([{ content := "root:" }], indent + 1)
    | some url =>
      ([{ content := "paths:" },
        ⟨indent + 1, url ++ ":"⟩,
        ⟨indent + 2, "get:"⟩,
        ⟨indent + 3, "summary: Return data."⟩,
        ⟨indent + 3, "responses:"⟩,
        ⟨indent + 4, "'200':"⟩,
        ⟨indent + 5, "description: Success"⟩,
        ⟨indent + 5, "content:"⟩,
        ⟨indent + 6, "application/json:"⟩,
        ⟨indent + 7, "schema:"⟩], indent + 8)
  else if name = typeRefsName then
    if url.isSome then ([{ content := "components:" }, ⟨1, "schemas:"⟩], indent + 2)
    else ([{ content := "definitions:" }], indent + 1)
  else ([{ content := name ++ ":" }], indent + 1)

/-- The lines of a type, and how far what stands in it is indented. -/
def typeLines (a : Attributes) : List String × UInt64 :=
  match a.generic with
  | .struct => (["type: object", "properties:"], 1)
  | .list => (["type: array", "items:"], 1)
  | .boolean => (["type: boolean"], 0)
  | .integer =>
    ("type: integer" ::
      (if a.native.type = "i64" || a.native.type = "u64" then ["format: int64"] else []), 0)
  | .float => ("type: number" :: (if a.native.type = "f64" then ["format: double"] else []), 0)
  | .string => (["type: string"], 0)
  | .dateTime => (["type: string", "format: date-time"], 0)
  | _ => (["type: " ++ a.typeLabel], 0)

/-- The lines that open the block of a node, and the indent of what stands in it. -/
def openNode (o : RenderOptions) (url : Option String) (a : Attributes) (indent : UInt64) :
    List Line × UInt64 :=
  let view := a.view jsonDialect
  let (nameLines, indent) : List Line × UInt64 :=
    if view.name = "" then ([], indent) else ([⟨indent, view.name ++ ":"⟩], indent + 1)
  let ref := shownRef o a view.typeRef
  let (body, step) :=
    if ref = "" then typeLines a else (["$ref: '" ++ refBase url ++ ref ++ "'"], 0)
  let defectLines : List Line :=
    a.defect.elim [] fun d => [⟨indent + step, "error: " ++ d.message⟩]
  (nameLines ++ body.map (⟨indent, ·⟩) ++ defectLines, indent + step)

mutual

/-- The block of a tree at an indent. -/
def block (s : Schema) (o : RenderOptions) (url : Option String) (indent : UInt64) :
    Rose NodeId → List Line
  | .node id ts =>
    let a := s.attrs id
    if hidden a then []
    else
      let (opening, inner) :=
        if a.isRoot then openSection url a.name indent else openNode o url a indent
      opening ++ if Schema.expands o a then blocks s o url inner ts else []

/-- The blocks of several trees, one after the other. -/
def blocks (s : Schema) (o : RenderOptions) (url : Option String) (indent : UInt64) :
    List (Rose NodeId) → List Line
  | [] => []
  | t :: ts => block s o url indent t ++ blocks s o url indent ts

end

/-- The block of a node and what is shown below it. No line of a block is empty. -/
def blockOf (s : Schema) (o : RenderOptions) (url : Option String) (id : NodeId) : List Line :=
  block s o url o.indent (s.orderedSubtree id)

def lines (s : Schema) (o : RenderOptions) (url : Option String) (id : NodeId) : List String :=
  (blockOf s o url id).map (·.text)

end TypeOutline.OpenApi
