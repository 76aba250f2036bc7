import TypeOutline.Render.Lines

/-!
# The OpenAPI renderer at work

A renderer carries its options, and the indent among them is where the next line goes. To open the
block of a node moves it, and the walk over a tree puts it back: before each child, and twice at the
end of a node. A node's lines are made from what it says and from the indent at the time.
-/

namespace TypeOutline.OpenApi

/-- What a renderer is made with, and its options, which change while it works. -/
structure Renderer where
  url : Option String := none
  options : RenderOptions := {}
deriving Repr, DecidableEq

namespace Renderer

/-- The one step of an indent. -/
def indentUnit : String := "  "

/-- A renderer of its own unit, whatever unit the options name. -/
def new (url : Option String) (o : RenderOptions) : Renderer :=
  { url, options := { o with unit := indentUnit } }

/-- What a renderer does to itself on the way to a result. -/
abbrev Step := StateM Renderer

def indent : Step UInt64 := do return (← get).options.indent

def setIndent (n : UInt64) : Step Unit :=
  modify fun r => { r with options := { r.options with indent := n } }

def advance (n : UInt64) : Step Unit := do setIndent ((← indent) + n)

/-- A line where the renderer stands. -/
def here (content : String) : Step (List Line) := do return [⟨← indent, content⟩]

/-- Several lines where the renderer stands. -/
def hereAll (contents : List String) : Step (List Line) := do
  let n ← indent
  return contents.map (⟨n, ·⟩)

/-- Open the section of a top. -/
def openTop (name : String) : Step (List Line) := do
  let r ← get
  if name = rootName then
    match r.url with
    | none =>
      advance 1
      return [{ content := "root:" }]
    | some url =>
      advance 1
      let path ← here (url ++ ":")
      advance 1
      let method ← here "get:"
      advance 1
      let operation ← hereAll ["summary: Return data.", "responses:"]
      advance 1
      let status ← here "'200':"
      advance 1
      let response ← hereAll ["description: Success", "content:"]
      advance 1
      let media ← here "application/json:"
      advance 1
      let schema ← here "schema:"
      advance 1
      return { content := "paths:" } :: path ++ method ++ operation ++ status ++ response ++ media
        ++ schema
  else if name = typeRefsName then
    if r.url.isSome then
      advance 2
      return [{ content := "components:" }, ⟨1, "schemas:"⟩]
    else
      advance 1
      return [{ content := "definitions:" }]
  else
    advance 1
    return [{ content := name ++ ":" }]

/-- Write the name of a node, if it has one, and go on below it. -/
def writeName (name : String) : Step (List Line) := do
  if name = "" then return []
  let ls ← here (name ++ ":")
  advance 1
  return ls

/-- Write the type of a node, or a reference to it, and go on where its members stand. -/
def writeType (a : Attributes) (ref : String) : Step (List Line) := do
  if ref = "" then
    let (contents, step) := typeLines a
    let ls ← hereAll contents
    advance step
    return ls
  else here ("$ref: '" ++ refBase (← get).url ++ ref ++ "'")

def writeDefect (defect : Option Defect) : Step (List Line) :=
  match defect with
  | none => return []
  | some d => here ("error: " ++ d.message)

/-- Open the block of a node. -/
def openBlock (a : Attributes) : Step (List Line) := do
  let view := a.view jsonDialect
  let name ← writeName view.name
  let type ← writeType a (shownRef (← get).options a view.typeRef)
  let defect ← writeDefect a.defect
  return name ++ type ++ defect

/-- Write what stands before the members of a node, and go on where they stand. -/
def opening (a : Attributes) : Step (List Line) :=
  if a.isRoot then openTop a.name else openBlock a

mutual

/-- Walk a tree. The indent at the end is the one at the start. -/
def walk (s : Schema) : Rose NodeId → Step (List Line)
  | .node id ts => do
    let a := s.attrs id
    if hidden a then return []
    let start ← indent
    let lines ← opening a
    let below ← if Schema.expands (← get).options a then walkAll s (← indent) ts else pure []
    setIndent start
    return lines.filter (·.text ≠ "") ++ below

/-- Walk several trees, each from the same indent. -/
def walkAll (s : Schema) (inner : UInt64) : List (Rose NodeId) → Step (List Line)
  | [] => return []
  | t :: ts => do
    setIndent inner
    let first ← walk s t
    return first ++ (← walkAll s inner ts)

end

/-- The texts of lines; none if some indent is too wide. -/
def texts? (ls : List Line) : Option (List String) :=
  if ls.any (·.tooWide) then none else some (ls.map (·.text))

/-- Render a node and what is shown below it. The renderer is handed back as it is then. -/
def renderElement? (r : Renderer) (s : Schema) (id : NodeId) : Option (List String × Renderer) :=
  let (ls, r) := (walk s (s.orderedSubtree id)).run r
  if s.has id then (texts? ls).map (·, r) else none

/-- Render the tree of a top, if there is something below it. -/
def renderTree? (r : Renderer) (s : Schema) (top : NodeId) : Option (List String × Renderer) :=
  if (s.children top).isEmpty then some ([], r) else r.renderElement? s top

/-- Render a schema: the header, and both trees. -/
def render? (r : Renderer) (s : Schema) : Option (List String × Renderer) := do
  let (definitions, r) ← if r.options.dereference then some ([], r) else r.renderTree? s s.typeRefs
  let (value, r) ← r.renderTree? s s.root
  return (Schema.headerLines .openApi r.url ++ (definitions ++ value).filter (· ≠ ""), r)

end Renderer

end TypeOutline.OpenApi
