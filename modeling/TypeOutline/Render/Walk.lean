import TypeOutline.Render.Options
import TypeOutline.Schema.Basic
import TypeOutline.Text.Quoted

/-!
# Walking a tree for output

What the dialects share: the order in which nodes are shown, the nodes on the way from a node to its
top, and the quoting of path segments. Children are shown in the order of their names; a node that
refers to a named type is shown without its members, unless references are resolved.
-/

namespace TypeOutline

namespace Schema

/-- The ids below a node, children in the order of their names. -/
def orderedSubtree (s : Schema) (id : NodeId) : Rose NodeId :=
  (s.subtree id).sortBy fun a b => decide ((s.attrs a).name ≤ (s.attrs b).name)

/-- The members of the node are shown below it. -/
def expands (o : RenderOptions) (a : Attributes) : Bool := o.dereference || !a.isReference

mutual

/-- The nodes of a tree that are shown, in order. A hidden node hides all below it. -/
def shown (s : Schema) (o : RenderOptions) (hidden : Attributes → Bool) : Rose NodeId → List NodeId
  | .node id ts =>
    let a := s.attrs id
    if hidden a then []
    else id :: (if expands o a then s.shownAll o hidden ts else [])

def shownAll (s : Schema) (o : RenderOptions) (hidden : Attributes → Bool) :
    List (Rose NodeId) → List NodeId
  | [] => []
  | t :: ts => s.shown o hidden t ++ s.shownAll o hidden ts

end

/-- The nodes from a node upwards, to the first that `stops` accepts or that has no parent. -/
def lineageWithin? (s : Schema) (stops : Attributes → Bool) : Nat → NodeId → Option (List Node)
  | 0, _ => none
  | depth + 1, id => do
    let n ← s.node? id
    if stops n.toAttributes then some [n]
    else match n.parent with
      | none => some [n]
      | some p => return n :: (← s.lineageWithin? stops depth p)

/-- The nodes from a node upwards, to the first that `stops` accepts or that has no parent; none if
the way leaves the arena. -/
def lineage? (s : Schema) (stops : Attributes → Bool) (id : NodeId) : Option (List Node) :=
  s.lineageWithin? stops (s.nodes.size + 1) id

/-- The attributes of the nodes from the top down to a node. -/
def lineage (s : Schema) (stops : Attributes → Bool) (id : NodeId) : List Attributes :=
  (((s.lineage? stops id).getD []).map (·.toAttributes)).reverse

end Schema

/-! ## Path segments -/

/-- A segment that holds a dot is quoted. -/
def quoteSegment (segment : String) : String :=
  if segment.toList.contains '.' then Text.quoted segment else segment

/-- A segment between exclamation marks, if its node has a defect. -/
def markDefect (defect : Option Defect) (segment : String) : String :=
  if defect.isSome then "!" ++ segment ++ "!" else segment

/-- A segment is a name, if there is one, a type, and the named type that is referred to, if one is
to be shown. -/
def segmentOf (name type typeRef : String) : String :=
  (if name = "" then "" else name ++ ":") ++ type ++ (if typeRef = "" then "" else ":" ++ typeRef)

/-- The named type that a node shows: with references resolved, only a cycle still shows one. -/
def shownRef (o : RenderOptions) (a : Attributes) (typeRef : String) : String :=
  if !o.dereference || a.isCyclical then typeRef else ""

/-- The line of a path, with the defect of its node. -/
def pathLine (path : List String) (defect : Option Defect) : String :=
  ".".intercalate path ++ defect.elim "" fun d => " ERROR:" ++ d.message

end TypeOutline
