import TypeOutline.Rose
import TypeOutline.Schema.Node

/-!
# Schemas

A schema is two trees in one arena of nodes: `Root`, the structure of a value, and `TypeRefs`, one
definition per named type. A node stays in the arena when it is taken out of its tree. Ids are
indices into the arena, so an id kept from before a renumbering may point outside of it: each
operation says what it does then, and `faults` predicates tell beforehand.
-/

namespace TypeOutline

/-- The name of the top of the value's own tree. -/
def rootName : String := "Root"

/-- The name of the top of the tree of definitions. -/
def typeRefsName : String := "TypeRefs"

structure Schema where
  nodes : Array Node
  root : NodeId
  typeRefs : NodeId
deriving Repr, DecidableEq

namespace Schema

/-- The node of an id. -/
def node? (s : Schema) (id : NodeId) : Option Node := s.nodes[id]?

/-- The id points into the arena. -/
def has (s : Schema) (id : NodeId) : Bool := id < s.nodes.size

/-- The attributes of a node; those of an unnamed node outside the arena. -/
def attrs (s : Schema) (id : NodeId) : Attributes :=
  (s.node? id).elim { name := "" } (·.toAttributes)

def parent? (s : Schema) (id : NodeId) : Option NodeId := (s.node? id).bind (·.parent)

def children (s : Schema) (id : NodeId) : List NodeId := (s.node? id).elim [] (·.children)

/-- Change a node; nothing happens outside the arena. -/
def modify (s : Schema) (id : NodeId) (f : Node → Node) : Schema :=
  { s with nodes := s.nodes.modify id f }

/-- Change the attributes of a node. -/
def modifyAttrs (s : Schema) (id : NodeId) (f : Attributes → Attributes) : Schema :=
  s.modify id fun n => { n with toAttributes := f n.toAttributes }

/-- The id that the next new node gets. -/
def nextId (s : Schema) : NodeId := s.nodes.size

/-- Add a node that is in neither tree. -/
def alloc (s : Schema) (a : Attributes) : Schema :=
  { s with nodes := s.nodes.push { a with id := s.nodes.size } }

/-- The schema with two empty trees. -/
def empty : Schema :=
  { nodes := #[{ name := rootName, generic := .root, id := 0 },
               { name := typeRefsName, generic := .root, id := 1 }]
    root := 0
    typeRefs := 1 }

instance : Inhabited Schema := ⟨empty⟩

/-! ## What an operation does to a node -/

@[simp] theorem node?_modify (s : Schema) (id : NodeId) (f : Node → Node) (k : NodeId) :
    (s.modify id f).node? k = if id = k then (s.node? k).map f else s.node? k :=
  Array.getElem?_modify

@[simp] theorem node?_alloc (s : Schema) (a : Attributes) (k : NodeId) :
    (s.alloc a).node? k = if k = s.nextId then some { a with id := s.nextId } else s.node? k :=
  Array.getElem?_push

/-! ## Links -/

/-- Take a child out of its parent's list. Nothing happens if it is not in there. -/
def removeChild (s : Schema) (parent child : NodeId) : Schema :=
  if (s.children parent).contains child then
    (s.modify parent fun n => { n with children := n.children.erase child }).modify child
      fun n => { n with parent := none }
  else s

/-- Put a node that has no parent at the end of a parent's list. -/
def attach (s : Schema) (parent child : NodeId) : Schema :=
  (s.modify child fun n => { n with parent := some parent }).modify parent
    fun n => { n with children := n.children ++ [child] }

/-- Move a node to the end of a parent's list. A child outside the arena, or one whose old parent is
outside, stays where it is. -/
def addChild (s : Schema) (parent child : NodeId) : Schema :=
  match s.node? child with
  | none => s
  | some n => match n.parent with
    | none => s.attach parent child
    | some old => if s.has old then (s.removeChild old child).attach parent child else s

/-- `addChild` meets an id outside the arena. -/
def addChildFaults (s : Schema) (parent child : NodeId) : Bool :=
  !s.has parent || !s.has child || ((s.parent? child).any fun old => !s.has old)

/-- Add a node with a name at the end of a parent's list. -/
def newChild (s : Schema) (parent : NodeId) (name : String) : Schema :=
  (s.alloc { name }).addChild parent s.nextId

/-- `newChild` meets an id outside the arena, in which the new node already stands. -/
def newChildFaults (s : Schema) (parent : NodeId) : Bool := s.nextId < parent

/-- Empty a node's list of children. -/
def removeAllChildren (s : Schema) (id : NodeId) : Schema :=
  (s.children id).foldl (fun s c => s.modify c fun n => { n with parent := none })
    (s.modify id fun n => { n with children := [] })

/-- The first child with a name. -/
def childByName? (s : Schema) (parent : NodeId) (name : String) : Option NodeId :=
  (s.children parent).find? fun c => (s.attrs c).name == name

/-- The children in the order of their names; children of one name keep their order. -/
def sortedChildren (s : Schema) (id : NodeId) : List NodeId :=
  (s.children id).mergeSort fun a b => decide ((s.attrs a).name ≤ (s.attrs b).name)

/-! ## Trees -/

/-- The ids below a node, found within a depth. -/
def subtreeWithin? (s : Schema) : (depth : Nat) → NodeId → Option (Rose NodeId)
  | 0, _ => none
  | depth + 1, id => do return .node id (← (s.children id).mapM (s.subtreeWithin? depth))

/-- The ids below a node; none if some node stands below itself. No path that visits a node of the
arena only once is longer than the arena, and an id outside of it has nothing below. -/
def subtree? (s : Schema) (id : NodeId) : Option (Rose NodeId) :=
  s.subtreeWithin? (s.nodes.size + 1) id

/-- The ids below a node, the node alone if there is no end to them. -/
def subtree (s : Schema) (id : NodeId) : Rose NodeId := (s.subtree? id).getD (.node id [])

/-- The ids below a node, each before those below it. -/
def preorder (s : Schema) (id : NodeId) : List NodeId := (s.subtree id).preorder

/-- The attributes of the nodes below a node. -/
def tree (s : Schema) (id : NodeId) : Rose Attributes := (s.subtree id).map s.attrs

/-- The number of nodes in the two trees. -/
def size (s : Schema) : Nat := (s.preorder s.root).length + (s.preorder s.typeRefs).length

/-- The number of nodes in the arena, in a tree or not. -/
def arenaSize (s : Schema) : Nat := s.nodes.size

def isEmpty (s : Schema) : Bool :=
  (s.children s.root).isEmpty && (s.children s.typeRefs).isEmpty

/-! ## Copying -/

mutual

/-- Add the nodes of a tree to the arena, each before those below it, linked as in the tree. The top
of the copy has no parent. -/
def graft (s : Schema) : Rose Attributes → Schema
  | .node a ts => (s.alloc a).graftAll s.nextId ts

/-- Add several trees below a node, one after the other. -/
def graftAll (s : Schema) (parent : NodeId) : List (Rose Attributes) → Schema
  | [] => s
  | t :: ts => ((s.graft t).addChild parent s.nextId).graftAll parent ts

end

/-- Copy a node and all below it. The copy gets fresh ids, the first being `s.nextId`, and is in
neither tree. -/
def copy (s : Schema) (id : NodeId) : Schema := s.graft (s.tree id)

/-- The copy of a node, if there is an end to what is below it. -/
def copy? (s : Schema) (id : NodeId) : Option Schema := do
  guard (s.subtree? id).isSome
  return s.copy id

/-! ## Renumbering -/

/-- For each id below `arena` its place among the placed ids, the last one if it has several. -/
def places (placed : List (NodeId × Nat)) (arena : Nat) : Array (Option Nat) :=
  placed.foldl (fun m e => m.setIfInBounds e.1 (some e.2)) (Array.replicate arena none)

/-- The ids of both trees in their order, `Root` and all below it first. -/
def order (s : Schema) : List NodeId := s.preorder s.root ++ s.preorder s.typeRefs

/-- Some id in the trees points outside of the arena. -/
def sizeFaults (s : Schema) : Bool := s.order.any (!s.has ·)

/-- The nodes of both trees in their order, each where it comes first. -/
def orderedNodes (s : Schema) : List Node :=
  let order := s.order.zipIdx
  let first := places order.reverse s.nodes.size
  order.filterMap fun (id, i) => if first[id]?.join = some i then s.node? id else none

/-- The own id of the node or its parent lies outside of the arena, as a parent may after an earlier
renumbering. -/
def strays (s : Schema) (n : Node) : Bool := !s.has n.id || n.parent.any (!s.has ·)

/-- `compact` meets an id outside of the arena. -/
def compactFaults (s : Schema) : Bool := s.orderedNodes.any s.strays

/-- Drop the nodes that are in neither tree and renumber the others in the order of the trees:
`Root` and all below it first, then `TypeRefs`. An id without a new index stays as it is. At the
first node that strays the renumbering breaks off: the nodes before it are all that is left, and the
tops keep their old ids. -/
def compact (s : Schema) : Schema :=
  let last := places s.order.zipIdx s.nodes.size
  let place (id : NodeId) : NodeId := (last[id]?.join).getD id
  let moved := (s.orderedNodes.takeWhile (!s.strays ·)).map fun n =>
    { n with
      id := place n.id
      parent := n.parent.map place
      children := n.children.map place }
  if s.compactFaults then { s with nodes := moved.toArray }
  else { nodes := moved.toArray, root := place s.root, typeRefs := place s.typeRefs }

/-- The schema without the nodes in neither tree, if there is an end to both trees. -/
def compact? (s : Schema) : Option Schema := do
  guard ((s.subtree? s.root).isSome && (s.subtree? s.typeRefs).isSome)
  return s.compact

end Schema

end TypeOutline
