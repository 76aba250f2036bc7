import TypeOutline.Schema.Basic

/-!
# The registry of named types

Each named type is defined once, under `TypeRefs`. A definition is a copy of the first node of that
type whose members are complete. In the copy a node of another named type is cut down to a
reference, and that type gets a definition of its own; so no definition holds another.
-/

namespace TypeOutline

/-- The definition made of a node: named for its type, and without what was said about the node's
own position. -/
def Attributes.definition (a : Attributes) : Attributes :=
  { a with
    name := a.native.typeRef
    typeRef := ""
    nullable := false
    overrides := a.overrides.mapValues fun b =>
      { b with name := "", typeRef := "", inclusion := .included } }

namespace Schema

/-- Define the type of a node, unless the node has none, the type is defined, or the node only
closes a cycle. `prune` cuts the copy down to references. -/
def registerWith? (prune : NodeId → Schema → Option Schema) (id : NodeId) (s : Schema) :
    Option Schema :=
  let a := s.attrs id
  let name := a.native.typeRef
  if name = "" then some s
  else if (s.childByName? s.typeRefs name).isSome then some s
  else if a.isCyclical then some s
  else do
    let copy := s.nextId
    let s ← prune copy ((← s.copy? id).modifyAttrs copy (·.definition))
    return s.addChild s.typeRefs copy

/-- Cut the copy of a definition down: below it, a node of a named type is registered on its own and
loses its members and its defect. There is no result if that takes more than `depth` steps on one
way down. -/
def prune? : (depth : Nat) → NodeId → Schema → Option Schema
  | 0, _, _ => none
  | depth + 1, id, s =>
    let a := s.attrs id
    if a.isReference then do
      let s ← if a.isCyclical then some s
        else (registerWith? (prune? depth) id s).map (·.removeAllChildren id)
      return s.modifyAttrs id fun a => { a with defect := none }
    else (s.children id).foldlM (fun s c => prune? depth c s) s

/-- Define the type of a node and of the nodes below it. No tree is deeper than the arena is large,
and cutting down a node of a named type takes two steps, one on the node and one on its copy. -/
def register? (s : Schema) (id : NodeId) : Option Schema :=
  registerWith? (prune? (2 * s.nodes.size)) id s

end Schema

end TypeOutline
