import TypeOutline.Derive.Names
import TypeOutline.Schema.Node
import TypeOutline.Value

/-!
# What a level of a value writes on its node

Before the members of a value are visited, its kind and its declared name are written on its node. A
kind that is not supported, a top that is no struct, and a name that closes a cycle end the visit
there.
-/

namespace TypeOutline

namespace Attributes

/-- The node failed. -/
def fail (a : Attributes) (d : Defect) : Attributes := { a with defect := some d }

/-- Write a kind and its generic type. -/
def classify (a : Attributes) (kind : Kind) : Attributes :=
  { a with generic := .ofKind kind, invalidKind := none }.modifyOptions (·.set "kind" kind.name)

/-- Write a declared name. -/
def declare (a : Attributes) (name : String) : Attributes :=
  { a with typeRef := name }.modifyNative fun b =>
    { b with typeRef := name, options := b.options.set "type_name" name }

/-- Write the head of a level. The names are those declared above the level; the result has those to
hand on to its members, or none if there is nothing to visit. A name that is the name of the kind
declares nothing. -/
def enter (a : Attributes) (top : Bool) (names : Names) (level : Layer) :
    Attributes × Option Names :=
  let kind := level.shape.kind
  let generic := Generic.ofKind kind
  let a := a.classify kind
  if generic.category = .invalid then
    ({ a.fail .kindNotSupported with invalidKind := some kind.name }, none)
  else if top && generic ≠ .struct && generic.category ≠ .reference then
    (a.fail .rootKind, none)
  else
    let a := a.modifyNative fun b => { b with type := kind.name }
    match level.typeName.filter (· ≠ kind.name) with
    | none => (a, some names)
    | some name =>
      let a := a.declare name
      if names.contains name then (a.fail .cyclicalReference, none)
      else (a, some (names.add name))

/-- A date-time stands for itself and refers to no named type. -/
def settleScalar (a : Attributes) (kind : Kind) : Attributes :=
  if (Generic.ofKind kind).category = .known then
    { a with typeRef := "" }.modifyNative fun b => { b with typeRef := "" }
  else a

end Attributes

end TypeOutline
