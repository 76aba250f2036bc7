import TypeOutline.Derive.Members
import TypeOutline.Derive.Registry

/-!
# Deriving the schema of a value

The walk over a value: each level writes its head on its node, its members are visited below, and
the type of the finished node is registered. A value over a table of types may unfold without end;
the walk gives up at a depth that no walk with an end reaches, because before that depth some level
would be met twice with the same names above it.
-/

namespace TypeOutline

/-! ## How deep a walk can be -/

namespace Value

mutual

/-- The number of levels written out in a value. -/
def size : Value → Nat
  | .declared .. => 1
  | .layer _ (.list _ elements zero) => 1 + sizeAll elements + zero.size
  | .layer _ (.record fields) => 1 + sizeFields fields
  | .layer _ (.map _ _ entries) => 1 + sizeEntries entries
  | .layer _ (.pointer none zero) => 1 + zero.size
  | .layer _ (.pointer (some v) zero) => 1 + v.size + zero.size
  | .layer _ (.slot none) => 1
  | .layer _ (.slot (some v)) => 1 + v.size
  | .layer _ (.scalar _) => 1
  | .layer _ .nil => 1

def sizeAll : List Value → Nat
  | [] => 0
  | v :: vs => v.size + sizeAll vs

def sizeFields : List (Field Value) → Nat
  | [] => 0
  | ⟨_, _, _, v⟩ :: fs => v.size + sizeFields fs

def sizeEntries : List (String × Value) → Nat
  | [] => 0
  | (_, v) :: es => v.size + sizeEntries es

end

/-- A bound on the depth of a walk that ends: the levels of the value and of the table, each met
with at most as many sets of names above it as there are levels, on a node that has failed or not,
at the top or not. -/
def depthBound (types : Types) (v : Value) : Nat :=
  let levels := v.size + sizeAll types.values + 1
  4 * levels * levels

end Value

/-! ## The walk -/

namespace Schema

/-- The node stands directly below the top of a tree. -/
def underRoot (s : Schema) (id : NodeId) : Bool :=
  (s.parent? id).any fun p => (s.attrs p).isRoot

/-- Visit a value on a node, below the levels that declare `names`. -/
def visit (types : Types) : (depth : Nat) → Names → Visit
  | 0, _ => fun _ _ _ => none
  | depth + 1, names => fun id v s => do
    let level ← v.layer? types
    let (a, inner) := (s.attrs id).enter (s.underRoot id) names level
    let s := s.modifyAttrs id fun _ => a
    match inner with
    | none => some s
    | some names =>
      let s ← s.visitMembers (visit types depth names) id level.shape
      s.register? id

/-- Visit a value on a new node at the top. -/
def visitTop? (types : Types) (v : Value) (s : Schema) : Option Schema :=
  visit types (v.depthBound types) {} s.nextId v (s.newChild s.root "")

end Schema

/-! ## Engines -/

/-- An engine holds the schema that it is working on. -/
structure Engine where
  schema : Schema := Schema.empty

namespace Engine

/-- Drop what the engine holds. -/
def reset (e : Engine) : Engine := { e with schema := .empty }

/-- Derive the schema of a value; none if the walk does not end. The engine is reset before, and the
schema that it has worked on is taken from it. -/
def derive? (e : Engine) (types : Types) (v : Value) : Option Schema × Engine :=
  let e := e.reset
  ((e.schema.visitTop? types v).bind (·.compact?), { e with schema := .empty })

end Engine

/-- The two trees of a value before they are renumbered; none if the walk does not end. -/
def walk? (types : Types) (v : Value) : Option Schema := Schema.empty.visitTop? types v

/-- The schema of a value over a table of types; none if the value unfolds without end. -/
def derive? (types : Types) (v : Value) : Option Schema := (walk? types v).bind (·.compact?)

/-- What an engine derives does not depend on what it holds. -/
theorem Engine.derive?_eq (e : Engine) (types : Types) (v : Value) :
    e.derive? types v = (TypeOutline.derive? types v, {}) := rfl

end TypeOutline
