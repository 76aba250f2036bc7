import TypeOutline.Dictionary
import TypeOutline.Kind

/-!
# Described values

A value shows its structure one level at a time: the declared name of its type, if it has one, and a
`Shape` whose members are values again. Types may be recursive: the value that stands for an absent
one (the element of an empty list, the target of an empty optional) may refer to an entry of a table
of declared types, and is looked up only when it is needed.
-/

namespace TypeOutline

/-- A member of a record. -/
structure Field (α : Type) where
  name : String
  /-- Members that are not exported are passed over. -/
  exported : Bool := true
  /-- The raw tag text of the member. -/
  tag : String := ""
  value : α
deriving Repr

/-- One level of a value's structure, with its members of type `α`. -/
inductive Shape (α : Type) where
  /-- A leaf: scalars, atomic known types, and kinds that are rejected. -/
  | scalar (kind : Kind)
  /-- A list, of fixed or growing length, and the value that stands for an element. -/
  | list (fixed : Bool) (elements : List α) (zero : α)
  | record (fields : List (Field α))
  /-- Entries under the texts of their keys, with the kind and the type text of the keys. -/
  | map (key : Kind) (keyType : String) (entries : List (String × α))
  /-- An optional value, and the value that stands for its target. -/
  | pointer (target : Option α) (zero : α)
  /-- A slot for a value of any type. -/
  | slot (target : Option α)
  /-- The absence of any value. -/
  | nil
deriving Repr

namespace Shape

variable {α : Type}

def kind : Shape α → Kind
  | scalar k => k
  | list true .. => .array
  | list false .. => .vec
  | record _ => .struct
  | map .. => .map
  | pointer .. => .option
  | slot _ => .dyn
  | nil => .nil

/-- A short text for a shape: its kind and how many members it has. -/
def summary (s : Shape α) : String :=
  match s with
  | list _ elements _ => s.kind.name ++ "[" ++ toString elements.length ++ "]"
  | record fields => "struct\x7b" ++ toString fields.length ++ " fields\x7d"
  | map key _ entries => "map<" ++ key.name ++ ">[" ++ toString entries.length ++ "]"
  | _ => s.kind.name

end Shape

/-- A value: a level that it shows, or the entry of a type table. -/
inductive Value where
  | layer (typeName : Option String) (shape : Shape Value)
  /-- What the table of types has under `type`, under another declared name if one is given. -/
  | declared (typeName : Option String) (type : String)

instance : Inhabited Value := ⟨.layer none .nil⟩

/-- The values that stand for the declared types. -/
abbrev Types := Dictionary Value

/-- The level that a value shows. -/
structure Layer where
  typeName : Option String
  shape : Shape Value

namespace Value

/-- A value without a declared type name. -/
def ofShape (shape : Shape Value) : Value := .layer none shape

/-- The empty slot. -/
def emptySlot : Value := ofShape (.slot none)

/-- The same value under a declared type name. -/
def named (name : String) : Value → Value
  | layer _ shape => layer (some name) shape
  | declared _ type => declared (some name) type

/-- The level of a value, found in at most `hops` steps through the table. -/
def layerWithin? (types : Types) : Nat → Value → Option Layer
  | _, layer name shape => some ⟨name, shape⟩
  | 0, declared .. => none
  | hops + 1, declared name type => do
    let v ← types.find? type
    let l ← v.layerWithin? types hops
    return { l with typeName := name <|> l.typeName }

/-- The level that a value shows. A value of a declared type shows the level of the table's entry,
under the outermost name given; there is none if the entry is missing or refers to itself. -/
def layer? (types : Types) (v : Value) : Option Layer := v.layerWithin? types types.size

end Value

end TypeOutline
