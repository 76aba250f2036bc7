import TypeOutline.Kind
import TypeOutline.Override

/-!
# Nodes of a schema

A node holds what is known about one position of a value: its name, its generic type, the named type
it refers to, what went wrong there, and an override block per dialect. `Attributes` is all of this
but the links; a `Node` adds its place in the arena.
-/

namespace TypeOutline

/-- What can be wrong at one position of a value. A defect stays with its node. -/
inductive Defect where
  | kindNotSupported | rootKind | cyclicalReference | nilInterface | emptyStruct
  | noExportedFields | emptyMap | mapKeyType | sliceMultiType | duplicateMapKey
deriving Repr, DecidableEq, Inhabited

namespace Defect

def message : Defect → String
  | kindNotSupported => "kind not supported"
  | rootKind => "root type must be a struct"
  | cyclicalReference => "cyclical reference"
  | nilInterface => "interface element is nil"
  | emptyStruct => "empty struct not supported"
  | noExportedFields => "struct has no exported fields"
  | emptyMap => "empty map not supported"
  | mapKeyType => "map key type must be string"
  | sliceMultiType => "slice contains multiple kinds"
  | duplicateMapKey => "duplicate map key"

def all : List Defect :=
  [kindNotSupported, rootKind, cyclicalReference, nilInterface, emptyStruct, noExportedFields,
    emptyMap, mapKeyType, sliceMultiType, duplicateMapKey]

def ofMessage? (s : String) : Option Defect := all.find? (·.message == s)

theorem ofMessage?_message (d : Defect) : ofMessage? d.message = some d := by cases d <;> decide

end Defect

/-- The index of a node in its arena. -/
abbrev NodeId := Nat

/-- What a node says, apart from its links. -/
structure Attributes where
  /-- The member or key name; empty for list elements. -/
  name : String
  nullable : Bool := false
  generic : Generic := .invalid
  /-- The kind of an unsupported value. -/
  invalidKind : Option String := none
  typeRef : String := ""
  overrides : Dictionary Override := .single nativeDialect (.fresh nativeDialect)
  defect : Option Defect := none
deriving Repr, DecidableEq

namespace Attributes

def category (a : Attributes) : Category := a.generic.category

/-- The top of a tree, or a node made to look like one. -/
def isRoot (a : Attributes) : Bool := a.generic == .root

def isCyclical (a : Attributes) : Bool := a.defect == some .cyclicalReference

/-- The slug of the generic type, with the kind of an unsupported value. -/
def typeLabel (a : Attributes) : String :=
  match a.invalidKind, a.generic with
  | some kind, .invalid => "invalid:" ++ kind
  | _, generic => generic.slug

/-- The type as it stands in a path. -/
def pathType (a : Attributes) : String :=
  if a.category == .invalid then a.typeLabel else a.generic.token

/-- The block of a dialect. -/
def override? (a : Attributes) (dialect : String) : Option Override := a.overrides.find? dialect

/-- The block of the native dialect; one that overrides nothing if it was dropped. -/
def native (a : Attributes) : Override := (a.override? nativeDialect).getD (.fresh nativeDialect)

/-- Change the block of a dialect, which is added if there is none. -/
def modifyOverride (a : Attributes) (dialect : String) (f : Override → Override) : Attributes :=
  { a with overrides := a.overrides.update dialect (.fresh dialect) f }

def modifyNative (a : Attributes) (f : Override → Override) : Attributes :=
  a.modifyOverride nativeDialect f

/-- Change the options of the native block. -/
def modifyOptions (a : Attributes) (f : OptionSet → OptionSet) : Attributes :=
  a.modifyNative fun b => { b with options := f b.options }

/-- The node refers to a named type instead of holding its members. -/
def isReference (a : Attributes) : Bool := a.native.typeRef != ""

/-- The name in a dialect. -/
def nameIn (a : Attributes) (dialect : String) : String :=
  match a.override? dialect with
  | some b => if b.name = "" then a.name else b.name
  | none => a.name

end Attributes

/-- What one dialect shows of a node: the generic attributes under the block of the dialect. -/
structure DialectView where
  name : String
  type : String
  typeRef : String
  inclusion : Inclusion
  error : String
deriving Repr, DecidableEq

/-- The first text, unless it is empty. -/
def orElseText (s fallback : String) : String := if s = "" then fallback else s

/-- The view of a node in a dialect. The type of the native block names a kind and is no type of a
dialect. -/
def Attributes.view (a : Attributes) (dialect : String) : DialectView :=
  let base : DialectView :=
    { name := a.name, type := a.generic.slug, typeRef := a.native.typeRef,
      inclusion := .undefined, error := a.native.error }
  match a.override? dialect with
  | none => base
  | some b =>
    { name := orElseText b.name base.name
      type := if dialect = nativeDialect then base.type else orElseText b.type base.type
      typeRef := orElseText b.typeRef base.typeRef
      inclusion := b.inclusion
      error := orElseText b.error base.error }

/-- The dialect leaves the node out. -/
def Attributes.isExcluded (a : Attributes) (dialect : String) : Bool :=
  (a.view dialect).inclusion == .excluded

/-- A node of an arena: its attributes, its own index, its parent and its children. -/
structure Node extends Attributes where
  id : NodeId
  parent : Option NodeId := none
  children : List NodeId := []
deriving Repr, DecidableEq

end TypeOutline
