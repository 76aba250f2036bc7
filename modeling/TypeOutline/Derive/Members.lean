import TypeOutline.Derive.Head
import TypeOutline.Schema.Basic
import TypeOutline.Text.Capital
import TypeOutline.Text.Quoted

/-!
# Visiting the members of a level

Each function here does for one shape what follows the head of a level: it adds a node for every
member, in order, and hands node and member to `visit`. A node with a defect gets no members.

Lists keep one child. Every element is visited, so that elements of different types are noticed; the
children of the others are taken out again. Maps are visited in the order of their capitalized keys,
keys of one capitalized form in their own order. An optional value and the content of a slot have no
node of their own: they are visited on the node of the wrapper.
-/

namespace TypeOutline

/-- How a member is visited on its node; none if the visit does not end. -/
abbrev Visit := NodeId → Value → Schema → Option Schema

namespace Schema

/-- The node failed before. -/
def hasFailed (s : Schema) (id : NodeId) : Bool := (s.attrs id).defect.isSome

/-- Add a node with attributes below a parent and visit a member on it. -/
def visitChild (s : Schema) (visit : Visit) (parent : NodeId) (a : Attributes) (v : Value) :
    Option Schema :=
  visit s.nextId v ((s.alloc a).addChild parent s.nextId)

/-- Take several children out of a parent's list. -/
def removeChildren (s : Schema) (parent : NodeId) (cs : List NodeId) : Schema :=
  cs.foldl (fun s c => s.removeChild parent c) s

/-! ## Lists -/

/-- How many elements of each type a list has, as text. -/
def breakdown (kinds : Dictionary Nat) : String :=
  ",".intercalate (kinds.entries.map fun e => e.1 ++ ":" ++ toString e.2)

/-- The defect of a list with elements of several types. -/
def mixedKinds (kinds : Dictionary Nat) (a : Attributes) : Attributes :=
  (a.fail .sliceMultiType).modifyNative fun b =>
    { b with error := Defect.sliceMultiType.message ++ ": " ++ breakdown kinds }

/-- Visit the elements of a list one after the other. `probed` are the children added so far, the
last one first, and `kinds` counts their types. -/
def probe (visit : Visit) (id : NodeId) :
    List Value → (probed : List NodeId) → (kinds : Dictionary Nat) → Schema → Option Schema
  | [], probed, _, s => some (s.removeChildren id (probed.reverse.drop 1))
  | v :: vs, probed, kinds, s => do
    let child := s.nextId
    let s ← s.visitChild visit id { name := "" } v
    let kinds := kinds.update (s.attrs child).typeLabel 0 (· + 1)
    if kinds.size > 1 then
      some ((s.modifyAttrs id (mixedKinds kinds)).removeChildren id (child :: probed).reverse)
    else probe visit id vs (child :: probed) kinds s

/-- A list: typed by its elements, or by the value that stands for one if it is empty. -/
def visitList (s : Schema) (visit : Visit) (id : NodeId) (elements : List Value) (zero : Value) :
    Option Schema :=
  let s := s.modifyAttrs id (·.modifyOptions (·.set "len" (toString elements.length)))
  if s.hasFailed id then some s
  else if elements.isEmpty then s.visitChild visit id { name := "" } zero
  else probe visit id elements [] {} s

/-! ## Records -/

/-- The attributes that a member has from its name and its tags. -/
def fieldAttributes {α : Type} (f : Field α) : Attributes :=
  (Tag.parseAll f.tag).entries.foldl (fun a e => a.modifyOverride e.1 (·.apply e.2))
    { name := f.name }

/-- A record: its exported members in declaration order. -/
def visitRecord (s : Schema) (visit : Visit) (id : NodeId) (fields : List (Field Value)) :
    Option Schema :=
  if s.hasFailed id then some s
  else if fields.isEmpty then some (s.modifyAttrs id (·.fail .emptyStruct))
  else do
    let exported := fields.filter (·.exported)
    let s ← exported.foldlM (fun s f => s.visitChild visit id (fieldAttributes f) f.value) s
    if exported.isEmpty then some (s.modifyAttrs id (·.fail .noExportedFields)) else some s

/-! ## Maps -/

/-- A map entry with the name of its node. -/
structure Member where
  /-- The capitalized key. -/
  name : String
  key : String
  value : Value
  /-- An entry before this one has the same name. -/
  repeated : Bool := false

/-- The order in which map entries are visited: by name, then by key. -/
def Member.le (a b : Member) : Bool :=
  a.name < b.name || (a.name == b.name && decide (a.key ≤ b.key))

/-- Mark the members that have the name of the one before them. -/
def markRepeated : (before : Option String) → List Member → List Member
  | _, [] => []
  | before, m :: ms => { m with repeated := before == some m.name } :: markRepeated (some m.name) ms

/-- The entries of a map in the order in which they are visited. -/
def members (entries : List (String × Value)) : List Member :=
  markRepeated none
    ((entries.map fun e => { name := Text.capitalize e.1, key := e.1, value := e.2 }).mergeSort
      Member.le)

/-- The attributes that a map entry has from its key. -/
def Member.attributes (m : Member) : Attributes :=
  let a : Attributes := { name := m.name }
  let a := if m.name = m.key then a else a.modifyNative fun b => { b with name := m.key }
  if m.repeated then
    (a.fail .duplicateMapKey).modifyNative fun b =>
      { b with error := Defect.duplicateMapKey.message ++ " " ++ Text.quoted m.name
          ++ " (" ++ Text.quoted m.key ++ ")" }
  else a

/-- The defect of a map whose keys are no texts. -/
def badKeys (keyType : String) (a : Attributes) : Attributes :=
  (a.fail .mapKeyType).modifyNative fun b =>
    { b with error := Defect.mapKeyType.message ++ " not " ++ Text.quoted keyType }

def visitMap (s : Schema) (visit : Visit) (id : NodeId) (key : Kind) (keyType : String)
    (entries : List (String × Value)) : Option Schema :=
  if s.hasFailed id then some s
  else if key ≠ .string then some (s.modifyAttrs id (badKeys keyType))
  else if entries.isEmpty then some (s.modifyAttrs id (·.fail .emptyMap))
  else (members entries).foldlM (fun s m => s.visitChild visit id m.attributes m.value) s

/-! ## Wrappers -/

/-- A slot: its content on the same node, which a null may take the place of. -/
def visitSlot (s : Schema) (visit : Visit) (id : NodeId) (target : Option Value) : Option Schema :=
  match target with
  | none => some (s.modifyAttrs id fun a => { a.fail .nilInterface with generic := .invalid })
  | some v => visit id v (s.modifyAttrs id fun a => { a with nullable := true })

/-- An optional: its content, or the value that stands for it, on the same node. -/
def visitPointer (s : Schema) (visit : Visit) (id : NodeId) (target : Option Value)
    (zero : Value) : Option Schema :=
  let s := s.modifyAttrs id (·.modifyOptions (·.setBool "is_nil" target.isNone))
  if s.hasFailed id then some s
  else visit id (target.getD zero) (s.modifyAttrs id fun a => { a with nullable := true })

/-- What follows the head of a level, by its shape. -/
def visitMembers (s : Schema) (visit : Visit) (id : NodeId) : Shape Value → Option Schema
  | .scalar kind => some (s.modifyAttrs id (·.settleScalar kind))
  | .list _ elements zero => s.visitList visit id elements zero
  | .record fields => s.visitRecord visit id fields
  | .map key keyType entries => s.visitMap visit id key keyType entries
  | .slot target => s.visitSlot visit id target
  | .pointer target zero => s.visitPointer visit id target zero
  | .nil => some s

end Schema

end TypeOutline
