import TypeOutline.Derive.Engine
import Mathlib.Data.Finset.Insert

/-!
# The outline of a value

The derivation of a value as a plain recursion over the value: no arena,
no registry, and of the names declared above a level only the set of them.
What is known before a level is looked at is a `Site`; `outline` maps it
to the tree of its node.

The outline also lists the levels that were entered, with their trees, in
the order in which they are finished. Nothing here reads that list. It is
what a registry of definitions may be filled from.
-/

namespace TypeOutline

/-! ## The head of a level -/

/-- The name that a level declares. One that is the name of the kind
declares nothing. -/
def Layer.declares? (l : Layer) : Option String :=
  l.typeName.filter (· ≠ l.shape.kind.name)

/-- No dialect can describe the kind of the level. -/
def Layer.isUnsupported (l : Layer) : Bool :=
  (Generic.ofKind l.shape.kind).category == .invalid

/-- An optional or a slot, whose content stands on the same node. -/
def Layer.isWrapper (l : Layer) : Bool :=
  (Generic.ofKind l.shape.kind).category == .reference

/-- A level at the top must be a struct or a wrapper. -/
def Layer.isMisplaced (l : Layer) (top : Bool) : Bool :=
  top && Generic.ofKind l.shape.kind != .struct && !l.isWrapper

/-- What becomes of a level when it is met. -/
inductive Ruling where
  | unsupported
  | misplaced
  | cycle (name : String)
  /-- Its members are derived; it declares the name, if any. -/
  | enters (name : Option String)
deriving Repr, DecidableEq

/-- The name written on the node. -/
def Ruling.name? : Ruling → Option String
  | unsupported | misplaced => none
  | cycle name => some name
  | enters name => name

/-- The ruling on a level below the levels that declare `above`. -/
def Layer.ruling (l : Layer) (top : Bool) (above : Finset String) : Ruling :=
  if l.isUnsupported then .unsupported
  else if l.isMisplaced top then .misplaced
  else match l.declares? with
    | none => .enters none
    | some name => if name ∈ above then .cycle name else .enters (some name)

/-- The names above the members of a level. -/
def declaredBelow (above : Finset String) : Option String → Finset String
  | none => above
  | some name => insert name above

namespace Attributes

/-- Write a kind that is supported. -/
def typed (a : Attributes) (kind : Kind) : Attributes :=
  (a.classify kind).modifyNative fun b => { b with type := kind.name }

/-- What a level of a kind writes on its node before its members are looked at. -/
def head (a : Attributes) (kind : Kind) : Ruling → Attributes
  | .unsupported =>
      { (a.classify kind).fail .kindNotSupported with invalidKind := some kind.name }
  | .misplaced => (a.classify kind).fail .rootKind
  | .cycle name => ((a.typed kind).declare name).fail .cyclicalReference
  | .enters none => a.typed kind
  | .enters (some name) => (a.typed kind).declare name

/-- The head of a level asks only which names occur above it. -/
theorem enter_eq {names : Names} {above : Finset String}
    (h : ∀ n, names.contains n = true ↔ n ∈ above) (a : Attributes) (top : Bool) (l : Layer) :
    (a.enter top names l).1 = a.head l.shape.kind (l.ruling top above)
      ∧ match l.ruling top above with
        | .enters name => ∃ inner, (a.enter top names l).2 = some inner
            ∧ ∀ n, inner.contains n = true ↔ n ∈ declaredBelow above name
        | _ => (a.enter top names l).2 = none := by
  unfold enter Layer.ruling Layer.isUnsupported Layer.isMisplaced Layer.isWrapper
  simp only [beq_iff_eq]
  by_cases hkind : (Generic.ofKind l.shape.kind).category = .invalid
  · rw [if_pos hkind, if_pos hkind]
    exact ⟨rfl, rfl⟩
  · rw [if_neg hkind, if_neg hkind]
    by_cases hplace : top = true ∧ Generic.ofKind l.shape.kind ≠ .struct
        ∧ (Generic.ofKind l.shape.kind).category ≠ .reference
    · rw [if_pos (by simpa [and_assoc] using hplace), if_pos (by simpa [and_assoc] using hplace)]
      exact ⟨rfl, rfl⟩
    · rw [if_neg (by simpa [and_assoc] using hplace), if_neg (by simpa [and_assoc] using hplace)]
      show _ ∧ _
      unfold Layer.declares?
      cases hname : l.typeName.filter (· ≠ l.shape.kind.name) with
      | none => exact ⟨rfl, names, rfl, h⟩
      | some name =>
          by_cases hin : names.contains name = true
          · simp only [if_pos hin, if_pos ((h name).mp hin)]
            exact ⟨rfl, trivial⟩
          · simp only [if_neg hin, if_neg (mt (h name).mpr hin)]
            refine ⟨rfl, names.add name, rfl, fun n => ?_⟩
            rw [Names.contains_add, Bool.or_eq_true, beq_iff_eq, h, declaredBelow,
              Finset.mem_insert]

end Attributes

/-! ## The content of a level -/

/-- What follows the head of a level: the attributes that its node ends
up with, if no list of several types is found, and the members. -/
inductive Content where
  | leaf (a : Attributes)
  /-- The content stands on the same node. -/
  | same (a : Attributes) (v : Value)
  /-- Every member gets a node of its own. -/
  | each (a : Attributes) (members : List (Attributes × Value))
  /-- The elements of a list, of which one is kept. -/
  | probed (a : Attributes) (elements : List Value)

/-- The content of a level by its shape, on a node with the head of the level. -/
def Shape.content (a : Attributes) : Shape Value → Content
  | .scalar kind => .leaf (a.settleScalar kind)
  | .list _ elements zero =>
      let a := a.modifyOptions (·.set "len" (toString elements.length))
      if a.defect.isSome then .leaf a
      else if elements.isEmpty then .each a [({ name := "" }, zero)]
      else .probed a elements
  | .record fields =>
      let exported := fields.filter (·.exported)
      if a.defect.isSome then .leaf a
      else if fields.isEmpty then .leaf (a.fail .emptyStruct)
      else if exported.isEmpty then .leaf (a.fail .noExportedFields)
      else .each a (exported.map fun f => (Schema.fieldAttributes f, f.value))
  | .map key keyType entries =>
      if a.defect.isSome then .leaf a
      else if key ≠ .string then .leaf (Schema.badKeys keyType a)
      else if entries.isEmpty then .leaf (a.fail .emptyMap)
      else .each a ((Schema.members entries).map fun m => (m.attributes, m.value))
  | .slot none => .leaf { a.fail .nilInterface with generic := .invalid }
  | .slot (some v) => .same { a with nullable := true } v
  | .pointer target zero =>
      let a := a.modifyOptions (·.setBool "is_nil" target.isNone)
      if a.defect.isSome then .leaf a
      else .same { a with nullable := true } (target.getD zero)
  | .nil => .leaf a

/-- What is known of a position before the level there is looked at. -/
structure Site where
  /-- What stands on the node already. -/
  attrs : Attributes
  /-- The node is directly below the top of a tree. -/
  top : Bool
  /-- The names declared above. -/
  above : Finset String
  value : Value

/-- Where the derivation of a value starts. -/
def Site.start (v : Value) : Site :=
  { attrs := { name := "" }, top := true, above := ∅, value := v }

/-- The positions of the members, below a level at the top or not. -/
def Content.sites (top : Bool) (above : Finset String) : Content → List Site
  | .leaf _ => []
  | .same a v => [⟨a, top, above, v⟩]
  | .each _ members => members.map fun m => ⟨m.1, false, above, m.2⟩
  | .probed _ elements => elements.map fun v => ⟨{ name := "" }, false, above, v⟩

/-! ## The recursion -/

/-- A level whose members are derived, and the tree of its node then. -/
structure Finished where
  site : Site
  level : Layer
  tree : Rose Attributes

/-- The tree of a position, and the levels finished there. -/
structure Outline where
  tree : Rose Attributes
  finished : List Finished := []

namespace Outline

/-- A node without members. -/
def leaf (a : Attributes) : Outline := { tree := .node a [] }

/-- The level of the tree is finished. -/
def finish (p : Site) (l : Layer) (o : Outline) : Outline :=
  { o with finished := o.finished ++ [⟨p, l, o.tree⟩] }

/-- The elements of a list one after the other, up to the first of a
second type, and how many there are of each type. -/
def gather (derive : Value → Option Outline) :
    List Value → (kinds : Dictionary Nat) → Option (List Outline × Dictionary Nat)
  | [], kinds => some ([], kinds)
  | v :: vs, kinds => do
      let o ← derive v
      let kinds := kinds.update o.tree.label.typeLabel 0 (· + 1)
      if kinds.size > 1 then some ([o], kinds)
      else
        let (os, kinds) ← gather derive vs kinds
        return (o :: os, kinds)

/-- A node with a child for each of its members. -/
def branch (a : Attributes) (os : List Outline) : Outline where
  tree := .node a (os.map (·.tree))
  finished := os.flatMap (·.finished)

/-- A list keeps its first element, unless there are several types. -/
def list (a : Attributes) (os : List Outline) (kinds : Dictionary Nat) : Outline where
  tree := if kinds.size > 1 then .node (Schema.mixedKinds kinds a) []
    else .node a ((os.map (·.tree)).take 1)
  finished := os.flatMap (·.finished)

end Outline

/-- Derive the members of a level. -/
def Content.outline (derive : Site → Option Outline) (top : Bool) (above : Finset String) :
    Content → Option Outline
  | .leaf a => some (.leaf a)
  | .same a v => derive ⟨a, top, above, v⟩
  | .each a members => do
      let os ← members.mapM fun m => derive ⟨m.1, false, above, m.2⟩
      return .branch a os
  | .probed a elements => do
      let (os, kinds) ←
        Outline.gather (fun v => derive ⟨{ name := "" }, false, above, v⟩) elements {}
      return .list a os kinds

/-- The outline of a position, if no way down is longer than `depth`. -/
def outline (types : Types) : (depth : Nat) → Site → Option Outline
  | 0, _ => none
  | depth + 1, p => do
      let l ← p.value.layer? types
      let ruling := l.ruling p.top p.above
      let a := p.attrs.head l.shape.kind ruling
      match ruling with
      | .enters name =>
          let o ← (l.shape.content a).outline (outline types depth) p.top
            (declaredBelow p.above name)
          return o.finish p l
      | _ => some (.leaf a)

/-- The value has an outline at the position: there is an end to every way down. -/
def Outlines (types : Types) (p : Site) (o : Outline) : Prop :=
  ∃ depth, outline types depth p = some o

/-! ## Positions below a position -/

/-- The positions of the members. -/
def Site.members (types : Types) (p : Site) : List Site :=
  match p.value.layer? types with
  | none => []
  | some l =>
      match l.ruling p.top p.above with
      | .enters name =>
          (l.shape.content (p.attrs.head l.shape.kind (.enters name))).sites p.top
            (declaredBelow p.above name)
      | _ => []

/-- The positions met on the way down from a position, with the levels
above them, the nearest first. -/
inductive Reaches (types : Types) (start : Site) : List Layer → Site → Prop where
  | start : Reaches types start [] start
  | member {path : List Layer} {p q : Site} {l : Layer} :
      Reaches types start path p → p.value.layer? types = some l → q ∈ p.members types →
        Reaches types start (l :: path) q

/-! ## One level of the recursion -/

section Level

variable {types : Types} {p : Site} {l : Layer}

theorem outline_of_enters {name : Option String} (hl : p.value.layer? types = some l)
    (hr : l.ruling p.top p.above = .enters name) (depth : Nat) :
    outline types (depth + 1) p =
      ((l.shape.content (p.attrs.head l.shape.kind (.enters name))).outline (outline types depth)
        p.top (declaredBelow p.above name)).map (Outline.finish p l) := by
  rw [outline, hl]
  simp only [Option.bind_eq_bind, Option.bind_some, hr]
  rw [Option.map_eq_bind]
  rfl

theorem outline_of_refused (hl : p.value.layer? types = some l)
    (hr : ∀ name, l.ruling p.top p.above ≠ .enters name) (depth : Nat) :
    outline types (depth + 1) p =
      some (.leaf (p.attrs.head l.shape.kind (l.ruling p.top p.above))) := by
  rw [outline, hl]
  simp only [Option.bind_eq_bind, Option.bind_some]

theorem members_of_enters {name : Option String} (hl : p.value.layer? types = some l)
    (hr : l.ruling p.top p.above = .enters name) :
    p.members types =
      (l.shape.content (p.attrs.head l.shape.kind (.enters name))).sites p.top
        (declaredBelow p.above name) := by
  simp only [Site.members, hl, hr]

/-- A position with members is one whose level is entered. -/
theorem exists_enters_of_mem_members {q : Site} (hl : p.value.layer? types = some l)
    (hq : q ∈ p.members types) : ∃ name, l.ruling p.top p.above = .enters name := by
  simp only [Site.members, hl] at hq
  split at hq
  · rename_i name h
    exact ⟨name, h⟩
  · exact absurd hq List.not_mem_nil

/-- All that one level of the recursion can do. -/
theorem outline_succ_cases {depth : Nat} {o : Outline}
    (h : outline types (depth + 1) p = some o) :
    ∃ l, p.value.layer? types = some l ∧
      ((∀ name, l.ruling p.top p.above ≠ .enters name)
          ∧ o = .leaf (p.attrs.head l.shape.kind (l.ruling p.top p.above))
        ∨ ∃ name content, l.ruling p.top p.above = .enters name
          ∧ (l.shape.content (p.attrs.head l.shape.kind (.enters name))).outline
              (outline types depth) p.top (declaredBelow p.above name) = some content
          ∧ o = content.finish p l) := by
  have hlayer := h
  rw [outline] at hlayer
  obtain ⟨l, hl, -⟩ := Option.bind_eq_some_iff.mp hlayer
  refine ⟨l, hl, ?_⟩
  by_cases hr : ∃ name, l.ruling p.top p.above = .enters name
  · obtain ⟨name, hr⟩ := hr
    rw [outline_of_enters hl hr] at h
    obtain ⟨content, hcontent, ho⟩ := Option.map_eq_some_iff.mp h
    exact .inr ⟨name, content, hr, hcontent, ho.symm⟩
  · have hr' := fun name hn => hr ⟨name, hn⟩
    rw [outline_of_refused hl hr'] at h
    exact .inl ⟨hr', (Option.some.inj h).symm⟩

end Level

end TypeOutline
