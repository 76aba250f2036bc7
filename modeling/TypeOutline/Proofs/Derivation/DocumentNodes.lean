import TypeOutline.Proofs.Derivation.Blocks
import TypeOutline.Proofs.Derivation.DocumentTrees
import TypeOutline.Proofs.Derivation.MapKeys
import TypeOutline.Proofs.Derivation.Placement

/-!
# The nodes of documents

A node of a document has the type of what it stands for, whatever went
wrong there (`generic_of_toValue`, `label_of_toSlot`). So the nodes of type
struct are those that stand for an object (`exists_object_of_struct`). One
that did not arrive with the defect of a repeated key has a child for each
entry of the object, in the order of the capitalized keys
(`StandsFor.forall₂_entries`). No tree is higher than its value is large
(`height_le_size`).
-/

namespace TypeOutline

open Relation (ReflTransGen TransGen)
open Schema (Member members)

variable {types : Types}

/-! ## Heights -/

theorem Rose.height_eq {α : Type} (t : Rose α) : t.height = heightAll t.children + 1 := by
  cases t
  rfl

theorem Value.size_pos (v : Value) : 0 < v.size := by
  rw [← length_subvalues]
  exact List.length_pos_of_mem (self_mem_subvalues v)

/-- A value that is written out in full has a tree that is no higher than the value is large. -/
theorem height_le_size {p : Site} {o : Outline} (hwritten : p.value.IsWritten)
    (ho : Outlines types p o) : o.tree.height ≤ p.value.size := by
  obtain ⟨name, shape, hvalue⟩ := hwritten p.value (Value.self_mem_subvalues _)
  have hl : p.value.layer? types = some ⟨name, shape⟩ := by
    rw [hvalue, Value.layer?_layer]
  have hmember : ∀ q ∈ p.members types, ∀ o', Outlines types q o' →
      o'.tree.height < p.value.size := by
    intro q hq o' ho'
    have hpart := shape.members_subset_parts (mem_members hl hq).1
    have hlt : q.value.size < p.value.size := by
      rw [hvalue]
      exact Value.size_lt_of_mem_parts hpart
    have hle := height_le_size (Value.isWritten_layer.mp (hvalue ▸ hwritten) _ hpart) ho'
    exact Nat.lt_of_le_of_lt hle hlt
  have hpos := p.value.size_pos
  cases hwrap : (Layer.mk name shape).isWrapper with
  | true =>
      obtain ⟨depth, ho⟩ := ho
      cases depth with
      | zero => cases ho
      | succ depth =>
          rcases wrapper_cases ho hl hwrap with ⟨-, hnil⟩ | ⟨q, o', hq, ho', heq⟩
          · rw [Rose.height_eq, hnil]
            exact hpos
          · rw [← heq]
            exact Nat.le_of_lt (hmember q (hq ▸ List.mem_singleton_self q) o' ⟨depth, ho'⟩)
  | false =>
      have hchildren : Rose.heightAll o.tree.children ≤ p.value.size - 1 := by
        refine Schema.Rose.heightAll_le fun t ht => ?_
        obtain ⟨i, hi⟩ := List.mem_iff_getElem?.mp ht
        obtain ⟨q, o', hq, ho', rfl⟩ := exists_member_of_child ho hl hwrap hi
        exact Nat.le_sub_one_of_lt (hmember q (List.mem_of_getElem? hq) o' ho')
      rw [Rose.height_eq]
      omega
termination_by p.value.size

/-! ## Types -/

namespace Json

/-- The generic type of a document; that of null is no type. -/
def generic : Json → Generic
  | null => .invalid
  | bool _ => .boolean
  | number _ => .float
  | string _ => .string
  | array _ => .list
  | object _ => .struct

/-- The level of a document. -/
theorem exists_layer_toValue (j : Json) : ∃ shape : Shape Value,
    j.toValue = .layer none shape ∧ Generic.ofKind shape.kind = j.generic
      ∧ (Layer.mk none shape).isWrapper = false := by
  cases j <;> exact ⟨_, by rw [toValue]; rfl, rfl, rfl⟩

theorem generic_of_toValue {j : Json} {p : Site} {o : Outline} (hp : p.value = j.toValue)
    (ho : Outlines types p o) : o.tree.label.generic = j.generic := by
  obtain ⟨shape, hvalue, hgeneric, hwrap⟩ := exists_layer_toValue j
  have hl : p.value.layer? types = some ⟨none, shape⟩ := by
    rw [hp, hvalue, Value.layer?_layer]
  obtain ⟨depth, ho⟩ := ho
  cases depth with
  | zero => cases ho
  | succ depth =>
      obtain ⟨l, hl', ⟨-, rfl⟩ | ⟨name, content, hr, hcontent, rfl⟩⟩ := outline_succ_cases ho
      · obtain rfl := Option.some.inj (hl.symm.trans hl')
        exact (generic_head _ _ _).trans hgeneric
      · obtain rfl := Option.some.inj (hl.symm.trans hl')
        have hshape : shape ≠ .slot none := fun h => nomatch (h ▸ hwrap)
        have hfits := content_fits (p.attrs.head shape.kind (.enters name)) shape
        obtain ⟨-, hlabel⟩ := (Content.obeys_generic _ hshape).exists_label hcontent
          fun b v hc => by
            rw [hc] at hfits
            exact absurd (hwrap.symm.trans hfits.1) Bool.false_ne_true
        exact (hlabel.trans (generic_head _ _ _)).trans hgeneric

/-- The entries are in the order of the capitalized keys, and then of the keys. -/
def InKeyOrder (ms : List (String × Json)) : Prop :=
  ms.Pairwise fun m m' => Text.capitalize m.1 < Text.capitalize m'.1
    ∨ Text.capitalize m.1 = Text.capitalize m'.1 ∧ m.1 ≤ m'.1

end Json

/-! ## Slots -/

section Slots

variable {p : Site} {o : Outline}

theorem layer?_emptySlot (hp : p.value = .emptySlot) :
    p.value.layer? types = some ⟨none, .slot none⟩ := by
  rw [hp, Value.emptySlot, Value.ofShape, Value.layer?_layer]

/-- The content of a slot stands on its node. -/
theorem members_of_slot {j : Json} (hp : p.value = j.toSlot) (hj : j ≠ .null) :
    p.value.layer? types = some ⟨none, .slot (some j.toValue)⟩
      ∧ ∃ q, p.members types = [q] ∧ q.value = j.toValue ∧ q.attrs.defect = p.attrs.defect := by
  have hl : p.value.layer? types = some ⟨none, .slot (some j.toValue)⟩ := by
    rw [hp, Json.toSlot_of_ne_null hj, Value.ofShape, Value.layer?_layer]
  exact ⟨hl, _, members_of_enters hl (ruling_slot _ _ _), rfl, rfl⟩

/-- The node of a slot has the type of what is in it. -/
theorem label_of_toSlot {j : Json} (hp : p.value = j.toSlot) (ho : Outlines types p o) :
    o.tree.label.generic = j.generic ∧ (j = .null → o.tree.label.invalidKind = none) := by
  obtain ⟨depth, ho⟩ := ho
  cases depth with
  | zero => cases ho
  | succ depth =>
      by_cases hj : j = .null
      · rw [hj, Json.toSlot] at hp
        rw [outline_of_enters (layer?_emptySlot hp) (ruling_slot _ _ _)] at ho
        obtain rfl := Option.some.inj ho
        rw [hj]
        exact ⟨rfl, fun _ => rfl⟩
      · obtain ⟨hl, q, hmembers, hq, -⟩ := @members_of_slot types p j hp hj
        rcases wrapper_cases ho hl rfl with ⟨hnil, -⟩ | ⟨q', o', hmembers', ho', heq⟩
        · cases hmembers.symm.trans hnil
        · obtain rfl := List.singleton_inj.mp (hmembers.symm.trans hmembers')
          rw [← heq]
          exact ⟨Json.generic_of_toValue hq ⟨depth, ho'⟩, fun h => absurd h hj⟩

end Slots

/-! ## Objects -/

/-- The node of an entry has its capitalized key for a name, and the type of its value. -/
structure Attributes.IsOfEntry (a : Attributes) (m : String × Json) : Prop where
  name_eq : a.name = Text.capitalize m.1
  generic_eq : a.generic = m.2.generic
  invalidKind_eq : m.2 = .null → a.invalidKind = none

namespace Schema

variable {j : Json} {s : Schema} {out : Outline} {k : NodeId} {p : Site}

/-- What a node stands for is a part of the document, on a node that has not failed before, unless
it is that of a repeated key. -/
theorem StandsFor.isPart (h : s.StandsFor types j.toValue k p) :
    Json.IsPart p.value ∧ p.attrs.Arrives := by
  obtain ⟨path, hpath⟩ := h.exists_reaches
  exact ⟨Json.isPart_of_unfolds (unfolds_of_reaches hpath),
    arrives_of_reaches hpath (blank_new "").arrives⟩

/-- A node of type struct stands for an object. -/
theorem exists_object_of_struct (hs : s.Linked) (ho : s.Renders out)
    (houtlines : Outlines types (.start j.toValue) out) (hk : TransGen s.Owns s.root k)
    (hstruct : (s.attrs k).generic = .struct) :
    ∃ p ms, s.StandsFor types j.toValue k p ∧ p.value = (Json.object ms).toValue := by
  have hobject : ∀ i : Json, i.generic = .struct → ∃ ms, i = .object ms := by
    intro i hi
    cases i with
    | object ms => exact ⟨ms, rfl⟩
    | _ => cases hi
  obtain ⟨p, hp⟩ := exists_standsFor hs ho houtlines hk
  obtain ⟨-, o, hout, htree⟩ := hp.exists_outlines hs ho houtlines
  rw [← label_tree, htree] at hstruct
  obtain ⟨i, hi | hi⟩ := hp.isPart.1
  · rw [Json.generic_of_toValue hi hout] at hstruct
    obtain ⟨ms, rfl⟩ := hobject i hstruct
    exact ⟨p, ms, hp, hi⟩
  · rw [(label_of_toSlot hi hout).1] at hstruct
    obtain ⟨ms, rfl⟩ := hobject i hstruct
    obtain ⟨hl, q, hmembers, hq, -⟩ := @members_of_slot types p _ hi (by exact fun h => nomatch h)
    exact ⟨q, ms, hp.content hl rfl (hmembers ▸ List.mem_singleton_self q), hq⟩

section Object

variable {ms : List (String × Json)}

theorem layer?_object (hp : p.value = (Json.object ms).toValue) : p.value.layer? types =
    some ⟨none, .map .string "string" (ms.map fun m => (m.1, m.2.toSlot))⟩ := by
  rw [hp, Json.toValue, Json.toEntries_eq_map, Value.ofShape, Value.layer?_layer]

theorem ruling_map (key : Kind) (keyType : String) (entries : List (String × Value)) (top : Bool)
    (above : Finset String) :
    Layer.ruling ⟨none, .map key keyType entries⟩ top above = .enters none := by
  cases top <;> rfl

/-- An object on a node that failed before gets no members. -/
theorem tree_of_failed_object {o : Outline} (hp : p.value = (Json.object ms).toValue)
    (ho : Outlines types p o) (ha : p.attrs.defect.isSome = true) :
    o.tree = .node (p.attrs.head .map (.enters none)) [] := by
  obtain ⟨depth, ho⟩ := ho
  cases depth with
  | zero => cases ho
  | succ depth =>
      rw [outline_of_enters (layer?_object hp) (ruling_map ..), Shape.content, defect_head_enters,
        if_pos ha] at ho
      obtain rfl := Option.some.inj ho
      rfl

/-- The node of an object has the defect of a repeated key exactly if it had it before. -/
theorem StandsFor.defect_eq_iff (hs : s.Linked) (ho : s.Renders out)
    (houtlines : Outlines types (.start j.toValue) out) (h : s.StandsFor types j.toValue k p)
    (hp : p.value = (Json.object ms).toValue) :
    (s.attrs k).defect = some .duplicateMapKey ↔ p.attrs.defect = some .duplicateMapKey := by
  obtain ⟨-, o, hout, htree⟩ := h.exists_outlines hs ho houtlines
  rw [← label_tree, htree]
  rcases h.isPart.2 with ha | ha
  · obtain ⟨depth, hout⟩ := hout
    have hne := defect_ne_duplicateMapKey depth hout ha
    exact iff_of_false hne (by rw [ha]; exact (Option.some_ne_none _).symm)
  · rw [tree_of_failed_object hp hout (by rw [ha]; rfl)]
    exact iff_of_true ((defect_head_enters p.attrs .map none).trans ha) ha

/-- The children of a node that stands for an object, below no defect, stand for its entries. -/
theorem StandsFor.forall₂_entries (hs : s.Linked) (ho : s.Renders out)
    (houtlines : Outlines types (.start j.toValue) out) (h : s.StandsFor types j.toValue k p)
    (hp : p.value = (Json.object ms).toValue) (ha : p.attrs.defect = none) :
    List.Forall₂ (fun c m => (s.attrs c).name = Text.capitalize m.key
        ∧ ∃ q, s.StandsFor types j.toValue c q ∧ q.value = m.value)
      (s.children k) (members (ms.map fun m => (m.1, m.2.toSlot))) := by
  cases ms with
  | nil =>
      obtain ⟨hk, o, ⟨depth, ho'⟩, htree⟩ := h.exists_outlines hs ho houtlines
      have hleaf : o.tree.children = [] := by
        cases depth with
        | zero => cases ho'
        | succ depth =>
            rw [outline_of_enters (layer?_object hp) (ruling_map ..), Shape.content,
              defect_head_enters, ha] at ho'
            obtain rfl := Option.some.inj ho'
            rfl
      have hlength := hs.length_children_tree (.inl hk)
      rw [htree, hleaf] at hlength
      have hnone : members [] = [] := by simp [members, markRepeated]
      rw [List.eq_nil_of_length_eq_zero hlength.symm, List.map_nil, hnone]
      exact .nil
  | cons m ms =>
      have hmembers := (h.forall₂_members hs ho houtlines (layer?_object hp) (ruling_map ..) ha
        (List.cons_ne_nil _ _)).2
      exact hmembers.imp fun c m hc => ⟨hc.2.1, _, hc.1, rfl⟩

/-- In the order in which the entries of an object are visited they have the children of its
node. -/
theorem StandsFor.exists_order (hs : s.Linked) (ho : s.Renders out)
    (houtlines : Outlines types (.start j.toValue) out) (h : s.StandsFor types j.toValue k p)
    (hp : p.value = (Json.object ms).toValue) (ha : p.attrs.defect = none) :
    ∃ order : List (String × Json), order.Perm ms ∧ Json.InKeyOrder order
      ∧ List.Forall₂ (fun c m => (s.attrs c).IsOfEntry m) (s.sortedChildren k) order := by
  have hchildren := h.forall₂_entries hs ho houtlines hp ha
  have hvisit := isVisitOrder_members (ms.map fun m => (m.1, m.2.toSlot))
  obtain ⟨order, heq, hperm⟩ : Relation.Comp _ _ _ _ :=
    (congrFun₂ (List.eq_map_comp_perm _) _ _).mpr hvisit.perm
  have hkeys : (members (ms.map fun m => (m.1, m.2.toSlot))).map (·.key) = order.map (·.1) := by
    have hfirst := congrArg (List.map Prod.fst) heq
    rwa [List.map_map, List.map_map] at hfirst
  have horder : Json.InKeyOrder order := by
    rw [Json.InKeyOrder, ← List.pairwise_map (f := Prod.fst)
      (R := fun key key' => Text.capitalize key < Text.capitalize key'
        ∨ Text.capitalize key = Text.capitalize key' ∧ key ≤ key'), ← hkeys, List.pairwise_map]
    refine hvisit.ordered.imp_of_mem fun hm hm' hle => ?_
    rwa [hvisit.name_eq _ hm, hvisit.name_eq _ hm'] at hle
  have hentries : List.Forall₂ (fun c m => (s.attrs c).IsOfEntry m) (s.children k) order := by
    have hpairs : List.Forall₂ (fun c e => (s.attrs c).name = Text.capitalize e.1
        ∧ ∃ q, s.StandsFor types j.toValue c q ∧ q.value = e.2) (s.children k)
        ((members (ms.map fun m => (m.1, m.2.toSlot))).map fun m => (m.key, m.value)) :=
      List.forall₂_map_right_iff.mpr hchildren
    rw [heq, List.forall₂_map_right_iff] at hpairs
    refine hpairs.imp fun c m ⟨hname, q, hq, hvalue⟩ => ?_
    obtain ⟨-, o, hout, htree⟩ := hq.exists_outlines hs ho houtlines
    obtain ⟨hgeneric, hinvalid⟩ := label_of_toSlot hvalue hout
    rw [← htree, label_tree] at hgeneric hinvalid
    exact ⟨hname, hgeneric, hinvalid⟩
  -- the children are in the order of their names already
  have hnames : (s.children k).map (fun c => (s.attrs c).name) =
      order.map fun m => Text.capitalize m.1 :=
    map_eq_of_forall₂ hentries fun _ _ _ hm => hm.name_eq
  have hsorted : (s.children k).Pairwise fun c c' => (s.attrs c).name ≤ (s.attrs c').name := by
    rw [← List.pairwise_map (f := fun c => (s.attrs c).name) (R := (· ≤ ·)), hnames,
      List.pairwise_map]
    exact horder.imp fun hle => hle.elim Std.le_of_lt fun heq => Std.le_of_eq heq.1
  refine ⟨order, hperm, horder, ?_⟩
  rw [sortedChildren, List.mergeSort_of_pairwise (hsorted.imp fun hle => decide_eq_true hle)]
  exact hentries

end Object

end Schema

end TypeOutline
