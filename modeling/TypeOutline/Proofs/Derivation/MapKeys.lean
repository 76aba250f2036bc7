import TypeOutline.Proofs.Derivation.Blocks
import TypeOutline.Proofs.Derivation.Positions
import TypeOutline.Proofs.Derivation.RepeatedKeys

/-!
# The keys of maps

Whatever a level writes on its node, it leaves the name there, and the name
that the native block gives (`keepsNames_outline`). A map entry that is
visited has its capitalized key for the first, and its key for the second
if the two differ. So the children of a map show all its keys, in the order
in which the entries are visited, whatever the values are and however many
keys are capitalized alike (`map_keys_of_derive?`).
-/

namespace TypeOutline

open Relation (TransGen)
open Schema (Member members)

variable {types : Types}

/-! ## Names that are left alone -/

/-- Both nodes have one name, and one name in the native block. -/
def Attributes.KeepsNames (a b : Attributes) : Prop :=
  b.name = a.name ∧ b.native.name = a.native.name

namespace Attributes

variable {a b c : Attributes}

theorem KeepsNames.trans (h : a.KeepsNames b) (h' : b.KeepsNames c) : a.KeepsNames c :=
  ⟨h'.1.trans h.1, h'.2.trans h.2⟩

theorem keepsNames_of_overrides (hname : b.name = a.name) (h : b.overrides = a.overrides) :
    a.KeepsNames b := by
  refine ⟨hname, ?_⟩
  rw [native, native, override?, override?, h]

theorem keepsNames_modifyNative (a : Attributes) {f : Override → Override}
    (hf : ∀ b, (f b).name = b.name) : a.KeepsNames (a.modifyNative f) := by
  refine ⟨rfl, ?_⟩
  rw [native_modifyNative, hf]

theorem keepsNames_modifyOptions (a : Attributes) (f : OptionSet → OptionSet) :
    a.KeepsNames (a.modifyOptions f) :=
  keepsNames_modifyNative a (by exact fun _ => rfl)

theorem keepsNames_fail (a : Attributes) (d : Defect) : a.KeepsNames (a.fail d) :=
  keepsNames_of_overrides rfl rfl

theorem keepsNames_classify (a : Attributes) (kind : Kind) : a.KeepsNames (a.classify kind) :=
  (keepsNames_of_overrides rfl rfl).trans (keepsNames_modifyOptions _ _)

theorem keepsNames_typed (a : Attributes) (kind : Kind) : a.KeepsNames (a.typed kind) :=
  (keepsNames_classify a kind).trans (keepsNames_modifyNative _ (by exact fun _ => rfl))

theorem keepsNames_declare (a : Attributes) (name : String) : a.KeepsNames (a.declare name) :=
  (keepsNames_of_overrides rfl rfl).trans (keepsNames_modifyNative _ (by exact fun _ => rfl))

theorem keepsNames_head (a : Attributes) (kind : Kind) (ruling : Ruling) :
    a.KeepsNames (a.head kind ruling) := by
  have hclassify := keepsNames_classify a kind
  have htyped := keepsNames_typed a kind
  cases ruling with
  | unsupported => exact hclassify.trans (keepsNames_of_overrides rfl rfl)
  | misplaced => exact hclassify.trans (keepsNames_fail _ _)
  | cycle name => exact (htyped.trans (keepsNames_declare _ name)).trans (keepsNames_fail _ _)
  | enters name =>
      cases name with
      | none => exact htyped
      | some name => exact htyped.trans (keepsNames_declare _ name)

theorem keepsNames_mixedKinds (a : Attributes) (kinds : Dictionary Nat) :
    a.KeepsNames (Schema.mixedKinds kinds a) :=
  (keepsNames_fail a _).trans (keepsNames_modifyNative _ (by exact fun _ => rfl))

/-- The native block shows the same name. -/
theorem KeepsNames.nameIn_eq (h : a.KeepsNames b) :
    b.nameIn nativeDialect = a.nameIn nativeDialect := by
  rw [Attributes.nameIn_eq, Attributes.nameIn_eq, h.1]
  exact congrArg (orElseText · a.name) h.2

end Attributes

open Attributes

/-- The content leaves the names on its node. -/
def Content.KeepsNames (a : Attributes) : Content → Prop
  | .leaf b => a.KeepsNames b
  | .same b _ => a.KeepsNames b
  | .each b _ => a.KeepsNames b
  | .probed b _ => a.KeepsNames b

theorem content_keepsNames (a : Attributes) (shape : Shape Value) :
    (shape.content a).KeepsNames a := by
  have hself : a.KeepsNames a := ⟨rfl, rfl⟩
  cases shape with
  | scalar kind =>
      rw [Shape.content, settleScalar]
      split
      · exact (keepsNames_of_overrides rfl rfl).trans
          (keepsNames_modifyNative _ (by exact fun _ => rfl))
      · exact hself
  | list fixed elements zero =>
      have hlen := keepsNames_modifyOptions a (·.set "len" (toString elements.length))
      dsimp only [Shape.content]
      repeat' split
      all_goals exact hlen
  | record fields =>
      dsimp only [Shape.content]
      repeat' split
      · exact hself
      · exact keepsNames_fail a _
      · exact keepsNames_fail a _
      · exact hself
  | map key keyType entries =>
      rw [Shape.content]
      repeat' split
      · exact hself
      · exact (keepsNames_fail a _).trans (keepsNames_modifyNative _ (by exact fun _ => rfl))
      · exact keepsNames_fail a _
      · exact hself
  | slot target => cases target <;> exact keepsNames_of_overrides rfl rfl
  | pointer target zero =>
      have hnil := keepsNames_modifyOptions a (·.setBool "is_nil" target.isNone)
      dsimp only [Shape.content]
      split
      · exact hnil
      · exact hnil.trans (keepsNames_of_overrides rfl rfl)
  | nil => exact hself

/-- What the content leaves on its node is on the node of the outline, if the content of a wrapper
leaves it there too. -/
theorem Content.KeepsNames.outline {derive : Site → Option Outline} {c : Content}
    {a : Attributes} {top : Bool} {above : Finset String} {o : Outline} (h : c.KeepsNames a)
    (ho : c.outline derive top above = some o)
    (hsame : ∀ b v, c = .same b v → b.KeepsNames o.tree.label) : a.KeepsNames o.tree.label := by
  cases c with
  | leaf b =>
      obtain rfl := Option.some.inj ho
      exact h
  | same b v => exact Attributes.KeepsNames.trans h (hsame b v rfl)
  | each b ms =>
      obtain ⟨os, -, ho⟩ := Option.bind_eq_some_iff.mp ho
      obtain rfl := Option.some.inj ho
      exact h
  | probed b elements =>
      obtain ⟨⟨os, kinds⟩, -, ho⟩ := Option.bind_eq_some_iff.mp ho
      obtain rfl := Option.some.inj ho
      unfold Outline.list
      dsimp only
      split
      · exact Attributes.KeepsNames.trans h (keepsNames_mixedKinds b kinds)
      · exact h

/-- A value leaves the names of its node alone. -/
theorem keepsNames_outline (depth : Nat) : ∀ {p : Site} {o : Outline},
    outline types depth p = some o → p.attrs.KeepsNames o.tree.label := by
  induction depth with
  | zero => exact fun ho => nomatch ho
  | succ depth ih =>
      intro p o ho
      obtain ⟨l, -, ⟨-, rfl⟩ | ⟨name, content, -, hcontent, rfl⟩⟩ := outline_succ_cases ho
      · exact keepsNames_head _ _ _
      · have hkeeps := content_keepsNames (p.attrs.head l.shape.kind (.enters name)) l.shape
        have hlabel := hkeeps.outline hcontent fun b v hc => by
          rw [hc] at hcontent
          exact ih hcontent
        exact (keepsNames_head p.attrs l.shape.kind _).trans hlabel

/-! ## The names of an entry -/

theorem native_name_attributes (m : Member) :
    m.attributes.native.name = if m.name = m.key then "" else m.key := by
  have hname : (if m.name = m.key then { name := m.name }
      else ({ name := m.name } : Attributes).modifyNative fun b => { b with name := m.key }
      ).native.name = if m.name = m.key then "" else m.key := by
    split
    · rfl
    · rw [native_modifyNative]
  unfold Member.attributes
  dsimp only
  split
  · rw [native_modifyNative]
    exact hname
  · exact hname

/-- An entry is shown under its key. -/
theorem nameIn_attributes {m : Member} (hm : m.name = Text.capitalize m.key) :
    m.attributes.nameIn nativeDialect = m.key := by
  have hnative : (m.attributes.block nativeDialect).name = _ := native_name_attributes m
  rw [Attributes.nameIn_eq, hnative, name_attributes, orElseText]
  by_cases hsame : m.name = m.key
  · rw [if_pos hsame, if_pos rfl, hsame]
  · rw [if_neg hsame, if_neg]
    -- the empty key is capitalized already
    intro hempty
    rw [hempty] at hm hsame
    exact hsame hm

/-! ## The main result -/

section Main

variable {p : Site} {typeName name : Option String} {keyType : String}
  {entries : List (String × Value)}

/-- Where the values of the entries are derived. -/
def entrySite (above : Finset String) (m : Member) : Site :=
  ⟨m.attributes, false, above, m.value⟩

theorem members_of_map
    (hl : p.value.layer? types = some ⟨typeName, .map .string keyType entries⟩)
    (hr : Layer.ruling ⟨typeName, .map .string keyType entries⟩ p.top p.above = .enters name)
    (ha : p.attrs.defect = none) (hne : entries ≠ []) :
    p.members types = (members entries).map (entrySite (declaredBelow p.above name)) := by
  have hsome : ¬ entries.isEmpty = true := fun h => hne (List.isEmpty_iff.mp h)
  rw [members_of_enters hl hr, Shape.content, defect_head_enters, ha, if_neg (by decide),
    if_neg (not_not_intro rfl), if_neg hsome, Content.sites, List.map_map]
  rfl

/-- The children of a map of texts stand for its entries, in the order in which these are
visited. -/
theorem Schema.StandsFor.forall₂_members {v : Value} {s : Schema} {out : Outline} {k : NodeId}
    (hlinked : s.Linked) (hrenders : s.Renders out) (hout : Outlines types (.start v) out)
    (hk : s.StandsFor types v k p)
    (hl : p.value.layer? types = some ⟨typeName, .map .string keyType entries⟩)
    (hr : Layer.ruling ⟨typeName, .map .string keyType entries⟩ p.top p.above = .enters name)
    (ha : p.attrs.defect = none) (hne : entries ≠ []) :
    s.attrs k = p.attrs.head .map (.enters name)
      ∧ List.Forall₂ (fun c m =>
          s.StandsFor types v c (entrySite (declaredBelow p.above name) m)
            ∧ (s.attrs c).name = Text.capitalize m.key
            ∧ (s.attrs c).nameIn nativeDialect = m.key)
        (s.children k) (members entries) := by
  obtain ⟨hreach, o, ho, htree⟩ := hk.exists_outlines hlinked hrenders hout
  obtain ⟨depth, os, hos, htree'⟩ := exists_children_of_map hl hr ha hne ho
  obtain ⟨r, -, hroot, -⟩ := hlinked.exists_trees
  obtain ⟨r', hr'⟩ := Schema.exists_subtree?_of_reaches hroot hreach.to_reflTransGen
  have hnode := (Schema.tree_eq_node hr').symm.trans (htree.trans htree')
  injection hnode with hattrs hchildren
  have hlength : (s.children k).length = (members entries).length := by
    rw [← length_eq_of_mapM hos, ← List.length_map s.tree, hchildren, List.length_map]
  refine ⟨hattrs, List.forall₂_iff_get.mpr ⟨hlength, fun i hi hi' => ?_⟩⟩
  rw [List.get_eq_getElem, List.get_eq_getElem]
  have hc : (s.children k)[i]? = some (s.children k)[i] := List.getElem?_eq_getElem hi
  have hm : (members entries)[i]? = some (members entries)[i] := List.getElem?_eq_getElem hi'
  obtain ⟨o', ho', hmo⟩ := getElem?_of_mapM hos hm
  have hlabel : s.attrs (s.children k)[i] = o'.tree.label := by
    have hct := congrArg (·[i]?) hchildren
    simp only [List.getElem?_map, hc, ho', Option.map_some, Option.some.injEq] at hct
    rw [← hct, Schema.label_tree]
  have hname := (isVisitOrder_members entries).name_eq _ (List.mem_of_getElem? hm)
  have hkeeps : (members entries)[i].attributes.KeepsNames o'.tree.label :=
    keepsNames_outline depth hmo
  refine ⟨.member hk hl rfl hc ?_, ?_, ?_⟩
  · rw [members_of_map hl hr ha hne, List.getElem?_map, hm]
    rfl
  · rw [hlabel, hkeeps.1, name_attributes, hname]
  · rw [hlabel, hkeeps.nameIn_eq, nameIn_attributes hname]

/-- The nodes of the tree of a value are those that stand for a position. At a map of texts that has
entries, and whose node has neither failed before nor is refused, there is a child for each entry,
in the order of the capitalized keys and then of the keys. It stands for the value of the entry, its
name is the capitalized key, and its name in the native dialect is the key. -/
theorem map_keys_of_derive? {v : Value} {s : Schema} (hs : derive? types v = some s) :
    (∀ k, TransGen s.Owns s.root k ↔ ∃ p, s.StandsFor types v k p)
      ∧ ∀ k p typeName name keyType entries, s.StandsFor types v k p →
        p.value.layer? types = some ⟨typeName, .map .string keyType entries⟩ →
        Layer.ruling ⟨typeName, .map .string keyType entries⟩ p.top p.above = .enters name →
        p.attrs.defect = none → entries ≠ [] →
          IsVisitOrder entries (members entries)
            ∧ List.Forall₂ (fun c m =>
                s.StandsFor types v c (entrySite (declaredBelow p.above name) m)
                  ∧ (s.attrs c).name = Text.capitalize m.key
                  ∧ (s.attrs c).nameIn nativeDialect = m.key)
              (s.children k) (members entries)
            ∧ ((s.children k).map fun c => (s.attrs c).nameIn nativeDialect).Perm
              (entries.map (·.1)) := by
  have hlinked := linked_of_derive? hs
  obtain ⟨o, ho, hrenders⟩ := exists_outlines_of_derive? hs
  refine ⟨fun k => ⟨Schema.exists_standsFor hlinked hrenders ho,
    fun ⟨p, hp⟩ => (hp.exists_outlines hlinked hrenders ho).1⟩, ?_⟩
  intro k p typeName name keyType entries hk hl hr ha hne
  have horder := isVisitOrder_members entries
  obtain ⟨-, hchildren⟩ := hk.forall₂_members hlinked hrenders ho hl hr ha hne
  refine ⟨horder, hchildren, ?_⟩
  have hkeys : (s.children k).map (fun c => (s.attrs c).nameIn nativeDialect) =
      (members entries).map (·.key) := map_eq_of_forall₂ hchildren fun _ _ _ h => h.2.2
  rw [hkeys]
  have hperm := horder.perm.map (·.1)
  rwa [List.map_map] at hperm

/-- A map whose keys are capitalized alike but for one, which gets longer. -/
def fourKeys : List (String × Value) :=
  [("ß", .ofShape (.scalar .i64)), ("key", .ofShape (.scalar .bool)),
    ("Key", .ofShape (.scalar .string)), ("key", .emptySlot)]

theorem members_fourKeys : (members fourKeys).map (fun m => (Text.capitalize m.key, m.key)) =
    [("Key", "Key"), ("Key", "key"), ("Key", "key"), ("SS", "ß")] := by
  have hnames : Text.capitalize "ß" = "SS" ∧ Text.capitalize "key" = "Key"
      ∧ Text.capitalize "Key" = "Key" := by decide +kernel
  have horder : "Key" < "SS" ∧ "Key" ≤ "key" ∧ ¬ "SS" < "Key" := by decide +kernel
  simp [members, fourKeys, hnames, List.mergeSort, List.MergeSort.Internal.splitInTwo,
    Member.le, Schema.markRepeated, horder]

theorem map_keys_of_derive?_fourKeys : ∃ s k,
    derive? {} (.ofShape (.map .string "String" fourKeys)) = some s
      ∧ TransGen s.Owns s.root k
      ∧ (s.children k).map (fun c => ((s.attrs c).name, (s.attrs c).nameIn nativeDialect)) =
        [("Key", "Key"), ("Key", "key"), ("Key", "key"), ("SS", "ß")] := by
  have hwritten : (Value.ofShape (.map .string "String" fourKeys)).IsWritten := by
    intro w hw
    simp [fourKeys, Value.ofShape, Value.emptySlot, Value.subvalues, Value.subvaluesEntries] at hw
    rcases hw with rfl | rfl | rfl | rfl | rfl <;> exact ⟨_, _, rfl⟩
  obtain ⟨o, ho⟩ := @exists_outlines_of_isWritten {} (.start _) hwritten
  obtain ⟨s, hs, hrenders⟩ := derive?_of_outlines ho
  obtain ⟨k, hk, -⟩ := hrenders.exists_children_root (linked_of_derive? hs)
  obtain ⟨hstands, hmaps⟩ := map_keys_of_derive? hs
  obtain ⟨-, hchildren, -⟩ := hmaps k _ none none "String" fourKeys (.start hk) rfl rfl rfl
    (by decide)
  refine ⟨s, k, hs, (hstands k).mpr ⟨_, .start hk⟩, ?_⟩
  rw [← members_fourKeys]
  exact map_eq_of_forall₂ hchildren fun c _ m h => Prod.ext h.2.1 h.2.2

end Main

end TypeOutline
