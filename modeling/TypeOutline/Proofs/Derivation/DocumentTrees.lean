import TypeOutline.Proofs.Derivation.Documents
import TypeOutline.Proofs.Derivation.Likeness
import TypeOutline.Proofs.Derivation.Nodes

/-!
# The trees of documents

What a document can unfold into is described by `Layer.IsOfDocument`: no
level has a declared name, none is a record, and the scalars are of three
kinds. So the tree of a document refers to no type and there is nothing to
define, its nodes have one of seven types, and its children stand in the
order of their names already, since the members of maps are visited in
that order (`exists_outline_deriveDocument`).
-/

namespace TypeOutline

open Relation (ReflTransGen)

/-! ## The levels of documents -/

/-- A level of a document. -/
inductive Layer.IsOfDocument : Layer → Prop
  | bool : IsOfDocument ⟨none, .scalar .bool⟩
  | number : IsOfDocument ⟨none, .scalar .f64⟩
  | string : IsOfDocument ⟨none, .scalar .string⟩
  | list (elements : List Value) (zero : Value) : IsOfDocument ⟨none, .list false elements zero⟩
  | map (entries : List (String × Value)) : IsOfDocument ⟨none, .map .string "string" entries⟩
  | slot (target : Option Value) : IsOfDocument ⟨none, .slot target⟩
  | nil : IsOfDocument ⟨none, .nil⟩

/-- The level has no members in an order of their own. -/
def Layer.IsNoRecord (l : Layer) : Prop := ∀ fields, l.shape ≠ .record fields

theorem Layer.IsOfDocument.declares?_eq {l : Layer} (h : l.IsOfDocument) : l.declares? = none := by
  cases h <;> rfl

theorem Layer.IsOfDocument.isNoRecord {l : Layer} (h : l.IsOfDocument) : l.IsNoRecord := by
  cases h <;> exact fun _ h => nomatch h

namespace Json

mutual

/-- The keys in a document, at any depth. -/
def keys : Json → List String
  | array items => keysAll items
  | object members => keysIn members
  | _ => []

def keysAll : List Json → List String
  | [] => []
  | j :: js => j.keys ++ keysAll js

def keysIn : List (String × Json) → List String
  | [] => []
  | (k, j) :: ms => k :: (j.keys ++ keysIn ms)

end

theorem keys_subset_keysAll {js : List Json} {j : Json} (h : j ∈ js) : j.keys ⊆ keysAll js := by
  induction js with
  | nil => exact absurd h List.not_mem_nil
  | cons i js ih =>
      rw [keysAll]
      rcases List.mem_cons.mp h with rfl | h
      · exact List.subset_append_left _ _
      · exact List.subset_append_of_subset_right _ (ih h)

theorem keys_subset_keysIn {ms : List (String × Json)} {m : String × Json} (h : m ∈ ms) :
    m.1 ∈ keysIn ms ∧ m.2.keys ⊆ keysIn ms := by
  induction ms with
  | nil => exact absurd h List.not_mem_nil
  | cons m' ms ih =>
      obtain ⟨k, j⟩ := m'
      rw [keysIn]
      rcases List.mem_cons.mp h with rfl | h
      · exact ⟨List.mem_cons_self,
          List.subset_cons_of_subset _ (List.subset_append_left _ _)⟩
      · obtain ⟨hkey, hkeys⟩ := ih h
        exact ⟨List.mem_cons_of_mem _ (List.mem_append_right _ hkey),
          List.subset_cons_of_subset _ (List.subset_append_of_subset_right _ hkeys)⟩

/-- The value is a document, or the slot of a part of one. -/
def IsPart (v : Value) : Prop := ∃ j : Json, v = j.toValue ∨ v = j.toSlot

/-- The value is a document with no other keys than these, or the slot of a part of one. -/
def IsPartOver (ks : List String) (v : Value) : Prop :=
  ∃ j : Json, j.keys ⊆ ks ∧ (v = j.toValue ∨ v = j.toSlot)

/-- The entries of a map have no other keys than these. -/
def HasKeysIn (ks : List String) (shape : Shape Value) : Prop :=
  ∀ key keyType entries, shape = .map key keyType entries → ∀ e ∈ entries, e.1 ∈ ks

theorem hasKeysIn_of_ne_map {ks : List String} {shape : Shape Value}
    (h : ∀ key keyType entries, shape ≠ .map key keyType entries) : HasKeysIn ks shape :=
  fun key keyType entries heq => absurd heq (h key keyType entries)

theorem isPartOver_emptySlot (ks : List String) : IsPartOver ks .emptySlot :=
  ⟨null, by simp [keys], .inr (by rw [toSlot])⟩

/-- A part of a document shows a level of a document, with parts for members. -/
theorem exists_layer_of_isPartOver {types : Types} {ks : List String} {v : Value}
    (h : IsPartOver ks v) : ∃ l, v.layer? types = some l ∧ l.IsOfDocument
      ∧ HasKeysIn ks l.shape ∧ ∀ w ∈ l.shape.members, IsPartOver ks w := by
  obtain ⟨j, hkeys, rfl | rfl⟩ := h
  · cases j with
    | array js =>
        rw [keys] at hkeys
        rw [toValue, toSlots_eq_map]
        refine ⟨_, Value.layer?_layer _ _, .list _ _, hasKeysIn_of_ne_map (by rintro _ _ _ ⟨⟩),
          fun w hw => ?_⟩
        rcases List.mem_append.mp (Shape.members_subset_parts _ hw) with hw | hw
        · obtain ⟨j, hj, rfl⟩ := List.mem_map.mp hw
          exact ⟨j, List.Subset.trans (keys_subset_keysAll hj) hkeys, .inr rfl⟩
        · exact List.mem_singleton.mp hw ▸ isPartOver_emptySlot ks
    | object ms =>
        rw [keys] at hkeys
        rw [toValue, toEntries_eq_map]
        refine ⟨_, Value.layer?_layer _ _, .map _, fun key keyType entries h e he => ?_,
          fun w hw => ?_⟩
        · injection h with _ _ hentries
          rw [← hentries] at he
          obtain ⟨m, hm, rfl⟩ := List.mem_map.mp he
          exact hkeys (keys_subset_keysIn hm).1
        · obtain ⟨e, he, rfl⟩ := List.mem_map.mp hw
          obtain ⟨m, hm, rfl⟩ := List.mem_map.mp he
          exact ⟨m.2, List.Subset.trans (keys_subset_keysIn hm).2 hkeys, .inr rfl⟩
    | _ =>
        rw [toValue]
        exact ⟨_, Value.layer?_layer _ _, by constructor, hasKeysIn_of_ne_map (by rintro _ _ _ ⟨⟩),
          fun _ hw => absurd hw List.not_mem_nil⟩
  · by_cases hj : j = null
    · rw [hj, toSlot]
      exact ⟨_, Value.layer?_layer _ _, .slot none, hasKeysIn_of_ne_map (by rintro _ _ _ ⟨⟩),
        fun _ hw => absurd hw List.not_mem_nil⟩
    · rw [toSlot_of_ne_null hj]
      refine ⟨_, Value.layer?_layer _ _, .slot _, hasKeysIn_of_ne_map (by rintro _ _ _ ⟨⟩),
        fun w hw => ?_⟩
      exact ⟨j, hkeys, .inl (List.mem_singleton.mp hw)⟩

theorem IsPartOver.isPart {ks : List String} {v : Value} (h : IsPartOver ks v) : IsPart v := by
  obtain ⟨j, -, hj⟩ := h
  exact ⟨j, hj⟩

theorem exists_layer_of_isPart {types : Types} {v : Value} (h : IsPart v) :
    ∃ l, v.layer? types = some l ∧ l.IsOfDocument ∧ ∀ w ∈ l.shape.members, IsPart w := by
  obtain ⟨j, hj⟩ := h
  obtain ⟨l, hl, hdocument, -, hmembers⟩ :=
    @exists_layer_of_isPartOver types j.keys v ⟨j, List.Subset.refl _, hj⟩
  exact ⟨l, hl, hdocument, fun w hw => (hmembers w hw).isPart⟩

/-- A document unfolds into parts of documents. -/
theorem isPart_of_unfolds {types : Types} {j : Json} {w : Value}
    (hw : ReflTransGen (Value.Unfolds types) j.toValue w) : IsPart w := by
  induction hw with
  | refl => exact ⟨j, .inl rfl⟩
  | tail _ hstep ih =>
      obtain ⟨l, hl, hmem⟩ := hstep
      obtain ⟨l', hl', -, hmembers⟩ := @exists_layer_of_isPart types _ ih
      obtain rfl := Option.some.inj (hl.symm.trans hl')
      exact hmembers _ hmem

/-- And so its levels are levels of documents. -/
theorem everyLevel_toValue {types : Types} (j : Json) :
    j.toValue.EveryLevel types Layer.IsOfDocument := by
  intro w hw l hl
  obtain ⟨l', hl', hdocument, -⟩ := exists_layer_of_isPart (isPart_of_unfolds hw)
  obtain rfl := Option.some.inj (hl.symm.trans hl')
  exact hdocument

end Json

/-! ## No references -/

section Unnamed

variable {types : Types}

theorem unfolds_of_reaches {start p : Site} {path : List Layer} (h : Reaches types start path p) :
    ReflTransGen (Value.Unfolds types) start.value p.value := by
  induction h with
  | start => exact .refl
  | member _ hl hq ih => exact ih.tail ⟨_, hl, (mem_members hl hq).1⟩

/-- Where no level declares a name no node refers to a type. -/
theorem typeRef_eq_of_outlines {v : Value} {o : Outline} (ho : Outlines types (.start v) o)
    (hv : v.EveryLevel types (·.declares? = none)) {a : Attributes} (ha : o.Shows a) :
    a.native.typeRef = "" := by
  obtain ⟨depth, ho⟩ := ho
  obtain ⟨-, h | h | h | ⟨f, hf, hdeclares, -⟩⟩ :=
    traced_outline types depth ho (blank_new "").consistent a ha
  · exact h
  · exact absurd h (Finset.notMem_empty _)
  · exact h
  · obtain ⟨path, _, _, _, hreaches, henters, -⟩ := exists_enters_of_mem_finished .start ho f hf
    have hnone := hv _ (unfolds_of_reaches hreaches) _ henters.layer_eq
    exact absurd (hnone.symm.trans hdeclares) (Option.some_ne_none _).symm

theorem recordAll_eq_nil {fs : List Finished} (h : ∀ f ∈ fs, f.tree.label.native.typeRef = "") :
    recordAll [] fs = [] := by
  induction fs with
  | nil => rfl
  | cons f fs ih =>
      obtain ⟨hf, hfs⟩ := List.forall_mem_cons.mp h
      have hnone : f.tree.label.defines? = none := by
        rw [Attributes.defines?, Attributes.isReference, hf]
        rfl
      have hrecord : record [] f.tree = [] := by rw [record, hnone]
      rw [recordAll, List.foldl_cons, hrecord]
      exact ih hfs

end Unnamed

/-! ## Rulings -/

section Rulings

variable {l : Layer} {top : Bool} {above : Finset String}

theorem isUnsupported_of_ruling (h : l.ruling top above = .unsupported) :
    l.isUnsupported = true := by
  unfold Layer.ruling at h
  split at h
  · assumption
  · repeat' split at h
    all_goals cases h

theorem isMisplaced_of_ruling (h : l.ruling top above = .misplaced) :
    l.isUnsupported = false ∧ l.isMisplaced top = true := by
  unfold Layer.ruling at h
  split at h
  · cases h
  · rename_i hsupported
    split at h
    · rename_i hplace
      exact ⟨Bool.eq_false_iff.mpr hsupported, hplace⟩
    · repeat' split at h
      all_goals cases h

end Rulings

/-! ## Types -/

/-- The types of the nodes of documents, as labels and as they stand in paths. -/
def documentTypes : List (String × String) :=
  [("boolean", "boolean"), ("float", "float"), ("string", "string"), ("list", "[]"),
    ("struct", "\x7b\x7d"), ("invalid", "invalid"), ("invalid:nil", "invalid:nil")]

/-- The node has a type of documents. -/
def Attributes.HasDocumentType (a : Attributes) : Prop :=
  (a.typeLabel, a.pathType) ∈ documentTypes

theorem Attributes.typeLabel_eq_slug {a : Attributes} (h : a.generic ≠ .invalid) :
    a.typeLabel = a.generic.slug := by
  unfold typeLabel
  split
  · rename_i hinvalid
    exact absurd hinvalid h
  · rfl

theorem documentTypes_generic : ∀ g ∈ [Generic.boolean, .float, .string, .list, .struct],
    g ≠ .invalid ∧ g.category ≠ .invalid ∧ (g.slug, g.token) ∈ documentTypes := by decide

theorem hasDocumentType_of_generic {a : Attributes}
    (h : a.generic ∈ [Generic.boolean, .float, .string, .list, .struct]) : a.HasDocumentType := by
  obtain ⟨hgeneric, hcategory, hmem⟩ := documentTypes_generic _ h
  have hpath : a.pathType = a.generic.token :=
    if_neg fun hinvalid => hcategory (beq_iff_eq.mp hinvalid)
  rw [Attributes.HasDocumentType, Attributes.typeLabel_eq_slug hgeneric, hpath]
  exact hmem

/-- A level of a document that is neither a slot nor null is of a type of its own. -/
theorem Layer.IsOfDocument.generic_mem {l : Layer} (h : l.IsOfDocument)
    (hsupported : l.isUnsupported = false) (hwrap : l.isWrapper = false) :
    Generic.ofKind l.shape.kind ∈ [Generic.boolean, .float, .string, .list, .struct] := by
  cases h with
  | slot target => exact nomatch hwrap
  | nil => exact nomatch hsupported
  | _ => exact List.mem_of_elem_eq_true rfl

theorem Layer.IsOfDocument.shape_eq_nil {l : Layer} (h : l.IsOfDocument)
    (hunsupported : l.isUnsupported = true) : l.shape = .nil := by
  cases h with
  | nil => rfl
  | _ => exact nomatch hunsupported

theorem Layer.IsOfDocument.exists_shape_eq_slot {l : Layer} (h : l.IsOfDocument)
    (hwrap : l.isWrapper = true) : ∃ target, l.shape = .slot target := by
  cases h with
  | slot target => exact ⟨target, rfl⟩
  | _ => exact nomatch hwrap

theorem kept_hasDocumentType : Kept (fun a _ => a.HasDocumentType) Layer.IsOfDocument where
  refused {a l top above} h _ hr := by
    cases hruling : l.ruling top above with
    | unsupported =>
        rw [h.shape_eq_nil (isUnsupported_of_ruling hruling)]
        exact List.mem_of_elem_eq_true rfl
    | misplaced =>
        obtain ⟨hsupported, hplace⟩ := isMisplaced_of_ruling hruling
        have hwrap : l.isWrapper = false := by
          rw [Layer.isMisplaced, Bool.and_eq_true, Bool.not_eq_true'] at hplace
          exact hplace.2
        refine hasDocumentType_of_generic ?_
        rw [generic_head]
        exact h.generic_mem hsupported hwrap
    | cycle n =>
        have hn := (ruling_eq_cycle.mp hruling).2.2.1
        exact absurd (h.declares?_eq.symm.trans hn) (Option.some_ne_none n).symm
    | enters name => exact absurd hruling (hr name)
  entered {a l name} h _ hsupported := by
    by_cases hslot : l.shape = .slot none
    · rw [hslot]
      cases name <;> exact List.mem_of_elem_eq_true rfl
    · cases hwrap : l.isWrapper with
      | true =>
          obtain ⟨target, htarget⟩ := h.exists_shape_eq_slot hwrap
          rw [htarget] at hslot ⊢
          cases target with
          | none => exact absurd rfl hslot
          | some v => trivial
      | false =>
          refine (Content.obeys_generic _ hslot).imp fun b _ hb => hasDocumentType_of_generic ?_
          rw [hb, generic_head]
          exact h.generic_mem hsupported hwrap

/-! ## Names -/

/-- The trees stand in the order of their names. -/
def Rose.InNameOrder (ts : List (Rose Attributes)) : Prop :=
  ts.Pairwise fun t t' => t.label.name ≤ t'.label.name

/-- The children of every node stand in the order of their names. -/
def Rose.IsOrdered (t : Rose Attributes) : Prop := ∀ u ∈ t.subtrees, InNameOrder u.children

theorem Rose.isOrdered_node {a : Attributes} {ts : List (Rose Attributes)} :
    (Rose.node a ts).IsOrdered ↔ InNameOrder ts ∧ ∀ t ∈ ts, t.IsOrdered :=
  forall_mem_subtrees_node (R := fun u => InNameOrder u.children)

/-- The content leaves the name on its node, and its members are in the order of theirs. -/
def Content.KeepsName (name : String) : Content → Prop
  | .leaf a => a.name = name
  | .same a _ => a.name = name
  | .each a members => a.name = name ∧ (members.map (·.1.name)).Pairwise (· ≤ ·)
  | .probed a _ => a.name = name

theorem name_head (a : Attributes) (kind : Kind) (ruling : Ruling) :
    (a.head kind ruling).name = a.name := by
  cases ruling with
  | enters name => cases name <;> rfl
  | _ => rfl

theorem name_attributes (m : Schema.Member) : m.attributes.name = m.name := by
  unfold Schema.Member.attributes
  dsimp only
  split <;> split <;> rfl

/-- Marking members changes nothing else of them. -/
theorem map_markRepeated {α : Type} {f : Schema.Member → α}
    (hf : ∀ m b, f { m with repeated := b } = f m) (ms : List Schema.Member)
    (before : Option String) : (Schema.markRepeated before ms).map f = ms.map f := by
  induction ms generalizing before with
  | nil => rfl
  | cons m ms ih => rw [Schema.markRepeated, List.map_cons, List.map_cons, ih, hf]

theorem map_name_markRepeated (ms : List Schema.Member) (before : Option String) :
    (Schema.markRepeated before ms).map (·.name) = ms.map (·.name) :=
  map_markRepeated (by exact fun _ _ => rfl) ms before

/-- The members of a map are visited in the order of their names. -/
theorem pairwise_name_members (entries : List (String × Value)) :
    ((Schema.members entries).map (·.name)).Pairwise (· ≤ ·) := by
  rw [Schema.members, map_name_markRepeated, List.pairwise_map]
  refine (List.pairwise_mergeSort Schema.Member.le_trans Schema.Member.le_total _).imp ?_
  intro m m' h
  rcases Schema.Member.le_iff.mp h with h | ⟨h, -⟩
  · exact Std.le_of_lt h
  · exact Std.le_of_eq h

theorem content_keepsName (a : Attributes) {l : Layer} (hl : l.IsNoRecord) :
    (l.shape.content a).KeepsName a.name := by
  cases hshape : l.shape with
  | scalar kind =>
      rw [Shape.content, Attributes.settleScalar]
      split <;> rfl
  | list fixed elements zero =>
      dsimp only [Shape.content]
      repeat' split
      · rfl
      · exact ⟨rfl, List.pairwise_singleton _ _⟩
      · rfl
  | record fields => exact absurd hshape (hl fields)
  | map key keyType entries =>
      rw [Shape.content]
      repeat' split
      · rfl
      · rfl
      · rfl
      · refine ⟨rfl, ?_⟩
        have hnames : ((Schema.members entries).map fun m => (m.attributes, m.value)).map
            (·.1.name) = (Schema.members entries).map (·.name) := by
          rw [List.map_map]
          exact List.map_congr_left fun m _ => name_attributes m
        rw [hnames]
        exact pairwise_name_members entries
  | slot target => cases target <;> rfl
  | pointer target zero =>
      dsimp only [Shape.content]
      split <;> rfl
  | nil => rfl

theorem map_eq_of_mapM {α β γ : Type} {f : α → Option β} {g : α → γ} {h : β → γ} {xs : List α}
    {ys : List β} (hys : xs.mapM f = some ys) (hf : ∀ x ∈ xs, ∀ y, f x = some y → h y = g x) :
    ys.map h = xs.map g := by
  induction xs generalizing ys with
  | nil =>
      obtain rfl : [] = ys := Option.some.inj hys
      rfl
  | cons x xs ih =>
      obtain ⟨y, ys, hy, hrest, rfl⟩ := Schema.mapM_eq_some_cons.mp hys
      rw [List.map_cons, List.map_cons, hf x List.mem_cons_self y hy,
        ih hrest fun x' hx' => hf x' (List.mem_cons_of_mem x hx')]

theorem Rose.isOrdered_bare (a : Attributes) : (Rose.node a []).IsOrdered :=
  isOrdered_node.mpr ⟨.nil, fun _ ht => absurd ht List.not_mem_nil⟩

/-- If the members have their names and are in order, so is their node. -/
theorem Content.KeepsName.ordered {derive : Site → Option Outline} {c : Content} {name : String}
    {top : Bool} {above : Finset String} {o : Outline} (h : c.KeepsName name)
    (ho : c.outline derive top above = some o)
    (hmember : ∀ q ∈ c.sites top above, ∀ o', derive q = some o' →
      o'.tree.label.name = q.attrs.name ∧ o'.tree.IsOrdered) :
    o.tree.label.name = name ∧ o.tree.IsOrdered := by
  cases c with
  | leaf b =>
      obtain rfl := Option.some.inj ho
      exact ⟨h, Rose.isOrdered_bare b⟩
  | same b v =>
      obtain ⟨hname, hordered⟩ := hmember _ List.mem_cons_self o ho
      exact ⟨hname.trans h, hordered⟩
  | each b members =>
      obtain ⟨os, hos, ho⟩ := Option.bind_eq_some_iff.mp ho
      obtain rfl := Option.some.inj ho
      have hnames : os.map (·.tree.label.name) = members.map (·.1.name) :=
        map_eq_of_mapM hos fun m hm o' ho' => (hmember _ (List.mem_map_of_mem hm) o' ho').1
      refine ⟨h.1, Rose.isOrdered_node.mpr ⟨?_, fun t ht => ?_⟩⟩
      · rw [Rose.InNameOrder, List.pairwise_map, ← List.pairwise_map, hnames]
        exact h.2
      · obtain ⟨o', ho', rfl⟩ := List.mem_map.mp ht
        obtain ⟨m, hm, hmo⟩ := exists_of_mem_mapM hos o' ho'
        exact (hmember _ (List.mem_map_of_mem hm) o' hmo).2
  | probed b elements =>
      obtain ⟨⟨os, kinds⟩, hos, ho⟩ := Option.bind_eq_some_iff.mp ho
      obtain rfl := Option.some.inj ho
      have hname : b.name = name := h
      unfold Outline.list
      dsimp only
      split
      · exact ⟨hname, Rose.isOrdered_bare _⟩
      · refine ⟨hname, Rose.isOrdered_node.mpr ⟨?_, fun t ht => ?_⟩⟩
        · -- at most one element is kept, so there is nothing to order
          rcases os with - | ⟨o', os⟩
          · exact .nil
          · exact List.pairwise_singleton _ _
        · obtain ⟨o', ho', rfl⟩ := List.mem_map.mp (List.mem_of_mem_take ht)
          obtain ⟨v, hv, hvo⟩ := exists_of_mem_gather hos o' ho'
          exact (hmember _ (List.mem_map_of_mem hv) o' hvo).2

/-- A value without records has its name, and its members stand in the order of theirs. -/
theorem ordered_of_outline {types : Types} (depth : Nat) : ∀ {p : Site} {o : Outline},
    outline types depth p = some o → p.value.EveryLevel types Layer.IsNoRecord →
      o.tree.label.name = p.attrs.name ∧ o.tree.IsOrdered := by
  induction depth with
  | zero => exact fun ho => nomatch ho
  | succ depth ih =>
      intro p o ho hv
      obtain ⟨l, hl, ⟨-, rfl⟩ | ⟨name, o, -, hcontent, rfl⟩⟩ := outline_succ_cases ho
      · exact ⟨name_head _ _ _, Rose.isOrdered_bare _⟩
      · have hkeeps := content_keepsName (p.attrs.head l.shape.kind (.enters name))
          (hv _ .refl l hl)
        rw [name_head] at hkeeps
        show o.tree.label.name = p.attrs.name ∧ o.tree.IsOrdered
        exact hkeeps.ordered hcontent fun q hq o' ho' => ih ho' (hv.member hl (mem_sites hq).1)

/-! ## The outline of a document -/

/-- The node is one of a document: of a type of documents, and without a reference. -/
structure Attributes.IsPlain (a : Attributes) : Prop where
  type_mem : a.HasDocumentType
  typeRef_eq : a.native.typeRef = ""

/-- No node of a document is made to look like a top. -/
theorem Attributes.IsPlain.isRoot_eq {a : Attributes} (h : a.IsPlain) : a.isRoot = false := by
  refine Bool.eq_false_iff.mpr fun hroot => ?_
  have hgeneric : a.generic = .root := beq_iff_eq.mp hroot
  have hlabel : a.typeLabel = "root" := by
    rw [typeLabel_eq_slug (by rw [hgeneric]; decide), hgeneric]
    rfl
  have hnone : ∀ p ∈ documentTypes, p.1 ≠ "root" := by decide
  exact hnone _ h.type_mem hlabel

theorem Attributes.IsPlain.isReference_eq {a : Attributes} (h : a.IsPlain) :
    a.isReference = false := by
  rw [isReference, h.typeRef_eq]
  rfl

/-- What the derivation of a document ends with. -/
structure Outline.IsOfDocument (o : Outline) : Prop where
  plain : ∀ a ∈ o.tree.preorder, a.IsPlain
  ordered : o.tree.IsOrdered
  recordAll_eq : recordAll [] o.finished = []

theorem Json.isOfDocument_of_outlines {types : Types} {j : Json} {o : Outline}
    (ho : Outlines types (.start j.toValue) o) : o.IsOfDocument := by
  have hlevels : j.toValue.EveryLevel types Layer.IsOfDocument := everyLevel_toValue j
  have htypes := every_outlines kept_hasDocumentType ho hlevels
  have hrefs : ∀ a, o.Shows a → a.native.typeRef = "" := fun _ =>
    typeRef_eq_of_outlines ho fun w hw l hl => (hlevels w hw l hl).declares?_eq
  refine ⟨fun a ha => ?_, ?_, recordAll_eq_nil fun f hf => ?_⟩
  · have hshows : o.Shows a := .inl ha
    exact ⟨(htypes.exists_of_shows hshows).elim fun _ h => h, hrefs a hshows⟩
  · obtain ⟨depth, ho⟩ := ho
    exact (ordered_of_outline depth ho fun w hw l hl => (hlevels w hw l hl).isNoRecord).2
  · exact hrefs _ (.inr ⟨f, hf, f.tree.label_mem_preorder⟩)

/-- The derivation of a document ends, and its schema shows an outline of a document. -/
theorem exists_outline_deriveDocument (j : Json) :
    derive? {} j.toValue = some (deriveDocument j)
      ∧ ∃ o, (deriveDocument j).Renders o ∧ o.IsOfDocument := by
  obtain ⟨o, ho⟩ : ∃ o, Outlines {} (.start j.toValue) o :=
    exists_outlines_of_isWritten (Json.isWritten_toValue j)
  obtain ⟨s, hs, hrenders⟩ := derive?_of_outlines ho
  have heq : deriveDocument j = s := by rw [deriveDocument, hs, Option.getD_some]
  rw [heq]
  exact ⟨hs, o, hrenders, Json.isOfDocument_of_outlines ho⟩

end TypeOutline
