import TypeOutline.Proofs.Derivation.Integrity
import TypeOutline.Proofs.Derivation.Numbering
import TypeOutline.Proofs.Rendering.DocumentBlocks
import TypeOutline.Proofs.Rendering.Lossless
import TypeOutline.Proofs.Rendering.TreeLines

/-!
# Rendering with and without references

The lines of a tree depend on the mode only through what the options say
of its nodes: whether the members of a node are shown, and which type it is
shown to refer to (`treeLines_eq_of_agree`). On a node that refers to no
type all options agree. No node of a document does, nor does one close a
cycle (`refersToNone_of_mem_tree`), so a document has the same lines in
both modes.
-/

namespace TypeOutline

open Relation (ReflTransGen TransGen)

/-! ## Options that agree on a node -/

/-- The options show the node alike. -/
structure RenderOptions.AgreeOn (o o' : RenderOptions) (a : Attributes) : Prop where
  expands_eq : Schema.expands o a = Schema.expands o' a
  native_eq : shownRef o a a.native.typeRef = shownRef o' a a.native.typeRef
  json_eq : shownRef o a (a.view jsonDialect).typeRef = shownRef o' a (a.view jsonDialect).typeRef

/-- The options show every node of the tree alike. -/
def RenderOptions.AgreeIn (o o' : RenderOptions) (t : Rose Attributes) : Prop :=
  ∀ a ∈ t.preorder, o.AgreeOn o' a

namespace Rose

variable {o o' : RenderOptions}

mutual

theorem shown_eq_of_agree : (t : Rose Attributes) → o.AgreeIn o' t → t.shown o = t.shown o'
  | .node a ts, h => by
      rw [shown, shown, (h a List.mem_cons_self).expands_eq,
        shownAll_eq_of_agree ts fun b hb => h b (List.mem_cons_of_mem a hb)]

theorem shownAll_eq_of_agree : (ts : List (Rose Attributes)) →
    (∀ a ∈ preorderAll ts, o.AgreeOn o' a) → shownAll o ts = shownAll o' ts
  | [], _ => rfl
  | t :: ts, h => by
      rw [shownAll, shownAll, shown_eq_of_agree t fun a ha => h a (List.mem_append_left _ ha),
        shownAll_eq_of_agree ts fun a ha => h a (List.mem_append_right _ ha)]

end

mutual

/-- What is shown of a tree is in it. -/
theorem preorder_shown_subset (o : RenderOptions) : (t : Rose Attributes) →
    (t.shown o).preorder ⊆ t.preorder
  | .node a ts => by
      rw [shown, preorder, preorder]
      split
      · exact List.cons_subset_cons a (preorderAll_shownAll_subset o ts)
      · exact List.cons_subset_cons a (List.nil_subset _)

theorem preorderAll_shownAll_subset (o : RenderOptions) : (ts : List (Rose Attributes)) →
    preorderAll (shownAll o ts) ⊆ preorderAll ts
  | [] => List.Subset.refl _
  | t :: ts => by
      rw [shownAll, preorderAll, preorderAll]
      exact List.append_subset.mpr
        ⟨List.subset_append_of_subset_left _ (preorder_shown_subset o t),
          List.subset_append_of_subset_right _ (preorderAll_shownAll_subset o ts)⟩

end

/-- A way that is shown passes nodes of the tree. -/
theorem mem_preorder_of_mem_shownWays {t : Rose Attributes} {way : List Attributes}
    (hway : way ∈ t.shownWays o) {a : Attributes} (ha : a ∈ way) : a ∈ t.preorder := by
  have hmem := ((of_mem_ways _ hway).2 a ha).resolve_left List.not_mem_nil
  exact mem_preorder_sortBy t |>.mp (preorder_shown_subset o _ hmem)

end Rose

/-! ## Lines that options agree on -/

section Agreeing

variable {o o' : RenderOptions} {t : Rose Attributes} {way : List Attributes}

theorem agreeIn_ordered (h : o.AgreeIn o' t) : o.AgreeIn o' (t.ordered Attributes.name) :=
  fun a ha => h a ((Rose.mem_preorder_sortBy t).mp ha)

theorem shownWays_eq_of_agree (h : o.AgreeIn o' t) : t.shownWays o = t.shownWays o' := by
  rw [Rose.shownWays, Rose.shown_eq_of_agree _ (agreeIn_ordered h)]
  rfl

theorem Simple.wayLine?_eq_of_agree (h : ∀ a ∈ way, o.AgreeOn o' a) :
    wayLine? o way = wayLine? o' way := by
  have hpath : wayPath o way = wayPath o' way := by
    cases way with
    | nil => rfl
    | cons top below =>
        rw [wayPath, wayPath]
        refine congrArg _ (List.map_congr_left fun a ha => ?_)
        rw [segment, segment, (h a (List.mem_cons_of_mem top ha)).native_eq]
  rw [wayLine?, wayLine?, hpath]

theorem JsonPath.wayLine?_eq_of_agree (h : ∀ a ∈ way, o.AgreeOn o' a) :
    wayLine? o way = wayLine? o' way := by
  have hpath : wayPath o way = wayPath o' way := by
    rw [wayPath, wayPath]
    refine List.map_congr_left fun a ha => ?_
    have hmem : a ∈ way :=
      List.mem_reverse.mp ((prefix_upTo _ _).subset (List.mem_reverse.mp ha))
    have hsegment : segment o a = segment o' a := by
      dsimp only [segment]
      rw [(h a hmem).json_eq]
    rw [hsegment]
  rw [wayLine?, wayLine?, hpath]

namespace OpenApi

variable {url : Option String}

theorem openNode_eq_of_agree {a : Attributes} (h : o.AgreeOn o' a) (indent : UInt64) :
    openNode o url a indent = openNode o' url a indent := by
  dsimp only [openNode]
  rw [h.json_eq]

mutual

theorem treeBlock_eq_of_agree (indent : UInt64) : (t : Rose Attributes) → o.AgreeIn o' t →
    treeBlock o url indent t = treeBlock o' url indent t
  | .node a ts, h => by
      have ha := h a List.mem_cons_self
      rw [treeBlock, treeBlock, openNode_eq_of_agree ha, ha.expands_eq]
      simp only [treeBlocks_eq_of_agree _ ts fun b hb => h b (List.mem_cons_of_mem a hb)]

theorem treeBlocks_eq_of_agree (indent : UInt64) : (ts : List (Rose Attributes)) →
    (∀ a ∈ Rose.preorderAll ts, o.AgreeOn o' a) →
      treeBlocks o url indent ts = treeBlocks o' url indent ts
  | [], _ => rfl
  | t :: ts, h => by
      rw [treeBlocks, treeBlocks,
        treeBlock_eq_of_agree indent t fun a ha => h a (List.mem_append_left _ ha),
        treeBlocks_eq_of_agree indent ts fun a ha => h a (List.mem_append_right _ ha)]

end

end OpenApi

/-- The lines of a tree are the same under options that agree in it and start at one indent. -/
theorem treeLines_eq_of_agree (h : o.AgreeIn o' t) (hindent : o.indent = o'.indent) (d : Dialect)
    (url : Option String) : d.treeLines o url t = d.treeLines o' url t
      ∧ d.treeFault o url t = d.treeFault o' url t := by
  have hways := shownWays_eq_of_agree h
  have hway : ∀ way ∈ t.shownWays o', ∀ a ∈ way, o.AgreeOn o' a := fun way hmem a ha =>
    h a (Rose.mem_preorder_of_mem_shownWays hmem ha)
  have hblock := @OpenApi.treeBlock_eq_of_agree o o' url o'.indent _ (agreeIn_ordered h)
  cases d with
  | simple =>
      have hlines : Simple.linesOf o t = Simple.linesOf o' t := by
        rw [Simple.linesOf, Simple.linesOf, hways]
        exact List.filterMap_congr fun way hmem => Simple.wayLine?_eq_of_agree (hway way hmem)
      exact ⟨congrArg (List.filter _) hlines, rfl⟩
  | json =>
      have hlines : JsonPath.listedLines o t = JsonPath.listedLines o' t := by
        rw [JsonPath.listedLines, JsonPath.listedLines, hways]
        exact List.filterMap_congr fun way hmem =>
          JsonPath.wayLine?_eq_of_agree (hway way (List.mem_filter.mp hmem).1)
      exact ⟨congrArg (List.filter _) hlines, rfl⟩
  | openApi =>
      rw [Dialect.treeLines, Dialect.treeLines, Dialect.treeFault, Dialect.treeFault,
        OpenApi.linesOf, OpenApi.linesOf, hindent, hblock]
      exact ⟨rfl, rfl⟩

end Agreeing

/-! ## Nodes without references -/

/-- The node refers to no type, in any dialect, and closes no cycle. -/
structure Attributes.RefersToNone (a : Attributes) : Prop where
  typeRef_eq : a.typeRef = ""
  override_typeRef_eq : ∀ dialect b, a.override? dialect = some b → b.typeRef = ""
  isCyclical_eq : a.isCyclical = false

namespace Attributes.RefersToNone

variable {a : Attributes}

theorem block_typeRef_eq (h : a.RefersToNone) (dialect : String) :
    (a.block dialect).typeRef = "" := by
  rw [block]
  cases hblock : a.override? dialect with
  | none => rfl
  | some b => exact h.override_typeRef_eq dialect b hblock

theorem native_typeRef_eq (h : a.RefersToNone) : a.native.typeRef = "" :=
  h.block_typeRef_eq nativeDialect

/-- All options agree on a node that refers to no type. -/
theorem agreeOn (h : a.RefersToNone) (o o' : RenderOptions) : o.AgreeOn o' a := by
  have hnative := h.native_typeRef_eq
  have hjson : (a.view jsonDialect).typeRef = "" := by
    rw [view_typeRef, h.block_typeRef_eq, hnative]
    rfl
  have hshown : ∀ o : RenderOptions, shownRef o a "" = "" := fun o => ite_self _
  have hexpands : ∀ o : RenderOptions, Schema.expands o a = true := by
    intro o
    rw [Schema.expands, isReference, hnative]
    exact Bool.or_true _
  exact
    { expands_eq := by rw [hexpands, hexpands]
      native_eq := by rw [hnative, hshown, hshown]
      json_eq := by rw [hjson, hshown, hshown] }

end Attributes.RefersToNone

theorem refersToNone_of_consistent {a : Attributes} (h : a.Consistent)
    (hnative : a.native.typeRef = "") (hcyc : a.isCyclical = false) : a.RefersToNone where
  typeRef_eq := h.typeRef_eq.trans hnative
  override_typeRef_eq dialect b hb := by
    by_cases hdialect : dialect = nativeDialect
    · subst hdialect
      rw [Attributes.native, hb] at hnative
      exact hnative
    · exact h.others dialect b hdialect hb
  isCyclical_eq := hcyc

/-! ## Documents -/

section Documents

variable {types : Types} {j : Json} {s : Schema} {out : Outline}

theorem Layer.IsOfDocument.hasProperName {l : Layer} (h : l.IsOfDocument) : l.HasProperName := by
  cases h <;> exact fun h => nomatch h

theorem refersToNone_of_shows (houtlines : Outlines types (.start j.toValue) out)
    {a : Attributes} (ha : out.Shows a) : a.RefersToNone := by
  have hlevels : j.toValue.EveryLevel types Layer.IsOfDocument := Json.everyLevel_toValue j
  have hnative : a.native.typeRef = "" :=
    typeRef_eq_of_outlines houtlines (fun w hw l hl => (hlevels w hw l hl).declares?_eq) ha
  have hnames := every_outlines kept_namesCycle houtlines
    fun w hw l hl => (hlevels w hw l hl).hasProperName
  obtain ⟨_, hcycle⟩ := hnames.exists_of_shows ha
  obtain ⟨depth, houtline⟩ := houtlines
  have hconsistent := (traced_outline types depth houtline (blank_new "").consistent a ha).1
  refine refersToNone_of_consistent hconsistent hnative (Bool.eq_false_iff.mpr fun hcyc => ?_)
  have href := hcycle hcyc
  rw [Attributes.isReference, hnative] at href
  exact absurd href (by decide)

theorem refersToNone_top (name : String) :
    ({ name := name, generic := .root } : Attributes).RefersToNone :=
  refersToNone_of_consistent
    ⟨(blank_new name).consistent.typeRef_eq, (blank_new name).consistent.others⟩ rfl rfl

/-- What the trees of a document show refers to no type. -/
theorem refersToNone_of_mem_tree (ho : s.Renders out)
    (houtlines : Outlines types (.start j.toValue) out) {top : NodeId} (htop : s.IsTop top) :
    ∀ a ∈ (s.tree top).preorder, a.RefersToNone := by
  intro a ha
  rcases htop with rfl | rfl
  · rw [ho.root_eq] at ha
    rcases List.mem_cons.mp ha with rfl | ha
    · exact refersToNone_top _
    · exact refersToNone_of_shows houtlines (.inl (by simpa [Rose.preorderAll] using ha))
  · rw [ho.typeRefs_eq, (Json.isOfDocument_of_outlines houtlines).recordAll_eq] at ha
    rw [List.mem_singleton.mp ha]
    exact refersToNone_top _

end Documents

/-- A document needs no references. Its schema has no definitions, and no node of the arena refers
to a type or closes a cycle. So in every dialect its lines are those of the value, after the header
that a URL path asks for, and these are the same and can be made in the same cases whether
references are resolved or not. -/
theorem document_lines_eq_of_modes (j : Json) :
    derive? {} j.toValue = some (deriveDocument j)
      ∧ (deriveDocument j).children (deriveDocument j).typeRefs = []
      ∧ (∀ k n, (deriveDocument j).node? k = some n → n.RefersToNone)
      ∧ ∀ d o url,
        (deriveDocument j).lines d o url = Schema.headerLines d url
            ++ (deriveDocument j).elementLines d o url (deriveDocument j).root
          ∧ (deriveDocument j).linesFault d o url =
            (deriveDocument j).elementFaults d o url (deriveDocument j).root
          ∧ (deriveDocument j).lines d { o with dereference := true } url =
            (deriveDocument j).lines d { o with dereference := false } url
          ∧ (deriveDocument j).linesFault d { o with dereference := true } url =
            (deriveDocument j).linesFault d { o with dereference := false } url := by
  obtain ⟨hderive, -⟩ := exists_outline_deriveDocument j
  have hs := linked_of_derive? hderive
  obtain ⟨out, houtlines, ho⟩ := exists_outlines_of_derive? hderive
  have hnone := fun {top} => @refersToNone_of_mem_tree _ _ _ _ ho houtlines top
  have hlines := fun d o url => @OpenApi.elementLines_of_document _ _ _ _ o url hs ho houtlines d
  refine ⟨hderive, (hlines .simple {} none).1, fun k n hn => ?_, fun d o url => ?_⟩
  · -- the nodes of the arena are those of the two trees
    have hk : k ∈ (deriveDocument j).order := by
      rw [order_of_derive? hderive]
      exact List.mem_range.mpr (Array.getElem?_eq_some_iff.mp hn).1
    have hattrs : (deriveDocument j).attrs k = n.toAttributes := by rw [Schema.attrs, hn]; rfl
    obtain ⟨r, q, hr, hq⟩ := hs.exists_trees
    rcases hs.mem_order_iff.mp hk with hk | hk
    · exact hnone (.inl rfl) _ ((Schema.mem_preorder_tree hr).mpr ⟨k, hk, hattrs⟩)
    · exact hnone (.inr rfl) _ ((Schema.mem_preorder_tree hq).mpr ⟨k, hk, hattrs⟩)
  · have hmodes : ∀ o', o'.indent = o.indent →
        (deriveDocument j).lines d o' url = (deriveDocument j).lines d o url
          ∧ (deriveDocument j).linesFault d o' url = (deriveDocument j).linesFault d o url := by
      intro o' hindent
      obtain ⟨htree, htreeFault⟩ :=
        treeLines_eq_of_agree (fun a ha => (hnone (.inl rfl) a ha).agreeOn o' o) hindent d url
      obtain ⟨-, hvalue, hfault⟩ := hlines d o url
      obtain ⟨-, hvalue', hfault'⟩ := hlines d o' url
      obtain ⟨helement, helementFault⟩ := hs.elementLines_eq d o url (.inl rfl)
      obtain ⟨helement', helementFault'⟩ := hs.elementLines_eq d o' url (.inl rfl)
      rw [hvalue, hvalue', hfault, hfault', helement, helement', helementFault, helementFault',
        htree, htreeFault]
      exact ⟨rfl, rfl⟩
    obtain ⟨hresolved, hresolvedFault⟩ := hmodes { o with dereference := true } rfl
    obtain ⟨hshown, hshownFault⟩ := hmodes { o with dereference := false } rfl
    exact ⟨(hlines d o url).2.1, (hlines d o url).2.2, hresolved.trans hshown.symm,
      hresolvedFault.trans hshownFault.symm⟩

/-- A list of lists, one of them empty. -/
def rows : Json := .array [.array [.bool true], .array []]

theorem document_lines_eq_of_modes_rows : ∃ k n,
    (deriveDocument rows).children (deriveDocument rows).root = [k]
      ∧ (deriveDocument rows).node? k = some n ∧ n.RefersToNone
      ∧ (deriveDocument rows).lines .openApi { dereference := true } (some "/rows") =
        (deriveDocument rows).lines .openApi {} (some "/rows") := by
  obtain ⟨hderive, -, hnone, hlines⟩ := document_lines_eq_of_modes rows
  have hs := linked_of_derive? hderive
  obtain ⟨out, -, ho⟩ := exists_outlines_of_derive? hderive
  obtain ⟨k, hk, -⟩ := ho.exists_children_root hs
  have hnode := Schema.node?_eq_nodeOf (hs.lt_size_of_mem (hk ▸ List.mem_singleton_self k))
  exact ⟨k, _, hk, hnode, hnone k _ hnode, (hlines .openApi {} (some "/rows")).2.2.1⟩

end TypeOutline
