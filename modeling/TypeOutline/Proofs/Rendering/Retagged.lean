import TypeOutline.Proofs.Derivation.Documents
import TypeOutline.Proofs.Derivation.Retagging
import TypeOutline.Proofs.Rendering.JsonLines

/-!
# The lines of values under other tags

In each dialect the lines of a schema are a function of its two trees:
`Simple.linesOf`, `JsonPath.linesOf` and `OpenApi.treeBlock` do not speak
of ids. None of them reads more of a node than its sight, the simple
dialect whatever blocks are in it and the others if the block of the JSON
dialect is. So trees that look alike have the same lines, and the tags of
other dialects, the native one among them, cannot be seen
(`lines_eq_of_retagged`).
-/

namespace TypeOutline

open Relation (ReflTransGen TransGen)

namespace Attributes

variable {ds : List String} {a b : Attributes}

theorem Alike.pathType_eq (h : a.Alike ds b) : a.pathType = b.pathType := by
  unfold pathType
  rw [h.category_eq, h.typeLabel_eq, h.generic_eq]

theorem Alike.shownRef_eq (h : a.Alike ds b) (o : RenderOptions) (ref : String) :
    shownRef o a ref = shownRef o b ref := by
  rw [shownRef, shownRef, h.isCyclical_eq]

theorem Alike.expands_eq (h : a.Alike ds b) (o : RenderOptions) :
    Schema.expands o a = Schema.expands o b := by
  rw [Schema.expands, Schema.expands, h.isReference_eq]

theorem Alike.simple_segment_eq (h : a.Alike ds b) (o : RenderOptions) :
    Simple.segment o a = Simple.segment o b := by
  rw [Simple.segment, Simple.segment, h.defect_eq, h.name_eq, h.pathType_eq, h.nativeRef_eq,
    h.shownRef_eq]

/-! ## The view of a dialect -/

section View

variable {d : String} (hd : d ∈ ds) (hne : d ≠ nativeDialect)
include hd hne

theorem Alike.nameIn_eq (h : a.Alike ds b) : a.nameIn d = b.nameIn d := by
  have hname := congrArg Override.name (h.said_eq d hd hne)
  rw [Attributes.nameIn_eq, Attributes.nameIn_eq, h.name_eq]
  exact congrArg (orElseText · b.name) hname

theorem Alike.isExcluded_eq (h : a.Alike ds b) : a.isExcluded d = b.isExcluded d := by
  have hinclusion := congrArg Override.inclusion (h.said_eq d hd hne)
  rw [Attributes.isExcluded_eq, Attributes.isExcluded_eq]
  exact congrArg (· == .excluded) hinclusion

theorem Alike.view_name_eq (h : a.Alike ds b) : (a.view d).name = (b.view d).name := by
  rw [view_name, ← Attributes.nameIn_eq, h.nameIn_eq hd hne, Attributes.nameIn_eq, view_name]

theorem Alike.view_typeRef_eq (h : a.Alike ds b) : (a.view d).typeRef = (b.view d).typeRef := by
  have href := congrArg Override.typeRef (h.said_eq d hd hne)
  rw [view_typeRef, view_typeRef, h.nativeRef_eq]
  exact congrArg (orElseText · b.native.typeRef) href

end View

end Attributes

/-! ## Trees that look alike -/

namespace Rose

variable {f : Attributes → Attributes} {o : RenderOptions}

mutual

theorem shown_map (hf : ∀ a, Schema.expands o (f a) = Schema.expands o a) :
    (t : Rose Attributes) → (t.map f).shown o = (t.shown o).map f
  | .node a ts => by
      rw [map, shown, shown, map, hf]
      split
      · rw [shownAll_map hf ts]
      · rfl

theorem shownAll_map (hf : ∀ a, Schema.expands o (f a) = Schema.expands o a) :
    (ts : List (Rose Attributes)) → shownAll o (mapAll f ts) = mapAll f (shownAll o ts)
  | [] => rfl
  | t :: ts => by rw [mapAll, shownAll, shownAll, mapAll, shown_map hf t, shownAll_map hf ts]

end

theorem ordered_sight (ds : List String) (t : Rose Attributes) :
    (t.map (Attributes.sight ds)).ordered Attributes.name =
      (t.ordered Attributes.name).map (Attributes.sight ds) :=
  (map_ordered (fun _ => rfl) t).symm

/-- The ways to the nodes of a tree that are shown, children in the order of their names. -/
def shownWays (o : RenderOptions) (t : Rose Attributes) : List (List Attributes) :=
  ((t.ordered Attributes.name).shown o).ways []

theorem shownWays_sight (ds : List String) (o : RenderOptions) (t : Rose Attributes) :
    (t.map (Attributes.sight ds)).shownWays o =
      (t.shownWays o).map (·.map (Attributes.sight ds)) := by
  have hexpands : ∀ a : Attributes, Schema.expands o (a.sight ds) = Schema.expands o a :=
    fun a => (Attributes.sight_alike ds a).expands_eq o
  rw [shownWays, shownWays, ordered_sight, shown_map hexpands, ← ways_map, List.map_nil]

end Rose

/-! ## Lines of ways -/

namespace Simple

/-- The simple lines of what is shown of a tree. -/
def linesOf (o : RenderOptions) (t : Rose Attributes) : List String :=
  (t.shownWays o).filterMap (wayLine? o)

variable {ds : List String} {o : RenderOptions}

theorem wayLine?_sight (ds : List String) (way : List Attributes) :
    wayLine? o (way.map (Attributes.sight ds)) = wayLine? o way := by
  have hpath : wayPath o (way.map (Attributes.sight ds)) = wayPath o way := by
    cases way with
    | nil => rfl
    | cons top below =>
        rw [List.map_cons, wayPath, wayPath, List.map_map]
        refine congrArg (_ :: ·) (List.map_congr_left fun a _ => ?_)
        rw [Function.comp_apply, (Attributes.sight_alike ds a).simple_segment_eq]
  rw [wayLine?, wayLine?, List.getLast?_map, hpath, Option.bind_map]
  rfl

theorem wayLine?_eq_of_sight {way way' : List Attributes}
    (h : way.map (Attributes.sight ds) = way'.map (Attributes.sight ds)) :
    wayLine? o way = wayLine? o way' := by
  rw [← wayLine?_sight ds way, h, wayLine?_sight]

theorem linesOf_eq {t t' : Rose Attributes}
    (h : t.map (Attributes.sight ds) = t'.map (Attributes.sight ds)) :
    linesOf o t = linesOf o t' := by
  have hsight : ∀ t : Rose Attributes, linesOf o (t.map (Attributes.sight ds)) = linesOf o t := by
    intro t
    rw [linesOf, linesOf, Rose.shownWays_sight, List.filterMap_map]
    exact List.filterMap_congr fun way _ => wayLine?_sight ds way
  rw [← hsight t, h, hsight]

end Simple

namespace JsonPath

/-- The JSON lines of what is shown of a tree. -/
def linesOf (o : RenderOptions) (t : Rose Attributes) : List String :=
  ((t.shownWays o).filter (·.all (!·.isExcluded jsonDialect))).filterMap
    fun way => Simple.wayLine? o (renamedWay way)

variable {ds : List String} {o : RenderOptions}

theorem renamedWay_sight (hds : jsonDialect ∈ ds) (way : List Attributes) :
    (renamedWay (way.map (Attributes.sight ds))).map (Attributes.sight ds) =
      (renamedWay way).map (Attributes.sight ds) := by
  cases way with
  | nil => rfl
  | cons top below =>
      have hrename : ∀ (a : Attributes) {n n' : String}, n = n' →
          ({ a.sight ds with name := n } : Attributes).sight ds =
            ({ a with name := n' } : Attributes).sight ds := by
        intro a n n' hn
        exact Attributes.alike_iff.mp { Attributes.sight_alike ds a with name_eq := hn }
      rw [List.map_cons, renamedWay, renamedWay, List.map_cons, List.map_cons, hrename top rfl,
        List.map_map, List.map_map, List.map_map]
      refine congrArg (_ :: ·) (List.map_congr_left fun a _ => ?_)
      exact hrename a ((Attributes.sight_alike ds a).nameIn_eq hds jsonDialect_ne_native)

theorem linesOf_eq (hds : jsonDialect ∈ ds) {t t' : Rose Attributes}
    (h : t.map (Attributes.sight ds) = t'.map (Attributes.sight ds)) :
    linesOf o t = linesOf o t' := by
  have hclear : (fun way : List Attributes => way.all (!·.isExcluded jsonDialect)) ∘
      (fun way : List Attributes => way.map (Attributes.sight ds)) =
        fun way => way.all (!·.isExcluded jsonDialect) := by
    funext way
    rw [Function.comp_apply, List.all_map]
    refine List.all_congr rfl fun a => ?_
    rw [Function.comp_apply,
      (Attributes.sight_alike ds a).isExcluded_eq hds jsonDialect_ne_native]
  have hsight : ∀ t : Rose Attributes, linesOf o (t.map (Attributes.sight ds)) = linesOf o t := by
    intro t
    rw [linesOf, linesOf, Rose.shownWays_sight, List.filter_map, List.filterMap_map, hclear]
    exact List.filterMap_congr fun way _ => Simple.wayLine?_eq_of_sight (renamedWay_sight hds way)
  rw [← hsight t, h, hsight]

end JsonPath

/-! ## Blocks of trees -/

namespace OpenApi

variable {o : RenderOptions} {url : Option String} {ds : List String}

theorem hidden_eq (hds : jsonDialect ∈ ds) {a b : Attributes} (h : a.Alike ds b) :
    hidden a = hidden b := by
  rw [hidden, hidden, h.isRoot_eq, h.isExcluded_eq hds JsonPath.jsonDialect_ne_native]

theorem openNode_eq_of_alike (hds : jsonDialect ∈ ds) {a b : Attributes} (h : a.Alike ds b)
    (indent : UInt64) : openNode o url a indent = openNode o url b indent := by
  have htype : typeLines a = typeLines b := by
    unfold typeLines
    rw [h.generic_eq, h.nativeType_eq, h.typeLabel_eq]
  dsimp only [openNode]
  rw [h.view_name_eq hds JsonPath.jsonDialect_ne_native,
    h.view_typeRef_eq hds JsonPath.jsonDialect_ne_native, h.shownRef_eq, h.defect_eq, htype]

mutual

theorem treeBlock_sight (hds : jsonDialect ∈ ds) (indent : UInt64) : (t : Rose Attributes) →
    treeBlock o url indent (t.map (Attributes.sight ds)) = treeBlock o url indent t
  | .node a ts => by
      have halike := Attributes.sight_alike ds a
      rw [Rose.map, treeBlock, treeBlock, hidden_eq hds halike, halike.isRoot_eq, halike.name_eq,
        openNode_eq_of_alike hds halike, halike.expands_eq]
      simp only [treeBlocks_sight hds _ ts]

theorem treeBlocks_sight (hds : jsonDialect ∈ ds) (indent : UInt64) :
    (ts : List (Rose Attributes)) → treeBlocks o url indent (Rose.mapAll (Attributes.sight ds) ts) =
      treeBlocks o url indent ts
  | [] => rfl
  | t :: ts => by
      rw [Rose.mapAll, treeBlocks, treeBlocks, treeBlock_sight hds indent t,
        treeBlocks_sight hds indent ts]

end

theorem linesOf_eq (hds : jsonDialect ∈ ds) {t t' : Rose Attributes}
    (h : t.map (Attributes.sight ds) = t'.map (Attributes.sight ds)) :
    linesOf o url t = linesOf o url t' := by
  have hsight : ∀ t : Rose Attributes,
      linesOf o url (t.map (Attributes.sight ds)) = linesOf o url t := by
    intro t
    rw [linesOf, linesOf, Rose.ordered_sight, treeBlock_sight hds]
  rw [← hsight t, h, hsight]

end OpenApi

/-! ## Lines of schemas -/

section Schemas

variable {types : Types} {v : Value} {s s' : Schema} {out : Outline} {top : NodeId}
  {o : RenderOptions}

theorem simple_filterMap_eq (hs : s.Linked) (htop : s.IsTop top) :
    (Simple.shown s o top).filterMap (Simple.line? s o) = Simple.linesOf o (s.tree top) := by
  have hlt := hs.isTop_lt htop
  have hparent := hs.parent?_isTop htop
  rw [Simple.linesOf, Rose.shownWays, ← Schema.shownTree, ← Schema.map_way_shown hs hlt hparent,
    List.filterMap_map]
  exact List.filterMap_congr fun k hk =>
    Schema.simple_line?_eq hs hlt hparent (reaches_of_mem_simple_shown hs htop hk)

theorem json_filterMap_eq (hs : s.Linked) (ho : s.Renders out)
    (houtlines : Outlines types (.start v) out) (htop : s.IsTop top) :
    (JsonPath.shown s o top).filterMap (JsonPath.line? s o) = JsonPath.linesOf o (s.tree top) := by
  rw [JsonPath.linesOf, Rose.shownWays, ← Schema.shownTree,
    ← Schema.map_way_shown hs (hs.isTop_lt htop) (hs.parent?_isTop htop), List.filter_map,
    List.filterMap_map, json_shown_eq hs ho houtlines htop]
  refine List.filterMap_congr fun k hk => ?_
  exact json_line?_eq hs ho houtlines htop
    (reaches_of_mem_simple_shown hs htop (List.mem_filter.mp hk).1)

theorem Schema.Linked.isEmpty_children_eq (hs : s.Linked) (htop : s.IsTop top) :
    (s.children top).isEmpty = (s.tree top).children.isEmpty := by
  obtain ⟨r, q, hr, hq⟩ := hs.exists_trees
  have hlength : (s.tree top).children.length = (s.children top).length := by
    rcases htop with rfl | rfl
    · exact Schema.length_children_tree hr .refl
    · exact Schema.length_children_tree hq .refl
  rw [Bool.eq_iff_iff, List.isEmpty_iff_length_eq_zero, List.isEmpty_iff_length_eq_zero, hlength]

theorem isEmpty_children_map {f : Attributes → Attributes} (t : Rose Attributes) :
    (t.map f).children.isEmpty = t.children.isEmpty := by
  obtain ⟨a, ts⟩ := t
  cases ts <;> rfl

/-- Schemas that look alike have the same simple lines. -/
theorem simple_lines_eq_of_alike {ds : List String} {out' : Outline} (hs : s.Linked)
    (hs' : s'.Linked) (ho : s.Renders out) (ho' : s'.Renders out') (h : Schema.Alike ds s s')
    (o : RenderOptions) (url : Option String) : s.lines .simple o url = s'.lines .simple o url := by
  rw [simple_lines_eq hs ho, simple_lines_eq hs' ho', Schema.listed, Schema.listed,
    List.filterMap_append, List.filterMap_append, simple_filterMap_eq hs (.inl rfl),
    simple_filterMap_eq hs' (.inl rfl), Simple.linesOf_eq h.root_eq]
  refine congrArg (· ++ _) ?_
  split
  · rfl
  · rw [simple_filterMap_eq hs (.inr rfl), simple_filterMap_eq hs' (.inr rfl),
      Simple.linesOf_eq h.typeRefs_eq]

theorem openApi_treeLines_eq {ds : List String} (hds : jsonDialect ∈ ds) (hs : s.Linked)
    (hs' : s'.Linked) {top' : NodeId} (htop : s.IsTop top) (htop' : s'.IsTop top')
    (h : (s.tree top).map (Attributes.sight ds) = (s'.tree top').map (Attributes.sight ds))
    (url : Option String) : s.treeLines .openApi o url top = s'.treeLines .openApi o url top' := by
  have hempty : (s.children top).isEmpty = (s'.children top').isEmpty := by
    rw [hs.isEmpty_children_eq htop, hs'.isEmpty_children_eq htop', ← isEmpty_children_map, h,
      isEmpty_children_map]
  have hlines : OpenApi.lines s o url top = OpenApi.lines s' o url top' := by
    rw [OpenApi.lines_eq_linesOf, OpenApi.lines_eq_linesOf, OpenApi.linesOf_eq hds h]
  rw [Schema.treeLines, Schema.treeLines, hempty, Schema.elementLines, Schema.elementLines, hlines]

end Schemas

/-! ## The main result -/

section Main

variable {types types' : Types} {v v' : Value} {s s' : Schema}

/-- Schemas that look alike where the block of the JSON dialect is read have the same lines. -/
theorem lines_eq_of_alike {ds : List String} (hds : jsonDialect ∈ ds)
    (hs : derive? types v = some s) (hs' : derive? types' v' = some s')
    (h : Schema.Alike ds s s') (d : Dialect) (o : RenderOptions) (url : Option String) :
    s.lines d o url = s'.lines d o url := by
  have hlinked := linked_of_derive? hs
  have hlinked' := linked_of_derive? hs'
  obtain ⟨out, hout, ho⟩ := exists_outlines_of_derive? hs
  obtain ⟨out', hout', ho'⟩ := exists_outlines_of_derive? hs'
  cases d with
  | simple => exact simple_lines_eq_of_alike hlinked hlinked' ho ho' h o url
  | json =>
      rw [json_lines_eq hlinked ho hout, json_lines_eq hlinked' ho' hout', Schema.listed,
        Schema.listed, List.filterMap_append, List.filterMap_append,
        json_filterMap_eq hlinked ho hout (.inl rfl),
        json_filterMap_eq hlinked' ho' hout' (.inl rfl), JsonPath.linesOf_eq hds h.root_eq]
      refine congrArg (· ++ _) ?_
      split
      · rfl
      · rw [json_filterMap_eq hlinked ho hout (.inr rfl),
          json_filterMap_eq hlinked' ho' hout' (.inr rfl), JsonPath.linesOf_eq hds h.typeRefs_eq]
  | openApi =>
      rw [Schema.lines, Schema.lines,
        openApi_treeLines_eq hds hlinked hlinked' (.inl rfl) (.inl rfl) h.root_eq,
        openApi_treeLines_eq hds hlinked hlinked' (.inr rfl) (.inr rfl) h.typeRefs_eq]

/-- What is the same of schemas that look alike is the same after both derivations. -/
theorem map_derive?_eq (ds : List String) {T : String → String → Prop}
    (hT : ∀ raw raw', T raw raw' → Tag.AgreeIn ds raw raw') (ht : Types.Like T types types')
    (hv : v.Like T v') {f : Schema → List String}
    (hf : ∀ s s', derive? types v = some s → derive? types' v' = some s' →
      Schema.Alike ds s s' → f s = f s') :
    (derive? types v).map f = (derive? types' v').map f := by
  have hrel := rel_derive?_like hT ht hv
  generalize hx : derive? types v = x at hrel hf ⊢
  generalize hx' : derive? types' v' = x' at hrel hf ⊢
  cases hrel with
  | none => rfl
  | @some s s' h => exact congrArg some (hf s s' rfl rfl h)

/-- Values that differ in the tags of members alone, at any number of
places and in the table of types too, have the same simple lines in both
modes. If corresponding tags say the same of leaving out and of other names
in the JSON dialect, they have the same lines in every dialect, whatever
the tags say of other dialects, the native one included, and whatever
options they give. One of the derivations ends exactly if the other does. -/
theorem lines_eq_of_retagged (e e' : Engine) (o : RenderOptions) (url : Option String) :
    (Types.Like (fun _ _ => True) types types' → v.Like (fun _ _ => True) v' →
      (e.derive? types v).1.map (·.lines .simple o url) =
        (e'.derive? types' v').1.map (·.lines .simple o url))
      ∧ (Types.Like (fun raw raw' => Tag.verdict raw jsonDialect = Tag.verdict raw' jsonDialect)
          types types' →
        v.Like (fun raw raw' => Tag.verdict raw jsonDialect = Tag.verdict raw' jsonDialect) v' →
        ∀ d, (e.derive? types v).1.map (·.lines d o url) =
          (e'.derive? types' v').1.map (·.lines d o url)) := by
  refine ⟨fun ht hv => ?_, fun ht hv d => ?_⟩
  · refine map_derive?_eq [] (fun _ _ _ d hd => absurd hd List.not_mem_nil) ht hv ?_
    intro s s' hs hs' h
    obtain ⟨_, -, ho⟩ := exists_outlines_of_derive? hs
    obtain ⟨_, -, ho'⟩ := exists_outlines_of_derive? hs'
    exact simple_lines_eq_of_alike (linked_of_derive? hs) (linked_of_derive? hs') ho ho' h o url
  · have hagree : ∀ raw raw', Tag.verdict raw jsonDialect = Tag.verdict raw' jsonDialect →
        Tag.AgreeIn [jsonDialect] raw raw' := fun raw raw' h k hk => by
      rw [List.mem_singleton.mp hk, h]
    refine map_derive?_eq [jsonDialect] hagree ht hv fun s s' hs hs' h => ?_
    exact lines_eq_of_alike (List.mem_singleton_self _) hs hs' h d o url

end Main

/-- A record of one member under a tag. -/
def tagged (raw : String) : Value :=
  .ofShape (.record [{ name := "Id", tag := raw, value := .ofShape (.scalar .i64) }])

theorem like_tagged {T : String → String → Prop} {raw raw' : String} (h : T raw raw') :
    (tagged raw).Like T (tagged raw') :=
  .layer none (.record (.cons (.intro "Id" true h (.layer none (.scalar .i64))) .nil))

/-- Another name in the JSON dialect does not reach the simple lines, and
neither do options or tags of the native dialect reach any lines. -/
theorem lines_eq_of_retagged_member :
    (∃ s s', (({} : Engine).derive? {} (tagged "json:\"id\"")).1 = some s
        ∧ (({} : Engine).derive? {} (tagged "")).1 = some s'
        ∧ s.lines .simple {} none = s'.lines .simple {} none)
      ∧ ∃ s s', (({} : Engine).derive? {} (tagged "json:\"id,omitempty\"")).1 = some s
        ∧ (({} : Engine).derive? {} (tagged "rust:\"-\" json:\"id\"")).1 = some s'
        ∧ s.lines .openApi {} (some "/ids") = s'.lines .openApi {} (some "/ids") := by
  have hsome : ∀ raw, ∃ s, derive? {} (tagged raw) = some s := by
    intro raw
    have hwritten : (tagged raw).IsWritten := by
      refine Value.isWritten_layer.mpr fun w hw => ?_
      rw [List.mem_singleton.mp hw]
      exact Value.isWritten_layer.mpr fun w hw => absurd hw List.not_mem_nil
    obtain ⟨out, hout⟩ : ∃ out, Outlines {} (.start (tagged raw)) out :=
      exists_outlines_of_isWritten hwritten
    obtain ⟨s, hs, -⟩ := derive?_of_outlines hout
    exact ⟨s, hs⟩
  obtain ⟨s₁, hs₁⟩ := hsome "json:\"id\""
  obtain ⟨s₂, hs₂⟩ := hsome ""
  obtain ⟨s₃, hs₃⟩ := hsome "json:\"id,omitempty\""
  obtain ⟨s₄, hs₄⟩ := hsome "rust:\"-\" json:\"id\""
  have htypes : ∀ {T : String → String → Prop}, Types.Like T {} {} := .nil
  have hverdict : Tag.verdict "json:\"id,omitempty\"" jsonDialect =
      Tag.verdict "rust:\"-\" json:\"id\"" jsonDialect := by decide +kernel
  refine ⟨⟨s₁, s₂, hs₁, hs₂, ?_⟩, s₃, s₄, hs₃, hs₄, ?_⟩
  · have hsimple := (lines_eq_of_retagged {} {} {} none).1 htypes
      (@like_tagged (fun _ _ => True) "json:\"id\"" "" trivial)
    simp only [Engine.derive?_eq, hs₁, hs₂, Option.map_some] at hsimple
    exact Option.some.inj hsimple
  · have hall := (lines_eq_of_retagged {} {} {} (some "/ids")).2 htypes
      (like_tagged hverdict) .openApi
    simp only [Engine.derive?_eq, hs₃, hs₄, Option.map_some] at hall
    exact Option.some.inj hall

end TypeOutline
