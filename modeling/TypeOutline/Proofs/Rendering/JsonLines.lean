import TypeOutline.Proofs.Derivation.Blocks
import TypeOutline.Proofs.Rendering.Ways

/-!
# The JSON dialect beside the simple one

The two dialects of paths are written by different code: one reads the
generic attributes of a node, the other the view of its `json` block. No
tag can name a type or another type to refer to (`namesNoType_fieldAttributes`),
so the view differs from the generic attributes in the name alone, and a
segment of one dialect is the segment of the other for the renamed node
(`segment_eq`). No node below a top looks like a top, so both dialects find
the same way to it (`json_line?_eq`).
-/

namespace TypeOutline

open Relation (ReflTransGen TransGen)

/-! ## The tops of a derived schema -/

/-- No node of a value or of a definition is a top. -/
theorem kept_notRoot : Kept (fun a _ => a.isRoot = false) fun _ => True where
  refused _ _ _ := isRoot_head _ _ _
  entered {a l name} _ _ _ := by
    by_cases hslot : l.shape = .slot none
    · rw [hslot]
      rfl
    · refine (Content.obeys_generic _ hslot).imp fun b _ hb => ?_
      rw [Attributes.isRoot, hb]
      exact isRoot_head a l.shape.kind (.enters name)

section Nodes

variable {types : Types} {v : Value} {s : Schema} {out : Outline} {k : NodeId}

theorem isRoot_of_below_tops (hs : s.Linked) (ho : s.Renders out)
    (houtlines : Outlines types (.start v) out)
    (hk : TransGen s.Owns s.root k ∨ TransGen s.Owns s.typeRefs k) :
    (s.attrs k).isRoot = false := by
  have hevery := every_outlines kept_notRoot houtlines fun _ _ _ _ => trivial
  have hshown : ∀ a, out.Shows a → a.isRoot = false := fun a ha =>
    (hevery.exists_of_shows ha).elim fun _ h => h
  exact forall_below_tops hs ho houtlines hshown (fun _ h => h) (fun _ h => h) hk

end Nodes

/-! ## Lines under other names -/

namespace JsonPath

/-- The node under its name in the JSON dialect. -/
def renamed (a : Attributes) : Attributes := { a with name := a.nameIn jsonDialect }

/-- The way under the names of the JSON dialect. -/
def renamedWay : List Attributes → List Attributes
  | [] => []
  | top :: below => { top with name := topToken top.name } :: below.map renamed

theorem jsonDialect_ne_native : jsonDialect ≠ nativeDialect := by decide

/-- A segment of the JSON dialect is the simple one of the renamed node. -/
theorem segment_eq (o : RenderOptions) {a : Attributes} (hconsistent : a.Consistent)
    (htype : a.NamesNoType) : segment o a = Simple.segment o (renamed a) := by
  have hview : (a.view jsonDialect).type = a.generic.slug := by
    rw [Attributes.view_type a jsonDialect_ne_native, htype _ jsonDialect_ne_native]
    rfl
  have hpath : (if a.category = .invalid then a.typeLabel else
      Generic.tokenOfSlug (a.view jsonDialect).type) = (renamed a).pathType := by
    rw [hview, Generic.tokenOfSlug, Generic.ofSlug?_slug]
    unfold Attributes.pathType
    simp only [beq_iff_eq]
    rfl
  rw [segment, hpath, hconsistent.view_typeRef, Attributes.view_name, ← Attributes.nameIn_eq]
  rfl

/-- Other names leave the node at the end of a way what it is. -/
theorem exists_getLast?_renamedWay {way : List Attributes} {a : Attributes}
    (h : way.getLast? = some a) : ∃ b, (renamedWay way).getLast? = some b
      ∧ b.isRoot = a.isRoot ∧ b.defect = a.defect := by
  cases way with
  | nil => cases h
  | cons top below =>
      rcases below.eq_nil_or_concat with rfl | ⟨init, c, rfl⟩
      · obtain rfl := Option.some.inj h
        exact ⟨_, rfl, rfl, rfl⟩
      · have hc : a = c := by simpa [List.getLast?_cons] using h.symm
        refine ⟨renamed c, by simp [renamedWay, List.getLast?_cons], ?_⟩
        rw [hc]
        exact ⟨rfl, rfl⟩

end JsonPath

/-! ## The lines of a derived schema -/

section Derived

variable {types : Types} {v : Value} {s : Schema} {out : Outline} {top k : NodeId}
  {o : RenderOptions}

/-- The node is the top of one of the two trees. -/
def Schema.IsTop (s : Schema) (top : NodeId) : Prop := top = s.root ∨ top = s.typeRefs

theorem Schema.Linked.isTop_lt (hs : s.Linked) (htop : s.IsTop top) : top < s.nodes.size := by
  rcases htop with rfl | rfl
  · exact hs.root_lt
  · exact hs.typeRefs_lt

theorem Schema.Linked.parent?_isTop (hs : s.Linked) (htop : s.IsTop top) :
    s.parent? top = none := by
  rcases htop with rfl | rfl
  · exact hs.parent?_root
  · exact hs.parent?_typeRefs

theorem Schema.Renders.attrs_root (ho : s.Renders out) : s.attrs s.root = rootTop := by
  rw [← Schema.label_tree, ho.root_eq]
  rfl

theorem Schema.Renders.attrs_typeRefs (ho : s.Renders out) : s.attrs s.typeRefs = typeRefsTop := by
  rw [← Schema.label_tree, ho.typeRefs_eq]
  rfl

/-- What is known of a top of a derived schema. -/
theorem Schema.Renders.attrs_isTop (ho : s.Renders out) (htop : s.IsTop top) :
    (s.attrs top).isRoot = true ∧ (s.attrs top).isExcluded jsonDialect = false
      ∧ quoteSegment (JsonPath.topToken (s.attrs top).name) =
        JsonPath.topToken (s.attrs top).name := by
  rcases htop with rfl | rfl
  · rw [ho.attrs_root]
    exact ⟨rfl, rfl, rfl⟩
  · rw [ho.attrs_typeRefs]
    exact ⟨rfl, rfl, rfl⟩

theorem transGen_of_isTop (htop : s.IsTop top) (hk : TransGen s.Owns top k) :
    TransGen s.Owns s.root k ∨ TransGen s.Owns s.typeRefs k := by
  rcases htop with rfl | rfl
  · exact .inl hk
  · exact .inr hk

/-- The JSON line of a node is the simple line of its way under other names. -/
theorem json_line?_eq (hs : s.Linked) (ho : s.Renders out)
    (houtlines : Outlines types (.start v) out) (htop : s.IsTop top)
    (hk : ReflTransGen s.Owns top k) :
    JsonPath.line? s o k = Simple.wayLine? o (JsonPath.renamedWay (s.way k)) := by
  have hlt := hs.isTop_lt htop
  have hparent := hs.parent?_isTop htop
  obtain ⟨hroot, -, htoken⟩ := ho.attrs_isTop htop
  have hbelow : ∀ {j}, TransGen s.Owns top j → (s.attrs j).isRoot = false := fun hj =>
    isRoot_of_below_tops hs ho houtlines (transGen_of_isTop htop hj)
  have hlineage : s.lineage (·.isRoot) k = s.way k := by
    obtain ⟨ks, hks⟩ := Schema.exists_descends hk
    rw [Schema.way_of_descends hs hlt hparent hks]
    refine Schema.lineage_of_descends hs hlt hparent hks fun j hj hne => hbelow ?_
    exact (Relation.reflTransGen_iff_eq_or_transGen.mp (hks.reaches j hj).1).resolve_left hne
  obtain ⟨below, hway, hnodes⟩ := Schema.exists_of_mem_way hs hlt hparent hk
  have hpath : (JsonPath.path s o k).map quoteSegment =
      Simple.wayPath o (JsonPath.renamedWay (s.way k)) := by
    rw [JsonPath.path, hlineage, hway, JsonPath.renamedWay, Simple.wayPath, List.map_cons,
      if_pos hroot, List.map_cons, htoken, List.map_map, List.map_map]
    refine congrArg (_ :: ·) (List.map_congr_left fun a ha => ?_)
    obtain ⟨j, hj, rfl⟩ := hnodes a ha
    have hj' := transGen_of_isTop htop hj
    have hnotRoot := hbelow hj
    have hsegment := JsonPath.segment_eq o (consistent_of_below_tops hs ho houtlines hj')
      (lasts_of_below_tops lasts_namesNoType hs ho houtlines ?_ hj')
    · simp [hnotRoot, hsegment]
    · exact fun w _ l _ fields _ f _ => namesNoType_fieldAttributes f
  obtain ⟨b, hb, hbroot, hbdefect⟩ :=
    JsonPath.exists_getLast?_renamedWay (Schema.getLast?_way hs hlt hparent hk)
  rw [JsonPath.line?, hpath, Simple.wayLine?, hb, Option.bind_some, hbroot, hbdefect]

end Derived

/-! ## Whole renderings -/

/-- The nodes that a dialect of paths lists: those of the definitions, unless references are
resolved, and those of the value. -/
def Schema.listed (s : Schema) (o : RenderOptions) (shown : NodeId → List NodeId) : List NodeId :=
  (if o.dereference then [] else shown s.typeRefs) ++ shown s.root

theorem filter_ne_empty_of_ne {α : Type} {xs : List α} {f : α → Option String}
    (h : ∀ x ∈ xs, f x ≠ some "") : (xs.filterMap f).filter (· ≠ "") = xs.filterMap f := by
  refine List.filter_eq_self.mpr fun line hline => decide_eq_true ?_
  rintro rfl
  obtain ⟨x, hx, hfx⟩ := List.mem_filterMap.mp hline
  exact h x hx hfx

/-- The lines of a tree with nothing below its top are none, as the top has none. -/
theorem filterMap_eq_ite {s : Schema} {top : NodeId} {shown : List NodeId}
    {line? : NodeId → Option String} (hreach : ∀ k ∈ shown, ReflTransGen s.Owns top k)
    (hnone : line? top = none) (hne : ∀ k ∈ shown, line? k ≠ some "") :
    (if (s.children top).isEmpty then [] else (shown.filterMap line?).filter (· ≠ "")) =
      shown.filterMap line? := by
  split
  · rename_i hempty
    symm
    rw [List.filterMap_eq_nil_iff]
    intro k hk
    rcases Relation.ReflTransGen.cases_head (hreach k hk) with rfl | ⟨c, hc, -⟩
    · exact hnone
    · have hc : c ∈ s.children top := hc
      rw [List.isEmpty_iff.mp hempty] at hc
      exact absurd hc List.not_mem_nil
  · exact filter_ne_empty_of_ne hne

section Renderings

variable {types : Types} {v : Value} {s : Schema} {out : Outline} {top k : NodeId}
  {o : RenderOptions}

theorem reaches_of_mem_simple_shown (hs : s.Linked) (htop : s.IsTop top)
    (hk : k ∈ Simple.shown s o top) : ReflTransGen s.Owns top k := by
  obtain ⟨hhangs, hlabel⟩ := Schema.hangs_orderedSubtree hs (hs.isTop_lt htop)
    (hs.parent?_isTop htop) .refl
  have h := Schema.reaches_of_mem_shown _ hhangs hk
  rwa [hlabel] at h

/-- The JSON dialect lists the nodes of the simple one that have no excluded node on their way. -/
theorem json_shown_eq (hs : s.Linked) (ho : s.Renders out)
    (houtlines : Outlines types (.start v) out) (htop : s.IsTop top) : JsonPath.shown s o top =
      (Simple.shown s o top).filter fun k => (s.way k).all (!·.isExcluded jsonDialect) := by
  have hlt := hs.isTop_lt htop
  have hparent := hs.parent?_isTop htop
  rw [JsonPath.shown, Schema.shown_orderedSubtree_eq_filter hs hlt hparent]
  refine List.filter_congr fun k hk => ?_
  obtain ⟨below, hway, hnodes⟩ :=
    Schema.exists_of_mem_way hs hlt hparent (reaches_of_mem_simple_shown hs htop hk)
  obtain ⟨hroot, hexcluded, -⟩ := ho.attrs_isTop htop
  have hhidden : ∀ a ∈ s.way k, JsonPath.hidden a = a.isExcluded jsonDialect := by
    intro a ha
    rw [hway] at ha
    rcases List.mem_cons.mp ha with rfl | ha
    · rw [JsonPath.hidden, hroot, hexcluded]
      rfl
    · obtain ⟨j, hj, rfl⟩ := hnodes a ha
      rw [JsonPath.hidden, isRoot_of_below_tops hs ho houtlines (transGen_of_isTop htop hj)]
      rfl
  rw [Schema.clear, Bool.eq_iff_iff, List.all_eq_true, List.all_eq_true]
  exact forall₂_congr fun a ha => by rw [hhidden a ha]

/-- No line made of a way is empty. -/
theorem wayLine?_ne_empty {way : List Attributes} {t : Attributes} {below : List Attributes}
    (hway : way = t :: below) (ht : t.name ≠ "") : Simple.wayLine? o way ≠ some "" := by
  rw [hway, Simple.wayLine?]
  intro h
  obtain ⟨a, -, ha⟩ := Option.bind_eq_some_iff.mp h
  split at ha
  · cases ha
  · exact pathLine_cons_ne_empty ht _ _ (Option.some.inj ha)

theorem name_isTop_ne_empty (ho : s.Renders out) (htop : s.IsTop top) :
    (s.attrs top).name ≠ "" ∧ JsonPath.topToken (s.attrs top).name ≠ "" := by
  rcases htop with rfl | rfl
  · rw [ho.attrs_root]
    decide
  · rw [ho.attrs_typeRefs]
    decide

theorem simple_line?_ne_empty (hs : s.Linked) (ho : s.Renders out) (htop : s.IsTop top)
    (hk : ReflTransGen s.Owns top k) : Simple.line? s o k ≠ some "" := by
  obtain ⟨below, hway, -⟩ :=
    Schema.exists_of_mem_way hs (hs.isTop_lt htop) (hs.parent?_isTop htop) hk
  rw [Schema.simple_line?_eq hs (hs.isTop_lt htop) (hs.parent?_isTop htop) hk]
  exact wayLine?_ne_empty hway (name_isTop_ne_empty ho htop).1

theorem json_line?_ne_empty (hs : s.Linked) (ho : s.Renders out)
    (houtlines : Outlines types (.start v) out) (htop : s.IsTop top)
    (hk : ReflTransGen s.Owns top k) : JsonPath.line? s o k ≠ some "" := by
  obtain ⟨below, hway, -⟩ :=
    Schema.exists_of_mem_way hs (hs.isTop_lt htop) (hs.parent?_isTop htop) hk
  rw [json_line?_eq hs ho houtlines htop hk, hway]
  exact wayLine?_ne_empty rfl (name_isTop_ne_empty ho htop).2

/-- The lines of a schema in a dialect of paths, if no line is empty and the tops have none. -/
theorem lines_eq_filterMap {d : Dialect} {shown : NodeId → List NodeId}
    {line? : NodeId → Option String} (hd : ∀ url, Schema.headerLines d url = [])
    (helement : ∀ url id, s.elementLines d o url id =
      ((shown id).filterMap line?).filter (· ≠ ""))
    (hreach : ∀ top, s.IsTop top → ∀ k ∈ shown top, ReflTransGen s.Owns top k)
    (hnone : ∀ top, s.IsTop top → line? top = none)
    (hne : ∀ top, s.IsTop top → ∀ k, ReflTransGen s.Owns top k → line? k ≠ some "")
    (url : Option String) : s.lines d o url = (s.listed o shown).filterMap line? := by
  have htree : ∀ top, s.IsTop top → s.treeLines d o url top = (shown top).filterMap line? := by
    intro top htop
    rw [Schema.treeLines, helement]
    exact filterMap_eq_ite (hreach top htop) (hnone top htop)
      fun k hk => hne top htop k (hreach top htop k hk)
  have hlisted : ((if o.dereference then [] else s.treeLines d o url s.typeRefs)
      ++ s.treeLines d o url s.root) = (s.listed o shown).filterMap line? := by
    rw [htree _ (.inl rfl), htree _ (.inr rfl), Schema.listed, List.filterMap_append]
    split <;> rfl
  rw [Schema.lines, hd, List.nil_append, hlisted]
  refine filter_ne_empty_of_ne fun k hk => ?_
  rw [Schema.listed] at hk
  rcases List.mem_append.mp hk with hk | hk
  · split at hk
    · exact absurd hk List.not_mem_nil
    · exact hne _ (.inr rfl) k (hreach _ (.inr rfl) k hk)
  · exact hne _ (.inl rfl) k (hreach _ (.inl rfl) k hk)

theorem simple_lines_eq (hs : s.Linked) (ho : s.Renders out) (o : RenderOptions)
    (url : Option String) :
    s.lines .simple o url = (s.listed o (Simple.shown s o)).filterMap (Simple.line? s o) :=
  lines_eq_filterMap (fun _ => rfl) (fun _ _ => rfl)
    (fun _ htop _ => reaches_of_mem_simple_shown hs htop)
    (fun _ htop => if_pos (ho.attrs_isTop htop).1)
    (fun _ htop _ => simple_line?_ne_empty hs ho htop) url

theorem json_lines_eq (hs : s.Linked) (ho : s.Renders out)
    (houtlines : Outlines types (.start v) out) (o : RenderOptions) (url : Option String) :
    s.lines .json o url = (s.listed o (JsonPath.shown s o)).filterMap (JsonPath.line? s o) := by
  refine lines_eq_filterMap (fun _ => rfl) (fun _ _ => rfl) (fun top htop k hk => ?_)
    (fun _ htop => if_pos (ho.attrs_isTop htop).1)
    (fun _ htop _ => json_line?_ne_empty hs ho houtlines htop) url
  rw [json_shown_eq hs ho houtlines htop] at hk
  exact reaches_of_mem_simple_shown hs htop (List.mem_filter.mp hk).1

theorem exists_isTop_of_mem_listed (hs : s.Linked) (hk : k ∈ s.listed o (Simple.shown s o)) :
    ∃ top, s.IsTop top ∧ ReflTransGen s.Owns top k := by
  rw [Schema.listed] at hk
  rcases List.mem_append.mp hk with hk | hk
  · split at hk
    · exact absurd hk List.not_mem_nil
    · exact ⟨_, .inr rfl, reaches_of_mem_simple_shown hs (.inr rfl) hk⟩
  · exact ⟨_, .inl rfl, reaches_of_mem_simple_shown hs (.inl rfl) hk⟩

end Renderings

/-! ## Schemas without tags -/

namespace Simple

/-- The line of a way without the name of the top. -/
def wayTail? (o : RenderOptions) (way : List Attributes) : Option String :=
  way.getLast?.bind fun a =>
    if a.isRoot then none
    else some (pathTail (way.tail.map fun a => quoteSegment (segment o a)) a.defect)

theorem wayLine?_cons (o : RenderOptions) (top : Attributes) (below : List Attributes) :
    wayLine? o (top :: below) = (wayTail? o (top :: below)).map (top.name ++ ·) := by
  rw [wayLine?, wayTail?, Option.map_bind]
  refine congrArg _ (funext fun a => ?_)
  rw [Function.comp_apply, wayPath, pathLine_cons, List.tail_cons]
  split <;> rfl

end Simple

namespace JsonPath

/-- Where the tags say nothing the names are the same. -/
theorem renamed_of_isSilent {a : Attributes} (h : a.IsSilentIn jsonDialect) : renamed a = a := by
  rw [renamed, Attributes.nameIn_eq, h]
  rfl

theorem not_isExcluded_of_isSilent {a : Attributes} (h : a.IsSilentIn jsonDialect) :
    a.isExcluded jsonDialect = false := by
  rw [Attributes.isExcluded_eq, h]
  rfl

theorem wayTail?_renamedWay (o : RenderOptions) {top : Attributes} {below : List Attributes}
    (h : ∀ a ∈ below, a.IsSilentIn jsonDialect) :
    Simple.wayTail? o (renamedWay (top :: below)) = Simple.wayTail? o (top :: below) := by
  have hbelow : below.map renamed = below :=
    (List.map_congr_left fun a ha => renamed_of_isSilent (h a ha)).trans (List.map_id _)
  rw [renamedWay, hbelow]
  rcases below.eq_nil_or_concat with rfl | ⟨init, c, rfl⟩
  · rfl
  · simp [Simple.wayTail?, List.getLast?_cons]

end JsonPath

section Untagged

variable {types : Types} {v : Value} {s : Schema} {out : Outline} {top : NodeId}
  {o : RenderOptions}

/-- No member at the level has a tag for the dialect. -/
def Layer.IsUntagged (dialect : String) (l : Layer) : Prop :=
  ∀ fields, l.shape = .record fields → ∀ f ∈ fields, (Tag.parseAll f.tag).find? dialect = none

theorem tagsGive_of_isUntagged {dialect : String} {l : Layer} (h : l.IsUntagged dialect) :
    l.TagsGive (Attributes.IsSilentIn dialect) := by
  intro fields hfields f hf
  rw [Attributes.IsSilentIn, block_fieldAttributes, h fields hfields f hf]
  rfl

/-- What both dialects show of a tree without tags, after the name of the top. -/
theorem exists_tails (hs : s.Linked) (ho : s.Renders out)
    (houtlines : Outlines types (.start v) out)
    (hv : v.EveryLevel types (Layer.IsUntagged jsonDialect)) (htop : s.IsTop top) :
    ∃ tails : List String,
      (Simple.shown s o top).filterMap (Simple.line? s o) = tails.map ((s.attrs top).name ++ ·)
      ∧ (JsonPath.shown s o top).filterMap (JsonPath.line? s o) =
        tails.map (JsonPath.topToken (s.attrs top).name ++ ·) := by
  have hlt := hs.isTop_lt htop
  have hparent := hs.parent?_isTop htop
  have hsilent : ∀ {j}, TransGen s.Owns top j → (s.attrs j).IsSilentIn jsonDialect := fun hj =>
    lasts_of_below_tops (lasts_isSilentIn JsonPath.jsonDialect_ne_native) hs ho houtlines
      (fun w hw l hl => tagsGive_of_isUntagged (hv w hw l hl)) (transGen_of_isTop htop hj)
  have hway : ∀ k ∈ Simple.shown s o top, ∃ below, s.way k = s.attrs top :: below
      ∧ ∀ a ∈ below, a.IsSilentIn jsonDialect := by
    intro k hk
    obtain ⟨below, hway, hnodes⟩ :=
      Schema.exists_of_mem_way hs hlt hparent (reaches_of_mem_simple_shown hs htop hk)
    refine ⟨below, hway, fun a ha => ?_⟩
    obtain ⟨j, hj, rfl⟩ := hnodes a ha
    exact hsilent hj
  have hshown : JsonPath.shown s o top = Simple.shown s o top := by
    rw [json_shown_eq hs ho houtlines htop, List.filter_eq_self]
    intro k hk
    obtain ⟨below, hway, hbelow⟩ := hway k hk
    rw [hway, List.all_cons, (ho.attrs_isTop htop).2.1]
    exact List.all_eq_true.mpr fun a ha => by
      rw [JsonPath.not_isExcluded_of_isSilent (hbelow a ha)]
      rfl
  refine ⟨(Simple.shown s o top).filterMap fun k => Simple.wayTail? o (s.way k), ?_, ?_⟩
  · rw [List.map_filterMap]
    refine List.filterMap_congr fun k hk => ?_
    obtain ⟨below, hway, -⟩ := hway k hk
    rw [Schema.simple_line?_eq hs hlt hparent (reaches_of_mem_simple_shown hs htop hk), hway,
      Simple.wayLine?_cons]
  · rw [hshown, List.map_filterMap]
    refine List.filterMap_congr fun k hk => ?_
    obtain ⟨below, hway, hbelow⟩ := hway k hk
    rw [json_line?_eq hs ho houtlines htop (reaches_of_mem_simple_shown hs htop hk), hway,
      ← JsonPath.wayTail?_renamedWay o hbelow, JsonPath.renamedWay, Simple.wayLine?_cons]

end Untagged

/-! ## The main result -/

/-- In both modes the JSON dialect lists the nodes that the simple dialect
lists and that have no excluded node at or above them, in the same order.
The line of a node is in both dialects that of the way to it; in the JSON
dialect it has the token of the top for the name of the top, and the names
of the dialect for the names below. If no member that is met has a tag for
the dialect, the lines differ in the name of the top alone. -/
theorem json_lines_of_derive? {e : Engine} {types : Types} {v : Value} {s : Schema}
    (hs : (e.derive? types v).1 = some s) (o : RenderOptions) (url : Option String) :
    s.listed o (JsonPath.shown s o) = (s.listed o (Simple.shown s o)).filter
        (fun k => (s.way k).all (!·.isExcluded jsonDialect))
      ∧ s.lines .simple o url =
        (s.listed o (Simple.shown s o)).filterMap (Simple.line? s o)
      ∧ s.lines .json o url =
        (s.listed o (JsonPath.shown s o)).filterMap (JsonPath.line? s o)
      ∧ (∀ k ∈ s.listed o (Simple.shown s o),
        Simple.line? s o k = Simple.wayLine? o (s.way k)
          ∧ JsonPath.line? s o k = Simple.wayLine? o (JsonPath.renamedWay (s.way k)))
      ∧ (v.EveryLevel types (Layer.IsUntagged jsonDialect) → ∃ definitions members : List String,
        s.lines .simple o url = definitions.map ("TypeRefs" ++ ·) ++ members.map ("Root" ++ ·)
          ∧ s.lines .json o url =
            definitions.map ("definitions" ++ ·) ++ members.map ("$" ++ ·)) := by
  have hs : derive? types v = some s := hs
  have hlinked := linked_of_derive? hs
  obtain ⟨out, houtlines, ho⟩ := exists_outlines_of_derive? hs
  have hsimple := simple_lines_eq hlinked ho o url
  have hjson := json_lines_eq hlinked ho houtlines o url
  refine ⟨?_, hsimple, hjson, fun k hk => ?_, fun hv => ?_⟩
  · rw [Schema.listed, Schema.listed, List.filter_append,
      json_shown_eq hlinked ho houtlines (.inl rfl), json_shown_eq hlinked ho houtlines (.inr rfl)]
    split <;> rfl
  · obtain ⟨top, htop, hk⟩ := exists_isTop_of_mem_listed hlinked hk
    exact ⟨Schema.simple_line?_eq hlinked (hlinked.isTop_lt htop) (hlinked.parent?_isTop htop) hk,
      json_line?_eq hlinked ho houtlines htop hk⟩
  · obtain ⟨members, hmembers, hmembers'⟩ :=
      exists_tails (o := o) hlinked ho houtlines hv (.inl rfl)
    obtain ⟨definitions, hdefinitions, hdefinitions'⟩ :=
      exists_tails (o := o) hlinked ho houtlines hv (.inr rfl)
    rw [ho.attrs_root] at hmembers hmembers'
    rw [ho.attrs_typeRefs] at hdefinitions hdefinitions'
    refine ⟨if o.dereference then [] else definitions, members, ?_, ?_⟩
    · rw [hsimple, Schema.listed, List.filterMap_append, hmembers]
      refine congrArg (· ++ _) ?_
      split
      · rfl
      · exact hdefinitions
    · rw [hjson, Schema.listed, List.filterMap_append, hmembers']
      refine congrArg (· ++ _) ?_
      split
      · rfl
      · exact hdefinitions'

/-- A record with a member under another name in the JSON dialect and one that it leaves out. -/
def account : Value := .ofShape (.record
  [{ name := "Id", tag := "json:\"id\"", value := .ofShape (.scalar .i64) },
    { name := "Secret", tag := "json:\"-\"", value := .ofShape (.scalar .string) }])

theorem isUntagged_chain : chain.EveryLevel chainTypes (Layer.IsUntagged jsonDialect) := by
  intro w hw l hl fields hfields f hf
  rcases mem_of_unfolds_chain hw with rfl | rfl
  · cases hl
    cases hfields
    rw [List.mem_singleton.mp hf]
    decide +kernel
  · cases hl
    cases hfields

theorem json_lines_of_derive?_account :
    (∃ s, (({} : Engine).derive? {} account).1 = some s
        ∧ (s.way 3).map (·.name) = ["Root", "", "Secret"]
        ∧ 3 ∉ s.listed {} (JsonPath.shown s {}))
      ∧ chain.EveryLevel chainTypes (Layer.IsUntagged jsonDialect)
      ∧ ∃ (s : Schema) (definitions members : List String),
        (({} : Engine).derive? chainTypes chain).1 = some s
        ∧ s.lines .json {} none =
          definitions.map ("definitions" ++ ·) ++ members.map ("$" ++ ·) := by
  refine ⟨?_, isUntagged_chain, ?_⟩
  · have hway : (derive? {} account).map (fun s => ((s.way 3).map (·.name),
        (s.way 3).all (!·.isExcluded jsonDialect))) =
          some (["Root", "", "Secret"], false) := by
      decide +kernel
    obtain ⟨s, hs, hnodes⟩ := Option.map_eq_some_iff.mp hway
    obtain ⟨hnames, hclear⟩ := Prod.mk.inj hnodes
    refine ⟨s, hs, hnames, fun hmem => ?_⟩
    rw [(json_lines_of_derive? (e := {}) hs {} none).1] at hmem
    exact absurd (List.mem_filter.mp hmem).2 (by rw [hclear]; decide)
  · have hsome : (derive? chainTypes chain).isSome = true := by decide +kernel
    obtain ⟨s, hs⟩ := Option.isSome_iff_exists.mp hsome
    obtain ⟨definitions, members, -, hlines⟩ :=
      (json_lines_of_derive? (e := {}) hs {} none).2.2.2.2 isUntagged_chain
    exact ⟨s, definitions, members, hs, hlines⟩

end TypeOutline
