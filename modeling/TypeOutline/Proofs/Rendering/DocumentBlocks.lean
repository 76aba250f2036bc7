import TypeOutline.Proofs.Derivation.DocumentNodes
import TypeOutline.Proofs.Rendering.Nesting

/-!
# The blocks of documents

Nothing of a document refers to a type or overrides what a node shows. So
every node opens with its name, if it has one, its type and its defect,
and the blocks of its children follow (`blockAt_document`). All of them
stand in the block of the value (`exists_block_eq`), and no line of a block
stands to the left of its start (`le_indent_of_mem_blockAt`).

Under the line for the properties of an object there is therefore a block
for each entry, with the capitalized key for its first line
(`showsMembers_of_object`). Two things are not so. An object that is the
value of a repeated key has that line, but no members; and an entry with
the empty key has no line for its name, so that its type stands first
under the line for the properties (`blockAt_of_emptyKey`).
-/

namespace TypeOutline.OpenApi

open Relation (ReflTransGen TransGen)

/-! ## Nodes of documents -/

/-- The indent of what stands in the node. -/
def innerIndent (a : Attributes) (n : UInt64) : UInt64 :=
  n + nameStep a.name + (typeLines a).2

/-- The lines of the node itself: its name, its type and its defect. -/
def plainOpening (a : Attributes) (n : UInt64) : List Line :=
  nameLines a.name n ++ (typeLines a).1.map (⟨n + nameStep a.name, ·⟩)
    ++ defectLines a.defect (innerIndent a n)

/-- The block of a plain node of which the dialect says nothing of its own. -/
theorem treeBlock_of_plain {a : Attributes} (hplain : a.IsPlain)
    (hsilent : a.IsSilentIn jsonDialect) (o : RenderOptions) (url : Option String) (n : UInt64)
    (ts : List (Rose Attributes)) : treeBlock o url n (.node a ts) =
      plainOpening a n ++ treeBlocks o url (innerIndent a n) ts := by
  have hvisible : hidden a = false := by
    rw [hidden, JsonPath.not_isExcluded_of_isSilent hsilent, Bool.and_false]
  have hexpands : Schema.expands o a = true := by
    rw [Schema.expands, hplain.isReference_eq, Bool.not_false, Bool.or_true]
  have hname : (a.view jsonDialect).name = a.name := by
    rw [Attributes.view_name, hsilent]
    rfl
  have href : shownRef o a (a.view jsonDialect).typeRef = "" := by
    rw [Attributes.view_typeRef, hsilent, hplain.typeRef_eq]
    exact ite_self _
  rw [treeBlock_node hplain.isRoot_eq, if_neg (by rw [hvisible]; exact Bool.false_ne_true),
    if_pos hexpands, openNode_eq, bodyLines, if_pos href, hname]
  rfl

section Nodes

variable {types : Types} {j : Json} {s : Schema} {out : Outline} {k : NodeId}
  {o : RenderOptions} {url : Option String} (hs : s.Linked) (ho : s.Renders out)
  (houtlines : Outlines types (.start j.toValue) out) (hk : TransGen s.Owns s.root k)

include hs ho houtlines hk

/-- The node is plain, and the dialect has nothing of its own to say about it. -/
theorem plain_of_document : (s.attrs k).IsPlain ∧ (s.attrs k).IsSilentIn jsonDialect := by
  constructor
  · rw [← Schema.label_tree]
    exact (Json.isOfDocument_of_outlines houtlines).plain _
      (Rose.label_mem_of_mem_subtrees (tree_mem_of_below_root hs ho hk))
  · refine lasts_of_below_tops (lasts_isSilentIn JsonPath.jsonDialect_ne_native) hs ho houtlines ?_
      (.inl hk)
    intro w hw l hl fields hfields
    exact absurd hfields ((Json.everyLevel_toValue j w hw l hl).isNoRecord fields)

/-- The block of a node: its own lines, and the blocks of its children. -/
theorem blockAt_document (n : UInt64) : blockAt s o url k n = plainOpening (s.attrs k) n
      ++ (s.sortedChildren k).flatMap fun c => blockAt s o url c (innerIndent (s.attrs k) n) := by
  obtain ⟨r, hr⟩ := hs.exists_subtree?_of_below (.inl hk)
  obtain ⟨hplain, hsilent⟩ := plain_of_document hs ho houtlines hk
  rw [blockAt_eq, Schema.ordered_tree_eq_node hr, treeBlock_of_plain hplain hsilent,
    treeBlocks_eq_flatMap, List.flatMap_map]
  simp only [← blockAt_eq]

end Nodes

/-! ## Indents that do not wrap around -/

/-- All lines can be made. -/
def Fits (ls : List Line) : Prop := ∀ l ∈ ls, l.indent.toNat < 0x4000000000000000

theorem fits_iff {ls : List Line} : Fits ls ↔ ls.any (·.tooWide) = false := by
  rw [List.any_eq_false, Fits]
  exact forall₂_congr fun l _ => tooWide_eq_false_iff.symm.trans (Bool.not_eq_true _).symm.to_iff

section Fitting

variable {types : Types} {j : Json} {s : Schema} {out : Outline} {k : NodeId}
  {o : RenderOptions} {url : Option String} {n : UInt64} (hs : s.Linked) (ho : s.Renders out)
  (houtlines : Outlines types (.start j.toValue) out) (hk : TransGen s.Owns s.root k)
  (hfits : Fits (blockAt s o url k n))

include hs ho houtlines hk hfits

/-- No line of a block stands to the left of its start. -/
theorem le_indent_of_mem_blockAt : ∀ l ∈ blockAt s o url k n, n ≤ l.indent := by
  have hrests := @rests_blockAt _ _ _ _ _ o url hs ho houtlines (.inl hk)
  have hshift := @blockAt_eq_shift _ _ _ _ _ o url hs ho houtlines (.inl hk) n
  intro l hl
  rw [hshift] at hl hfits
  obtain ⟨l', hl', rfl⟩ := List.mem_map.mp hl
  have hlt := indent_lt_of_not_tooWide hrests
    (fun _ hm => tooWide_eq_false_iff.mpr (hfits _ (List.mem_map_of_mem hm))) hl'
  rw [Line.shift, UInt64.le_iff_toNat_le, UInt64.toNat_add]
  omega

/-- What stands in a node stands further to the right by the steps of its name and its type. -/
theorem toNat_innerIndent : (n + nameStep (s.attrs k).name).toNat =
      n.toNat + (nameStep (s.attrs k).name).toNat
    ∧ (innerIndent (s.attrs k) n).toNat =
      (n + nameStep (s.attrs k).name).toNat + (typeLines (s.attrs k)).2.toNat := by
  obtain ⟨content, hcontent⟩ := exists_mem_typeLines (s.attrs k)
  have hmem : ⟨n + nameStep (s.attrs k).name, content⟩ ∈ blockAt s o url k n := by
    rw [blockAt_document hs ho houtlines hk, plainOpening]
    simp [hcontent]
  have hlt := hfits _ hmem
  have hle := le_indent_of_mem_blockAt hs ho houtlines hk hfits _ hmem
  rw [UInt64.le_iff_toNat_le] at hle
  have hname : (nameStep (s.attrs k).name).toNat ≤ 1 := toNat_nameStep_le _
  have htype : (typeLines (s.attrs k)).2.toNat ≤ 1 := by
    rcases typeLines_step (s.attrs k) with h | h <;> rw [h] <;> decide
  have hstep : (n + nameStep (s.attrs k).name).toNat =
      n.toNat + (nameStep (s.attrs k).name).toNat := by
    rw [UInt64.toNat_add] at hlt hle ⊢
    omega
  refine ⟨hstep, ?_⟩
  rw [innerIndent, UInt64.toNat_add]
  omega

/-- Whatever stands in a node stands to the right of what is at the indent of its type. -/
theorem le_indent_of_mem_children : ∀ c ∈ s.sortedChildren k,
    Fits (blockAt s o url c (innerIndent (s.attrs k) n))
      ∧ ∀ l ∈ blockAt s o url c (innerIndent (s.attrs k) n),
        innerIndent (s.attrs k) n ≤ l.indent := by
  intro c hc
  have hcfits : Fits (blockAt s o url c (innerIndent (s.attrs k) n)) := by
    intro l hl
    refine hfits l ?_
    rw [blockAt_document hs ho houtlines hk]
    exact List.mem_append_right _ (List.mem_flatMap.mpr ⟨c, hc, hl⟩)
  have hck := hk.tail (List.mem_mergeSort.mp hc)
  exact ⟨hcfits, le_indent_of_mem_blockAt hs ho houtlines hck hcfits⟩

end Fitting

/-! ## Blocks in blocks -/

section Places

variable {types : Types} {j : Json} {s : Schema} {out : Outline} {k : NodeId}
  {o : RenderOptions} {url : Option String} (hs : s.Linked) (ho : s.Renders out)
  (houtlines : Outlines types (.start j.toValue) out)

include hs ho in
/-- The block of the value: its section, and the block of its one node. -/
theorem exists_blockOf_root : ∃ c, s.children s.root = [c]
    ∧ blockOf s o url s.root = (openSection url rootName o.indent).1
      ++ blockAt s o url c (openSection url rootName o.indent).2 := by
  obtain ⟨c, hc, -⟩ := ho.exists_children_root hs
  obtain ⟨r, -, hr, -⟩ := hs.exists_trees
  have hsorted : s.sortedChildren s.root = [c] := by
    rw [Schema.sortedChildren, hc, List.mergeSort_singleton]
  have hexpands : Schema.expands o rootTop = true := Bool.or_true _
  have hvisible : hidden rootTop = false := rfl
  have htop : rootTop.isRoot = true := rfl
  refine ⟨c, hc, ?_⟩
  rw [blockOf_eq_treeBlock, Schema.ordered_tree_eq_node hr, ho.attrs_root, hsorted, treeBlock]
  simp only [hvisible, htop, hexpands, Bool.false_eq_true, if_true, if_false, List.map_singleton,
    treeBlocks_eq_flatMap, List.flatMap_singleton, ← blockAt_eq]
  rfl

include hs ho houtlines

/-- The block of every node stands in the block of the value, and what follows it does not stand
under it. -/
theorem exists_block_eq (hk : TransGen s.Owns s.root k) (hfits : Fits (blockOf s o url s.root)) :
    ∃ before n after, blockOf s o url s.root = before ++ blockAt s o url k n ++ after
      ∧ ∀ l, after.head? = some l → l.indent ≤ n := by
  obtain ⟨c, hc, hroot⟩ := @exists_blockOf_root s out o url hs ho
  induction hk with
  | @single k hk =>
      rw [Schema.Owns, hc, List.mem_singleton] at hk
      subst hk
      refine ⟨(openSection url rootName o.indent).1, (openSection url rootName o.indent).2, [], ?_,
        fun l hl => absurd hl (Option.some_ne_none l).symm⟩
      rw [hroot, List.append_nil]
  | @tail k c hk hkc ih =>
      obtain ⟨before, n, after, hblock, hafter⟩ := ih
      have hkfits : Fits (blockAt s o url k n) := fun l hl => hfits l (by rw [hblock]; simp [hl])
      obtain ⟨hname, htype⟩ := toNat_innerIndent hs ho houtlines hk hkfits
      have hmem : c ∈ s.sortedChildren k := List.mem_mergeSort.mpr hkc
      obtain ⟨left, right, hsplit⟩ := List.append_of_mem hmem
      have hdocument := @blockAt_document _ _ _ _ _ o url hs ho houtlines hk n
      rw [hsplit, List.flatMap_append, List.flatMap_cons] at hdocument
      refine ⟨before ++ (plainOpening (s.attrs k) n
          ++ left.flatMap fun c => blockAt s o url c (innerIndent (s.attrs k) n)),
        innerIndent (s.attrs k) n,
        (right.flatMap fun c => blockAt s o url c (innerIndent (s.attrs k) n)) ++ after, ?_,
        fun l hl => ?_⟩
      · rw [hblock, hdocument]
        simp only [← List.append_assoc]
      · rw [List.head?_append, Option.or_eq_some_iff] at hl
        rcases hl with hl | ⟨-, hl⟩
        · -- the next sibling starts at the same indent
          rw [List.head?_flatMap] at hl
          obtain ⟨c', hc', hl⟩ := List.exists_of_findSome?_eq_some hl
          have howns : s.Owns k c' := List.mem_mergeSort.mp (by
            rw [← Schema.sortedChildren, hsplit]
            simp [hc'])
          exact UInt64.le_of_eq
            (indent_head?_blockAt hs ho houtlines (.inl (hk.tail howns)) hl)
        · have hle := hafter l hl
          rw [UInt64.le_iff_toNat_le] at hle ⊢
          omega

end Places

/-! ## Members -/

/-- The type of a document as the dialect shows it. -/
def typeName : Json → String
  | .null => "invalid"
  | .bool _ => "boolean"
  | .number _ => "number"
  | .string _ => "string"
  | .array _ => "array"
  | .object _ => "object"

/-- The block has a line for the name and then one for the type, a step further, and no other line
stands to the left of that. -/
def IsMemberBlock (n : UInt64) (name type : String) (block : List Line) : Prop :=
  ∃ rest, block = ⟨n, name ++ ":"⟩ :: ⟨n + 1, "type: " ++ type⟩ :: rest
    ∧ ∀ l ∈ rest, n + 1 ≤ l.indent

/-- The block has a line for the capitalized key, unless that is empty, then one for the type, a
step further if there is the other, and no other line stands to the left of that. -/
def IsEntryBlock (n : UInt64) (m : String × Json) (block : List Line) : Prop :=
  ∃ rest, block = nameLines (Text.capitalize m.1) n
      ++ ⟨n + nameStep (Text.capitalize m.1), "type: " ++ typeName m.2⟩ :: rest
    ∧ ∀ l ∈ rest, n + nameStep (Text.capitalize m.1) ≤ l.indent

theorem IsEntryBlock.isMemberBlock {n : UInt64} {m : String × Json} {block : List Line}
    (h : IsEntryBlock n m block) (hm : m.1 ≠ "") :
    IsMemberBlock n (Text.capitalize m.1) (typeName m.2) block := by
  obtain ⟨rest, hblock, hrest⟩ := h
  have hname := Text.capitalize_ne_empty hm
  rw [nameLines, nameStep, if_neg hname, if_neg hname] at hblock
  rw [nameStep, if_neg hname] at hrest
  exact ⟨rest, hblock, hrest⟩

/-- Entries with the empty key come first. -/
theorem exists_eq_cons_of_emptyKey {order : List (String × Json)}
    (h : Json.InKeyOrder order) {i : Json} (hm : ("", i) ∈ order) :
    ∃ i' rest, order = ("", i') :: rest := by
  cases order with
  | nil => exact absurd hm List.not_mem_nil
  | cons m rest =>
      obtain ⟨key, i'⟩ := m
      by_cases hkey : key = ""
      · exact ⟨i', rest, by rw [hkey]⟩
      · have hrest : ("", i) ∈ rest :=
          (List.mem_cons.mp hm).resolve_left fun heq => hkey (congrArg Prod.fst heq).symm
        have hle := (List.pairwise_cons.mp h).1 _ hrest
        rw [Text.capitalize_empty] at hle
        rcases hle with hlt | ⟨heq, -⟩
        · exact absurd (String.lt_iff.mp hlt) (List.not_lt_nil _)
        · exact absurd heq (Text.capitalize_ne_empty hkey)

/-- After the line of the defect, if there is one, the lines are the blocks of the entries, in the
order of their capitalized keys. -/
def AreMembers (defect : Option Defect) (ms : List (String × Json)) (named : String → Prop)
    (n : UInt64) (ls : List Line) : Prop :=
  ∃ (order : List (String × Json)) (blocks : List (List Line)),
    order.Perm ms ∧ Json.InKeyOrder order ∧ ls = defectLines defect n ++ blocks.flatten
      ∧ List.Forall₂ (fun m block => named m.1 →
        IsMemberBlock n (Text.capitalize m.1) (typeName m.2) block) order blocks

/-- In the block of the value the node of an object has a line for its properties, and what stands
under that line are the members. -/
def ShowsMembers (s : Schema) (o : RenderOptions) (url : Option String) (k : NodeId)
    (ms : List (String × Json)) (named : String → Prop) : Prop :=
  ∃ before start after n under, blockOf s o url s.root = before ++ blockAt s o url k start ++ after
    ∧ blockAt s o url k start = nameLines (s.attrs k).name start
      ++ ⟨n, "type: object"⟩ :: ⟨n, "properties:"⟩ :: under
    ∧ (under ++ after).takeWhile (n < ·.indent) = under
    ∧ AreMembers (s.attrs k).defect ms named (n + 1) under

theorem takeWhile_append_of_forall {α : Type} {f : α → Bool} {xs ys : List α}
    (hxs : ∀ x ∈ xs, f x = true) (hys : ∀ y, ys.head? = some y → f y = false) :
    (xs ++ ys).takeWhile f = xs := by
  have hend : ys.takeWhile f = [] := by
    cases ys with
    | nil => rfl
    | cons y ys => exact List.takeWhile_cons_of_neg (Bool.eq_false_iff.mp (hys y rfl))
  rw [List.takeWhile_append_of_pos hxs, hend, List.append_nil]

section Members

variable {types : Types} {j : Json} {s : Schema} {out : Outline} {k c : NodeId}
  {o : RenderOptions} {url : Option String} {m : String × Json} {n : UInt64} (hs : s.Linked)
  (ho : s.Renders out) (houtlines : Outlines types (.start j.toValue) out)

/-- The first of the lines for the type of an entry. -/
theorem exists_typeLines_eq {a : Attributes} (h : a.IsOfEntry m) :
    ∃ more, (typeLines a).1 = ("type: " ++ typeName m.2) :: more := by
  obtain ⟨key, i⟩ := m
  have hgeneric := h.generic_eq
  unfold typeLines
  cases i with
  | null =>
      have hlabel : a.typeLabel = "invalid" := by
        rw [Attributes.typeLabel, hgeneric, h.invalidKind_eq rfl]
        rfl
      rw [hgeneric, hlabel]
      exact ⟨_, rfl⟩
  | _ =>
      rw [hgeneric]
      exact ⟨_, rfl⟩

include hs ho houtlines

/-- The block of a node opens with the name of the entry and its type. -/
theorem exists_blockAt_entry (hc : TransGen s.Owns s.root c) (hentry : (s.attrs c).IsOfEntry m)
    (n : UInt64) : ∃ more : List String, blockAt s o url c n = nameLines (Text.capitalize m.1) n
      ++ ⟨n + nameStep (Text.capitalize m.1), "type: " ++ typeName m.2⟩
        :: (more.map (Line.mk (n + nameStep (Text.capitalize m.1)))
          ++ defectLines (s.attrs c).defect (innerIndent (s.attrs c) n)
          ++ (s.sortedChildren c).flatMap fun c' =>
            blockAt s o url c' (innerIndent (s.attrs c) n)) := by
  obtain ⟨more, hmore⟩ := exists_typeLines_eq hentry
  refine ⟨more, ?_⟩
  rw [blockAt_document hs ho houtlines hc, plainOpening, hmore, List.map_cons, hentry.name_eq]
  simp only [List.append_assoc, List.cons_append]

/-- An entry has a block with its capitalized key and its type. -/
theorem isEntryBlock_blockAt (hc : TransGen s.Owns s.root c) (hentry : (s.attrs c).IsOfEntry m)
    (hfits : Fits (blockAt s o url c n)) : IsEntryBlock n m (blockAt s o url c n) := by
  obtain ⟨more, hblock⟩ := @exists_blockAt_entry _ _ _ _ _ o url m hs ho houtlines hc hentry n
  obtain ⟨-, hinner⟩ := toNat_innerIndent hs ho houtlines hc hfits
  have hle : n + nameStep (Text.capitalize m.1) ≤ innerIndent (s.attrs c) n := by
    rw [← hentry.name_eq, UInt64.le_iff_toNat_le, hinner]
    exact Nat.le_add_right ..
  refine ⟨_, hblock, fun l hl => ?_⟩
  rw [List.mem_append, List.mem_append] at hl
  rcases hl with (hl | hl) | hl
  · obtain ⟨content, -, rfl⟩ := List.mem_map.mp hl
    exact UInt64.le_refl _
  · obtain ⟨d, rfl⟩ := mem_defectLines hl
    exact hle
  · obtain ⟨c', hc', hl⟩ := List.mem_flatMap.mp hl
    exact UInt64.le_trans hle
      ((le_indent_of_mem_children hs ho houtlines hc hfits c' hc').2 l hl)

/-- The node of an object is shown as one. -/
theorem typeLines_of_object {p : Site} {ms : List (String × Json)}
    (h : s.StandsFor types j.toValue k p) (hp : p.value = (Json.object ms).toValue) :
    typeLines (s.attrs k) = (["type: object", "properties:"], 1) := by
  obtain ⟨-, o', hout, htree⟩ := h.exists_outlines hs ho houtlines
  have hgeneric : (s.attrs k).generic = .struct := by
    rw [← Schema.label_tree, htree, Json.generic_of_toValue hp hout]
    rfl
  rw [typeLines, hgeneric]

theorem blockAt_object {p : Site} {ms : List (String × Json)}
    (h : s.StandsFor types j.toValue k p) (hp : p.value = (Json.object ms).toValue) (n : UInt64) :
    blockAt s o url k n = nameLines (s.attrs k).name n
      ++ ⟨n + nameStep (s.attrs k).name, "type: object"⟩
        :: ⟨n + nameStep (s.attrs k).name, "properties:"⟩
        :: (defectLines (s.attrs k).defect (n + nameStep (s.attrs k).name + 1)
          ++ (s.sortedChildren k).flatMap fun c =>
            blockAt s o url c (n + nameStep (s.attrs k).name + 1)) := by
  have hk := (h.exists_outlines hs ho houtlines).1
  rw [blockAt_document hs ho houtlines hk, plainOpening, innerIndent,
    typeLines_of_object hs ho houtlines h hp]
  simp

theorem showsMembers_of_object {p : Site} {ms : List (String × Json)}
    (hfits : Fits (blockOf s o url s.root)) (h : s.StandsFor types j.toValue k p)
    (hp : p.value = (Json.object ms).toValue)
    (hdefect : (s.attrs k).defect ≠ some .duplicateMapKey) :
    ShowsMembers s o url k ms (· ≠ "") := by
  have hk := (h.exists_outlines hs ho houtlines).1
  obtain ⟨before, start, after, hblock, hafter⟩ := exists_block_eq hs ho houtlines hk hfits
  have hkfits : Fits (blockAt s o url k start) := fun l hl => hfits l (by rw [hblock]; simp [hl])
  have hobject := @blockAt_object _ _ _ _ _ o url hs ho houtlines _ _ h hp start
  obtain ⟨hname, hstep⟩ := toNat_innerIndent hs ho houtlines hk hkfits
  have hchildren := le_indent_of_mem_children hs ho houtlines hk hkfits
  rw [innerIndent, typeLines_of_object hs ho houtlines h hp] at hstep hchildren
  generalize start + nameStep (s.attrs k).name = n at hname hstep hobject hchildren
  replace hstep : (n + 1).toNat = n.toNat + 1 := hstep
  have hnone : p.attrs.defect = none :=
    h.isPart.2.resolve_right (mt (h.defect_eq_iff hs ho houtlines hp).mpr hdefect)
  obtain ⟨order, hperm, horder, hentries⟩ := h.exists_order hs ho houtlines hp hnone
  refine ⟨before, start, after, n, _, hblock, hobject, ?_, order,
    (s.sortedChildren k).map fun c => blockAt s o url c (n + 1), hperm, horder,
    by rw [List.flatMap_def], ?_⟩
  · refine takeWhile_append_of_forall (fun l hl => ?_) fun l hl => ?_
    · rw [decide_eq_true_eq, UInt64.lt_iff_toNat_lt, ← Nat.succ_le_iff, Nat.succ_eq_add_one,
        ← hstep]
      rcases List.mem_append.mp hl with hl | hl
      · obtain ⟨d, rfl⟩ := mem_defectLines hl
        exact Nat.le_refl _
      · obtain ⟨c, hc, hl⟩ := List.mem_flatMap.mp hl
        exact UInt64.le_iff_toNat_le.mp ((hchildren c hc).2 l hl)
    · have hle := UInt64.le_iff_toNat_le.mp (hafter l hl)
      rw [decide_eq_false_iff_not, UInt64.lt_iff_toNat_lt]
      omega
  · refine List.forall₂_map_right_iff.mpr (List.Forall₂.flip (forall₂_of_mem hentries ?_))
    intro c hc m hentry hm
    exact (isEntryBlock_blockAt hs ho houtlines (hk.tail (List.mem_mergeSort.mp hc)) hentry
      (hchildren c hc).1).isMemberBlock hm

/-- The type of an entry with the empty key stands right under the line for the properties, or under
the defect of the object if it has one, and it stands where the names of the other entries do. -/
theorem blockAt_of_emptyKey {p : Site} {ms : List (String × Json)}
    (h : s.StandsFor types j.toValue k p) (hp : p.value = (Json.object ms).toValue)
    (hdefect : (s.attrs k).defect ≠ some .duplicateMapKey) {i : Json} (hm : ("", i) ∈ ms)
    (n : UInt64) : ∃ (i' : Json) (rest : List Line), ("", i') ∈ ms
      ∧ blockAt s o url k n = nameLines (s.attrs k).name n
        ++ ⟨n + nameStep (s.attrs k).name, "type: object"⟩
          :: ⟨n + nameStep (s.attrs k).name, "properties:"⟩
          :: (defectLines (s.attrs k).defect (n + nameStep (s.attrs k).name + 1)
            ++ ⟨n + nameStep (s.attrs k).name + 1, "type: " ++ typeName i'⟩ :: rest) := by
  have hk := (h.exists_outlines hs ho houtlines).1
  have hnone : p.attrs.defect = none :=
    h.isPart.2.resolve_right (mt (h.defect_eq_iff hs ho houtlines hp).mpr hdefect)
  obtain ⟨order, hperm, horder, hentries⟩ := h.exists_order hs ho houtlines hp hnone
  obtain ⟨i', order, rfl⟩ := exists_eq_cons_of_emptyKey horder (hperm.mem_iff.mpr hm)
  have hsorted : ∀ c ∈ s.sortedChildren k, s.Owns k c := fun c hc => List.mem_mergeSort.mp hc
  have hobject := @blockAt_object _ _ _ _ _ o url hs ho houtlines _ _ h hp n
  generalize s.sortedChildren k = cs at hentries hsorted hobject
  obtain _ | ⟨hentry, -⟩ := hentries
  obtain ⟨more, hblock⟩ := @exists_blockAt_entry _ _ _ _ _ o url _ hs ho houtlines
    (hk.tail (hsorted _ List.mem_cons_self)) hentry (n + nameStep (s.attrs k).name + 1)
  have hlines : ∀ m, nameLines "" m = [] := fun m => if_pos rfl
  have hstep : nameStep "" = 0 := if_pos rfl
  simp only [Text.capitalize_empty, hlines, hstep, UInt64.add_zero, List.nil_append] at hblock
  rw [List.flatMap_cons, hblock] at hobject
  exact ⟨i', _, hperm.mem_iff.mp List.mem_cons_self, hobject⟩

end Members

/-! ## The lines of a document -/

section Contents

variable {o : RenderOptions} {url : Option String}

mutual

/-- Every line of a block opens a node. -/
theorem exists_opened_of_mem {l : Line} (n : UInt64) : (t : Rose Attributes) →
    l ∈ treeBlock o url n t → ∃ a ∈ t.preorder, ∃ m, l ∈ (Renderer.opened o url a m).1
  | .node a ts, hl => by
      rw [treeBlock] at hl
      split at hl
      · exact absurd hl List.not_mem_nil
      · rcases List.mem_append.mp hl with hl | hl
        · exact ⟨a, List.mem_cons_self, n, hl⟩
        · split at hl
          · obtain ⟨b, hb, hm⟩ := exists_opened_of_mem_all _ ts hl
            exact ⟨b, List.mem_cons_of_mem a hb, hm⟩
          · exact absurd hl List.not_mem_nil

theorem exists_opened_of_mem_all {l : Line} (n : UInt64) : (ts : List (Rose Attributes)) →
    l ∈ treeBlocks o url n ts → ∃ a ∈ Rose.preorderAll ts, ∃ m, l ∈ (Renderer.opened o url a m).1
  | [], hl => absurd hl List.not_mem_nil
  | t :: ts, hl => by
      rcases List.mem_append.mp hl with hl | hl
      · obtain ⟨a, ha, hm⟩ := exists_opened_of_mem n t hl
        exact ⟨a, List.mem_append_left _ ha, hm⟩
      · obtain ⟨a, ha, hm⟩ := exists_opened_of_mem_all n ts hl
        exact ⟨a, List.mem_append_right _ ha, hm⟩

end

/-- No line of a block is empty. -/
theorem text_ne_of_mem_blockOf {s : Schema} {k : NodeId} {l : Line} (hl : l ∈ blockOf s o url k) :
    l.text ≠ "" := by
  rw [blockOf_eq_treeBlock] at hl
  obtain ⟨a, -, m, hm⟩ := exists_opened_of_mem _ _ hl
  refine Renderer.text_ne_empty ?_
  unfold Renderer.opened at hm
  split at hm
  · exact Renderer.content_ne_of_openSection url a.name m l hm
  · exact Renderer.content_ne_of_openNode o url a m l hm

/-- And no line of an element is, in any dialect. -/
theorem filter_elementLines (s : Schema) (d : Dialect) (o : RenderOptions) (url : Option String)
    (k : NodeId) : (s.elementLines d o url k).filter (· ≠ "") = s.elementLines d o url k := by
  refine List.filter_eq_self.mpr fun text htext => ?_
  cases d with
  | simple => exact (List.mem_filter.mp htext).2
  | json => exact (List.mem_filter.mp htext).2
  | openApi =>
      obtain ⟨l, hl, rfl⟩ := List.mem_map.mp htext
      exact decide_eq_true (text_ne_of_mem_blockOf hl)

end Contents

theorem openSection_le (url : Option String) (n : UInt64) :
    (∀ l ∈ (openSection url rootName n).1, l.indent.toNat ≤ n.toNat + 8)
      ∧ (openSection url rootName n).2.toNat ≤ n.toNat + 8 := by
  have hle : ∀ m : UInt64, m.toNat ≤ 8 → (n + m).toNat ≤ n.toNat + 8 := fun m hm =>
    Nat.le_trans (toNat_add_le n m) (Nat.add_le_add_left hm _)
  unfold openSection
  rw [if_pos rfl]
  cases url with
  | none => exact ⟨by simp, hle 1 (by decide)⟩
  | some url =>
      refine ⟨fun l hl => ?_, hle 8 (by decide)⟩
      simp only [List.mem_cons, List.not_mem_nil, or_false] at hl
      rcases hl with rfl | rfl | rfl | rfl | rfl | rfl | rfl | rfl | rfl | rfl
      · exact Nat.zero_le _
      all_goals exact hle _ (by decide)

section Lines

variable {types : Types} {j : Json} {s : Schema} {out : Outline} {o : RenderOptions}
  {url : Option String} (hs : s.Linked) (ho : s.Renders out)
  (houtlines : Outlines types (.start j.toValue) out)

include hs ho houtlines

/-- A document has nothing to define, so in every dialect its lines are those of the value. -/
theorem elementLines_of_document (d : Dialect) : s.children s.typeRefs = []
    ∧ s.lines d o url = Schema.headerLines d url ++ s.elementLines d o url s.root
    ∧ s.linesFault d o url = s.elementFaults d o url s.root := by
  have hnone : s.children s.typeRefs = [] := by
    have htrees := map_tree_definitions hs ho
    rw [(Json.isOfDocument_of_outlines houtlines).recordAll_eq] at htrees
    exact List.map_eq_nil_iff.mp htrees
  obtain ⟨c, hc, -⟩ := ho.exists_children_root hs
  have hkept := filter_elementLines s d o url s.root
  refine ⟨hnone, ?_, ?_⟩
  · rw [Schema.lines, Schema.treeLines, Schema.treeLines, hnone, hc]
    simp only [List.isEmpty_nil, List.isEmpty_cons, Bool.false_eq_true, if_true, if_false, ite_self,
      List.nil_append]
    rw [hkept]
  · rw [Schema.linesFault, hnone, hc]
    simp

theorem lines_of_document : s.lines .openApi o url =
      Schema.headerLines .openApi url ++ (blockOf s o url s.root).map (·.text)
    ∧ s.linesFault .openApi o url = (blockOf s o url s.root).any (·.tooWide) := by
  obtain ⟨-, hlines, hfault⟩ := @elementLines_of_document _ _ _ _ o url hs ho houtlines .openApi
  have hhas : s.has s.root = true := decide_eq_true (hs.isTop_lt (.inl rfl))
  refine ⟨hlines, hfault.trans ?_⟩
  rw [Schema.elementFaults, hhas]
  rfl

/-- There are lines if there is room for two steps for each level of the value. -/
theorem fits_of_room (hroom : o.indent.toNat + 2 * j.toValue.size + 8 < 0x4000000000000000) :
    Fits (blockOf s o url s.root) := by
  obtain ⟨c, hc, hblock⟩ := @exists_blockOf_root s out o url hs ho
  obtain ⟨hopening, hinner⟩ := openSection_le url o.indent
  intro l hl
  rw [hblock, List.mem_append] at hl
  rcases hl with hl | hl
  · have hle := hopening l hl
    omega
  · obtain ⟨hk, o', hout, htree⟩ := (Schema.StandsFor.start hc).exists_outlines hs ho houtlines
    have hheight : (s.tree c).height ≤ j.toValue.size := by
      rw [htree]
      exact height_le_size (Json.isWritten_toValue j) hout
    have hordered : ((s.tree c).ordered Attributes.name).height ≤ (s.tree c).height :=
      Rose.height_sortBy_le _
    rw [blockAt_eq] at hl
    have hle := treeBlock_le _ _ (topless_ordered_tree hs ho houtlines (.inl hk)) l hl
    omega

end Lines

/-! ## The main result -/

/-- A document has OpenAPI lines, in both variants and both modes and at every indent, if there is
room for two steps for each part of it. These are the texts of the block of its value. There every
object, unless it is the value of a repeated key, has its members under the line for its properties:
a block for each entry, in the order of the capitalized keys, which starts with the line of that key
if the key is not empty. All nodes of type struct are those of objects. -/
theorem object_members_of_lines (j : Json) (o : RenderOptions) (url : Option String) :
    (o.indent.toNat + 2 * j.toValue.size + 8 < 0x4000000000000000 →
        (deriveDocument j).linesFault .openApi o url = false)
      ∧ ((deriveDocument j).linesFault .openApi o url = false →
        (deriveDocument j).lines .openApi o url = Schema.headerLines .openApi url
            ++ (blockOf (deriveDocument j) o url (deriveDocument j).root).map (·.text)
          ∧ (∀ k p ms, (deriveDocument j).StandsFor {} j.toValue k p →
            p.value = (Json.object ms).toValue →
            ((deriveDocument j).attrs k).defect ≠ some .duplicateMapKey →
              ShowsMembers (deriveDocument j) o url k ms (· ≠ ""))
          ∧ ∀ k, TransGen (deriveDocument j).Owns (deriveDocument j).root k →
            ((deriveDocument j).attrs k).generic = .struct →
              ∃ p ms, (deriveDocument j).StandsFor {} j.toValue k p
                ∧ p.value = (Json.object ms).toValue) := by
  obtain ⟨hderive, -⟩ := exists_outline_deriveDocument j
  have hs := linked_of_derive? hderive
  obtain ⟨out, houtlines, ho⟩ := exists_outlines_of_derive? hderive
  obtain ⟨hlines, hfault⟩ := @lines_of_document _ _ _ _ o url hs ho houtlines
  refine ⟨fun hroom => ?_, fun hnone => ⟨hlines, fun k p ms h hp hdefect => ?_, fun k hk hstruct =>
    Schema.exists_object_of_struct hs ho houtlines hk hstruct⟩⟩
  · rw [hfault, ← fits_iff]
    exact fits_of_room hs ho houtlines hroom
  · rw [hfault, ← fits_iff] at hnone
    exact showsMembers_of_object hs ho houtlines hnone h hp hdefect

/-- An object with members of several types. -/
def nested : Json := .object [("b", .bool true), ("a", .object [("c", .null)])]

theorem object_members_of_lines_nested : ∃ k,
    (deriveDocument nested).children (deriveDocument nested).root = [k]
      ∧ ShowsMembers (deriveDocument nested) {} (some "/data") k
        [("b", .bool true), ("a", .object [("c", .null)])] (· ≠ "") := by
  have hsize : nested.toValue.size = 6 := by
    simp [nested, Json.toValue, Json.toEntries, Json.toSlot, Value.ofShape, Value.emptySlot,
      Value.size, Value.sizeEntries]
  obtain ⟨hroom, hlines⟩ := object_members_of_lines nested {} (some "/data")
  obtain ⟨-, hmembers, -⟩ := hlines (hroom (by rw [hsize]; decide))
  obtain ⟨hderive, -⟩ := exists_outline_deriveDocument nested
  have hs := linked_of_derive? hderive
  obtain ⟨out, houtlines, ho⟩ := exists_outlines_of_derive? hderive
  obtain ⟨k, hk, -⟩ := ho.exists_children_root hs
  have hstart : (deriveDocument nested).StandsFor {} nested.toValue k (.start nested.toValue) :=
    .start hk
  have hdefect := mt (hstart.defect_eq_iff hs ho houtlines rfl).mp (by decide)
  exact ⟨k, hk, hmembers k _ _ hstart rfl hdefect⟩

/-! ## What is not shown -/

section Missing

variable {types : Types} {j : Json} {s : Schema} {out : Outline} {k : NodeId}
  {o : RenderOptions} {url : Option String} {ms : List (String × Json)} (hs : s.Linked)
  (ho : s.Renders out) (houtlines : Outlines types (.start j.toValue) out)

include hs ho houtlines

/-- An entry with the empty key has no line for its name. -/
theorem not_showsMembers_of_emptyKey {p : Site} (h : s.StandsFor types j.toValue k p)
    (hp : p.value = (Json.object ms).toValue)
    (hdefect : (s.attrs k).defect ≠ some .duplicateMapKey) {i : Json} (hm : ("", i) ∈ ms) :
    ¬ ShowsMembers s o url k ms fun _ => True := by
  rintro ⟨before, start, after, n, under, -, hblock, -, order, blocks, hperm, horder, hunder,
    hblocks⟩
  obtain ⟨i', order, rfl⟩ := exists_eq_cons_of_emptyKey horder (hperm.mem_iff.mpr hm)
  obtain _ | ⟨hmember, -⟩ := hblocks
  obtain ⟨rest, rfl, -⟩ := hmember trivial
  obtain ⟨i'', rest', -, hopens⟩ :=
    @blockAt_of_emptyKey _ _ _ _ _ o url hs ho houtlines _ _ h hp hdefect _ hm start
  -- the line under the properties would have to be one for a name and one for a type
  rw [hopens, hunder] at hblock
  obtain ⟨htype, hlines⟩ := List.cons.inj (List.append_cancel_left hblock)
  obtain ⟨-, hlines⟩ := List.cons.inj hlines
  rw [(Line.mk.inj htype).1] at hlines
  have hline := (List.cons.inj (List.append_cancel_left hlines)).1
  have hfirst := congrArg (·.toList.head?) (Line.mk.inj hline).2
  rw [String.toList_append] at hfirst
  simp at hfirst

/-- An object that is the value of a repeated key has no members. -/
theorem not_showsMembers_of_failed {p : Site} (h : s.StandsFor types j.toValue k p)
    (hp : p.value = (Json.object ms).toValue) (ha : p.attrs.defect.isSome = true)
    {key : String} {i : Json} (hm : (key, i) ∈ ms) (hkey : key ≠ "") :
    ¬ ShowsMembers s o url k ms (· ≠ "") := by
  rintro ⟨before, start, after, n, under, -, hblock, -, order, blocks, hperm, -, hunder, hblocks⟩
  obtain ⟨block, hmem, hmember⟩ := exists_mem_of_forall₂ hblocks _ (hperm.mem_iff.mpr hm)
  obtain ⟨rest, hrest, -⟩ := hmember hkey
  obtain ⟨hk, o', hout, htree⟩ := h.exists_outlines hs ho houtlines
  have hchildren : s.sortedChildren k = [] := by
    have hlength := hs.length_children_tree (.inl hk)
    rw [htree, Schema.tree_of_failed_object hp hout ha] at hlength
    rw [Schema.sortedChildren, List.eq_nil_of_length_eq_zero hlength.symm, List.mergeSort_nil]
  rw [blockAt_object hs ho houtlines h hp, hchildren, hunder] at hblock
  obtain ⟨htype, hrest'⟩ := List.cons.inj (List.append_cancel_left hblock)
  obtain ⟨-, hlines⟩ := List.cons.inj hrest'
  rw [(Line.mk.inj htype).1, List.flatMap_nil] at hlines
  have hflatten := List.flatten_eq_nil_iff.mp (List.append_cancel_left hlines).symm
  rw [hrest] at hmem
  exact List.cons_ne_nil _ _ (hflatten _ hmem)

end Missing

/-- An object with the empty key, and with an object under a repeated key. -/
def lost : Json :=
  .object [("", .bool true), ("Key", .bool true), ("key", .object [("a", .bool true)])]

/-- The last entry repeats the name of the one before. -/
theorem mem_members_lost :
    ⟨"Key", "key", (Json.object [("a", .bool true)]).toSlot, true⟩ ∈ Schema.members
      ([("", .bool true), ("Key", .bool true), ("key", Json.object [("a", .bool true)])].map
        fun m => (m.1, m.2.toSlot)) := by
  have hnames : Text.capitalize "" = "" ∧ Text.capitalize "Key" = "Key"
      ∧ Text.capitalize "key" = "Key" := by decide +kernel
  rw [List.map_cons, List.map_cons, List.map_cons, List.map_nil,
    members_of_pairwise (by decide +kernel)]
  simp [hnames, Schema.markRepeated]

theorem not_showsMembers_lost :
    (∃ k p ms, (deriveDocument lost).StandsFor {} lost.toValue k p
      ∧ p.value = (Json.object ms).toValue
      ∧ ((deriveDocument lost).attrs k).defect ≠ some .duplicateMapKey
      ∧ ¬ ShowsMembers (deriveDocument lost) {} none k ms fun _ => True)
    ∧ ∃ k p ms, (deriveDocument lost).StandsFor {} lost.toValue k p
      ∧ p.value = (Json.object ms).toValue
      ∧ ¬ ShowsMembers (deriveDocument lost) {} none k ms (· ≠ "") := by
  obtain ⟨hderive, -⟩ := exists_outline_deriveDocument lost
  have hs := linked_of_derive? hderive
  obtain ⟨out, houtlines, ho⟩ := exists_outlines_of_derive? hderive
  obtain ⟨k, hk, -⟩ := ho.exists_children_root hs
  have hstart : (deriveDocument lost).StandsFor {} lost.toValue k (.start lost.toValue) :=
    .start hk
  have hdefect := mt (hstart.defect_eq_iff hs ho houtlines rfl).mp (by decide)
  refine ⟨⟨k, _, _, hstart, rfl, hdefect,
    not_showsMembers_of_emptyKey hs ho houtlines hstart rfl hdefect List.mem_cons_self⟩, ?_⟩
  have hl : (Site.start lost.toValue).value.layer? {} = _ := Schema.layer?_object rfl
  obtain ⟨-, hchildren⟩ := hstart.forall₂_members hs ho houtlines hl (Schema.ruling_map ..) rfl
    (List.cons_ne_nil _ _)
  obtain ⟨c, -, hc, -⟩ := exists_mem_of_forall₂ hchildren.flip _ mem_members_lost
  obtain ⟨hslot, q, hmembers, hq, hfailed⟩ := @members_of_slot {}
    (entrySite _ ⟨"Key", "key", (Json.object [("a", .bool true)]).toSlot, true⟩) _ rfl
    (by exact fun hnull => nomatch hnull)
  have hcontent := hc.content hslot rfl (hmembers ▸ List.mem_singleton_self q)
  refine ⟨c, q, _, hcontent, hq, not_showsMembers_of_failed hs ho houtlines hcontent hq ?_
    List.mem_cons_self (by decide)⟩
  rw [hfailed]
  rfl

end TypeOutline.OpenApi
