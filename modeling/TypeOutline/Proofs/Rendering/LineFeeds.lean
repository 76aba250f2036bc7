import TypeOutline.Command.Run
import TypeOutline.Proofs.Derivation.DocumentNames
import TypeOutline.Proofs.Rendering.DocumentBlocks
import TypeOutline.Proofs.Rendering.JsonLines
import TypeOutline.Proofs.Rendering.Lossless
import TypeOutline.Proofs.Text.Pieces

/-!
# Line feeds in lines

A key may hold a line feed. A path quotes a segment if it holds a dot, and
a quoted text holds no line feed; a segment without a dot stands in its
line as it is, and in OpenAPI blocks nothing is quoted at all. So a line
holds a line feed exactly if some name in the tree does and is shown as it
is (`lineFeed_mem_lines_iff`), and then the text of the lines does not
split back into the lines.
-/

namespace TypeOutline

open Relation (ReflTransGen TransGen)

/-! ## Quoted text -/

theorem Text.digitChar_ne_lineFeed : ∀ d < 16, Nat.digitChar d ≠ '\n' := by decide

theorem Text.escapes_ne_lineFeed : ∀ e ∈ escapes, e.2 ≠ '\n' := by decide

/-- What stands for a character between quotes holds no line feed. -/
theorem Text.lineFeed_not_mem_shown (c : Char) : '\n' ∉ shown c := by
  by_cases hc : c = '\n'
  · rw [hc]
    decide
  · have hshown := isShown_shown c
    generalize shown c = x at hshown
    cases hshown with
    | plain _ _ => exact mt List.mem_singleton.mp (Ne.symm hc)
    | escaped he =>
        intro hmem
        rcases List.mem_pair.mp hmem with h | h
        · exact absurd h (by decide)
        · exact escapes_ne_lineFeed _ he h.symm
    | numbered _ =>
        intro hmem
        have hdigit : '\n' ∈ hexDigits c.toNat := by simpa [numbered] using hmem
        obtain ⟨d, hd, h⟩ := exists_digit_of_mem hdigit
        exact digitChar_ne_lineFeed d hd h.symm

theorem lineFeed_mem_quotedSegment {w : List Char} :
    '\n' ∈ quotedSegment w ↔ '\n' ∈ w ∧ '.' ∉ w := by
  rw [quotedSegment]
  split
  · rename_i hdot
    refine iff_of_false (fun h => ?_) fun h => h.2 hdot
    simp only [List.cons_append, List.mem_cons, List.mem_append, List.mem_flatMap,
      List.not_mem_nil, or_false] at h
    rcases h with h | ⟨c, -, hc⟩ | h
    · exact absurd h (by decide)
    · exact Text.lineFeed_not_mem_shown c hc
    · exact absurd h (by decide)
  · rename_i hdot
    exact (and_iff_left hdot).symm

theorem lineFeed_mem_joined {ws : List (List Char)} :
    '\n' ∈ joined ws ↔ ∃ w ∈ ws, '\n' ∈ w ∧ '.' ∉ w := by
  rw [joined, List.mem_flatMap]
  refine exists_congr fun w => and_congr_right' ?_
  rw [List.mem_cons, or_iff_right (by decide), lineFeed_mem_quotedSegment]

/-! ## Lines of paths -/

/-- The name is shown as it is, with a line feed in it. -/
def BreaksLines (d : Dialect) (name : String) : Prop :=
  '\n' ∈ name.toList ∧ (d = .openApi ∨ '.' ∉ name.toList)

theorem documentTypes_ne : ∀ c ∈ ['\n', '.'], c ≠ ':' ∧ c ≠ '!'
    ∧ ∀ p ∈ documentTypes, c ∉ p.1.toList ∧ c ∉ p.2.toList :=
  List.forall_mem_cons.mpr ⟨by decide, List.forall_mem_singleton.mpr (by decide)⟩

theorem message_ne : ∀ d ∈ Defect.all, '\n' ∉ d.message.toList := by decide

namespace Simple

variable {o : RenderOptions} {a : Attributes}

/-- A segment holds no line feed or dot that is not in the name. -/
theorem mem_segment_iff (ha : a.IsPlain) {c : Char} (hc : c ∈ ['\n', '.']) :
    c ∈ (segment o a).toList ↔ c ∈ a.name.toList := by
  obtain ⟨hcolon, hmark, htypes⟩ := documentTypes_ne c hc
  have hbody : c ∈ body a ↔ c ∈ a.name.toList := by
    rw [body, List.mem_append, or_iff_left (htypes _ ha.type_mem).2, prefixOf]
    split
    · rename_i hname
      rw [hname]
      rfl
    · rw [List.mem_append, List.mem_singleton, or_iff_left hcolon]
  rw [toList_segment o ha]
  split
  · simp only [List.cons_append, List.mem_cons, List.mem_append, List.not_mem_nil, or_false, hmark,
      false_or, hbody]
  · exact hbody

/-- The line of a way holds a line feed if some segment is shown with one. -/
theorem lineFeed_mem_documentLine {way : List Attributes} (hway : ∀ a ∈ way, a.IsPlain) :
    '\n' ∈ (documentLine o way).toList ↔ ∃ a ∈ way, BreaksLines .simple a.name := by
  have herror : '\n' ∉ errorText (way.getLast?.bind (·.defect)) := by
    cases way.getLast?.bind (·.defect) with
    | none => exact List.not_mem_nil
    | some d =>
        rw [errorText, Option.elim_some, String.toList_append, List.mem_append]
        exact not_or.mpr ⟨by decide, message_ne d (mem_all d)⟩
  have hsegment : ∀ a ∈ way, '\n' ∈ (segment o a).toList ∧ '.' ∉ (segment o a).toList ↔
      BreaksLines .simple a.name := by
    intro a ha
    rw [mem_segment_iff (hway a ha) List.mem_cons_self,
      mem_segment_iff (hway a ha) (List.mem_cons_of_mem _ List.mem_cons_self), BreaksLines,
      or_iff_right Dialect.noConfusion]
  rw [toList_documentLine, List.mem_append, or_iff_right (by decide), wayText, List.mem_append,
    or_iff_left herror, lineFeed_mem_joined]
  simp only [List.mem_map, exists_exists_and_eq_and]
  exact exists_congr fun a => and_congr_right (hsegment a)

end Simple

namespace Rose

variable {α : Type}

mutual

/-- There is a way to every node. -/
theorem exists_way_of_mem {a : α} (above : List α) : (t : Rose α) → a ∈ t.preorder →
    ∃ way ∈ t.ways above, a ∈ way
  | .node b ts, h => by
      rcases List.mem_cons.mp h with rfl | h
      · exact ⟨above ++ [a], List.mem_cons_self, List.mem_concat_self⟩
      · obtain ⟨way, hway, ha⟩ := exists_way_of_mem_all (above ++ [b]) ts h
        exact ⟨way, List.mem_cons_of_mem _ hway, ha⟩

theorem exists_way_of_mem_all {a : α} (above : List α) : (ts : List (Rose α)) →
    a ∈ preorderAll ts → ∃ way ∈ waysAll above ts, a ∈ way
  | t :: ts, h => by
      rcases List.mem_append.mp h with h | h
      · obtain ⟨way, hway, ha⟩ := exists_way_of_mem above t h
        exact ⟨way, List.mem_append_left _ hway, ha⟩
      · obtain ⟨way, hway, ha⟩ := exists_way_of_mem_all above ts h
        exact ⟨way, List.mem_append_right _ hway, ha⟩

end

/-- What is on the ways of a tree is what is in it. -/
theorem exists_mem_ways_iff {t : Rose α} {P : α → Prop} :
    (∃ way ∈ t.ways [], ∃ a ∈ way, P a) ↔ ∃ a ∈ t.preorder, P a := by
  constructor
  · rintro ⟨way, hway, a, ha, h⟩
    exact ⟨a, ((of_mem_ways t hway).2 a ha).resolve_left List.not_mem_nil, h⟩
  · rintro ⟨a, ha, h⟩
    obtain ⟨way, hway, hmem⟩ := exists_way_of_mem [] t ha
    exact ⟨way, hway, a, hmem, h⟩

end Rose

/-! ## Lines of blocks -/

namespace OpenApi

/-- Some line holds a line feed. -/
def Broken (ls : List Line) : Prop := ∃ l ∈ ls, '\n' ∈ l.content.toList

theorem not_broken_nil : ¬ Broken [] := by
  rintro ⟨l, hl, -⟩
  exact absurd hl List.not_mem_nil

theorem broken_append {ls ls' : List Line} : Broken (ls ++ ls') ↔ Broken ls ∨ Broken ls' := by
  simp only [Broken, List.mem_append, or_and_right, exists_or]

theorem lineFeed_mem_text (l : Line) : '\n' ∈ l.text.toList ↔ '\n' ∈ l.content.toList := by
  rw [Line.text, String.toList_append, toList_pushn, List.mem_append, List.mem_append]
  refine or_iff_right (not_or.mpr ⟨List.not_mem_nil, fun h => ?_⟩)
  exact absurd (List.eq_of_mem_replicate h) (by decide)

theorem lineFeed_not_mem_typeLines {a : Attributes} (ha : a.IsPlain) :
    ∀ content ∈ (typeLines a).1, '\n' ∉ content.toList := by
  have htype : '\n' ∉ a.typeLabel.toList :=
    ((documentTypes_ne '\n' List.mem_cons_self).2.2 _ ha.type_mem).1
  unfold typeLines
  repeat' split
  all_goals simp [htype]

/-- Only the line of its name can hold a line feed. -/
theorem broken_plainOpening {a : Attributes} (ha : a.IsPlain) (n : UInt64) :
    Broken (plainOpening a n) ↔ '\n' ∈ a.name.toList := by
  have htypes : ¬ Broken ((typeLines a).1.map (⟨n + nameStep a.name, ·⟩)) := by
    rintro ⟨l, hl, h⟩
    obtain ⟨content, hcontent, rfl⟩ := List.mem_map.mp hl
    exact lineFeed_not_mem_typeLines ha content hcontent h
  have hdefect : ¬ Broken (defectLines a.defect (innerIndent a n)) := by
    rintro ⟨l, hl, h⟩
    obtain ⟨d, rfl⟩ := mem_defectLines hl
    rw [String.toList_append, List.mem_append] at h
    exact h.elim (by decide) (message_ne d (mem_all d))
  have hname : Broken (nameLines a.name n) ↔ '\n' ∈ a.name.toList := by
    rw [nameLines]
    split
    · rename_i hempty
      rw [hempty]
      exact iff_of_false not_broken_nil (by decide)
    · simp [Broken]
  rw [plainOpening, broken_append, broken_append, or_iff_left hdefect, or_iff_left htypes, hname]

section Trees

variable {o : RenderOptions} {url : Option String}

/-- The node is plain, and the dialect has nothing of its own to say about it. -/
def IsBare (a : Attributes) : Prop := a.IsPlain ∧ a.IsSilentIn jsonDialect

mutual

theorem broken_treeBlock (n : UInt64) : (t : Rose Attributes) → (∀ a ∈ t.preorder, IsBare a) →
    (Broken (treeBlock o url n t) ↔ ∃ a ∈ t.preorder, '\n' ∈ a.name.toList)
  | .node a ts, h => by
      obtain ⟨hplain, hsilent⟩ := h a List.mem_cons_self
      rw [treeBlock_of_plain hplain hsilent, broken_append, broken_plainOpening hplain,
        broken_treeBlocks _ ts fun b hb => h b (List.mem_cons_of_mem a hb), Rose.preorder,
        List.exists_mem_cons_iff]

theorem broken_treeBlocks (n : UInt64) : (ts : List (Rose Attributes)) →
    (∀ a ∈ Rose.preorderAll ts, IsBare a) →
      (Broken (treeBlocks o url n ts) ↔ ∃ a ∈ Rose.preorderAll ts, '\n' ∈ a.name.toList)
  | [], _ => iff_of_false not_broken_nil fun ⟨a, ha, _⟩ => absurd ha List.not_mem_nil
  | t :: ts, h => by
      rw [treeBlocks, broken_append,
        broken_treeBlock n t fun a ha => h a (List.mem_append_left _ ha),
        broken_treeBlocks n ts fun a ha => h a (List.mem_append_right _ ha), Rose.preorderAll]
      simp only [List.mem_append, or_and_right, exists_or]

end

theorem not_broken_openSection (hurl : ∀ u, url = some u → '\n' ∉ u.toList) (n : UInt64) :
    ¬ Broken (openSection url rootName n).1 := by
  rintro ⟨l, hl, h⟩
  unfold openSection at hl
  rw [if_pos rfl] at hl
  cases url with
  | none =>
      rw [List.mem_singleton.mp hl] at h
      exact absurd h (by decide)
  | some url =>
      have hpath : '\n' ∉ (url ++ ":").toList := by
        rw [String.toList_append, List.mem_append]
        exact not_or.mpr ⟨hurl url rfl, by decide⟩
      simp only [List.mem_cons, List.not_mem_nil, or_false] at hl
      rcases hl with rfl | rfl | rfl | rfl | rfl | rfl | rfl | rfl | rfl | rfl
      · exact absurd h (by decide)
      · exact hpath h
      all_goals simp at h

end Trees

end OpenApi

/-! ## Lines of documents -/

theorem lineFeed_mem_filter {ls : List String} :
    (∃ l ∈ ls.filter (· ≠ ""), '\n' ∈ l.toList) ↔ ∃ l ∈ ls, '\n' ∈ l.toList := by
  refine exists_congr fun l => ⟨fun ⟨hl, h⟩ => ⟨(List.mem_filter.mp hl).1, h⟩, fun ⟨hl, h⟩ => ?_⟩
  refine ⟨List.mem_filter.mpr ⟨hl, decide_eq_true fun hempty => ?_⟩, h⟩
  rw [hempty] at h
  exact absurd h List.not_mem_nil

theorem lineFeed_mem_prepend {top : String} (htop : '\n' ∉ top.toList) {tails : List String} :
    (∃ l ∈ tails.map (top ++ ·), '\n' ∈ l.toList) ↔ ∃ tail ∈ tails, '\n' ∈ tail.toList := by
  simp only [List.mem_map, exists_exists_and_eq_and, String.toList_append, List.mem_append, htop,
    false_or]

section Documents

variable {types : Types} {j : Json} {s : Schema} {out : Outline} {o : RenderOptions}
  {url : Option String} (hs : s.Linked) (ho : s.Renders out)
  (houtlines : Outlines types (.start j.toValue) out)

include hs ho houtlines

theorem isBare_of_document : ∀ a ∈ out.tree.preorder, OpenApi.IsBare a := by
  obtain ⟨c, hc, htree⟩ := ho.exists_children_root hs
  have hbelow : TransGen s.Owns s.root c := by
    refine .single ?_
    rw [Schema.Owns, hc]
    exact List.mem_singleton_self c
  obtain ⟨r, hr⟩ := hs.exists_subtree?_of_below (.inl hbelow)
  intro a ha
  rw [← htree] at ha
  obtain ⟨k, hk, rfl⟩ := (Schema.mem_preorder_tree hr).mp ha
  exact OpenApi.plain_of_document hs ho houtlines (hbelow.trans_left hk)

/-- Which elements of a document have lines with line feeds. -/
theorem lineFeed_mem_elementLines (d : Dialect)
    (hurl : d = .openApi → ∀ u, url = some u → '\n' ∉ u.toList) :
    (∃ l ∈ s.elementLines d o url s.root, '\n' ∈ l.toList) ↔
      ∃ a ∈ out.tree.preorder, BreaksLines d a.name := by
  have hdocument := Json.isOfDocument_of_outlines houtlines
  have hsimple : (Simple.shown s o s.root).filterMap (Simple.line? s o) =
      (out.tree.ways []).map (Simple.documentLine o) := by
    rw [simple_filterMap_eq hs (.inl rfl), ho.root_eq,
      Simple.linesOf_rootTop o hdocument.plain hdocument.ordered]
  have hpaths : (∃ l ∈ (Simple.shown s o s.root).filterMap (Simple.line? s o), '\n' ∈ l.toList) ↔
      ∃ a ∈ out.tree.preorder, BreaksLines .simple a.name := by
    rw [hsimple, ← Rose.exists_mem_ways_iff]
    simp only [List.mem_map, exists_exists_and_eq_and]
    refine exists_congr fun way => and_congr_right fun hway => ?_
    exact Simple.lineFeed_mem_documentLine fun a ha =>
      hdocument.plain a (((Rose.of_mem_ways _ hway).2 a ha).resolve_left List.not_mem_nil)
  cases d with
  | simple => exact lineFeed_mem_filter.trans hpaths
  | json =>
      -- after the name of the top the lines are those of the simple dialect
      have huntagged : j.toValue.EveryLevel types (Layer.IsUntagged jsonDialect) :=
        fun w hw l hl fields hfields =>
          absurd hfields ((Json.everyLevel_toValue j w hw l hl).isNoRecord fields)
      obtain ⟨tails, htails, htails'⟩ :=
        exists_tails (o := o) hs ho houtlines huntagged (.inl rfl)
      have hnames : BreaksLines .json = BreaksLines .simple := by
        funext name
        rw [BreaksLines, BreaksLines, or_iff_right Dialect.noConfusion,
          or_iff_right Dialect.noConfusion]
      rw [hnames, ← hpaths, Schema.elementLines, JsonPath.lines, lineFeed_mem_filter, htails,
        htails', ho.attrs_root, lineFeed_mem_prepend (by decide), lineFeed_mem_prepend (by decide)]
  | openApi =>
      obtain ⟨c, hc, hblock⟩ := @OpenApi.exists_blockOf_root s out o url hs ho
      obtain ⟨c', hc', htree⟩ := ho.exists_children_root hs
      obtain rfl := List.singleton_inj.mp (hc.symm.trans hc')
      have hbare : ∀ a ∈ (out.tree.ordered Attributes.name).preorder, OpenApi.IsBare a :=
        fun a ha => isBare_of_document hs ho houtlines a ((Rose.mem_preorder_sortBy _).mp ha)
      have htexts : (∃ l ∈ s.elementLines .openApi o url s.root, '\n' ∈ l.toList) ↔
          OpenApi.Broken (OpenApi.blockOf s o url s.root) := by
        rw [Schema.elementLines, OpenApi.lines, OpenApi.Broken]
        simp only [List.mem_map, exists_exists_and_eq_and, OpenApi.lineFeed_mem_text]
      rw [htexts, hblock, OpenApi.broken_append,
        or_iff_right (OpenApi.not_broken_openSection (hurl rfl) _), OpenApi.blockAt_eq, htree,
        OpenApi.broken_treeBlock _ _ hbare]
      refine exists_congr fun a => and_congr (Rose.mem_preorder_sortBy _) ?_
      rw [BreaksLines, and_iff_left (.inl rfl)]

/-- A line of a document holds a line feed if a name that is shown as it is does. -/
theorem lineFeed_mem_lines (d : Dialect)
    (hurl : d = .openApi → ∀ u, url = some u → '\n' ∉ u.toList) :
    (∃ l ∈ s.lines d o url, '\n' ∈ l.toList) ↔
      ∃ a ∈ (s.tree s.root).preorder, BreaksLines d a.name := by
  obtain ⟨-, hlines, -⟩ := @OpenApi.elementLines_of_document _ _ _ _ o url hs ho houtlines d
  have hheader : ∀ l ∈ Schema.headerLines d url, '\n' ∉ l.toList := by
    unfold Schema.headerLines
    split
    · decide
    · exact fun l hl => absurd hl List.not_mem_nil
  have htop : ¬ BreaksLines d rootTop.name := fun h => absurd h.1 (by decide)
  have hall : (s.tree s.root).preorder = rootTop :: out.tree.preorder := by
    rw [ho.root_eq, Rose.preorder, Rose.preorderAll, Rose.preorderAll, List.append_nil]
  rw [hlines, hall, List.exists_mem_cons_iff, or_iff_right htop,
    ← lineFeed_mem_elementLines hs ho houtlines d hurl]
  simp only [List.mem_append, or_and_right, exists_or]
  exact or_iff_right fun ⟨l, hl, h⟩ => hheader l hl h

/-- A name that is shown as it is comes from a key that is. -/
theorem exists_key_of_breaksLines {d : Dialect} {a : Attributes}
    (ha : a ∈ (s.tree s.root).preorder) (h : BreaksLines d a.name) :
    ∃ key ∈ j.keys, BreaksLines d key := by
  obtain ⟨r, -, hr, -⟩ := hs.exists_trees
  obtain ⟨k, hk, rfl⟩ := (Schema.mem_preorder_tree hr).mp ha
  rcases Relation.reflTransGen_iff_eq_or_transGen.mp hk with rfl | hk
  · rw [ho.attrs_root] at h
    exact absurd h.1 (by decide)
  · rcases isName_of_document hs ho houtlines hk with hname | ⟨key, hkey, hname⟩
    · rw [hname] at h
      exact absurd h.1 (by decide)
    · rw [hname, BreaksLines, Text.mem_capitalize_iff (by decide) (by decide),
        Text.mem_capitalize_iff (by decide) (by decide)] at h
      exact ⟨key, hkey, h⟩

end Documents

/-! ## Texts -/

namespace Command.RenderTask

/-- Lines are read back from their text exactly if none holds a line feed. -/
theorem pieces_textOf_iff (ls : List String) :
    Text.pieces '\n' (textOf ls).toList = ls.map String.toList ++ [[]] ↔
      ∀ l ∈ ls, '\n' ∉ l.toList := by
  have htext : (textOf ls).toList = (ls.map String.toList).flatMap (· ++ ['\n']) := by
    rw [textOf, String.toList_join, List.flatMap_map, List.flatMap_map]
    exact List.flatMap_congr fun l _ => String.toList_append
  rw [htext, Text.pieces_ended_iff, List.forall_mem_map]

/-- What a run leaves behind holds the text, on the output or in the file that it writes to. -/
def Leaves (r : RenderTask) (t : FileTree) (text : String) (result : Result) : Prop :=
  match r.out with
  | none => result.output = text ∧ result.files = t
  | some path => result.output = "" ∧ writeOut t path text = .ok result.files

theorem leaves_of_run {r : RenderTask} {t : FileTree} {g : Config} {ds : List Document}
    {result : Result} (hidle : r.idle = false) (hg : r.configFor t = .ok g)
    (hds : r.inputs.load t = .ok ds) (hrun : r.run t = .ok result) :
    r.Leaves t (r.textFor g ds) result := by
  simp only [run, hidle, hg, hds, Except.mapError, Bool.false_eq_true, if_false, bind, Except.bind,
    pure, Except.pure] at hrun
  split at hrun
  · cases hrun
  · rw [Leaves]
    cases hout : r.out with
    | none =>
        rw [hout] at hrun
        obtain rfl := Except.ok.inj hrun
        exact ⟨rfl, rfl⟩
    | some path =>
        rw [hout] at hrun
        dsimp only at hrun
        cases hwritten : writeOut t path (r.textFor g ds) with
        | error e =>
            rw [hwritten] at hrun
            cases hrun
        | ok files =>
            rw [hwritten] at hrun
            obtain rfl := Except.ok.inj hrun
            exact ⟨rfl, hwritten⟩

theorem textFor_singleton {r : RenderTask} (htree : r.tree = false) (g : Config) (d : Document) :
    r.textFor g [d] = textOf ((deriveDocument d.value).lines g.dialect g.render g.urlPath) := by
  rw [textFor, List.map_singleton, linesOf, htree, String.join_cons, String.join_nil,
    String.append_empty]
  rfl

end Command.RenderTask

/-! ## The main result -/

/-- If no OpenAPI URL path with a line feed is given, a line of a document holds one, in any mode
and with any options, exactly if the name of some node does and is shown as it is: in OpenAPI every
name is, and in the paths of the other dialects a name without a dot. Such a name is that of a key
which is shown as it is. What a run on one document prints or writes splits back into its lines
exactly if there is no such name. -/
theorem lineFeed_mem_lines_iff (j : Json) (d : Dialect) (o : RenderOptions) (url : Option String)
    (hurl : d = .openApi → ∀ u, url = some u → '\n' ∉ u.toList) :
    ((∃ l ∈ (deriveDocument j).lines d o url, '\n' ∈ l.toList) ↔
        ∃ a ∈ ((deriveDocument j).tree (deriveDocument j).root).preorder, BreaksLines d a.name)
      ∧ ((∃ l ∈ (deriveDocument j).lines d o url, '\n' ∈ l.toList) →
        ∃ key ∈ j.keys, BreaksLines d key)
      ∧ ∀ (r : Command.RenderTask) (t : FileTree) (origin : String) (result : Command.Result),
        r.idle = false → r.tree = false →
        r.configFor t = .ok { dialect := d, urlPath := url, render := o } →
        r.inputs.load t = .ok [{ origin, value := j }] → r.run t = .ok result →
          ∃ text, r.Leaves t text result
            ∧ (Text.pieces '\n' text.toList =
                ((deriveDocument j).lines d o url).map String.toList ++ [[]] ↔
              ¬ ∃ a ∈ ((deriveDocument j).tree (deriveDocument j).root).preorder,
                BreaksLines d a.name) := by
  obtain ⟨hderive, -⟩ := exists_outline_deriveDocument j
  have hs := linked_of_derive? hderive
  obtain ⟨out, houtlines, ho⟩ := exists_outlines_of_derive? hderive
  have hlines := @lineFeed_mem_lines _ _ _ _ o url hs ho houtlines d hurl
  refine ⟨hlines, fun h => ?_, fun r t origin result hidle htree hg hds hrun => ?_⟩
  · obtain ⟨a, ha, hbreaks⟩ := hlines.mp h
    exact exists_key_of_breaksLines hs ho houtlines ha hbreaks
  · refine ⟨_, Command.RenderTask.leaves_of_run hidle hg hds hrun, ?_⟩
    rw [Command.RenderTask.textFor_singleton htree, Command.RenderTask.pieces_textOf_iff, ← hlines]
    simp only [not_exists, not_and]

/-- A line feed breaks the line of a key without a dot, and is quoted with the segment of a key
with one. -/
theorem lineFeed_mem_lines_iff_keyed :
    (∃ l ∈ (deriveDocument (keyed "a\nb" (.nat 1))).lines .simple {} none, '\n' ∈ l.toList)
      ∧ ¬ ∃ l ∈ (deriveDocument (keyed "a\n.b" (.nat 1))).lines .simple {} none,
        '\n' ∈ l.toList := by
  have hurl : Dialect.simple = .openApi → ∀ u : String, none = some u → '\n' ∉ u.toList :=
    fun h => nomatch h
  have hnumber : (Json.nat 1).toValue = .ofShape (.scalar .f64) := by rw [Json.nat, Json.toValue]
  have hvalue : (keyed "a\nb" (.nat 1)).toValue = .ofShape (.map .string "string"
      [("a\nb", .ofShape (.slot (some (.ofShape (.scalar .f64)))))]) := by
    rw [keyed, Json.toValue, Json.toEntries, Json.toEntries,
      Json.toSlot_of_ne_null Json.noConfusion, hnumber]
  constructor
  · refine (lineFeed_mem_lines_iff _ .simple {} none hurl).1.mpr ?_
    have hname : ((deriveDocument (keyed "a\nb" (.nat 1))).tree
        (deriveDocument (keyed "a\nb" (.nat 1))).root).preorder.any
          (fun a => a.name.toList.contains '\n' && !a.name.toList.contains '.') = true := by
      rw [deriveDocument, hvalue]
      decide +kernel
    obtain ⟨a, ha, h⟩ := List.any_eq_true.mp hname
    rw [Bool.and_eq_true, Bool.not_eq_true', List.contains_iff_mem] at h
    exact ⟨a, ha, h.1, .inr (by simpa using h.2)⟩
  · intro h
    obtain ⟨key, hkey, hlf, hdot⟩ := (lineFeed_mem_lines_iff _ .simple {} none hurl).2.1 h
    have hkeys : key = "a\n.b" := by
      simpa [keyed, Json.nat, Json.keys, Json.keysIn] using hkey
    rw [hkeys] at hdot
    exact absurd hdot (by simp)

end TypeOutline
