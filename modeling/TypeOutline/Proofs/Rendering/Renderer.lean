import TypeOutline.Proofs.Rendering.Shown
import TypeOutline.Render.Renderer

/-!
# The renderer puts its indent back

What a renderer writes for a node, and where it goes on, depend on the
indent alone (`openTop_run`, `openBlock_run`). A walk leaves the indent
where it was, so each child is walked from the indent that its parent's
opening leads to. The lines of a walk are therefore the block of the tree,
which asks for no state (`walk_run`), and a rendering changes nothing of
the renderer (`renderElement?_eq`, `render?_eq`).
-/

namespace TypeOutline.OpenApi

/-! ## The opening of a node -/

section Opening

variable (o : RenderOptions) (url : Option String) (a : Attributes)

/-- The line of a name, if there is one. -/
def nameLines (name : String) (indent : UInt64) : List Line :=
  if name = "" then [] else [⟨indent, name ++ ":"⟩]

/-- How far the type is indented below the start of a node. -/
def nameStep (name : String) : UInt64 := if name = "" then 0 else 1

/-- The lines of the type, or the reference shown in its place, and how far what stands in it is
indented. -/
def bodyLines : List String × UInt64 :=
  if shownRef o a (a.view jsonDialect).typeRef = "" then typeLines a
  else (["$ref: '" ++ refBase url ++ shownRef o a (a.view jsonDialect).typeRef ++ "'"], 0)

def defectLines (defect : Option Defect) (indent : UInt64) : List Line :=
  defect.elim [] fun d => [⟨indent, "error: " ++ d.message⟩]

theorem openNode_eq (indent : UInt64) :
    openNode o url a indent =
      (nameLines (a.view jsonDialect).name indent
          ++ (bodyLines o url a).1.map (⟨indent + nameStep (a.view jsonDialect).name, ·⟩)
          ++ defectLines a.defect
            (indent + nameStep (a.view jsonDialect).name + (bodyLines o url a).2),
        indent + nameStep (a.view jsonDialect).name + (bodyLines o url a).2) := by
  unfold openNode nameLines nameStep bodyLines defectLines
  split <;> simp [*]

theorem mem_defectLines {defect : Option Defect} {indent : UInt64} {l : Line}
    (h : l ∈ defectLines defect indent) :
    ∃ d : Defect, l = ⟨indent, "error: " ++ d.message⟩ := by
  cases defect with
  | none => exact absurd h List.not_mem_nil
  | some d => exact ⟨d, List.mem_singleton.mp (h : l ∈ [_])⟩

end Opening

namespace Renderer

/-- The renderer at another indent. -/
def moved (r : Renderer) (n : UInt64) : Renderer :=
  { r with options := { r.options with indent := n } }

variable (r : Renderer)

@[simp] theorem moved_indent : r.moved r.options.indent = r := rfl

@[simp] theorem moved_moved (m n : UInt64) : (r.moved m).moved n = r.moved n := rfl

@[simp] theorem url_moved (n : UInt64) : (r.moved n).url = r.url := rfl

@[simp] theorem indent_moved (n : UInt64) : (r.moved n).options.indent = n := rfl

@[simp] theorem dereference_moved (n : UInt64) :
    (r.moved n).options.dereference = r.options.dereference := rfl

/-! ## Steps -/

@[simp] theorem run_indent : indent.run r = pure (r.options.indent, r) := rfl

@[simp] theorem run_setIndent (n : UInt64) : (setIndent n).run r = pure ((), r.moved n) :=
  rfl

@[simp] theorem run_advance (n : UInt64) :
    (advance n).run r = pure ((), r.moved (r.options.indent + n)) := rfl

@[simp] theorem run_here (content : String) :
    (here content).run r = pure ([⟨r.options.indent, content⟩], r) := rfl

@[simp] theorem run_hereAll (contents : List String) :
    (hereAll contents).run r = pure (contents.map (⟨r.options.indent, ·⟩), r) := rfl

/-- The section of a top is opened where the renderer stands. -/
theorem openTop_run (name : String) : (openTop name).run r =
    pure ((openSection r.url name r.options.indent).1,
      r.moved (openSection r.url name r.options.indent).2) := by
  have hstep : ∀ m n : UInt64, r.options.indent + m + n = r.options.indent + (m + n) :=
    fun m n => UInt64.add_assoc ..
  unfold openTop openSection
  split
  · cases hurl : r.url with
    | none => simp [hurl]
    | some url =>
        simp [hurl, hstep]
  · split
    · cases hurl : r.url <;> simp [hurl]
    · simp

theorem run_writeName (name : String) : (writeName name).run r =
    pure (nameLines name r.options.indent, r.moved (r.options.indent + nameStep name)) := by
  unfold writeName nameLines nameStep
  split <;> simp

theorem run_writeType (a : Attributes) :
    (writeType a (shownRef r.options a (a.view jsonDialect).typeRef)).run r =
      pure ((bodyLines r.options r.url a).1.map (⟨r.options.indent, ·⟩),
        r.moved (r.options.indent + (bodyLines r.options r.url a).2)) := by
  unfold writeType bodyLines
  split <;> simp

theorem run_writeDefect (defect : Option Defect) :
    (writeDefect defect).run r = pure (defectLines defect r.options.indent, r) := by
  cases defect <;> rfl

/-- The block of a node is opened where the renderer stands. -/
theorem openBlock_run (a : Attributes) : (openBlock a).run r =
    pure ((openNode r.options r.url a r.options.indent).1,
      r.moved (openNode r.options r.url a r.options.indent).2) := by
  have hbody : ∀ n, bodyLines (r.moved n).options = bodyLines r.options := fun _ => rfl
  rw [openNode_eq]
  unfold openBlock
  simp only [StateT.run_bind, StateT.run_get, run_writeName, pure_bind]
  rw [run_writeType]
  simp [run_writeDefect, hbody]

/-! ## No line is empty -/

theorem text_ne_empty {l : Line} (h : l.content ≠ "") : l.text ≠ "" := by
  rw [Line.text]
  simp [h]

theorem content_ne_of_openSection (url : Option String) (name : String) (n : UInt64) :
    ∀ l ∈ (openSection url name n).1, l.content ≠ "" := by
  unfold openSection
  repeat' split
  all_goals simp

theorem content_ne_of_typeLines (a : Attributes) : ∀ content ∈ (typeLines a).1, content ≠ "" := by
  unfold typeLines
  repeat' split
  all_goals simp

theorem content_ne_of_bodyLines (o : RenderOptions) (url : Option String) (a : Attributes) :
    ∀ content ∈ (bodyLines o url a).1, content ≠ "" := by
  unfold bodyLines
  split
  · exact content_ne_of_typeLines a
  · simp

theorem content_ne_of_openNode (o : RenderOptions) (url : Option String) (a : Attributes)
    (n : UInt64) : ∀ l ∈ (openNode o url a n).1, l.content ≠ "" := by
  intro l hl
  rw [openNode_eq, List.mem_append, List.mem_append] at hl
  rcases hl with (hl | hl) | hl
  · unfold nameLines at hl
    split at hl
    · exact absurd hl List.not_mem_nil
    · rw [List.mem_singleton.mp hl]
      simp
  · obtain ⟨content, hcontent, rfl⟩ := List.mem_map.mp hl
    exact content_ne_of_bodyLines o url a content hcontent
  · obtain ⟨d, hd⟩ := mem_defectLines hl
    rw [hd]
    simp

/-! ## Walks -/

/-- The lines that open a node or a section, and the indent of what stands in it. -/
def opened (o : RenderOptions) (url : Option String) (a : Attributes) (n : UInt64) :
    List Line × UInt64 :=
  if a.isRoot then openSection url a.name n else openNode o url a n

theorem opening_run (a : Attributes) : (opening a).run r =
    pure ((opened r.options r.url a r.options.indent).1,
      r.moved (opened r.options r.url a r.options.indent).2) := by
  unfold opening opened
  split
  · exact openTop_run r a.name
  · exact openBlock_run r a

/-- No line that opens a node is dropped. -/
theorem filter_opened (o : RenderOptions) (url : Option String) (a : Attributes) (n : UInt64) :
    (opened o url a n).1.filter (·.text ≠ "") = (opened o url a n).1 := by
  refine List.filter_eq_self.mpr fun l hl => decide_eq_true (text_ne_empty ?_)
  unfold opened at hl
  split at hl
  · exact content_ne_of_openSection url a.name n l hl
  · exact content_ne_of_openNode o url a n l hl

mutual

/-- Of its options a block asks for one alone. -/
theorem block_congr {o o' : RenderOptions} (h : o.dereference = o'.dereference) (s : Schema)
    (url : Option String) (n : UInt64) : (t : Rose NodeId) →
      block s o url n t = block s o' url n t
  | .node id ts => by
      have hexpands : Schema.expands o = Schema.expands o' := by
        funext a
        rw [Schema.expands, Schema.expands, h]
      have hopen : openNode o url = openNode o' url := by
        funext a n
        rw [openNode, openNode, shownRef, shownRef, h]
      simp only [block, hexpands, hopen, blocks_congr h s url _ ts]

theorem blocks_congr {o o' : RenderOptions} (h : o.dereference = o'.dereference) (s : Schema)
    (url : Option String) (n : UInt64) : (ts : List (Rose NodeId)) →
      blocks s o url n ts = blocks s o' url n ts
  | [] => rfl
  | t :: ts => by rw [blocks, blocks, block_congr h s url n t, blocks_congr h s url n ts]

end

mutual

/-- A walk writes the block of the tree and leaves the indent where it was. -/
theorem walk_run (s : Schema) (r : Renderer) : (t : Rose NodeId) →
    (walk s t).run r = pure (block s r.options r.url r.options.indent t, r)
  | .node id ts => by
      rw [walk, block]
      by_cases hhidden : hidden (s.attrs id) = true
      · simp [hhidden]
      · have hfilter := filter_opened r.options r.url (s.attrs id) r.options.indent
        have hopened : opened r.options r.url (s.attrs id) r.options.indent =
          if (s.attrs id).isRoot then openSection r.url (s.attrs id).name r.options.indent
          else openNode r.options r.url (s.attrs id) r.options.indent := rfl
        simp only [StateT.run_bind, run_indent, pure_bind, opening_run, if_neg hhidden,
          StateT.run_get, ← hopened, hfilter]
        generalize opened r.options r.url (s.attrs id) r.options.indent = start
        obtain ⟨lines, n⟩ := start
        obtain ⟨m, hm⟩ := walkAll_run s (r.moved n) n ts
        have hexpands : Schema.expands (r.moved n).options = Schema.expands r.options := rfl
        have hmoved := @blocks_congr (r.moved n).options r.options rfl s r.url n ts
        cases h : Schema.expands r.options (s.attrs id) <;> simp [hexpands, h, hm, hmoved]

theorem walkAll_run (s : Schema) (r : Renderer) (n : UInt64) : (ts : List (Rose NodeId)) →
    ∃ m, (walkAll s n ts).run r = pure (blocks s r.options r.url n ts, r.moved m)
  | [] => ⟨r.options.indent, rfl⟩
  | t :: ts => by
      obtain ⟨m, hm⟩ := walkAll_run s (r.moved n) n ts
      refine ⟨m, ?_⟩
      have hmoved := @blocks_congr (r.moved n).options r.options rfl s r.url n
      have hmoved' := @block_congr (r.moved n).options r.options rfl s r.url n
      simp [walkAll, blocks, walk_run s (r.moved n) t, hm, hmoved, hmoved']

end

/-! ## Renderings -/

/-- A rendering of a node has the lines that need no renderer, if they can be made, and hands the
renderer back as it was. -/
theorem renderElement?_eq (s : Schema) (id : NodeId) : r.renderElement? s id =
    if s.elementFaults .openApi r.options r.url id then none
    else some (s.elementLines .openApi r.options r.url id, r) := by
  have hwalk : (walk s (s.orderedSubtree id)).run r = pure (blockOf s r.options r.url id, r) :=
    walk_run s r _
  unfold renderElement? Schema.elementFaults Schema.elementLines texts? lines
  rw [hwalk]
  cases s.has id with
  | false => rfl
  | true =>
      cases hwide : (blockOf s r.options r.url id).any (·.tooWide) <;>
        simp [pure, hwide]

theorem renderTree?_eq (s : Schema) (top : NodeId) : r.renderTree? s top =
    if !(s.children top).isEmpty && s.elementFaults .openApi r.options r.url top then none
    else some (s.treeLines .openApi r.options r.url top, r) := by
  unfold renderTree? Schema.treeLines
  rw [renderElement?_eq]
  cases (s.children top).isEmpty <;> rfl

/-- And so does a rendering of a schema. -/
theorem render?_eq (s : Schema) : r.render? s =
    if s.linesFault .openApi r.options r.url then none
    else some (s.lines .openApi r.options r.url, r) := by
  have hvalue := r.renderTree?_eq s s.root
  have hdefinitions := r.renderTree?_eq s s.typeRefs
  unfold render? Schema.linesFault Schema.lines
  rw [Bool.and_assoc]
  generalize (!(s.children s.typeRefs).isEmpty
    && s.elementFaults .openApi r.options r.url s.typeRefs) = definitionsFault at hdefinitions ⊢
  generalize (!(s.children s.root).isEmpty
    && s.elementFaults .openApi r.options r.url s.root) = valueFault at hvalue ⊢
  cases r.options.dereference with
  | true => cases valueFault <;> simp [hvalue]
  | false => cases definitionsFault <;> cases valueFault <;> simp [hdefinitions, hvalue]

end Renderer

end TypeOutline.OpenApi
