import TypeOutline.Proofs.Derivation.Placement
import TypeOutline.Proofs.Rendering.Lines

/-!
# The lines of a definition

Of what the place where a type was met left on its node, the lines of the
definition show one thing: the defect of a repeated map key, which also
kept the members of the type off the node. So a type that is met once in
each of two values is defined by the same lines if it was met under a
repeated key in both or in neither, and only then
(`derive?_definition_lines_iff`).
-/

namespace TypeOutline

/-! ## Lines -/

namespace Simple

/-- The lines of the definition of a record, by the trees of its members. -/
def definitionLines (o : RenderOptions) (name : String) (defect : Option Defect)
    (members : List (Rose Attributes)) : List String :=
  let path :=
    [typeRefsName, quoteSegment (markDefect defect (segmentOf name Generic.struct.token ""))]
  (pathLine path defect ::
    treeLinesAll o path (Rose.shownAll o (Rose.orderedAll (·.name) members))).filter (· ≠ "")

end Simple

theorem length_quoteSegment_le (segment : String) : (quoteSegment segment).length ≤
    (quoteSegment ("!" ++ segment ++ "!")).length := by
  have hone : "!".length = 1 := rfl
  have hdot : ("!" ++ segment ++ "!").toList.contains '.' = segment.toList.contains '.' := by
    simp
  have hquoted : (Text.quoted segment).length ≤ (Text.quoted ("!" ++ segment ++ "!")).length := by
    rw [Text.quoted, Text.quoted, String.length_ofList, String.length_ofList,
      String.toList_append, String.toList_append, List.flatMap_append, List.flatMap_append]
    simp only [List.length_cons, List.length_append]
    omega
  unfold quoteSegment
  rw [hdot]
  split
  · exact hquoted
  · rw [String.length_append, String.length_append, hone]
    omega

theorem pathLine_pair (top segment : String) (defect : Option Defect) :
    pathLine [top, segment] defect =
      top ++ "." ++ segment ++ defect.elim "" fun d => " ERROR:" ++ d.message := rfl

/-- The line of a definition that failed is longer than it would be otherwise. -/
theorem length_pathLine_lt (top segment : String) (defect : Defect) :
    (pathLine [top, quoteSegment (markDefect none segment)] none).length <
      (pathLine [top, quoteSegment (markDefect (some defect) segment)] (some defect)).length := by
  have hle := length_quoteSegment_le segment
  have herror : " ERROR:".length = 7 := rfl
  simp only [pathLine_pair, markDefect, Option.isSome_none, Option.isSome_some,
    Bool.false_eq_true, if_false, if_true, Option.elim_none, Option.elim_some,
    String.length_append, String.append_empty, herror]
  omega

theorem pathLine_ne_empty (top segment : String) (defect : Option Defect) :
    pathLine [top, segment] defect ≠ "" := by
  intro h
  have hlength := congrArg String.length h
  have hdot : ".".length = 1 := rfl
  have hempty : "".length = 0 := rfl
  simp only [pathLine_pair, String.length_append, hdot, hempty] at hlength
  omega

namespace Simple

variable {o : RenderOptions} {name : String} {ts us : List (Rose Attributes)}

theorem head?_definitionLines (o : RenderOptions) (name : String) (defect : Option Defect)
    (ts : List (Rose Attributes)) : (definitionLines o name defect ts).head? =
      some (pathLine [typeRefsName, quoteSegment
        (markDefect defect (segmentOf name Generic.struct.token ""))] defect) := by
  rw [definitionLines, List.filter_cons_of_pos, List.head?_cons]
  exact decide_eq_true (pathLine_ne_empty _ _ _)

/-- The lines of a definition tell whether it failed. -/
theorem definitionLines_ne (defect : Defect) :
    definitionLines o name none ts ≠ definitionLines o name (some defect) us := by
  intro h
  have hhead := congrArg List.head? h
  rw [head?_definitionLines, head?_definitionLines] at hhead
  have hlength := congrArg String.length (Option.some.inj hhead)
  exact Nat.ne_of_lt (length_pathLine_lt _ _ defect) hlength

end Simple

/-! ## The definition of a record -/

namespace Attributes

/-- What the node of a defined record shows. -/
theorem segment_definition {a : Attributes} {n : String} (o : RenderOptions)
    (hgeneric : a.generic = .struct) (hname : a.native.typeRef = n) :
    Simple.segment o a.definition = markDefect a.defect (segmentOf n Generic.struct.token "") := by
  have hdefinition : a.definition.name = n := hname
  have hpath : a.definition.pathType = Generic.struct.token := by
    have h : a.definition.generic = .struct := hgeneric
    rw [pathType, category, h]
    rfl
  rw [Simple.segment, hdefinition, hpath, typeRef_definition, shownRef, ite_self]
  rfl

end Attributes

section Lines

variable {types : Types} {s : Schema} {d : NodeId} {out : Outline} {o : RenderOptions}

/-- The lines of a definition that was made of the node of a record. -/
theorem lines_of_definition (hs : s.Linked) (hrenders : s.Renders out)
    (hd : d ∈ s.children s.typeRefs) {t : Rose Attributes} {n : String}
    (htree : s.tree d = t.definition) (hgeneric : t.label.generic = .struct)
    (hname : t.label.native.typeRef = n) : Simple.lines s o d =
      Simple.definitionLines o n t.label.defect (Rose.cutAll t.children) := by
  have htop : (s.attrs s.typeRefs).name = typeRefsName := by
    rw [← Schema.label_tree, hrenders.typeRefs_eq]
    rfl
  obtain ⟨a, ts⟩ := t
  change a.generic = .struct at hgeneric
  change a.native.typeRef = n at hname
  have hexpands : Schema.expands o a.definition = true := by
    rw [Schema.expands, Schema.isReference_definition, Bool.not_false, Bool.or_true]
  have hroot : ¬ a.definition.isRoot = true := by
    have h : a.definition.generic = .struct := hgeneric
    rw [Attributes.isRoot, h]
    decide
  rw [Schema.lines_eq hs hs.typeRefs_lt hs.parent?_typeRefs .refl hd,
    Schema.path_top hs hs.typeRefs_lt hs.parent?_typeRefs, htop, Schema.shownTree, htree,
    Rose.definition, Rose.ordered_node, Rose.shown, if_pos hexpands, Simple.treeLines,
    if_neg hroot, a.segment_definition o hgeneric hname]
  rfl

end Lines

/-! ## The main result -/

section Main

variable {types : Types} {v v' t : Value} {p p' : Site} {l : Layer} {fields : List (Field Value)}
  {n : String}

/-- The definition of a record that is met once, by its members there. -/
theorem exists_definitionLines {out : Outline} {f : Finished} (o : RenderOptions)
    (ho : Outlines types (.start v) out) (h : out.MeetsOnce types t n f)
    (hl : t.layer? types = some l) (hshape : l.shape = .record fields)
    (hfields : ∃ g ∈ fields, g.exported = true) (hne : n ≠ "") :
    f.site.attrs.Arrives ∧ ∃ s d, derive? types v = some s
      ∧ s.childByName? s.typeRefs n = some d ∧ s.elementLines .simple o none d =
        Simple.definitionLines o n f.site.attrs.defect (Rose.cutAll f.tree.children) := by
  obtain ⟨-, path, depth, content, hpath, henters, htree⟩ := h.exists_enters ho hl
  obtain ⟨s, hs, hrenders⟩ := derive?_of_outlines ho
  have hlinked := linked_of_derive? hs
  obtain ⟨d, hd, hfound, hdefinition⟩ :=
    exists_definition_of_meetsOnce hlinked hrenders ho h hl hshape hne
  have hlabel : f.tree.label = f.site.attrs.head .struct (.enters (some n)) := by
    rw [htree]
    exact label_tree_of_record henters hshape hfields
  refine ⟨arrives_of_reaches hpath (.inl rfl), s, d, hs, hfound, ?_⟩
  rw [← defect_head_enters f.site.attrs .struct (some n), ← hlabel]
  refine lines_of_definition hlinked hrenders hd hdefinition ?_ ?_
  · rw [hlabel, generic_head]
    rfl
  · rw [hlabel, Attributes.typeRef_head]
    rfl

/-- A record that is met once in each of two values, below names that do not occur in it, is defined
by the same lines if it is met under a repeated map key in both or in neither, and only then. -/
theorem derive?_definition_lines_iff (e e' : Engine) (o : RenderOptions)
    (hl : t.layer? types = some l) (hshape : l.shape = .record fields)
    (hfields : ∃ f ∈ fields, f.exported = true) (hne : n ≠ "")
    (hp : v.MeetsOnce types t n p) (hp' : v'.MeetsOnce types t n p') :
    p.attrs.Arrives ∧ p'.attrs.Arrives
      ∧ ∃ s s' d d', (e.derive? types v).1 = some s ∧ (e'.derive? types v').1 = some s'
        ∧ s.childByName? s.typeRefs n = some d ∧ s'.childByName? s'.typeRefs n = some d'
        ∧ (s.elementLines .simple o none d = s'.elementLines .simple o none d'
          ↔ p.attrs.defect = p'.attrs.defect) := by
  obtain ⟨out, f, ho, hf, rfl⟩ := hp
  obtain ⟨out', f', ho', hf', rfl⟩ := hp'
  obtain ⟨harrives, s, d, hs, hd, hlines⟩ := exists_definitionLines o ho hf hl hshape hfields hne
  obtain ⟨harrives', s', d', hs', hd', hlines'⟩ :=
    exists_definitionLines o ho' hf' hl hshape hfields hne
  refine ⟨harrives, harrives', s, s', d, d', hs, hs', hd, hd', ?_⟩
  rw [hlines, hlines']
  constructor
  · intro h
    rcases harrives with hdefect | hdefect <;> rcases harrives' with hdefect' | hdefect' <;>
      rw [hdefect, hdefect'] at h ⊢
    · exact absurd h (Simple.definitionLines_ne _)
    · exact absurd h.symm (Simple.definitionLines_ne _)
  · intro hdefect
    rw [children_eq_of_meetsOnce ho ho' hf hf' hl hshape hfields hdefect, hdefect]

end Main

/-- A record of one number. -/
def pointTypes : Types :=
  ⟨[("Point", .layer (some "Point")
    (.record [{ name := "X", value := .ofShape (.scalar .i64) }]))], by decide⟩

def point : Value := .declared none "Point"

/-- A point under a key, after another key. -/
def pointEntries (key : String) : List (String × Value) :=
  [(key, .ofShape (.scalar .i64)), ("point", point)]

def pointAfter (key : String) : Value := .ofShape (.map .string "String" (pointEntries key))

theorem exists_meetsOnce_pointAfter (key : String) (defect : Option Defect)
    {ms : List Schema.Member}
    (hms : Schema.members (pointEntries key) = ms)
    (h : ((Content.each (({ name := "" } : Attributes).head .map (.enters none))
        (ms.map fun m => (m.attributes, m.value))).outline (outline pointTypes 2) true ∅).map
          (fun o => (o.finished.filter fun f => f.level.declares? = some "Point").map fun f =>
            (match f.site.value with
              | .declared none type => some type
              | _ => none, f.site.above, f.site.attrs.defect)) =
      some [(some "Point", ∅, defect)]) :
    ∃ p, (pointAfter key).MeetsOnce pointTypes point "Point" p ∧ p.attrs.defect = defect := by
  obtain ⟨o, ho, hfinished⟩ := Option.map_eq_some_iff.mp h
  obtain ⟨f, hfilter, hf⟩ := List.map_eq_singleton_iff.mp hfinished
  obtain ⟨hvalue, habove, hdefect⟩ : _ ∧ f.site.above = ∅ ∧ f.site.attrs.defect = defect := by
    simpa only [Prod.mk.injEq] using hf
  -- the order of the entries is a hypothesis, as a sort does not evaluate
  have houtline : outline pointTypes 3 (.start (pointAfter key)) =
      some (o.finish (.start (pointAfter key)) 
        ⟨none, .map .string "String" (pointEntries key)⟩) := by
    rw [outline_of_enters rfl rfl, Option.map_eq_some_iff]
    refine ⟨o, ?_, rfl⟩
    rw [← ho, ← hms]
    rfl
  refine ⟨f.site, ⟨_, f, ⟨3, houtline⟩, ⟨?_, ?_, ?_⟩, rfl⟩, hdefect⟩
  · rw [Outline.finish, List.filter_append, hfilter]
    rfl
  · split at hvalue
    · rename_i hdeclared
      rw [hdeclared, Option.some.inj hvalue]
      rfl
    · cases hvalue
  · rw [habove]
    exact fun n hn => absurd hn (Finset.notMem_empty n)

/-- A point is defined without its member if its key repeats another one. -/
theorem derive?_definition_lines_iff_point : ∃ s s' d d',
    (({} : Engine).derive? pointTypes (pointAfter "Point")).1 = some s
      ∧ (({} : Engine).derive? pointTypes (pointAfter "Name")).1 = some s'
      ∧ s.childByName? s.typeRefs "Point" = some d ∧ s'.childByName? s'.typeRefs "Point" = some d'
      ∧ s.elementLines .simple {} none d ≠ s'.elementLines .simple {} none d' := by
  obtain ⟨p, hp, hdefect⟩ := exists_meetsOnce_pointAfter "Point" (some .duplicateMapKey)
    (members_of_pairwise (by decide +kernel)) (by decide +kernel)
  obtain ⟨p', hp', hdefect'⟩ := exists_meetsOnce_pointAfter "Name" none
    (members_of_pairwise (by decide +kernel)) (by decide +kernel)
  have hfields : ∃ f ∈ [({ name := "X", value := .ofShape (.scalar .i64) } : Field Value)],
      f.exported = true := ⟨_, List.mem_singleton_self _, rfl⟩
  have hlayer : point.layer? pointTypes =
      some ⟨some "Point", .record [{ name := "X", value := .ofShape (.scalar .i64) }]⟩ := rfl
  obtain ⟨-, -, s, s', d, d', hs, hs', hd, hd', hiff⟩ :=
    derive?_definition_lines_iff {} {} {} hlayer rfl hfields (by decide) hp hp'
  refine ⟨s, s', d, d', hs, hs', hd, hd', fun h => ?_⟩
  have hsame := hiff.mp h
  rw [hdefect, hdefect'] at hsame
  cases hsame

end TypeOutline
