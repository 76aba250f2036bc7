import TypeOutline.Proofs.Derivation.Gaps
import TypeOutline.Proofs.Derivation.Nodes
import TypeOutline.Proofs.Derivation.Numbering
import TypeOutline.Proofs.Derivation.Relabelling

/-!
# One value in the place of another

A value in which one part is another one (`Value.Exchanged`). If both
parts leave the same on their node but for its attributes
(`Interchange`), then the schemas of the two values are the same but for
the attributes of one node in each tree (`derive?_of_exchanged`), and
there it is the node of the part, or a copy of it, that differs
(`NodesOf`). What a part leaves may depend on whether its node has failed
before. That is known from where the part stands (`Shape.Gap.fails`).

The way down to the parts is followed once. On a level above them the
members but one are the same (`Content.Gap`), and what is finished there
is recorded with the same effect (`Outline.Agrees`).
-/

namespace TypeOutline

variable {types : Types} {r : Attributes → Attributes → Prop}

/-! ## Outlines that differ in one node -/

namespace Outline

variable {o o' : Outline}

theorem relabels_branch (h : o.tree.Relabels r o'.tree) (a : Attributes)
    (lower upper : List Outline) :
    (Outline.branch a (lower ++ o :: upper)).tree.Relabels r
      (Outline.branch a (lower ++ o' :: upper)).tree := by
  simp only [Outline.branch, List.map_append, List.map_cons]
  exact .child a _ h _

/-- Of a list the member may be the one that is kept. -/
theorem relabels_list (h : o.tree.Relabels r o'.tree) (a : Attributes) (kinds : Dictionary Nat)
    (lower upper : List Outline) :
    (Outline.list a (lower ++ o :: upper) kinds).tree.Relabels r
      (Outline.list a (lower ++ o' :: upper) kinds).tree := by
  unfold Outline.list
  split
  · exact .refl _
  · cases lower with
    | nil => exact .child a [] h []
    | cons q lower => exact .refl _

/-- The trees differ in one node, and so do the definitions that what is finished leads to. -/
structure Agrees (r : Attributes → Attributes → Prop) (o o' : Outline) : Prop where
  tree : o.tree.Relabels r o'.tree
  registry : ∀ R S, AgreeBut r [] R S →
    AgreeBut r [] (recordAll R o.finished) (recordAll S o'.finished)

theorem Agrees.registry_flatMap (hr : Attributes.Unnoticed r) (h : o.Agrees r o')
    (lower upper : List Outline) (R S : List (Rose Attributes)) (hRS : AgreeBut r [] R S) :
    AgreeBut r [] (recordAll R ((lower ++ o :: upper).flatMap (·.finished)))
      (recordAll S ((lower ++ o' :: upper).flatMap (·.finished))) := by
  simp only [List.flatMap_append, List.flatMap_cons, recordAll_append]
  exact (h.registry _ _ (hRS.recordAll hr (relabels_refl _))).recordAll hr (relabels_refl _)

theorem congruence_agrees (hr : Attributes.Unnoticed r)
    (hlabel : ∀ a b, r a b → a.typeLabel = b.typeLabel) : Congruence (Agrees r) where
  refl o := ⟨.refl _, fun _ _ h => h.recordAll hr (relabels_refl _)⟩
  typeLabel_eq h := h.tree.label_eq hlabel
  branch h a lower upper :=
    ⟨relabels_branch h.tree a lower upper, h.registry_flatMap hr lower upper⟩
  list h a kinds lower upper :=
    ⟨relabels_list h.tree a kinds lower upper, h.registry_flatMap hr lower upper⟩
  finish h p p' l l' := ⟨h.tree, fun R S hRS => by
    simp only [Outline.finish, recordAll_append, recordAll_singleton]
    exact (h.registry R S hRS).record hr h.tree⟩

end Outline

theorem record_of_settled {R : List (Rose Attributes)} {t : Rose Attributes}
    (h : Settled R t.label) : record R t = R := by
  unfold record
  split
  · rfl
  · rename_i n hn
    exact if_pos (h n hn)

/-- A level that is finished again on its node defines nothing new. -/
theorem record_recordAll {t : Rose Attributes} :
    ∀ {fs : List Finished} (R : List (Rose Attributes)),
      (∀ f ∈ fs, f.tree = t) → record (recordAll R fs) t = record R t
  | [], _, _ => rfl
  | f :: fs, R, h => by
      obtain ⟨rfl, hfs⟩ := List.forall_mem_cons.mp h
      refine (record_recordAll (record R f.tree) hfs).trans ?_
      exact record_of_settled fun n hn => defined_record hn

namespace Outline

/-- The outlines are the same but for the node on top, where the attributes are related: what is
finished below it is the same, and the levels on it have its tree. -/
structure SameBut (r : Attributes → Attributes → Prop) (o o' : Outline) : Prop where
  label : r o.tree.label o'.tree.label
  children_eq : o'.tree.children = o.tree.children
  finished : ∃ below here here', o.finished = below ++ here ∧ o'.finished = below ++ here'
    ∧ (∀ f ∈ here, f.tree = o.tree) ∧ ∀ f ∈ here', f.tree = o'.tree

variable {o o' : Outline}

theorem sameBut_node {a b : Attributes} (h : r a b) (ts : List (Rose Attributes))
    (fs : List Finished) : (⟨.node a ts, fs⟩ : Outline).SameBut r ⟨.node b ts, fs⟩ where
  label := h
  children_eq := rfl
  finished := ⟨fs, [], [], (List.append_nil fs).symm, (List.append_nil fs).symm,
    fun _ hf => absurd hf List.not_mem_nil, fun _ hf => absurd hf List.not_mem_nil⟩

theorem SameBut.finish (h : o.SameBut r o') (p p' : Site) (l l' : Layer) :
    (o.finish p l).SameBut r (o'.finish p' l') := by
  obtain ⟨below, here, here', ho, ho', hhere, hhere'⟩ := h.finished
  refine ⟨h.label, h.children_eq, below, here ++ [⟨p, l, o.tree⟩], here' ++ [⟨p', l', o'.tree⟩],
    ?_, ?_, ?_, ?_⟩
  · rw [Outline.finish, ho, List.append_assoc]
  · rw [Outline.finish, ho', List.append_assoc]
  · exact List.forall_mem_append.mpr ⟨hhere, List.forall_mem_singleton.mpr rfl⟩
  · exact List.forall_mem_append.mpr ⟨hhere', List.forall_mem_singleton.mpr rfl⟩

theorem SameBut.relabels (h : o.SameBut r o') : o.tree.Relabels r o'.tree := by
  obtain ⟨⟨a, ts⟩, fs⟩ := o
  obtain ⟨⟨b, us⟩, gs⟩ := o'
  obtain rfl : us = ts := h.children_eq
  exact .here h.label us

/-- When the nodes are finished it makes no difference how many levels were finished on them
before. -/
theorem SameBut.agrees_finish (hr : Attributes.Unnoticed r) (h : o.SameBut r o') (p p' : Site)
    (l l' : Layer) : (o.finish p l).Agrees r (o'.finish p' l') := by
  obtain ⟨below, here, here', ho, ho', hhere, hhere'⟩ := h.finished
  refine ⟨h.relabels, fun R S hRS => ?_⟩
  simp only [Outline.finish, ho, ho', recordAll_append, recordAll_singleton,
    record_recordAll _ hhere, record_recordAll _ hhere']
  exact (hRS.recordAll hr (relabels_refl below)).record hr h.relabels

end Outline

/-- Where no level above has named the node, its type is defined as soon as it is derived. So it
does not matter there that the level is finished once more. -/
theorem agrees_of_finish {p p' : Site} {o o' : Outline} (ho : Outlines types p o)
    (ho' : Outlines types p' o') (hp : p.attrs.native.typeRef = "")
    (hp' : p'.attrs.native.typeRef = "")
    (h : ∀ p p' l l', (o.finish p l).Agrees r (o'.finish p' l')) : o.Agrees r o' := by
  obtain ⟨depth, ho⟩ := ho
  obtain ⟨depth', ho'⟩ := ho'
  have hfinish := h p p' ⟨none, .nil⟩ ⟨none, .nil⟩
  refine ⟨hfinish.tree, fun R S hRS => ?_⟩
  have hrecorded := hfinish.registry R S hRS
  simp only [Outline.finish, recordAll_append, recordAll_singleton] at hrecorded
  rwa [record_of_settled ((settled_of_outline types depth ho R).2 hp),
    record_of_settled ((settled_of_outline types depth' ho' S).2 hp')] at hrecorded

/-- One level: values that show levels of one name and one kind, on one node. -/
theorem exists_outline_of_level {R : Outline → Outline → Prop} (hrefl : ∀ o, R o o) {v w : Value}
    {l l' : Layer} {depth depth' : Nat} {a : Attributes} {top : Bool} {above : Finset String}
    (hv : v.layer? types = some l) (hw : w.layer? types = some l')
    (hname : l.typeName = l'.typeName) (hkind : l.shape.kind = l'.shape.kind)
    (hcontent : ∀ o, l.ruling top above = .enters l.declares? →
      (l.shape.content (a.head l.shape.kind (.enters l.declares?))).outline
        (outline types depth) top (declaredBelow above l.declares?) = some o →
      ∃ o', (l'.shape.content (a.head l.shape.kind (.enters l.declares?))).outline
          (outline types depth') top (declaredBelow above l.declares?) = some o'
        ∧ ∀ p p', R (o.finish p l) (o'.finish p' l'))
    {o : Outline} (ho : outline types (depth + 1) ⟨a, top, above, v⟩ = some o) :
    ∃ o', outline types (depth' + 1) ⟨a, top, above, w⟩ = some o' ∧ R o o' := by
  have hruling : l.ruling top above = l'.ruling top above := ruling_congr hname hkind top above
  obtain ⟨l₀, hl₀, hcases⟩ := outline_succ_cases ho
  obtain rfl := Option.some.inj (hv.symm.trans hl₀)
  rcases hcases with ⟨hrefused, rfl⟩ | ⟨name, o, hr, hout, rfl⟩
  · refine ⟨_, outline_of_refused hw (fun name => hruling ▸ hrefused name) depth', ?_⟩
    rw [hruling, hkind]
    exact hrefl _
  · obtain ⟨hdeclares, -⟩ := declares?_of_enters hr
    subst hdeclares
    obtain ⟨o', ho', hfinish⟩ := hcontent o hr hout
    refine ⟨o'.finish ⟨a, top, above, w⟩ l', ?_, hfinish _ _⟩
    rw [outline_of_enters hw (hruling.symm.trans hr), ← hkind, ho']
    rfl

/-! ## The way down -/

namespace Value

variable {x y v w : Value} {n : Nat} {hole failed : Bool}

/-- The value `w` is `v` but for one value in it, which is `x` in `v` and `y` in `w`. The last flag
says whether the node of `v` has failed before, and `hole` says it of the node of `x`. -/
inductive Exchanged (types : Types) (x y : Value) (hole : Bool) : Bool → Value → Value → Prop
  | here : Exchanged types x y hole hole x y
  | part {failed : Bool} {v w v' w' : Value} {name : Option String} (g : Shape.Gap)
      (hv : v.layer? types = some ⟨name, g.fill v'⟩) (hw : w.layer? types = some ⟨name, g.fill w'⟩)
      (h : Exchanged types x y hole (g.fails failed) v' w') :
      Exchanged types x y hole failed v w

/-- Derived on one node, the values leave the same there but for the attributes of the node, which
are related. The second value is derived in at most `n` more steps. The flag says whether the node
may have failed before. -/
def Interchange (types : Types) (r : Attributes → Attributes → Prop) (n : Nat) (hole : Bool)
    (x y : Value) : Prop :=
  ∀ depth a top above o, (a.defect.isSome = true → hole = true) →
    outline types depth ⟨a, top, above, x⟩ = some o →
      ∃ o', outline types (depth + n) ⟨a, top, above, y⟩ = some o' ∧ o.SameBut r o'

end Value

/-! ## The node of the part -/

namespace Attributes

/-- What a copy shows of a node: it may have lost the failure of the node, or be a definition. -/
inductive CopiedTo : Attributes → Attributes → Prop
  | refl (a : Attributes) : CopiedTo a a
  | clear {a b : Attributes} (h : CopiedTo a b) : CopiedTo a { b with defect := none }
  | definition {a b : Attributes} (h : CopiedTo a b) : CopiedTo a b.definition

/-- The walks over `v` and `w` meet the parts `x` and `y` in one position. The nodes are those on
which the parts are derived there, or copies of them, and they are related. -/
structure NodesOf (types : Types) (v x w y : Value) (r : Attributes → Attributes → Prop)
    (a b : Attributes) : Prop where
  related : r a b
  met : ∃ path path' p o o', p.value = x ∧ Reaches types (.start v) path p
    ∧ Reaches types (.start w) path' { p with value := y } ∧ Outlines types p o
    ∧ Outlines types { p with value := y } o' ∧ o.tree.label.CopiedTo a ∧ o'.tree.label.CopiedTo b

theorem unnoticed_nodesOf (hr : Unnoticed r) (v x w y : Value) :
    Unnoticed (NodesOf types v x w y r) where
  name_eq a b h := hr.name_eq a b h.related
  typeRef_eq a b h := hr.typeRef_eq a b h.related
  isCyclical_eq a b h := hr.isCyclical_eq a b h.related
  clear a b h := by
    obtain ⟨path, path', p, o, o', hp, hv, hw, ho, ho', ha, hb⟩ := h.met
    exact ⟨hr.clear a b h.related, path, path', p, o, o', hp, hv, hw, ho, ho', ha.clear, hb.clear⟩
  definition a b h := by
    obtain ⟨path, path', p, o, o', hp, hv, hw, ho, ho', ha, hb⟩ := h.met
    exact ⟨hr.definition a b h.related, path, path', p, o, o', hp, hv, hw, ho, ho', ha.definition,
      hb.definition⟩

end Attributes

open Attributes (NodesOf)

theorem Content.Gap.site_mem_sites (c : Content.Gap) (top : Bool) (above : Finset String)
    (v : Value) : c.site top above v ∈ (c.fill v).sites top above := by
  cases c with
  | same a => exact List.mem_singleton.mpr rfl
  | each a before b after => exact List.mem_map.mpr ⟨(b, v), by simp, rfl⟩
  | probed a before after => exact List.mem_map.mpr ⟨v, by simp, rfl⟩

namespace Value

variable {x y v w v₀ w₀ : Value} {n : Nat} {hole failed : Bool}

/-- What may be exchanged may be exchanged in a part of a value. -/
theorem Exchanged.exists_outline (hr : Attributes.Unnoticed r)
    (hlabel : ∀ a b, r a b → a.typeLabel = b.typeLabel) (hxy : Interchange types r n hole x y)
    (h : Exchanged types x y hole failed v w) : ∀ {depth : Nat} {a : Attributes} {top : Bool}
      {above : Finset String} {path path' : List Layer} {o : Outline},
      Reaches types (.start v₀) path ⟨a, top, above, v⟩ →
      Reaches types (.start w₀) path' ⟨a, top, above, w⟩ →
      (a.defect.isSome = true → failed = true) → outline types depth ⟨a, top, above, v⟩ = some o →
        ∃ o', outline types (depth + n) ⟨a, top, above, w⟩ = some o' ∧ ∀ p p' l l',
          (o.finish p l).Agrees (NodesOf types v₀ x w₀ y r) (o'.finish p' l') := by
  have hnodes : Attributes.Unnoticed (NodesOf types v₀ x w₀ y r) :=
    Attributes.unnoticed_nodesOf hr v₀ x w₀ y
  have hcong := Outline.congruence_agrees hnodes fun a b h => hlabel a b h.related
  induction h with
  | here =>
      intro depth a top above path path' o hpath hpath' ha ho
      obtain ⟨o', ho', hsame⟩ := hxy depth a top above o ha ho
      have hlabel : NodesOf types v₀ x w₀ y r o.tree.label o'.tree.label :=
        ⟨hsame.label, path, path', ⟨a, top, above, x⟩, o, o', rfl, hpath, hpath', ⟨depth, ho⟩,
          ⟨depth + n, ho'⟩, .refl _, .refl _⟩
      exact ⟨o', ho', Outline.SameBut.agrees_finish hnodes { hsame with label := hlabel }⟩
  | @part failed v w v' w' name g hv hw _ ih =>
      intro depth a top above path path' o hpath hpath' ha ho
      cases depth with
      | zero => cases ho
      | succ depth =>
          rw [Nat.add_right_comm]
          have hkind := g.kind_fill v' w'
          obtain ⟨o', ho', hoo⟩ : ∃ o', outline types (depth + n + 1) ⟨a, top, above, w⟩ = some o'
              ∧ o.Agrees (NodesOf types v₀ x w₀ y r) o' := by
            refine exists_outline_of_level hcong.refl hv hw rfl hkind (fun c hruling hc => ?_) ho
            have hruling' : Layer.ruling ⟨name, g.fill v'⟩ top above =
                Layer.ruling ⟨name, g.fill w'⟩ top above :=
              ruling_congr (by exact rfl) hkind top above
            have hmembers := members_of_enters (p := ⟨a, top, above, v⟩) hv hruling
            have hmembers' := members_of_enters (p := ⟨a, top, above, w⟩) hw
              (hruling'.symm.trans hruling)
            dsimp only at hc hmembers hmembers' ⊢
            rw [← hkind] at hmembers'
            generalize hhead : a.head _ _ = b at hc hmembers hmembers' ⊢
            have hb : b.defect = a.defect := by rw [← hhead, defect_head_enters]
            rcases exists_content_fill b g with ⟨content, hcontent⟩ | ⟨gap, hfits, hgap⟩
            · rw [hcontent] at hc ⊢
              refine ⟨c, ?_, fun p p' => hcong.finish (hcong.refl c) ..⟩
              exact Content.outline_congr (fun q _ o hq => outline_mono hq (Nat.le_add_right ..)) hc
            · rw [hgap] at hc hmembers hmembers' ⊢
              have hdefect : gap.node.defect.isSome = true → g.fails failed = true := fun hgap => by
                have hfails := hfits.fails hgap
                rw [hb] at hfails
                exact g.fails_mono ha hfails
              obtain ⟨c', hc', hfinish⟩ := gap.exists_outline hcong
                (fun _ _ hq => outline_mono hq (Nat.le_add_right depth n)) (fun q hq => by
                  obtain ⟨q', hq', hfinish⟩ := ih
                    (hpath.member hv (hmembers ▸ gap.site_mem_sites ..))
                    (hpath'.member hw (hmembers' ▸ gap.site_mem_sites ..)) hdefect hq
                  exact ⟨q', hq', hfinish, fun hapart => agrees_of_finish ⟨_, hq⟩ ⟨_, hq'⟩
                    (hfits.blank hapart) (hfits.blank hapart) hfinish⟩) hc
              exact ⟨c', hc', fun p p' => hfinish ..⟩
          exact ⟨o', ho', hcong.finish hoo⟩

end Value

/-! ## Schemas that differ in one node -/

namespace Rose

variable {t u : Rose Attributes} {a b : Attributes} {ts us : List (Rose Attributes)}

theorem Relabels.shape_eq (h : t.Relabels r u) : t.shape = u.shape :=
  h.map_eq fun _ _ _ => rfl

theorem shape_eq_of_forall₂ (h : List.Forall₂ (Relabels r) ts us) :
    (node a ts).shape = (node b us).shape := by
  rw [Rose.shape, Rose.shape, Rose.map, Rose.map, Rose.mapAll_eq_map, Rose.mapAll_eq_map,
    map_eq_of_forall₂ h fun _ _ _ htu => htu.map_eq fun _ _ _ => rfl]

end Rose

end TypeOutline
