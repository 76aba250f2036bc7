import TypeOutline.Proofs.Derivation.Faithful
import TypeOutline.Proofs.Derivation.Sight

/-!
# Values under other tags

Two values that differ in the tags of members have outlines that look
alike (`rel_outline`): a level is ruled by its kind and its declared name,
its members start from nodes alike, and what is counted of the elements of
a list is a label that can be seen. So one derivation ends exactly if the
other does, and both trees of both schemas look alike (`rel_derive?_like`).
How much looks alike depends on what the tags agree in: `T` relates the
tags, `ds` are the dialects that are read.
-/

namespace TypeOutline

/-- Positions with nodes alike and values alike, below the same names. -/
structure Site.Alike (ds : List String) (T : String → String → Prop) (p q : Site) : Prop where
  attrs : p.attrs.Alike ds q.attrs
  top_eq : p.top = q.top
  above_eq : p.above = q.above
  value : p.value.Like T q.value

/-- Contents with nodes alike and members alike. -/
inductive Content.Like (ds : List String) (T : String → String → Prop) : Content → Content → Prop
  | leaf {a b : Attributes} : a.Alike ds b → Like ds T (.leaf a) (.leaf b)
  | same {a b : Attributes} {v w : Value} :
      a.Alike ds b → v.Like T w → Like ds T (.same a v) (.same b w)
  | each {a b : Attributes} {ms ns : List (Attributes × Value)} : a.Alike ds b →
      List.Forall₂ (fun m n => m.1.Alike ds n.1 ∧ m.2.Like T n.2) ms ns →
        Like ds T (.each a ms) (.each b ns)
  | probed {a b : Attributes} {vs ws : List Value} :
      a.Alike ds b → List.Forall₂ (Value.Like T) vs ws → Like ds T (.probed a vs) (.probed b ws)

/-- Outlines that look alike. -/
structure Outline.Alike (ds : List String) (o o' : Outline) : Prop where
  tree_eq : o.tree.map (Attributes.sight ds) = o'.tree.map (Attributes.sight ds)
  finished : List.Forall₂ (fun f g : Finished => f.tree.map (Attributes.sight ds) =
    g.tree.map (Attributes.sight ds)) o.finished o'.finished

variable {ds : List String} {T : String → String → Prop} {a b : Attributes}

/-! ## Contents -/

theorem forall₂_fields (hT : ∀ raw raw', T raw raw' → Tag.AgreeIn ds raw raw')
    {fs gs : List (Field Value)} (h : List.Forall₂ (Field.Like T (Value.Like T)) fs gs) :
    List.Forall₂ (fun m n : Attributes × Value => m.1.Alike ds n.1 ∧ m.2.Like T n.2)
      (fs.map fun f => (Schema.fieldAttributes f, f.value))
      (gs.map fun f => (Schema.fieldAttributes f, f.value)) := by
  rw [List.forall₂_map_left_iff, List.forall₂_map_right_iff]
  refine h.imp ?_
  rintro _ _ ⟨name, exported, htag, hvw⟩
  exact ⟨alike_fieldAttributes rfl (hT _ _ htag), hvw⟩

theorem forall₂_entries {ms ns : List Schema.Member}
    (h : List.Forall₂ (Schema.Member.Like (Value.Like T)) ms ns) :
    List.Forall₂ (fun m n : Attributes × Value => m.1.Alike ds n.1 ∧ m.2.Like T n.2)
      (ms.map fun m => (m.attributes, m.value)) (ns.map fun m => (m.attributes, m.value)) := by
  rw [List.forall₂_map_left_iff, List.forall₂_map_right_iff]
  refine h.imp ?_
  rintro _ _ ⟨name, key, repeated, hvw⟩
  exact ⟨.refl ds _, hvw⟩

/-- A node that failed gets no members. -/
theorem like_unless_failed (ha : a.Alike ds b) {c c' : Content} (h : c.Like ds T c') :
    (if a.defect.isSome then Content.leaf a else c).Like ds T
      (if b.defect.isSome then .leaf b else c') := by
  rw [ha.defect_eq]
  split
  · exact .leaf ha
  · exact h

/-- A map on nodes alike, with members alike. -/
theorem like_map (ha : a.Alike ds b) (key : Kind) (keyType : String)
    {es fs : List (String × Value)} (hempty : es.isEmpty = fs.isEmpty)
    (hmembers : List.Forall₂ (Schema.Member.Like (Value.Like T)) (Schema.members es)
      (Schema.members fs)) :
    ((Shape.map key keyType es).content a).Like ds T ((Shape.map key keyType fs).content b) := by
  rw [Shape.content, Shape.content, hempty]
  refine like_unless_failed ha ?_
  split
  · exact .leaf (ha.badKeys keyType)
  · split
    · exact .leaf (ha.fail _)
    · exact .each ha (forall₂_entries hmembers)

/-- Shapes alike on nodes alike have contents alike. -/
theorem like_content (hT : ∀ raw raw', T raw raw' → Tag.AgreeIn ds raw raw') (ha : a.Alike ds b)
    {shape shape' : Shape Value} (h : Shape.Like T (Value.Like T) shape shape') :
    (shape.content a).Like ds T (shape'.content b) := by
  cases h with
  | scalar kind => exact .leaf (ha.settleScalar kind)
  | @list fixed vs ws zero zero' hvs hzero =>
      have hlen := ha.modifyOptions (·.set "len" (toString vs.length))
        (·.set "len" (toString ws.length))
      rw [Shape.content, Shape.content, isEmpty_eq_of_forall₂ hvs]
      refine like_unless_failed hlen ?_
      split
      · exact .each hlen (.cons ⟨.refl ds _, hzero⟩ .nil)
      · exact .probed hlen hvs
  | record hfs =>
      have hexported := forall₂_filter_exported hfs
      rw [Shape.content, Shape.content, isEmpty_eq_of_forall₂ hfs]
      refine like_unless_failed ha ?_
      split
      · exact .leaf (ha.fail _)
      · rw [isEmpty_eq_of_forall₂ hexported]
        split
        · exact .leaf (ha.fail _)
        · exact .each ha (forall₂_fields hT hexported)
  | map key keyType hes =>
      exact like_map ha key keyType (isEmpty_eq_of_forall₂ hes) (Schema.forall₂_members hes)
  | permuted key keyType hkeys hperm hes =>
      refine like_map ha key keyType (hperm.isEmpty_eq.trans (isEmpty_eq_of_forall₂ hes)) ?_
      rw [Schema.members_eq_of_perm hkeys hperm]
      exact Schema.forall₂_members hes
  | absent hzero =>
      have hnil := ha.modifyOptions (·.setBool "is_nil" true) (·.setBool "is_nil" true)
      exact like_unless_failed hnil (.same hnil.nullable hzero)
  | present hvw hzero =>
      have hnil := ha.modifyOptions (·.setBool "is_nil" false) (·.setBool "is_nil" false)
      exact like_unless_failed hnil (.same hnil.nullable hvw)
  | emptySlot => exact .leaf { ha.fail .nilInterface with generic_eq := rfl }
  | slot hvw => exact .same ha.nullable hvw
  | nil => exact .leaf ha

/-! ## Outlines -/

namespace Outline

theorem Alike.leaf (h : a.Alike ds b) : (Outline.leaf a).Alike ds (.leaf b) where
  tree_eq := congrArg (Rose.node · []) (Attributes.alike_iff.mp h)
  finished := .nil

theorem Alike.finish {o o' : Outline} (h : o.Alike ds o') (p q : Site) (l l' : Layer) :
    (o.finish p l).Alike ds (o'.finish q l') where
  tree_eq := h.tree_eq
  finished := List.rel_append h.finished (.cons h.tree_eq .nil)

theorem trees_eq {os os' : List Outline} (h : List.Forall₂ (Outline.Alike ds) os os') :
    Rose.mapAll (Attributes.sight ds) (os.map (·.tree)) =
      Rose.mapAll (Attributes.sight ds) (os'.map (·.tree)) := by
  rw [Rose.mapAll_eq_map, Rose.mapAll_eq_map, List.map_map, List.map_map]
  exact map_eq_of_forall₂ h fun o _ o' ho => ho.tree_eq

theorem forall₂_finished {os os' : List Outline} (h : List.Forall₂ (Outline.Alike ds) os os') :
    List.Forall₂ (fun f g : Finished => f.tree.map (Attributes.sight ds) =
        g.tree.map (Attributes.sight ds))
      (os.flatMap (·.finished)) (os'.flatMap (·.finished)) :=
  List.rel_flatMap h fun _ _ ho => ho.finished

theorem Alike.branch (h : a.Alike ds b) {os os' : List Outline}
    (hos : List.Forall₂ (Outline.Alike ds) os os') :
    (Outline.branch a os).Alike ds (.branch b os') where
  tree_eq := by
    rw [Outline.branch, Outline.branch, Rose.map, Rose.map, Attributes.alike_iff.mp h, trees_eq hos]
  finished := forall₂_finished hos

theorem Alike.list (h : a.Alike ds b) {os os' : List Outline}
    (hos : List.Forall₂ (Outline.Alike ds) os os') (kinds : Dictionary Nat) :
    (Outline.list a os kinds).Alike ds (.list b os' kinds) where
  tree_eq := by
    unfold Outline.list
    dsimp only
    split
    · rw [Rose.map, Rose.map, Attributes.alike_iff.mp (h.mixedKinds kinds)]
    · rw [Rose.map, Rose.map, Attributes.alike_iff.mp h, Rose.mapAll_eq_map, Rose.mapAll_eq_map,
        List.map_take, List.map_take, ← Rose.mapAll_eq_map, ← Rose.mapAll_eq_map, trees_eq hos]
  finished := forall₂_finished hos

/-- The elements of lists alike are counted alike, as the label of a type can be seen. -/
theorem rel_gather (ds : List String) {derive derive' : Value → Option Outline}
    (hderive : ∀ v w, v.Like T w → Option.Rel (Outline.Alike ds) (derive v) (derive' w))
    (kinds : Dictionary Nat) {vs ws : List Value} (h : List.Forall₂ (Value.Like T) vs ws) :
    Option.Rel (fun r r' => List.Forall₂ (Outline.Alike ds) r.1 r'.1 ∧ r.2 = r'.2)
      (gather derive vs kinds) (gather derive' ws kinds) := by
  induction h generalizing kinds with
  | nil => exact .some ⟨.nil, rfl⟩
  | cons hvw _ ih =>
      rw [gather, gather]
      refine rel_bind (hderive _ _ hvw) fun o o' _ ho => ?_
      dsimp only
      rw [(Rose.alike_label ho.tree_eq).typeLabel_eq]
      split
      · exact .some ⟨.cons ho .nil, rfl⟩
      · refine rel_bind (ih _) fun r r' _ hr => ?_
        exact .some ⟨.cons ho hr.1, hr.2⟩

end Outline

/-- Contents alike are derived alike. -/
theorem rel_content {derive derive' : Site → Option Outline}
    (hderive : ∀ p q, Site.Alike ds T p q → Option.Rel (Outline.Alike ds) (derive p) (derive' q))
    {c c' : Content} (h : c.Like ds T c') (top : Bool) (above : Finset String) :
    Option.Rel (Outline.Alike ds) (c.outline derive top above) (c'.outline derive' top above) := by
  cases h with
  | leaf ha => exact .some (.leaf ha)
  | same ha hvw => exact hderive _ _ ⟨ha, rfl, rfl, hvw⟩
  | each ha hms =>
      refine rel_bind (rel_mapM (fun m n hmn => ?_) hms) fun os os' _ hos => .some (.branch ha hos)
      exact hderive _ _ ⟨hmn.1, rfl, rfl, hmn.2⟩
  | probed ha hvs =>
      refine rel_bind (Outline.rel_gather ds (fun v w hvw => ?_) {} hvs) fun r r' _ hr => ?_
      · exact hderive _ _ ⟨.refl ds _, rfl, rfl, hvw⟩
      · obtain ⟨os, kinds⟩ := r
        obtain ⟨os', kinds'⟩ := r'
        obtain ⟨hos, rfl⟩ := hr
        exact .some (.list ha hos kinds)

/-- A level is ruled by its kind and its declared name. -/
theorem Layer.Like.ruling_eq {l l' : Layer} (h : l.Like T l') (top : Bool) (above : Finset String) :
    l.ruling top above = l'.ruling top above := by
  unfold Layer.ruling Layer.isUnsupported Layer.isMisplaced Layer.isWrapper Layer.declares?
  rw [h.shape.kind_eq, h.typeName_eq]

section Derivations

variable {types types' : Types}

/-- Positions alike have outlines that look alike. -/
theorem rel_outline (hT : ∀ raw raw', T raw raw' → Tag.AgreeIn ds raw raw')
    (ht : Types.Like T types types') (depth : Nat) : ∀ p q, Site.Alike ds T p q →
      Option.Rel (Outline.Alike ds) (outline types depth p) (outline types' depth q) := by
  induction depth with
  | zero => exact fun _ _ _ => .none
  | succ depth ih =>
      intro p q hpq
      rw [outline, outline]
      refine rel_bind (Value.layer?_like ht hpq.value) fun l l' _ hl => ?_
      have hhead := hpq.attrs.head l.shape.kind (l.ruling p.top p.above)
      dsimp only
      rw [← hpq.top_eq, ← hpq.above_eq, ← hl.ruling_eq, ← hl.shape.kind_eq]
      cases hr : l.ruling p.top p.above with
      | enters name =>
          rw [hr] at hhead
          refine rel_bind (rel_content ih (like_content hT hhead hl.shape) _ _) ?_
          exact fun o o' _ ho => .some (ho.finish p q l l')
      | _ =>
          rw [hr] at hhead
          exact .some (.leaf hhead)

/-- Both trees of the schemas look alike. -/
structure Schema.Alike (ds : List String) (s s' : Schema) : Prop where
  root_eq : (s.tree s.root).map (Attributes.sight ds) = (s'.tree s'.root).map (Attributes.sight ds)
  typeRefs_eq : (s.tree s.typeRefs).map (Attributes.sight ds) =
    (s'.tree s'.typeRefs).map (Attributes.sight ds)

/-- One derivation ends exactly if the other one does, and the schemas look alike. -/
theorem rel_derive?_like (hT : ∀ raw raw', T raw raw' → Tag.AgreeIn ds raw raw')
    (ht : Types.Like T types types') {v v' : Value} (hv : v.Like T v') :
    Option.Rel (Schema.Alike ds) (derive? types v) (derive? types' v') := by
  have hs := rel_derive? types v
  have hs' := rel_derive? types' v'
  have hstart : Site.Alike ds T (.start v) (.start v') := ⟨.refl ds _, rfl, rfl, hv⟩
  have ho := rel_outline hT ht (v.depthBound types) _ _ hstart
  rw [Value.depthBound_eq_of_like ht hv] at hs ho
  generalize derive? types v = x at hs ⊢
  generalize derive? types' v' = x' at hs' ⊢
  generalize outline types _ _ = y at hs ho
  generalize outline types' _ _ = y' at hs' ho
  cases ho with
  | none =>
      cases hs
      cases hs'
      exact .none
  | @some o o' ho =>
      cases hs with
      | @some s _ hs =>
          cases hs' with
          | @some s' _ hs' =>
              refine .some ⟨?_, ?_⟩
              · rw [hs.2.root_eq, hs'.2.root_eq, Rose.map, Rose.map, Rose.mapAll, Rose.mapAll,
                  ho.tree_eq]
                rfl
              · rw [hs.2.typeRefs_eq, hs'.2.typeRefs_eq, Rose.map, Rose.map, Rose.mapAll_eq_map,
                  Rose.mapAll_eq_map, recordAll_sight ho.finished rfl]

end Derivations

end TypeOutline
