import TypeOutline.Proofs.Derivation.Exchange

/-!
# Lists of one element

A list keeps the node of its first element, and the others are taken out
again. So a value in which a list has lost its other elements derives
like the value itself (`derive?_of_shortened`): the same tree with the
same ids, but for the length that the list is given. What an element that
is taken out has defined stays defined, though. If an element is the
first to define a type, the definition is lost with the element.

The proof follows the list down to where it stands (`Value.Shortened`).
On every level above it one member is another one (`Content.Gap`), and
what is finished on the way is the same but for the levels finished below
the elements that are lost (`Forgets`).
-/

namespace TypeOutline

open Attributes (Shortens)

variable {n : Nat} {kept dropped : Finished → Prop}

/-! ## What is not finished any more -/

/-- Some levels `gone` are not finished any more, all of them dropped ones, and if there are any,
the kept ones are finished before. The others have the same trees but for the length of a list. -/
inductive Forgets (n : Nat) (kept dropped : Finished → Prop) :
    List Finished → List Finished → Prop
  | intro {before before' after after' : List Finished} (gone : List Finished)
      (hbefore : List.Forall₂ (Finished.Relabels (Shortens n)) before before')
      (hafter : List.Forall₂ (Finished.Relabels (Shortens n)) after after')
      (hdropped : ∀ f ∈ gone, dropped f) (hkept : gone ≠ [] → ∀ f, kept f → f ∈ before) :
      Forgets n kept dropped (before ++ gone ++ after) (before' ++ after')

theorem Forgets.of_forall₂ {fs gs : List Finished}
    (h : List.Forall₂ (Finished.Relabels (Shortens n)) fs gs) : Forgets n kept dropped fs gs := by
  have hnone : Forgets n kept dropped (fs ++ [] ++ []) (gs ++ []) :=
    .intro [] h .nil (fun _ hf => absurd hf List.not_mem_nil) fun hne => absurd rfl hne
  simpa using hnone

theorem Forgets.surround {fs gs before before' after after' : List Finished}
    (h : Forgets n kept dropped fs gs)
    (hbefore : List.Forall₂ (Finished.Relabels (Shortens n)) before before')
    (hafter : List.Forall₂ (Finished.Relabels (Shortens n)) after after') :
    Forgets n kept dropped (before ++ (fs ++ after)) (before' ++ (gs ++ after')) := by
  obtain ⟨gone, hfirst, hlast, hdropped, hkept⟩ := h
  have hall := Forgets.intro gone (List.rel_append hbefore hfirst) (List.rel_append hlast hafter)
    hdropped fun hne f hf => List.mem_append_right _ (hkept hne f hf)
  simpa only [List.append_assoc] using hall

/-- The names that are lost are those that a dropped level defines anew. -/
theorem Forgets.agree {fs gs : List Finished} (h : Forgets n kept dropped fs gs) :
    ∃ lost, AgreeBut (Shortens n) lost (recordAll [] fs) (recordAll [] gs) ∧ ∀ name ∈ lost,
      (∃ f, dropped f ∧ f.Defines name ∧ f.tree.definition ∈ recordAll [] fs)
        ∧ ∀ f, kept f → ¬ f.Defines name := by
  obtain ⟨gone, hbefore, hafter, hdropped, hkept⟩ := h
  rename_i before before' after after'
  have hr := Attributes.unnoticed_shortens n
  obtain ⟨lost, hagree, hlost⟩ := ((agreeBut_nil _).recordAll hr hbefore).forget hr gone
  have hlater := hagree.recordAll hr hafter
  simp only [← recordAll_append] at hlater hlost
  refine ⟨lost, hlater, fun name hname => ?_⟩
  obtain ⟨hfresh, f, hf, hdefines, hmem⟩ := hlost name hname
  refine ⟨⟨f, hdropped f hf, hdefines, ?_⟩, fun g hg hdefines' => hfresh ?_⟩
  · obtain ⟨new, hnew, -⟩ := exists_recordAll_eq_append (recordAll [] (before ++ gone)) after
    rw [recordAll_append, hnew]
    exact List.mem_append_left new hmem
  · exact defined_recordAll_iff.mpr
      (.inr ⟨g, hkept (List.ne_nil_of_mem hf) g hg, hdefines'⟩)

namespace Outline

/-- The trees are the same but for the length of a list, and what is finished but for what is
dropped. -/
structure Forgets (n : Nat) (kept dropped : Finished → Prop) (o o' : Outline) : Prop where
  tree : o.tree.Relabels (Shortens n) o'.tree
  finished : TypeOutline.Forgets n kept dropped o.finished o'.finished

variable {o o' : Outline}

theorem Forgets.refl (o : Outline) : o.Forgets n kept dropped o :=
  ⟨.refl _, .of_forall₂ (relabels_refl _)⟩

theorem Forgets.typeLabel_eq (h : o.Forgets n kept dropped o') : o.typeLabel = o'.typeLabel :=
  h.tree.label_eq fun a b hab => by
    rw [hab.shortened]
    rfl

theorem Forgets.finish (h : o.Forgets n kept dropped o') (p p' : Site) (l l' : Layer) :
    (o.finish p l).Forgets n kept dropped (o'.finish p' l') where
  tree := h.tree
  finished := h.finished.surround .nil (.cons h.tree .nil)

theorem Forgets.flatMap_finished (h : o.Forgets n kept dropped o') (lower upper : List Outline) :
    TypeOutline.Forgets n kept dropped ((lower ++ o :: upper).flatMap (·.finished))
      ((lower ++ o' :: upper).flatMap (·.finished)) := by
  rw [List.flatMap_append, List.flatMap_append, List.flatMap_cons, List.flatMap_cons]
  exact h.finished.surround (relabels_refl _) (relabels_refl _)

theorem Forgets.branch (h : o.Forgets n kept dropped o') (a : Attributes)
    (lower upper : List Outline) : (Outline.branch a (lower ++ o :: upper)).Forgets n kept dropped
      (.branch a (lower ++ o' :: upper)) where
  tree := relabels_branch h.tree a lower upper
  finished := h.flatMap_finished lower upper

/-- Of a list the member may be the one that is kept. -/
theorem Forgets.list (h : o.Forgets n kept dropped o') (a : Attributes) (kinds : Dictionary Nat)
    (lower upper : List Outline) : (Outline.list a (lower ++ o :: upper) kinds).Forgets n kept
      dropped (.list a (lower ++ o' :: upper) kinds) where
  tree := relabels_list h.tree a kinds lower upper
  finished := h.flatMap_finished lower upper

theorem congruence_forgets (n : Nat) (kept dropped : Finished → Prop) :
    Congruence (Forgets n kept dropped) where
  refl := .refl
  typeLabel_eq := (·.typeLabel_eq)
  branch := (·.branch)
  list := (·.list)
  finish := (·.finish)

/-! ## Elements of one type -/

variable {derive : Value → Option Outline} {v w : Value}

/-- Elements of the type that is counted already are all derived. -/
theorem gather_uniform {l : String} : ∀ {vs : List Value} {count : Nat} {os : List Outline}
    {ks : Dictionary Nat}, (∀ y ∈ vs, ∀ o, derive y = some o → o.typeLabel = l) →
      gather derive vs (.single l count) = some (os, ks) →
        ks.size = 1 ∧ ∀ o ∈ os, ∃ y ∈ vs, derive y = some o
  | [], _, _, _, _, h => by
      obtain ⟨rfl, rfl⟩ := Prod.mk.inj (Option.some.inj h)
      exact ⟨rfl, fun o ho => absurd ho List.not_mem_nil⟩
  | y :: ys, count, os, ks, hl, h => by
      obtain ⟨hy, hys⟩ := List.forall_mem_cons.mp hl
      obtain ⟨q, hq, -⟩ := Option.bind_eq_some_iff.mp h
      rw [gather_same hq (hy q hq)] at h
      obtain ⟨⟨os', ks'⟩, hrest, heq⟩ := Option.map_eq_some_iff.mp h
      obtain ⟨rfl, rfl⟩ := Prod.mk.inj heq
      obtain ⟨hsize, hall⟩ := gather_uniform hys hrest
      refine ⟨hsize, List.forall_mem_cons.mpr ⟨⟨y, List.mem_cons_self, hq⟩, fun o ho => ?_⟩⟩
      obtain ⟨z, hz, hzo⟩ := hall o ho
      exact ⟨z, List.mem_cons_of_mem y hz, hzo⟩

/-- All elements of a list of one type are derived, the first one before the others. -/
theorem gather_oneType {l : String} {vs : List Value} {os : List Outline} {ks : Dictionary Nat}
    (hl : ∀ y ∈ v :: vs, ∀ o, derive y = some o → o.typeLabel = l)
    (h : gather derive (v :: vs) {} = some (os, ks)) :
    ks.size = 1 ∧ ∃ o others, os = o :: others ∧ derive v = some o
      ∧ ∀ q ∈ others, ∃ y ∈ vs, derive y = some q := by
  obtain ⟨hv, hvs⟩ := List.forall_mem_cons.mp hl
  obtain ⟨o, ho, -⟩ := Option.bind_eq_some_iff.mp h
  rw [gather_first ho, hv o ho] at h
  obtain ⟨⟨others, ks'⟩, hothers, heq⟩ := Option.map_eq_some_iff.mp h
  obtain ⟨rfl, rfl⟩ := Prod.mk.inj heq
  obtain ⟨hsize, hall⟩ := gather_uniform hvs hothers
  exact ⟨hsize, o, others, rfl, ho, hall⟩

end Outline

/-! ## A list that loses its other elements -/

namespace Value

variable {types : Types} {below above : Finset String} {x : Value} {xs : List Value} {v w : Value}

/-- The value `w` is `v` but for one list, whose elements are `x :: xs` in `v` and `x` alone in `w`.
The names `above` are declared above the values, and `below` above the elements of the list. -/
inductive Shortened (types : Types) (below : Finset String) (x : Value) (xs : List Value) :
    Finset String → Value → Value → Prop
  | here {above : Finset String} {v w : Value} {name : Option String} {fixed : Bool} {zero : Value}
      (hv : v.layer? types = some ⟨name, .list fixed (x :: xs) zero⟩)
      (hw : w.layer? types = some ⟨name, .list fixed [x] zero⟩)
      (hbelow : below =
        declaredBelow above (Layer.declares? ⟨name, .list fixed (x :: xs) zero⟩)) :
      Shortened types below x xs above v w
  | part {above : Finset String} {v w v' w' : Value} {name : Option String} (g : Shape.Gap)
      (hv : v.layer? types = some ⟨name, g.fill v'⟩) (hw : w.layer? types = some ⟨name, g.fill w'⟩)
      (h : Shortened types below x xs (declaredBelow above (Layer.declares? ⟨name, g.fill v'⟩))
        v' w') :
      Shortened types below x xs above v w

/-- The level is finished when the value is derived as an element of a list, below the names. -/
def Finishes (types : Types) (below : Finset String) (y : Value) (f : Finished) : Prop :=
  ∃ o, Outlines types (elementSite below y) o ∧ f ∈ o.finished

/-- Those of the values that can be derived as elements of a list all get one type. -/
def OneType (types : Types) (below : Finset String) (ys : List Value) : Prop :=
  ∃ l, ∀ y ∈ ys, ∀ o, Outlines types (elementSite below y) o → o.typeLabel = l

/-- The outlines forget what the other elements have finished. -/
def ForgetsAll (types : Types) (below : Finset String) (x : Value) (xs : List Value)
    (o o' : Outline) : Prop :=
  o.Forgets (xs.length + 1) (x.Finishes types below)
    (fun f => ∃ y ∈ xs, y.Finishes types below f) o'

/-- The list itself. -/
theorem exists_outline_list (htype : OneType types below (x :: xs)) {fixed : Bool} {zero : Value}
    {a : Attributes} (ha : a.generic = .list) {depth : Nat} {top : Bool} {o : Outline}
    (ho : ((Shape.list fixed (x :: xs) zero).content a).outline (outline types depth) top below =
      some o) :
    ∃ o', ((Shape.list fixed [x] zero).content a).outline (outline types depth) top below = some o'
      ∧ ∀ p p' l l', ForgetsAll types below x xs (o.finish p l) (o'.finish p' l') := by
  have hlength : Shortens (xs.length + 1) (a.setLength (xs.length + 1)) (a.setLength 1) :=
    Attributes.shortens_setLength ha _
  by_cases hdefect : a.defect = none
  · rw [content_list hdefect] at ho
    rw [content_list hdefect]
    obtain ⟨⟨os, ks⟩, hgather, ho⟩ := Option.bind_eq_some_iff.mp ho
    obtain rfl := Option.some.inj ho
    obtain ⟨l, hl⟩ := htype
    obtain ⟨hsize, q, others, rfl, hq, hall⟩ :=
      Outline.gather_oneType (fun y hy o ho => hl y hy o ⟨depth, ho⟩) hgather
    have hone : ¬ ks.size > 1 := by omega
    have htree : (Outline.list (a.setLength (xs.length + 1)) (q :: others) ks).tree.Relabels
        (Shortens (xs.length + 1))
        (Outline.list (a.setLength 1) [q] (.single q.typeLabel 1)).tree := by
      unfold Outline.list
      rw [if_neg hone]
      exact .here hlength [q.tree]
    refine ⟨.list (a.setLength 1) [q] (.single q.typeLabel 1), ?_, fun p p' l l' => ⟨htree, ?_⟩⟩
    · rw [Content.outline, gather_first hq]
      rfl
    · show Forgets _ _ _ ((q :: others).flatMap (·.finished) ++ [_])
        ([q].flatMap (·.finished) ++ [_])
      rw [List.flatMap_cons, List.flatMap_singleton]
      refine .intro _ (relabels_refl _) (.cons htree .nil) (fun f hf => ?_) fun _ f hf => ?_
      · obtain ⟨q', hq', hf⟩ := List.mem_flatMap.mp hf
        obtain ⟨y, hy, hyq⟩ := hall q' hq'
        exact ⟨y, hy, q', ⟨depth, hyq⟩, hf⟩
      · obtain ⟨q', hq', hf⟩ := hf
        rwa [Outlines.unique hq' ⟨depth, hq⟩] at hf
  · -- the node has failed before, and the elements are not looked at
    have hcontent : ∀ ys : List Value, (Shape.list fixed ys zero).content a =
        .leaf (a.setLength ys.length) := fun ys =>
      if_pos (Option.isSome_iff_ne_none.mpr hdefect)
    rw [hcontent] at ho ⊢
    obtain rfl := Option.some.inj ho
    have htree : (Rose.node (a.setLength (x :: xs).length) []).Relabels (Shortens (xs.length + 1))
        (.node (a.setLength [x].length) []) := .here hlength []
    exact ⟨_, rfl, fun p p' l l' => ⟨htree, .of_forall₂ (.cons htree .nil)⟩⟩

/-- The outline of a value in which a list has lost its other elements. -/
theorem Shortened.exists_outline (h : Shortened types below x xs above v w)
    (htype : OneType types below (x :: xs)) : ∀ (depth : Nat) (a : Attributes) (top : Bool)
    (o : Outline), outline types depth ⟨a, top, above, v⟩ = some o →
      ∃ o', outline types depth ⟨a, top, above, w⟩ = some o'
        ∧ ForgetsAll types below x xs o o' := by
  have hcong := Outline.congruence_forgets (xs.length + 1) (x.Finishes types below)
    fun f => ∃ y ∈ xs, y.Finishes types below f
  induction h with
  | @here above v w name fixed zero hv hw hbelow =>
      intro depth a top o ho
      cases depth with
      | zero => cases ho
      | succ depth =>
          refine exists_outline_of_level hcong.refl hv hw rfl (by cases fixed <;> rfl)
            (fun o _ ho => ?_) ho
          rw [← hbelow] at ho ⊢
          have hlist : (a.head (Shape.list fixed (x :: xs) zero).kind (.enters
              (Layer.declares? ⟨name, .list fixed (x :: xs) zero⟩))).generic = .list :=
            (generic_head ..).trans (by cases fixed <;> rfl)
          obtain ⟨o', ho', hforgets⟩ := exists_outline_list htype hlist ho
          exact ⟨o', ho', fun p p' => hforgets p p' _ _⟩
  | @part above v w v' w' name g hv hw _ ih =>
      intro depth a top o ho
      cases depth with
      | zero => cases ho
      | succ depth =>
          refine exists_outline_of_level hcong.refl hv hw rfl (g.kind_fill v' w')
            (fun o _ ho => ?_) ho
          dsimp only at ho ⊢
          generalize a.head _ _ = b at ho ⊢
          rcases exists_content_fill b g with ⟨c, hc⟩ | ⟨c, -, hc⟩
          · rw [hc] at ho ⊢
            exact ⟨o, ho, fun p p' => hcong.finish (hcong.refl o) ..⟩
          · rw [hc] at ho ⊢
            obtain ⟨o', ho', hforgets⟩ := c.exists_outline hcong (fun _ _ => id) (fun q hq => by
              obtain ⟨q', hq', hqq⟩ := ih depth _ _ q hq
              exact ⟨q', hq', hcong.finish hqq, fun _ => hqq⟩) ho
            exact ⟨o', ho', fun p p' => hforgets ..⟩

end Value

/-! ## The main result -/

/-- The schemas are the same but for the length of one list, which is `n` in the first and one in
the second, and for the definitions of the names `lost`. -/
structure Schema.SameBut (n : Nat) (lost : List String) (s t : Schema) : Prop where
  root_eq : t.root = s.root
  typeRefs_eq : t.typeRefs = s.typeRefs
  /-- The ids below the top of the value are the same. -/
  subtree?_root_eq : t.subtree? t.root = s.subtree? s.root
  tree_root : (s.tree s.root).Relabels (Shortens n) (t.tree t.root)
  label_typeRefs : (t.tree t.typeRefs).label = (s.tree s.typeRefs).label
  definitions : List.Forall₂ (Rose.Relabels (Shortens n))
    (definitionsBut lost (s.tree s.typeRefs).children)
    (definitionsBut lost (t.tree t.typeRefs).children)
  /-- If nothing is lost, all ids are the same. -/
  subtree?_typeRefs_eq : lost = [] → t.subtree? t.typeRefs = s.subtree? s.typeRefs

theorem Schema.sameBut_of_renders {types : Types} {v w : Value} {lost : List String}
    {s t : Schema} {o o' : Outline} (hs : derive? types v = some s) (ht : derive? types w = some t)
    (hso : s.Renders o) (hto : t.Renders o') (htree : o.tree.Relabels (Shortens n) o'.tree)
    (hagree : AgreeBut (Shortens n) lost (recordAll [] o.finished) (recordAll [] o'.finished)) :
    s.SameBut n lost t := by
  have hroot : (s.tree s.root).Relabels (Shortens n) (t.tree t.root) := by
    rw [hso.root_eq, hto.root_eq]
    exact .child rootTop [] htree []
  obtain ⟨hids, hids'⟩ := sameIds_of_shape hs ht hroot.shape_eq
  refine
    { root_eq := hids.root_eq
      typeRefs_eq := hids.typeRefs_eq
      subtree?_root_eq := hids.subtree?_root_eq
      tree_root := hroot
      label_typeRefs := by rw [hso.typeRefs_eq, hto.typeRefs_eq]; rfl
      definitions := ?_, subtree?_typeRefs_eq := fun hnone => ?_ }
  · rw [hso.typeRefs_eq, hto.typeRefs_eq]
    exact hagree.others
  · subst hnone
    have hothers := hagree.others
    rw [definitionsBut_nil, definitionsBut_nil] at hothers
    refine (hids' ?_).1
    rw [hso.typeRefs_eq, hto.typeRefs_eq]
    exact Rose.shape_eq_of_forall₂ hothers

/-- Of a list whose elements have one type the first one can stand for all. If a value with such a
list has a schema, the value in which the list has lost its other elements has the same one, but for
the length of the list, and for the types that a lost element is the first to define. -/
theorem derive?_of_shortened {types : Types} {v w x : Value} {xs : List Value}
    {below : Finset String} {s : Schema} (hs : derive? types v = some s)
    (h : Value.Shortened types below x xs ∅ v w) (htype : Value.OneType types below (x :: xs)) :
    ∃ t lost, derive? types w = some t ∧ s.SameBut (xs.length + 1) lost t ∧ ∀ name ∈ lost,
      (∃ y ∈ xs, ∃ f, y.Finishes types below f ∧ f.Defines name
          ∧ f.tree.definition ∈ (s.tree s.typeRefs).children)
        ∧ ∀ f, x.Finishes types below f → ¬ f.Defines name := by
  obtain ⟨o, ⟨depth, ho⟩, hso⟩ := exists_outlines_of_derive? hs
  obtain ⟨o', ho', htree, hfinished⟩ := h.exists_outline htype depth _ _ o ho
  obtain ⟨t, ht, hto⟩ := derive?_of_outlines ⟨depth, ho'⟩
  obtain ⟨lost, hagree, hlost⟩ := hfinished.agree
  refine ⟨t, lost, ht, Schema.sameBut_of_renders hs ht hso hto htree hagree, fun name hname => ?_⟩
  obtain ⟨⟨f, ⟨y, hy, hf⟩, hdefines, hmem⟩, hkept⟩ := hlost name hname
  refine ⟨⟨y, hy, f, hf, hdefines, ?_⟩, hkept⟩
  rw [hso.typeRefs_eq]
  exact hmem

/-- A record of a named type with one member. -/
def namedRecord (name member : String) (kind : Kind) : Value :=
  .layer (some name) (.record [{ name := member, value := .ofShape (.scalar kind) }])

/-- A record with a list. -/
def listRecord (elements : List Value) : Value :=
  .ofShape (.record
    [{ name := "Items", value := .ofShape (.list false elements .emptySlot) }])

theorem shortened_listRecord (x : Value) (xs : List Value) :
    Value.Shortened {} ∅ x xs ∅ (listRecord (x :: xs)) (listRecord [x]) :=
  .part (.field [] "Items" true "" []) rfl rfl (.here rfl rfl rfl)

/-- Nothing is lost with an element that is equal to the first one. -/
theorem derive?_of_shortened_pair : ∃ s t,
    derive? {} (listRecord [namedRecord "S" "A" .i64, namedRecord "S" "A" .i64]) = some s
      ∧ derive? {} (listRecord [namedRecord "S" "A" .i64]) = some t ∧ s.SameBut 2 [] t := by
  have hsome : (derive? {} (listRecord
      [namedRecord "S" "A" .i64, namedRecord "S" "A" .i64])).isSome = true := by decide +kernel
  obtain ⟨s, hs⟩ := Option.isSome_iff_exists.mp hsome
  obtain ⟨o, ho, hlabel⟩ : ∃ o, Outlines {} (elementSite ∅ (namedRecord "S" "A" .i64)) o
      ∧ o.typeLabel = "struct" := ⟨_, ⟨2, rfl⟩, rfl⟩
  have htype : Value.OneType {} ∅ [namedRecord "S" "A" .i64, namedRecord "S" "A" .i64] := by
    refine ⟨"struct", fun y hy q hq => ?_⟩
    obtain rfl : y = namedRecord "S" "A" .i64 := by simpa using hy
    rw [Outlines.unique hq ho, hlabel]
  obtain ⟨t, lost, ht, hsame, hlost⟩ := derive?_of_shortened hs (shortened_listRecord _ _) htype
  have hnone : lost = [] := List.eq_nil_iff_forall_not_mem.mpr fun name hname => by
    obtain ⟨⟨y, hy, f, hf, hdefines, -⟩, hkept⟩ := hlost name hname
    obtain rfl := List.mem_singleton.mp hy
    exact hkept f hf hdefines
  exact ⟨s, t, hs, ht, hnone ▸ hsame⟩

/-- A slot with a record of a named type. -/
def slotOf (name member : String) (kind : Kind) : Value :=
  .ofShape (.slot (some (namedRecord name member kind)))

/-- Two slots hold records of two named types. Both elements are of one type, but with the second
one the definition of its named type is lost. -/
theorem not_sameBut_shortened :
    Value.Shortened {} ∅ (slotOf "S" "A" .i64) [slotOf "T" "B" .bool] ∅
        (listRecord [slotOf "S" "A" .i64, slotOf "T" "B" .bool])
        (listRecord [slotOf "S" "A" .i64])
      ∧ (∀ y ∈ [slotOf "S" "A" .i64, slotOf "T" "B" .bool],
        ∃ o, Outlines {} (elementSite ∅ y) o ∧ o.typeLabel = "struct")
      ∧ ∃ s t, derive? {} (listRecord [slotOf "S" "A" .i64, slotOf "T" "B" .bool]) = some s
        ∧ derive? {} (listRecord [slotOf "S" "A" .i64]) = some t
        ∧ (s.tree s.typeRefs).children.map (·.label.name) = ["S", "T"]
        ∧ (t.tree t.typeRefs).children.map (·.label.name) = ["S"] ∧ ¬ s.SameBut 2 [] t := by
  have hboth : (derive? {} (listRecord [slotOf "S" "A" .i64, slotOf "T" "B" .bool])).map
      (fun s => (s.tree s.typeRefs).children.map (·.label.name)) = some ["S", "T"] := by
    decide +kernel
  have hone : (derive? {} (listRecord [slotOf "S" "A" .i64])).map
      (fun s => (s.tree s.typeRefs).children.map (·.label.name)) = some ["S"] := by
    decide +kernel
  obtain ⟨s, hs, hsnames⟩ := Option.map_eq_some_iff.mp hboth
  obtain ⟨t, ht, htnames⟩ := Option.map_eq_some_iff.mp hone
  refine ⟨shortened_listRecord _ _, List.forall_mem_cons.mpr ⟨⟨_, ⟨3, rfl⟩, rfl⟩,
    List.forall_mem_cons.mpr ⟨⟨_, ⟨3, rfl⟩, rfl⟩, List.forall_mem_nil _⟩⟩, s, t, hs, ht, hsnames,
    htnames, fun hsame => ?_⟩
  have hlength := hsame.definitions.length_eq
  rw [definitionsBut_nil, definitionsBut_nil] at hlength
  have hs2 := congrArg List.length hsnames
  have ht1 := congrArg List.length htnames
  rw [List.length_map] at hs2 ht1
  rw [hs2, ht1] at hlength
  cases hlength

end TypeOutline
