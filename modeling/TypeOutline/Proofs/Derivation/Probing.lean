import TypeOutline.Proofs.Derivation.Documents
import TypeOutline.Proofs.Derivation.Typing

/-!
# What becomes of a list

The elements of a list are derived one after the other on nodes of their
own, and one of them is kept. The walk counts their types as it goes and
stops at the first element of a second type. So it sees one type, and a
count, until it sees a second one with the count one (`gather_cases`), and
what becomes of the list is a statement on the types that the elements
have on their own (`ListOutcome`). Whether there is a second type does not
depend on the order of the elements.
-/

namespace TypeOutline

/-- The type of a derived position, as it is counted. -/
def Outline.typeLabel (o : Outline) : String := o.tree.label.typeLabel

/-! ## Counting types -/

theorem entries_single_insert {l l' : String} (h : l ≠ l') (n m : Nat) :
    ((Dictionary.single l n).insert l' m).entries = [(l, n), (l', m)] :=
  if_neg h

theorem size_single_insert {l l' : String} (h : l ≠ l') (n m : Nat) :
    ((Dictionary.single l n).insert l' m).size = 2 :=
  congrArg List.length (entries_single_insert h n m)

section Counting

variable {derive : Value → Option Outline} {l : String} {v : Value} {o : Outline}

theorem gather_cons (hv : derive v = some o) (vs : List Value) (kinds : Dictionary Nat) :
    Outline.gather derive (v :: vs) kinds =
      if (kinds.update o.typeLabel 0 (· + 1)).size > 1 then
        some ([o], kinds.update o.typeLabel 0 (· + 1))
      else (Outline.gather derive vs (kinds.update o.typeLabel 0 (· + 1))).map
        fun r => (o :: r.1, r.2) := by
  rw [Outline.gather, hv, Option.map_eq_bind]
  rfl

/-- The first element is of the first type, -/
theorem gather_first (hv : derive v = some o) (vs : List Value) :
    Outline.gather derive (v :: vs) {} = (Outline.gather derive vs (.single o.typeLabel 1)).map
      fun r => (o :: r.1, r.2) :=
  (gather_cons hv vs {}).trans (if_neg (Nat.lt_irrefl 1))

/-- and more elements of that type are counted, -/
theorem gather_same (hv : derive v = some o) (ho : o.typeLabel = l) (vs : List Value) (n : Nat) :
    Outline.gather derive (v :: vs) (.single l n) =
      (Outline.gather derive vs (.single l (n + 1))).map fun r => (o :: r.1, r.2) := by
  have hcount : (Dictionary.single l n).update l 0 (· + 1) = .single l (n + 1) := by
    rw [Dictionary.update, Dictionary.find?_single, if_pos rfl]
    exact Dictionary.eq_of_entries_eq (if_pos rfl)
  rw [gather_cons hv, ho, hcount]
  exact if_neg (Nat.lt_irrefl 1)

/-- up to the first one of another type. -/
theorem gather_other (hv : derive v = some o) (ho : o.typeLabel ≠ l) (vs : List Value) (n : Nat) :
    Outline.gather derive (v :: vs) (.single l n) =
      some ([o], (Dictionary.single l n).insert o.typeLabel 1) := by
  have hcount : (Dictionary.single l n).update o.typeLabel 0 (· + 1) =
      (Dictionary.single l n).insert o.typeLabel 1 := by
    rw [Dictionary.update, Dictionary.find?_single, if_neg ho]
    rfl
  rw [gather_cons hv, hcount, size_single_insert ho.symm]
  exact if_pos (Nat.lt_succ_self 1)

/-- Either there is one type, and all elements are seen, or the elements of the first type end
before one of a second, and that is the last one seen. -/
theorem gather_cases {vs : List Value} {os : List Outline}
    (h : List.Forall₂ (fun v o => derive v = some o) vs os) : ∀ n,
    ((∀ q ∈ os, q.typeLabel = l)
        ∧ Outline.gather derive vs (.single l n) = some (os, (.single l (n + os.length))))
      ∨ ∃ same q rest, os = same ++ q :: rest ∧ (∀ w ∈ same, w.typeLabel = l) ∧ q.typeLabel ≠ l
        ∧ Outline.gather derive vs (.single l n) =
          some (same ++ [q], (Dictionary.single l (n + same.length)).insert q.typeLabel 1) := by
  induction h with
  | nil => exact fun n => .inl ⟨fun q hq => absurd hq List.not_mem_nil, rfl⟩
  | @cons v o vs os hv _ ih =>
      intro n
      by_cases ho : o.typeLabel = l
      · rw [gather_same hv ho]
        rcases ih (n + 1) with ⟨hall, hrest⟩ | ⟨same, q, rest, rfl, hsame, hq, hrest⟩
        · refine .inl ⟨List.forall_mem_cons.mpr ⟨ho, hall⟩, ?_⟩
          rw [hrest, List.length_cons, Nat.add_right_comm]
          rfl
        · refine .inr ⟨o :: same, q, rest, rfl, List.forall_mem_cons.mpr ⟨ho, hsame⟩, hq, ?_⟩
          rw [hrest, List.length_cons, Nat.add_right_comm]
          rfl
      · exact .inr ⟨[], o, os, rfl, fun w hw => absurd hw List.not_mem_nil, ho,
          gather_other hv ho vs n⟩

end Counting

/-! ## The two outcomes -/

/-- What becomes of a list whose elements are `o :: os` when each is derived on its own. -/
inductive ListOutcome (o : Outline) (os : List Outline) (t : Rose Attributes) : Prop
  /-- There is one type. The first element stands for all. -/
  | uniform (hall : ∀ q ∈ os, q.typeLabel = o.typeLabel) (hdefect : t.label.defect = none)
      (hchildren : t.children = [o.tree])
  /-- There is a second type, after some elements of the first. No element is kept. -/
  | mixed (same rest : List Outline) (q : Outline) (hos : os = same ++ q :: rest)
      (hsame : ∀ w ∈ same, w.typeLabel = o.typeLabel) (hq : q.typeLabel ≠ o.typeLabel)
      (hdefect : t.label.defect = some .sliceMultiType) (hchildren : t.children = [])
      (herror : t.label.native.error = "slice contains multiple kinds: " ++ o.typeLabel ++ ":"
        ++ toString (same.length + 1) ++ "," ++ q.typeLabel ++ ":1")

/-- A list is rejected exactly if two of its elements differ in type. -/
theorem ListOutcome.rejected_iff {o : Outline} {os : List Outline} {t : Rose Attributes}
    (h : ListOutcome o os t) : t.label.defect = some .sliceMultiType ↔
      ∃ x ∈ o :: os, ∃ y ∈ o :: os, x.typeLabel ≠ y.typeLabel := by
  cases h with
  | uniform hall hdefect _ =>
      have hsame : ∀ x ∈ o :: os, x.typeLabel = o.typeLabel :=
        List.forall_mem_cons.mpr ⟨rfl, hall⟩
      rw [hdefect]
      exact ⟨nofun, fun ⟨x, hx, y, hy, hne⟩ => absurd ((hsame x hx).trans (hsame y hy).symm) hne⟩
  | mixed same rest q hos _ hq hdefect _ _ =>
      refine ⟨fun _ => ⟨q, ?_, o, List.mem_cons_self, hq⟩, fun _ => hdefect⟩
      rw [hos]
      exact List.mem_cons_of_mem o (List.mem_append_right _ List.mem_cons_self)

theorem breakdown_single_insert {l l' : String} (h : l ≠ l') (n m : Nat) :
    Schema.breakdown ((Dictionary.single l n).insert l' m) =
      l ++ ":" ++ toString n ++ "," ++ l' ++ ":" ++ toString m := by
  rw [Schema.breakdown, entries_single_insert h]
  simp [String.append_assoc]

/-- What is made of the elements that the walk saw. -/
theorem exists_listOutcome {derive : Value → Option Outline} {a : Attributes}
    (ha : a.defect = none) {v : Value} {vs : List Value} {o : Outline} {os : List Outline}
    (hv : derive v = some o) (hvs : List.Forall₂ (fun v o => derive v = some o) vs os) :
    ∃ seen kinds, Outline.gather derive (v :: vs) {} = some (seen, kinds)
      ∧ ListOutcome o os (Outline.list a seen kinds).tree := by
  rw [gather_first hv]
  rcases gather_cases hvs 1 with ⟨hall, hseen⟩ | ⟨same, q, rest, hos, hsame, hq, hseen⟩
  · rw [hseen]
    exact ⟨_, _, rfl, .uniform hall ha rfl⟩
  · rw [hseen]
    refine ⟨_, _, rfl, ?_⟩
    rw [Outline.list, size_single_insert hq.symm, if_pos (Nat.lt_succ_self 1)]
    refine .mixed same rest q hos hsame hq rfl rfl ?_
    show (Schema.mixedKinds _ a).native.error = _
    have hmessage : Defect.sliceMultiType.message ++ ": " = "slice contains multiple kinds: " := by
      decide
    have hone : ":" ++ toString 1 = ":1" := by decide
    rw [Schema.mixedKinds, Attributes.native_modifyNative, breakdown_single_insert hq.symm,
      hmessage, Nat.add_comm]
    simp only [String.append_assoc, hone]

/-! ## The main result -/

section Main

variable {types : Types} {p : Site} {typeName name : Option String} {fixed : Bool}
  {v zero : Value} {vs : List Value} {o : Outline} {os : List Outline}

/-- The position of an element that is derived on its own, below the names `above`. -/
def elementSite (above : Finset String) (v : Value) : Site := ⟨{ name := "" }, false, above, v⟩

theorem content_list {a : Attributes} (ha : a.defect = none) :
    (Shape.list fixed (v :: vs) zero).content a =
      .probed (a.modifyOptions (·.set "len" (toString (v :: vs).length))) (v :: vs) := by
  rw [Shape.content, Attributes.defect_modifyOptions, ha]
  rfl

theorem exists_outlines_list
    (hl : p.value.layer? types = some ⟨typeName, .list fixed (v :: vs) zero⟩)
    (hr : Layer.ruling ⟨typeName, .list fixed (v :: vs) zero⟩ p.top p.above = .enters name)
    (ha : p.attrs.defect = none)
    (hos : List.Forall₂ (fun w q => Outlines types (elementSite (declaredBelow p.above name) w) q)
      (v :: vs) (o :: os)) :
    ∃ o', Outlines types p o' ∧ ListOutcome o os o'.tree := by
  obtain ⟨depth, hdepth⟩ := exists_depth_of_forall₂ hos
  obtain ⟨hv, hvs⟩ := List.forall₂_cons.mp hdepth
  have hhead : (p.attrs.head (Shape.list fixed (v :: vs) zero).kind (.enters name)).defect = none :=
    (defect_head_enters ..).trans ha
  -- the list as it stands on its node while the elements are derived
  generalize ha' : (p.attrs.head (Shape.list fixed (v :: vs) zero).kind
    (.enters name)).modifyOptions (·.set "len" (toString (v :: vs).length)) = a
  have hdefect : a.defect = none := by rw [← ha', Attributes.defect_modifyOptions, hhead]
  obtain ⟨seen, kinds, hgather, houtcome⟩ := exists_listOutcome hdefect hv hvs
  have houtline : outline types (depth + 1) p =
      some ((Outline.list a seen kinds).finish p ⟨typeName, .list fixed (v :: vs) zero⟩) := by
    unfold elementSite at hgather
    rw [outline_of_enters hl hr, content_list hhead, ha', Content.outline, hgather]
    rfl
  exact ⟨_, ⟨depth + 1, houtline⟩, houtcome⟩

/-- A list with elements, on a node that has neither failed before nor is refused, becomes what the
types say that its elements have on their own, wherever the walk meets it. And if it is rejected, so
are its elements in any other order. -/
theorem listOutcome_of_outlines
    (hl : p.value.layer? types = some ⟨typeName, .list fixed (v :: vs) zero⟩)
    (hr : Layer.ruling ⟨typeName, .list fixed (v :: vs) zero⟩ p.top p.above = .enters name)
    (ha : p.attrs.defect = none)
    (hos : List.Forall₂ (fun w q => Outlines types (elementSite (declaredBelow p.above name) w) q)
      (v :: vs) (o :: os)) :
    ∃ o', Outlines types p o' ∧ p.Leaves types o'.tree ∧ ListOutcome o os o'.tree
      ∧ ∀ elements, elements.Perm (v :: vs) → ∃ o'',
        Outlines types { p with value := .layer typeName (.list fixed elements zero) } o''
          ∧ (o''.tree.label.defect = some .sliceMultiType ↔
            o'.tree.label.defect = some .sliceMultiType) := by
  obtain ⟨o', ho', houtcome⟩ := exists_outlines_list hl hr ha hos
  refine ⟨o', ho', ho'.leaves, houtcome, fun elements hperm => ?_⟩
  -- the elements in their other order have the same outlines in another order
  obtain ⟨others, hothers, hperm'⟩ := List.perm_comp_forall₂ hperm hos
  cases hothers with
  | nil => exact absurd hperm.length_eq (by simp)
  | @cons w q ws qs hw hws =>
      have hr' : Layer.ruling ⟨typeName, .list fixed (w :: ws) zero⟩ p.top p.above =
          .enters name := by
        rw [← hr]
        refine ruling_congr ?_ ?_ ..
        · rfl
        · cases fixed <;> rfl
      obtain ⟨o'', ho'', houtcome'⟩ := exists_outlines_list
        (p := { p with value := .layer typeName (.list fixed (w :: ws) zero) })
        (Value.layer?_layer ..) hr' ha (.cons hw hws)
      refine ⟨o'', ho'', ?_⟩
      rw [houtcome.rejected_iff, houtcome'.rejected_iff]
      simp only [hperm'.mem_iff]

/-- A list of two numbers and a text. -/
def numbersAndText : Site where
  attrs := { name := "Mixed" }
  top := false
  above := ∅
  value := .ofShape (.list false
    [.ofShape (.scalar .f64), .ofShape (.scalar .f64), .ofShape (.scalar .string)] .emptySlot)

theorem listOutcome_of_outlines_numbers : ∃ o x y,
    Outlines {} numbersAndText o ∧ numbersAndText.Leaves {} o.tree
      ∧ x.typeLabel = "float" ∧ y.typeLabel = "string" ∧ ListOutcome x [x, y] o.tree
      ∧ o.tree.label.defect = some .sliceMultiType := by
  have hnumber : ∃ x, Outlines {} (elementSite ∅ (.ofShape (.scalar .f64))) x
      ∧ x.typeLabel = "float" := ⟨_, ⟨1, rfl⟩, rfl⟩
  have htext : ∃ y, Outlines {} (elementSite ∅ (.ofShape (.scalar .string))) y
      ∧ y.typeLabel = "string" := ⟨_, ⟨1, rfl⟩, rfl⟩
  obtain ⟨x, hx, hxlabel⟩ := hnumber
  obtain ⟨y, hy, hylabel⟩ := htext
  obtain ⟨o, ho, hleaves, houtcome, -⟩ := @listOutcome_of_outlines {} numbersAndText none none
    _ _ _ _ _ _ rfl rfl rfl (.cons hx (.cons hx (.cons hy .nil)))
  have hne : y.typeLabel ≠ x.typeLabel := by rw [hxlabel, hylabel]; decide
  exact ⟨o, x, y, ho, hleaves, hxlabel, hylabel, houtcome,
    houtcome.rejected_iff.mpr ⟨y, by simp, x, by simp, hne⟩⟩

end Main

end TypeOutline
