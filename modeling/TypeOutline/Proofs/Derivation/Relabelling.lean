import TypeOutline.Proofs.Derivation.References

/-!
# Trees that differ in one node

What becomes of a registry if the trees that are recorded differ in one
node each, and in nothing that a registry looks at there: its
definitions differ in one node each. Nor does it matter for the other
names if the definitions of some names are left out (`AgreeBut.recordAll`).

The difference looked at is that of a list which says of itself that it
has a number of elements, or that it has one (`Attributes.Shortens`).
-/

namespace TypeOutline

/-! ## One node -/

namespace Rose

variable {α β : Type} {r : α → α → Prop} {t u : Rose α}

/-- The trees differ in at most one label, and there they are related. -/
inductive Relabels (r : α → α → Prop) : Rose α → Rose α → Prop
  | refl (t : Rose α) : Relabels r t t
  | here {a b : α} (h : r a b) (ts : List (Rose α)) : Relabels r (.node a ts) (.node b ts)
  | child {t u : Rose α} (a : α) (before : List (Rose α)) (h : Relabels r t u)
      (after : List (Rose α)) :
      Relabels r (.node a (before ++ t :: after)) (.node a (before ++ u :: after))

theorem Relabels.label_eq (h : t.Relabels r u) {f : α → β} (hf : ∀ a b, r a b → f a = f b) :
    f t.label = f u.label := by
  cases h with
  | refl => rfl
  | here h ts => exact hf _ _ h
  | child a before h after => rfl

theorem Relabels.map_eq (h : t.Relabels r u) {f : α → β} (hf : ∀ a b, r a b → f a = f b) :
    t.map f = u.map f := by
  induction h with
  | refl => rfl
  | here h ts => rw [map, map, hf _ _ h]
  | child a before h after ih =>
      simp only [map, mapAll_eq_map, List.map_append, List.map_cons, ih]

theorem cutAll_eq_map (ts : List (Rose Attributes)) : cutAll ts = ts.map cut := by
  induction ts with
  | nil => rfl
  | cons t ts ih => rw [cutAll, List.map_cons, ih]

end Rose

namespace Attributes

/-- A registry does not tell the nodes apart, and they are still related in a definition. -/
structure Unnoticed (r : Attributes → Attributes → Prop) : Prop where
  name_eq : ∀ a b, r a b → a.name = b.name
  typeRef_eq : ∀ a b, r a b → a.native.typeRef = b.native.typeRef
  isCyclical_eq : ∀ a b, r a b → a.isCyclical = b.isCyclical
  clear : ∀ a b, r a b → r { a with defect := none } { b with defect := none }
  definition : ∀ a b, r a b → r a.definition b.definition

variable {r : Attributes → Attributes → Prop} {a b : Attributes}

theorem Unnoticed.isReference_eq (hr : Unnoticed r) (h : r a b) :
    a.isReference = b.isReference := by
  rw [isReference, isReference, hr.typeRef_eq a b h]

theorem Unnoticed.defines?_eq (hr : Unnoticed r) (a b : Attributes) (h : r a b) :
    a.defines? = b.defines? := by
  rw [defines?, defines?, hr.isReference_eq h, hr.isCyclical_eq a b h, hr.typeRef_eq a b h]

end Attributes

/-! ## One node in a definition -/

namespace Rose

variable {r : Attributes → Attributes → Prop} {t u : Rose Attributes}

theorem Relabels.cut (hr : Attributes.Unnoticed r) (h : t.Relabels r u) :
    t.cut.Relabels r u.cut := by
  induction h with
  | refl => exact .refl _
  | @here a b h ts =>
      rw [Rose.cut, Rose.cut, hr.isReference_eq h, hr.isCyclical_eq a b h]
      split
      · exact .here (hr.clear a b h) _
      · exact .here h _
  | child a before h after ih =>
      rw [Rose.cut, Rose.cut]
      split
      · split
        · exact .child _ before h after
        · exact .refl _
      · simp only [cutAll_eq_map, List.map_append, List.map_cons]
        exact .child a _ ih _

theorem Relabels.definition (hr : Attributes.Unnoticed r) (h : t.Relabels r u) :
    t.definition.Relabels r u.definition := by
  cases h with
  | refl => exact .refl _
  | here h ts => exact .here (hr.definition _ _ h) _
  | child a before h after =>
      simp only [Rose.definition, cutAll_eq_map, List.map_append, List.map_cons]
      exact .child _ _ (h.cut hr) _

end Rose

/-! ## Registries without some names -/

/-- The definitions but those under the names. -/
def definitionsBut (lost : List String) (R : List (Rose Attributes)) : List (Rose Attributes) :=
  R.filter fun t => t.label.name ∉ lost

theorem definitionsBut_append (lost : List String) (R S : List (Rose Attributes)) :
    definitionsBut lost (R ++ S) = definitionsBut lost R ++ definitionsBut lost S :=
  List.filter_append ..

theorem definitionsBut_nil (R : List (Rose Attributes)) : definitionsBut [] R = R :=
  List.filter_eq_self.mpr fun _ _ => decide_eq_true List.not_mem_nil

/-- The registries differ in one node of each definition, but for some names, which the first one
defines. -/
structure AgreeBut (r : Attributes → Attributes → Prop) (lost : List String)
    (R S : List (Rose Attributes)) : Prop where
  others : List.Forall₂ (Rose.Relabels r) (definitionsBut lost R) (definitionsBut lost S)
  defined : ∀ n ∈ lost, Defined R n

section Registries

variable {r : Attributes → Attributes → Prop} {lost : List String}
  {R S : List (Rose Attributes)} {t u : Rose Attributes}

theorem defined_definitionsBut_iff {n : String} (hn : n ∉ lost) :
    Defined (definitionsBut lost R) n ↔ Defined R n := by
  unfold Defined definitionsBut
  refine exists_congr fun t => ?_
  rw [List.mem_filter, decide_eq_true_iff, and_assoc]
  exact and_congr_right fun _ => ⟨fun h => h.2, fun h => ⟨h ▸ hn, h⟩⟩

theorem AgreeBut.defined_iff (hr : Attributes.Unnoticed r) (h : AgreeBut r lost R S) {n : String}
    (hn : n ∉ lost) : Defined R n ↔ Defined S n := by
  rw [← defined_definitionsBut_iff (R := R) hn, ← defined_definitionsBut_iff (R := S) hn]
  have hnames : (definitionsBut lost R).map (·.label.name) =
      (definitionsBut lost S).map (·.label.name) :=
    map_eq_of_forall₂ h.others fun _ _ _ htu => htu.label_eq hr.name_eq
  exact List.mem_map.symm.trans (hnames ▸ List.mem_map)

theorem definitionsBut_definition {n : String} (hn : t.label.defines? = some n) :
    definitionsBut lost [t.definition] = if n ∈ lost then [] else [t.definition] := by
  rw [definitionsBut, List.filter_singleton, name_definition hn]
  by_cases h : n ∈ lost <;> simp [h]

/-- What one finished level does to both registries. -/
theorem AgreeBut.record (hr : Attributes.Unnoticed r) (h : AgreeBut r lost R S)
    (ht : t.Relabels r u) : AgreeBut r lost (record R t) (record S u) := by
  refine ⟨?_, fun n hn => (h.defined n hn).record t⟩
  unfold TypeOutline.record
  have hdefines := ht.label_eq hr.defines?_eq
  rw [← hdefines]
  cases hn : t.label.defines? with
  | none => exact h.others
  | some n =>
      have hu : u.label.defines? = some n := hdefines ▸ hn
      dsimp only
      by_cases hlost : n ∈ lost
      · -- a lost name is defined here, and what is defined there does not matter
        rw [if_pos (h.defined n hlost)]
        split
        · exact h.others
        · rw [definitionsBut_append, definitionsBut_definition hu, if_pos hlost, List.append_nil]
          exact h.others
      · simp only [h.defined_iff hr hlost]
        split
        · exact h.others
        · rw [definitionsBut_append, definitionsBut_append, definitionsBut_definition hn,
            definitionsBut_definition hu, if_neg hlost, if_neg hlost]
          exact List.rel_append h.others (.cons (ht.definition hr) .nil)

/-- The finished levels have trees that differ in one node. -/
def Finished.Relabels (r : Attributes → Attributes → Prop) (f g : Finished) : Prop :=
  f.tree.Relabels r g.tree

theorem relabels_refl (fs : List Finished) : List.Forall₂ (Finished.Relabels r) fs fs :=
  List.forall₂_same.mpr fun _ _ => .refl _

theorem AgreeBut.recordAll (hr : Attributes.Unnoticed r) {fs gs : List Finished}
    (hfs : List.Forall₂ (Finished.Relabels r) fs gs) : ∀ {R S : List (Rose Attributes)},
      AgreeBut r lost R S → AgreeBut r lost (recordAll R fs) (recordAll S gs) := by
  induction hfs with
  | nil => exact fun h => h
  | cons hfg _ ih => exact fun h => ih (h.record hr hfg)

theorem agreeBut_nil (r : Attributes → Attributes → Prop) : AgreeBut r [] [] [] :=
  ⟨.nil, fun _ hn => absurd hn List.not_mem_nil⟩

/-! ## What some levels define anew -/

/-- A registry only grows, by definitions of names that it had none for. -/
theorem exists_recordAll_eq_append (R : List (Rose Attributes)) (fs : List Finished) :
    ∃ new, recordAll R fs = R ++ new ∧ ∀ d ∈ new, ¬ Defined R d.label.name
      ∧ ∃ f ∈ fs, f.Defines d.label.name ∧ d = f.tree.definition := by
  induction fs generalizing R with
  | nil => exact ⟨[], (List.append_nil R).symm, fun d hd => absurd hd List.not_mem_nil⟩
  | cons f fs ih =>
      obtain ⟨new, hnew, hall⟩ := ih (record R f.tree)
      have hlater : ∀ d ∈ new, ¬ Defined R d.label.name
          ∧ ∃ g ∈ f :: fs, g.Defines d.label.name ∧ d = g.tree.definition := by
        intro d hd
        obtain ⟨hfresh, g, hg, hdefines⟩ := hall d hd
        exact ⟨fun h => hfresh (h.record f.tree), g, List.mem_cons_of_mem f hg, hdefines⟩
      show ∃ new, TypeOutline.recordAll (record R f.tree) fs = R ++ new ∧ _
      rw [hnew]
      cases hn : f.tree.label.defines? with
      | none => exact ⟨new, by simp only [TypeOutline.record, hn], hlater⟩
      | some n =>
          by_cases hd : Defined R n
          · exact ⟨new, by simp only [TypeOutline.record, hn, if_pos hd], hlater⟩
          · refine ⟨f.tree.definition :: new, ?_, List.forall_mem_cons.mpr ⟨?_, hlater⟩⟩
            · simp only [TypeOutline.record, hn, if_neg hd, List.append_assoc,
                List.singleton_append]
            · rw [name_definition hn]
              exact ⟨hd, f, List.mem_cons_self, hn, rfl⟩

/-- Levels that only the first registry has seen. The names that they define anew are lost to the
second one. -/
theorem AgreeBut.forget (hr : Attributes.Unnoticed r) (h : AgreeBut r [] R S)
    (gone : List Finished) : ∃ lost, AgreeBut r lost (TypeOutline.recordAll R gone) S
      ∧ ∀ n ∈ lost, ¬ Defined R n
        ∧ ∃ f ∈ gone, f.Defines n ∧ f.tree.definition ∈ TypeOutline.recordAll R gone := by
  obtain ⟨new, hnew, hall⟩ := exists_recordAll_eq_append R gone
  have hkept : ∀ T : List (Rose Attributes), (∀ n, Defined T n → Defined R n) →
      definitionsBut (new.map (·.label.name)) T = T := by
    refine fun T hT => List.filter_eq_self.mpr fun t ht => decide_eq_true fun hmem => ?_
    obtain ⟨d, hd, hname⟩ := List.mem_map.mp hmem
    exact (hall d hd).1 (hT _ ⟨t, ht, hname.symm⟩)
  have hgone : definitionsBut (new.map (·.label.name)) new = [] :=
    List.filter_eq_nil_iff.mpr fun d hd => by simpa using ⟨d, hd, rfl⟩
  refine ⟨new.map (·.label.name), ⟨?_, fun n hn => ?_⟩, fun n hn => ?_⟩
  · rw [hnew, definitionsBut_append, hkept R fun _ => id, hgone, List.append_nil,
      hkept S fun n => (h.defined_iff hr List.not_mem_nil).mpr]
    have hothers := h.others
    rwa [definitionsBut_nil, definitionsBut_nil] at hothers
  · obtain ⟨d, hd, rfl⟩ := List.mem_map.mp hn
    exact ⟨d, hnew ▸ List.mem_append_right R hd, rfl⟩
  · obtain ⟨d, hd, rfl⟩ := List.mem_map.mp hn
    obtain ⟨hfresh, f, hf, hdefines, rfl⟩ := hall d hd
    exact ⟨hfresh, f, hf, hdefines, hnew ▸ List.mem_append_right R hd⟩

end Registries

/-! ## The length of a list -/

namespace Dictionary

variable {α : Type}

theorem insertIn_insertIn (key : String) (value other : α) : (es : List (String × α)) →
    insertIn key value (insertIn key other es) = insertIn key value es
  | [] => if_pos rfl
  | e :: es => by
      by_cases h : e.1 = key
      · rw [insertIn, if_pos h, insertIn, if_pos rfl, insertIn, if_pos h]
      · rw [insertIn, if_neg h, insertIn, if_neg h, insertIn_insertIn key value other es, insertIn,
          if_neg h]

theorem insert_insert (d : Dictionary α) (key : String) (value other : α) :
    (d.insert key other).insert key value = d.insert key value :=
  eq_of_entries_eq (insertIn_insertIn key value other d.entries)

theorem map_insertIn (f : α → α) (key : String) (value : α) : (es : List (String × α)) →
    (insertIn key value es).map (fun e => (e.1, f e.2)) =
      insertIn key (f value) (es.map fun e => (e.1, f e.2))
  | [] => rfl
  | e :: es => by
      by_cases h : e.1 = key
      · rw [insertIn, if_pos h, List.map_cons, List.map_cons, insertIn, if_pos h]
      · rw [insertIn, if_neg h, List.map_cons, List.map_cons, insertIn, if_neg h,
          map_insertIn f key value es]

theorem mapValues_insert (d : Dictionary α) (f : α → α) (key : String) (value : α) :
    (d.insert key value).mapValues f = (d.mapValues f).insert key (f value) :=
  eq_of_entries_eq (map_insertIn f key value d.entries)

end Dictionary

namespace Attributes

variable {n : Nat} {a b : Attributes}

/-- Set the length that a list is given on its node. -/
def setLength (a : Attributes) (n : Nat) : Attributes :=
  a.modifyOptions (·.set "len" (toString n))

/-- The first node is that of a list with `n` elements, and says so. The second one is the same but
for the length, which is one. -/
structure Shortens (n : Nat) (a b : Attributes) : Prop where
  generic_eq : a.generic = .list
  length_eq : a.native.options.get? "len" = some (toString n)
  shortened : b = a.setLength 1

theorem native_definition (a : Attributes) : a.definition.native =
    { a.native with name := "", typeRef := "", inclusion := .included } := by
  unfold native override? definition
  rw [Dictionary.find?_mapValues]
  cases a.overrides.find? nativeDialect <;> rfl

theorem native_setLength (a : Attributes) (n : Nat) :
    (a.setLength n).native = { a.native with options := a.native.options.set "len" (toString n) } :=
  native_modifyNative a _

theorem definition_setLength (a : Attributes) (n : Nat) :
    (a.setLength n).definition = a.definition.setLength n := by
  have htype : (a.setLength n).native.typeRef = a.native.typeRef := by rw [native_setLength]
  unfold definition
  rw [htype]
  simp only [setLength, modifyOptions, modifyNative, modifyOverride, Dictionary.update,
    Dictionary.mapValues_insert, Dictionary.find?_mapValues]
  cases a.overrides.find? nativeDialect <;> rfl

theorem set_length (o : OptionSet) (n : Nat) :
    o.set "len" (toString n) = ⟨o.entries.insert "len" (toString n)⟩ := by
  have htext : toString n ≠ "" := Nat.repr_ne_empty
  rw [OptionSet.set, if_neg (by decide), if_neg htext]

/-- The length that is written last stays. -/
theorem setLength_setLength (a : Attributes) (m n : Nat) :
    (a.setLength m).setLength n = a.setLength n := by
  simp only [setLength, modifyOptions, modifyNative, modifyOverride, Dictionary.update,
    Dictionary.insert_insert, Dictionary.find?_insert, if_true, Option.getD_some, set_length]

theorem shortens_setLength (h : a.generic = .list) (n : Nat) :
    Shortens n (a.setLength n) (a.setLength 1) where
  generic_eq := h
  length_eq := by
    rw [native_setLength, set_length, OptionSet.get?, Dictionary.find?_insert, if_pos rfl]
  shortened := (setLength_setLength a n 1).symm

/-- No registry looks at the length of a list. -/
theorem unnoticed_shortens (n : Nat) : Unnoticed (Shortens n) where
  name_eq a b h := by
    rw [h.shortened]
    rfl
  typeRef_eq a b h := by rw [h.shortened, native_setLength]
  isCyclical_eq a b h := by
    rw [h.shortened]
    rfl
  clear a b h := ⟨h.generic_eq, h.length_eq, by
    rw [h.shortened]
    rfl⟩
  definition a b h := ⟨h.generic_eq, by
    rw [native_definition]
    exact h.length_eq, by
    rw [h.shortened, definition_setLength]⟩

end Attributes

end TypeOutline
