import TypeOutline.Proofs.Derivation.Documents
import TypeOutline.Proofs.Derivation.Likeness
import TypeOutline.Render.Lines

/-!
# The order of map entries

Two values that differ only in the order in which maps with distinct keys
hold their entries are visited in the same way: the walk over one takes
the arena through the same states as the walk over the other
(`visitsAlike_visit`), so the schemas are the same in every respect
(`derive?_eq_of_permuted`). The same holds of documents and the order of
the members of their objects.
-/

namespace TypeOutline

/-- The values differ at most in the order of map entries. -/
abbrev Value.Permuted : Value → Value → Prop := Value.Like (· = ·)

/-- The tables differ at most in the order of map entries. -/
abbrev Types.Permuted : Types → Types → Prop := Types.Like (· = ·)

/-! ## Visiting -/

namespace Schema

variable {R : Value → Value → Prop} {visit visit' : Visit}

/-- Values alike are visited in the same way, on every node of every arena. -/
def VisitsAlike (R : Value → Value → Prop) (visit visit' : Visit) : Prop :=
  ∀ v w, R v w → ∀ id s, visit id v s = visit' id w s

theorem visitChild_eq (hv : VisitsAlike R visit visit') (s : Schema) (parent : NodeId)
    (a : Attributes) {v w : Value} (h : R v w) :
    s.visitChild visit parent a v = s.visitChild visit' parent a w :=
  hv v w h _ _

theorem probe_eq (hv : VisitsAlike R visit visit') (id : NodeId) {vs ws : List Value}
    (h : List.Forall₂ R vs ws) (probed : List NodeId) (kinds : Dictionary Nat) (s : Schema) :
    probe visit id vs probed kinds s = probe visit' id ws probed kinds s := by
  induction h generalizing probed kinds s with
  | nil => rfl
  | cons hvw _ ih =>
      rw [probe, probe, visitChild_eq hv s id _ hvw]
      refine bind_congr fun s' => ?_
      dsimp only
      rw [ih]

theorem visitList_eq (hv : VisitsAlike R visit visit') (s : Schema) (id : NodeId)
    {vs ws : List Value} {zero zero' : Value} (h : List.Forall₂ R vs ws) (hzero : R zero zero') :
    s.visitList visit id vs zero = s.visitList visit' id ws zero' := by
  dsimp only [visitList]
  rw [h.length_eq, isEmpty_eq_of_forall₂ h, visitChild_eq hv _ id _ hzero, probe_eq hv id h]

theorem visitFields_eq (hv : VisitsAlike R visit visit') (id : NodeId) {fs gs : List (Field Value)}
    (h : List.Forall₂ (Field.Like (· = ·) R) fs gs) (s : Schema) :
    fs.foldlM (fun s f => s.visitChild visit id (fieldAttributes f) f.value) s =
      gs.foldlM (fun s f => s.visitChild visit' id (fieldAttributes f) f.value) s := by
  refine foldlM_eq_of_forall₂ (fun s f g hfg => ?_) h s
  obtain ⟨name, exported, rfl, hvw⟩ := hfg
  exact visitChild_eq hv s id _ hvw

theorem visitEntries_eq (hv : VisitsAlike R visit visit') (id : NodeId) {ms ns : List Member}
    (h : List.Forall₂ (Member.Like R) ms ns) (s : Schema) :
    ms.foldlM (fun s m => s.visitChild visit id m.attributes m.value) s =
      ns.foldlM (fun s m => s.visitChild visit' id m.attributes m.value) s := by
  refine foldlM_eq_of_forall₂ (fun s m n hmn => ?_) h s
  obtain ⟨name, key, repeated, hvw⟩ := hmn
  exact visitChild_eq hv s id _ hvw

/-- What follows the head of a level does not depend on the order of map entries. -/
theorem visitMembers_eq (hv : VisitsAlike R visit visit') (s : Schema) (id : NodeId)
    {shape shape' : Shape Value} (h : Shape.Like (· = ·) R shape shape') :
    s.visitMembers visit id shape = s.visitMembers visit' id shape' := by
  cases h with
  | scalar kind => rfl
  | list fixed hvs hzero => exact visitList_eq hv s id hvs hzero
  | record hfs =>
      have hexported := forall₂_filter_exported hfs
      dsimp only [visitMembers, visitRecord]
      rw [isEmpty_eq_of_forall₂ hfs, isEmpty_eq_of_forall₂ hexported,
        visitFields_eq hv id hexported]
  | map key keyType hes =>
      rw [visitMembers, visitMembers, visitMap, visitMap, isEmpty_eq_of_forall₂ hes,
        visitEntries_eq hv id (forall₂_members hes)]
  | permuted key keyType hkeys hperm hes =>
      rw [visitMembers, visitMembers, visitMap, visitMap, members_eq_of_perm hkeys hperm,
        hperm.isEmpty_eq, isEmpty_eq_of_forall₂ hes, visitEntries_eq hv id (forall₂_members hes)]
  | absent hzero =>
      dsimp only [visitMembers, visitPointer]
      rw [Option.getD_none, Option.getD_none, hv _ _ hzero]
  | present hvw hzero =>
      dsimp only [visitMembers, visitPointer]
      rw [Option.getD_some, Option.getD_some, hv _ _ hvw]
      rfl
  | emptySlot => rfl
  | slot hvw => exact hv _ _ hvw id _
  | nil => rfl

end Schema

theorem Attributes.enter_eq_of_like {T : String → String → Prop} {l l' : Layer}
    (h : l.Like T l') (a : Attributes) (top : Bool) (names : Names) :
    a.enter top names l = a.enter top names l' := by
  unfold enter
  rw [h.shape.kind_eq, h.typeName_eq]

/-- The walks over the two values take an arena through the same states. -/
theorem visitsAlike_visit {types types' : Types} (ht : types.Permuted types') (depth : Nat) :
    ∀ names, Schema.VisitsAlike Value.Permuted (Schema.visit types depth names)
      (Schema.visit types' depth names) := by
  induction depth with
  | zero => exact fun _ _ _ _ _ _ => rfl
  | succ depth ih =>
      intro names v w h id s
      have hlayer := Value.layer?_like ht h
      dsimp only [Schema.visit, Option.bind_eq_bind]
      generalize v.layer? types = x at hlayer ⊢
      generalize w.layer? types' = y at hlayer ⊢
      cases hlayer with
      | none => rfl
      | @some l l' hl =>
          rw [Option.bind_some, Option.bind_some, Attributes.enter_eq_of_like hl]
          cases ((s.attrs id).enter (s.underRoot id) names l').2 with
          | none => rfl
          | some inner =>
              dsimp only
              rw [Schema.visitMembers_eq (ih inner) _ id hl.shape]

/-- The schemas are the same, and if one derivation does not end, neither does the other. -/
theorem derive?_eq_of_permuted {types types' : Types} {v w : Value} (ht : types.Permuted types')
    (h : v.Permuted w) : derive? types v = derive? types' w := by
  rw [derive?, derive?, walk?, walk?, Schema.visitTop?, Schema.visitTop?,
    Value.depthBound_eq_of_like ht h, visitsAlike_visit ht _ _ v w h]

/-! ## Documents -/

namespace Json

/-- The documents differ at most in the order of the members of objects. -/
inductive Permuted : Json → Json → Prop
  | null : Permuted .null .null
  | bool (b : Bool) : Permuted (.bool b) (.bool b)
  | number (n : Number) : Permuted (.number n) (.number n)
  | string (s : String) : Permuted (.string s) (.string s)
  | array {js ks : List Json} : List.Forall₂ Permuted js ks → Permuted (.array js) (.array ks)
  | object {ms ms' ns : List (String × Json)} : (ms.map (·.1)).Nodup → ms.Perm ms' →
      List.Forall₂ (Entry.Like Permuted) ms' ns → Permuted (.object ms) (.object ns)

/-- The slots of parts whose values are alike. -/
theorem toSlot_permuted {j k : Json} (h : j.Permuted k)
    (hvalue : j.toValue.Permuted k.toValue) : j.toSlot.Permuted k.toSlot := by
  by_cases hj : j = null
  · subst hj
    cases h
    rw [toSlot]
    exact .layer none .emptySlot
  · have hk : k ≠ null := by
      rintro rfl
      cases h
      exact hj rfl
    rw [toSlot_of_ne_null hj, toSlot_of_ne_null hk]
    exact .layer none (.slot hvalue)

theorem toValue_permuted {j k : Json} (h : j.Permuted k) : j.toValue.Permuted k.toValue := by
  cases h with
  | null => rw [toValue]; exact .layer none .nil
  | bool _ => rw [toValue]; exact .layer none (.scalar _)
  | number _ => rw [toValue]; exact .layer none (.scalar _)
  | string _ => rw [toValue]; exact .layer none (.scalar _)
  | @array js ks hs =>
      rw [toValue, toValue, toSlots_eq_map, toSlots_eq_map]
      refine .layer none (.list false ?_ (.layer none .emptySlot))
      rw [List.forall₂_map_left_iff, List.forall₂_map_right_iff]
      refine forall₂_of_mem hs fun j hj k hjk => toSlot_permuted hjk ?_
      have hlt := List.sizeOf_lt_of_mem hj
      exact toValue_permuted hjk
  | @object ms ms' ns hkeys hperm hs =>
      rw [toValue, toValue, toEntries_eq_map, toEntries_eq_map]
      refine .layer none (.permuted .string "string" ?_ (hperm.map _) ?_)
      · rw [List.map_map]
        exact hkeys
      · rw [List.forall₂_map_left_iff, List.forall₂_map_right_iff]
        refine forall₂_of_mem hs fun m hm n hmn => ?_
        obtain ⟨key, hjk⟩ := hmn
        have hlt := sizeOf_lt_of_mem_entries (hperm.mem_iff.mpr hm)
        refine .intro key (toSlot_permuted hjk ?_)
        exact toValue_permuted hjk
termination_by sizeOf j
decreasing_by all_goals simp_wf; omega

end Json

/-! ## The main result -/

/-- The order of the entries of maps with distinct keys cannot be seen,
at any number of places and depths, in the value and in the table of
types, and for any two engines: the schemas are the same one, ids and
diagnostics included, so they have the same lines in every dialect and
mode. The same holds of documents and the members of their objects. -/
theorem schema_eq_of_permuted (e e' : Engine) :
    (∀ types types' v v', Types.Permuted types types' → Value.Permuted v v' →
      (e.derive? types v).1 = (e'.derive? types' v').1
        ∧ ∀ s s', (e.derive? types v).1 = some s → (e'.derive? types' v').1 = some s' →
          ∀ d o url, s.lines d o url = s'.lines d o url)
      ∧ ∀ j j', Json.Permuted j j' → deriveDocument j = deriveDocument j'
        ∧ ∀ d o url, (deriveDocument j).lines d o url = (deriveDocument j').lines d o url := by
  refine ⟨fun types types' v v' ht hv => ?_, fun j j' h => ?_⟩
  · have heq := derive?_eq_of_permuted ht hv
    refine ⟨heq, fun s s' hs hs' d o url => ?_⟩
    have hs : derive? types v = some s := hs
    have hs' : derive? types' v' = some s' := hs'
    rw [Option.some.inj (hs.symm.trans (heq.trans hs'))]
  · have htypes : Types.Permuted {} {} := .nil
    have heq : deriveDocument j = deriveDocument j' := by
      rw [deriveDocument, deriveDocument,
        derive?_eq_of_permuted htypes (Json.toValue_permuted h)]
    exact ⟨heq, fun d o url => by rw [heq]⟩

/-- Two keys with one capitalized form, of which one is flagged. -/
def rivals : List (String × Value) :=
  [("Key", .ofShape (.scalar .i64)), ("key", .ofShape (.scalar .bool))]

/-- An object in an array. -/
def nested (ms : List (String × Json)) : Json := .object [("Items", .array [.object ms])]

theorem schema_eq_of_permuted_rivals :
    (∃ s, (Engine.derive? {} {} (.ofShape (.map .string "string" rivals))).1 = some s
        ∧ (Engine.derive? {} {} (.ofShape (.map .string "string" rivals.reverse))).1 = some s)
      ∧ deriveDocument (nested [("a", .null), ("b", .bool true)]) =
        deriveDocument (nested [("b", .bool true), ("a", .null)]) := by
  have hvalues : Value.Permuted (.ofShape (.map .string "string" rivals))
      (.ofShape (.map .string "string" rivals.reverse)) :=
    .layer none (.permuted .string "string" (by decide) rivals.reverse_perm.symm
      (.cons (.intro "key" (.layer none (.scalar _)))
        (.cons (.intro "Key" (.layer none (.scalar _))) .nil)))
  have hmembers : Json.Permuted (.object [("a", .null), ("b", .bool true)])
      (.object [("b", .bool true), ("a", .null)]) :=
    .object (by decide) (.swap ..) (.cons (.intro "b" (.bool true)) (.cons (.intro "a" .null) .nil))
  have hdocuments : Json.Permuted (nested [("a", .null), ("b", .bool true)])
      (nested [("b", .bool true), ("a", .null)]) :=
    .object (by decide) (.refl _) (.cons (.intro "Items" (.array (.cons hmembers .nil))) .nil)
  have hwritten : (Value.ofShape (.map .string "string" rivals)).IsWritten := by
    intro w hw
    simp [Value.ofShape, rivals, Value.subvalues, Value.subvaluesEntries] at hw
    rcases hw with rfl | rfl | rfl <;> exact ⟨_, _, rfl⟩
  obtain ⟨o, ho⟩ : ∃ o, Outlines {} (.start _) o := exists_outlines_of_isWritten hwritten
  obtain ⟨s, hs, -⟩ := derive?_of_outlines ho
  obtain ⟨hschema, -⟩ := (schema_eq_of_permuted {} {}).1 {} {} _ _ .nil hvalues
  exact ⟨⟨s, hs, hschema.symm.trans hs⟩,
    ((schema_eq_of_permuted {} {}).2 _ _ hdocuments).1⟩

end TypeOutline
