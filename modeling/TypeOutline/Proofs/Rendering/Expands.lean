import TypeOutline.Proofs.Derivation.Definitions
import TypeOutline.Proofs.Rendering.Shown

/-!
# Expanding references

A tree shown with references can be turned into one shown without: each
reference is replaced by the definition of its type, which is expanded
further, and a type inside of its own expansion closes a cycle
(`Expands`). There is at most one expansion, and it can be read off the
trees that a rendering shows as well as off those of the schema
(`Expands.shown`, `Expands.ordered`).

Two trees can expand alike and differ (`Alike`): what is below a
reference does not matter.
-/

namespace TypeOutline

/-! ## Expansion -/

/-- Trees are expanded on the way down from types that are being expanded.
A node that refers to no type stays. A node of a type on the way closes a
cycle. Any other is given what the definition of its type shows, except
for its name and whether it is nullable. -/
inductive Expands (definitions : List (Rose Attributes)) :
    (path : List String) → List (Rose Attributes) → List (Rose Face) → Prop where
  | nil {path : List String} : Expands definitions path [] []
  | plain {path : List String} {a : Attributes} {below ts : List (Rose Attributes)}
      {us vs : List (Rose Face)} (hname : a.native.typeRef = "")
      (hbelow : Expands definitions path below us) (hts : Expands definitions path ts vs) :
      Expands definitions path (.node a below :: ts) (.node a.face us :: vs)
  | cycle {path : List String} {a : Attributes} {below ts : List (Rose Attributes)}
      {vs : List (Rose Face)} (hname : a.native.typeRef ≠ "") (hpath : a.native.typeRef ∈ path)
      (hts : Expands definitions path ts vs) :
      Expands definitions path (.node a below :: ts)
        (.node { a.face with defect := some .cyclicalReference } [] :: vs)
  | definition {path : List String} {a : Attributes} {below ts : List (Rose Attributes)}
      {d : Rose Attributes} {us vs : List (Rose Face)} (hname : a.native.typeRef ≠ "")
      (hpath : a.native.typeRef ∉ path)
      (hd : definitions.find? (·.label.name == a.native.typeRef) = some d)
      (hbelow : Expands definitions (a.native.typeRef :: path) d.children us)
      (hts : Expands definitions path ts vs) :
      Expands definitions path (.node a below :: ts)
        (.node { d.label.face with name := a.name, nullable := a.nullable } us :: vs)

section Expands

variable {R : List (Rose Attributes)} {path : List String} {t t' : Rose Attributes}
  {ts ts' : List (Rose Attributes)} {u : Rose Face} {us us' : List (Rose Face)}

/-- There is at most one expansion. -/
theorem Expands.unique (h : Expands R path ts us) (h' : Expands R path ts us') : us = us' := by
  induction h generalizing us' with
  | nil =>
      cases h'
      rfl
  | plain hname _ _ ihbelow ihts =>
      cases h' with
      | plain _ hbelow hts => rw [ihbelow hbelow, ihts hts]
      | cycle hname' => exact absurd hname hname'
      | definition hname' => exact absurd hname hname'
  | cycle hname hpath _ ihts =>
      cases h' with
      | plain hname' => exact absurd hname' hname
      | cycle _ _ hts => rw [ihts hts]
      | definition _ hpath' => exact absurd hpath hpath'
  | definition hname hpath hd _ _ ihbelow ihts =>
      cases h' with
      | plain hname' => exact absurd hname' hname
      | cycle _ hpath' => exact absurd hpath' hpath
      | definition _ _ hd' hbelow hts =>
          obtain rfl := Option.some.inj (hd.symm.trans hd')
          rw [ihbelow hbelow, ihts hts]

theorem expands_cons (h : Expands R path [t] [u]) (hts : Expands R path ts us) :
    Expands R path (t :: ts) (u :: us) := by
  cases h with
  | plain hname hbelow => exact .plain hname hbelow hts
  | cycle hname hpath => exact .cycle hname hpath hts
  | definition hname hpath hd hbelow => exact .definition hname hpath hd hbelow hts

theorem exists_of_expands_cons (h : Expands R path (t :: ts) us) :
    ∃ u us', us = u :: us' ∧ Expands R path [t] [u] ∧ Expands R path ts us' := by
  cases h with
  | plain hname hbelow hts => exact ⟨_, _, rfl, .plain hname hbelow .nil, hts⟩
  | cycle hname hpath hts => exact ⟨_, _, rfl, .cycle hname hpath .nil, hts⟩
  | definition hname hpath hd hbelow hts =>
      exact ⟨_, _, rfl, .definition hname hpath hd hbelow .nil, hts⟩

/-- An expansion looks at nothing that cutting down takes away. -/
theorem Expands.cut (h : Expands R path ts us) : Expands R path (Rose.cutAll ts) us := by
  induction h with
  | nil => exact .nil
  | @plain path a below ts us vs hname _ _ ihbelow ihts =>
      have href : ¬ a.isReference = true := fun h => bne_iff_ne.mp h hname
      rw [Rose.cutAll, Rose.cut, if_neg href]
      exact .plain hname ihbelow ihts
  | @cycle path a below ts vs hname hpath _ ihts =>
      have href : a.isReference = true := bne_iff_ne.mpr hname
      rw [Rose.cutAll, Rose.cut, if_pos href]
      exact .cycle (by exact hname) (by exact hpath) ihts
  | @definition path a below ts d us vs hname hpath hd hbelow _ _ ihts =>
      have href : a.isReference = true := bne_iff_ne.mpr hname
      rw [Rose.cutAll, Rose.cut, if_pos href]
      exact .definition (by exact hname) (by exact hpath) (by exact hd) hbelow ihts

/-- An expansion looks at nothing that is not shown, as no definition refers to a type itself. -/
theorem Expands.shown {o : RenderOptions} (hR : ∀ d ∈ R, d.label.isReference = false)
    (h : Expands R path ts us) : Expands (Rose.shownAll o R) path (Rose.shownAll o ts) us := by
  induction h with
  | nil => exact .nil
  | @plain path a below ts us vs hname _ _ ihbelow ihts =>
      have hexpands : Schema.expands o a = true := by
        have href : a.isReference = false := bne_eq_false_iff_eq.mpr hname
        rw [Schema.expands, href, Bool.not_false, Bool.or_true]
      rw [Rose.shownAll, Rose.shown, if_pos hexpands]
      exact .plain hname ihbelow ihts
  | cycle hname hpath _ ihts => exact .cycle hname hpath ihts
  | @definition path a below ts d us vs hname hpath hd _ _ ihbelow ihts =>
      have hlabel := Rose.label_shown o d
      have hchildren : (d.shown o).children = Rose.shownAll o d.children := by
        refine Rose.children_shown ?_
        rw [Schema.expands, hR d (List.mem_of_find?_eq_some hd), Bool.not_false, Bool.or_true]
      have hd' : (Rose.shownAll o R).find? (·.label.name == a.native.typeRef) =
          some (d.shown o) := by
        rw [Rose.shownAll_eq_map, List.find?_map]
        simp only [Function.comp_def, Rose.label_shown, hd, Option.map_some]
      rw [← hlabel]
      exact .definition hname hpath hd' (hchildren ▸ ihbelow) ihts

theorem forall₂_of_expands (h : Expands R path ts us) :
    List.Forall₂ (fun t u => t.label.name = u.label.name ∧ Expands R path [t] [u]) ts us := by
  induction h with
  | nil => exact .nil
  | plain hname hbelow _ _ ihts => exact .cons ⟨rfl, .plain hname hbelow .nil⟩ ihts
  | cycle hname hpath _ ihts => exact .cons ⟨rfl, .cycle hname hpath .nil⟩ ihts
  | definition hname hpath hd hbelow _ _ ihts =>
      exact .cons ⟨rfl, .definition hname hpath hd hbelow .nil⟩ ihts

theorem expands_of_forall₂
    (h : List.Forall₂ (fun t u => t.label.name = u.label.name ∧ Expands R path [t] [u]) ts us) :
    Expands R path ts us := by
  induction h with
  | nil => exact .nil
  | cons htu _ ih => exact expands_cons htu.2 ih

/-- An expansion keeps the names, and so the order of the names. -/
theorem Expands.orderedAll
    (h : Expands R path (ts.map (Rose.ordered Attributes.name)) (us.map (Rose.ordered Face.name))) :
    Expands R path (Rose.orderedAll Attributes.name ts) (Rose.orderedAll Face.name us) := by
  refine expands_of_forall₂ (forall₂_mergeSort ?_ (forall₂_of_expands h))
  rintro t u t' u' ⟨htu, -⟩ ⟨htu', -⟩
  rw [htu, htu']

/-- Trees in the order of names expand to trees in the order of names. -/
theorem Expands.ordered (h : Expands R path ts us) :
    Expands (Rose.orderedAll Attributes.name R) path (ts.map (Rose.ordered Attributes.name))
      (us.map (Rose.ordered Face.name)) := by
  induction h with
  | nil => exact .nil
  | plain hname _ _ ihbelow ihts =>
      rw [List.map_cons, List.map_cons, Rose.ordered_node, Rose.ordered_node]
      exact .plain hname ihbelow.orderedAll ihts
  | cycle hname hpath _ ihts =>
      rw [List.map_cons, List.map_cons, Rose.ordered_node, Rose.ordered_node, Rose.orderedAll_nil]
      exact .cycle hname hpath ihts
  | @definition path a below ts d us vs hname hpath hd _ _ ihbelow ihts =>
      have hd' : (Rose.orderedAll Attributes.name R).find? (·.label.name == a.native.typeRef) =
          some (d.ordered Attributes.name) := by
        rw [Rose.find?_orderedAll, hd, Option.map_some]
      rw [List.map_cons, List.map_cons, Rose.ordered_node, Rose.ordered_node,
        ← Rose.label_ordered d]
      refine .definition hname hpath hd' ?_ ihts
      rw [Rose.children_ordered]
      exact ihbelow.orderedAll

/-! ## Trees that expand alike -/

/-- Every expansion of the first tree is one of the second. -/
def Alike (R : List (Rose Attributes)) (t t' : Rose Attributes) : Prop :=
  ∀ path u, Expands R path [t] [u] → Expands R path [t'] [u]

theorem Expands.of_alike (halike : List.Forall₂ (Alike R) ts ts') (h : Expands R path ts us) :
    Expands R path ts' us := by
  induction halike generalizing us with
  | nil => exact h
  | cons ht _ ih =>
      obtain ⟨u, us', rfl, hu, hus⟩ := exists_of_expands_cons h
      exact expands_cons (ht path u hu) (ih hus)

theorem alike_of_plain (hname : t.label.native.typeRef = "") (hname' : t'.label.native.typeRef = "")
    (hface : t.label.face = t'.label.face)
    (hchildren : List.Forall₂ (Alike R) t.children t'.children) : Alike R t t' := by
  intro path u h
  obtain ⟨a, below⟩ := t
  obtain ⟨a', below'⟩ := t'
  have hface : a.face = a'.face := hface
  cases h with
  | plain _ hbelow =>
      rw [hface]
      exact .plain hname' (hbelow.of_alike hchildren) .nil
  | cycle hne => exact absurd hname hne
  | definition hne => exact absurd hname hne

/-- References to one type expand alike, whatever is below them. -/
theorem alike_of_reference {n : String} (hne : n ≠ "") (hname : t.label.native.typeRef = n)
    (hname' : t'.label.native.typeRef = n)
    (hface : { t.label.face with defect := none } = { t'.label.face with defect := none }) :
    Alike R t t' := by
  intro path u h
  obtain ⟨a, below⟩ := t
  obtain ⟨a', below'⟩ := t'
  have hname : a.native.typeRef = n := hname
  have hname' : a'.native.typeRef = n := hname'
  have hface : ({ a.face with defect := none } : Face) = { a'.face with defect := none } := hface
  cases h with
  | plain hempty => exact absurd (hname.symm.trans hempty) hne
  | cycle _ hpath =>
      have hcycle : ({ a.face with defect := some .cyclicalReference } : Face) =
          { a'.face with defect := some .cyclicalReference } :=
        congrArg (fun f : Face => { f with defect := some .cyclicalReference }) hface
      rw [hcycle]
      rw [hname] at hpath
      exact .cycle (hname' ▸ hne) (hname' ▸ hpath) .nil
  | definition _ hpath hd hbelow =>
      have h1 : a.name = a'.name := congrArg Face.name hface
      have h2 : a.nullable = a'.nullable := congrArg Face.nullable hface
      rw [h1, h2]
      rw [hname] at hpath hd hbelow
      exact .definition (hname' ▸ hne) (hname' ▸ hpath) (hname' ▸ hd) (hname' ▸ hbelow) .nil

end Expands

end TypeOutline
