import TypeOutline.Proofs.Derivation.References
import TypeOutline.Proofs.Derivation.Termination
import TypeOutline.Proofs.Derivation.TypedTrees
import TypeOutline.Proofs.Rendering.Expands

/-!
# References of described types

A schema of a described type says the same with references and without:
expanding the references of what is shown of it gives the full tree
(`expands_iff_of_hasType`).

A definition is made of the first node of its type that is finished, below
names of its own. It does for every other node of the type, since two
nodes of one type expand alike (`alike_of_typed`): what they differ in
lies at or below references, and there an expansion looks at definitions
only. The induction on the depth carries the names above a node as the
types that are being expanded (`ExpandsInFull`).
-/

namespace TypeOutline

/-! ## Two nodes of one type -/

section Typed

variable {types : Types} {table : TypeTable} {p q : Site} {d : TypeDesc} {depth depth' : Nat}
  {R : List (Rose Attributes)} {t t' : Rose Attributes} {us : List (Rose Face)} {n : String}

theorem forall₂_of_common {α β γ : Type} {S : α → β → Prop} {S' : α → γ → Prop} {Q : β → γ → Prop}
    {xs : List α} {ys : List β} {zs : List γ} (h : List.Forall₂ S xs ys)
    (h' : List.Forall₂ S' xs zs) (hQ : ∀ x y z, S x y → S' x z → Q y z) : List.Forall₂ Q ys zs := by
  induction h generalizing zs with
  | nil =>
      cases h'
      exact .nil
  | cons hxy _ ih =>
      cases h' with
      | cons hxz hrest => exact .cons (hQ _ _ _ hxy hxz) (ih hrest)

/-- Levels of one type that show no name expand alike if their members do. -/
theorem alike_of_isLevelTree (hlevel : p.IsLevelTree types table depth d t)
    (hlevel' : q.IsLevelTree types table depth' d t') (hempty : d.shownName = "")
    (hname : p.attrs.name = q.attrs.name) (hnullable : p.attrs.nullable = q.attrs.nullable)
    (hmembers : List.Forall₂ (Alike R) t.children t'.children) : Alike R t t' := by
  refine alike_of_plain (hlevel.typeRef_eq.trans hempty) (hlevel'.typeRef_eq.trans hempty) ?_
    hmembers
  rw [hlevel.face_eq, hlevel'.face_eq, hname, hnullable]

/-- Refused levels that write no name expand alike. -/
theorem alike_of_refused {a b : Attributes} {kind : Kind} {r : Ruling}
    (ha : a.native.typeRef = "") (hb : b.native.typeRef = "") (hr : r.name? = none)
    (hname : a.name = b.name) (hnullable : a.nullable = b.nullable)
    (hdefect : a.defect = b.defect) :
    Alike R (.node (a.head kind r) []) (.node (b.head kind r) []) := by
  refine alike_of_plain ?_ ?_ (face_head_eq kind r hname hnullable hdefect) .nil
  · exact (Attributes.typeRef_head a kind r).trans (by rw [hr]; exact ha)
  · exact (Attributes.typeRef_head b kind r).trans (by rw [hr]; exact hb)

/-- Two nodes of one type expand alike. They are refused alike, or both
refer to their type, or both show no name and have members of one type. -/
theorem alike_of_typed (htable : table.WellFormed) (R : List (Rose Attributes)) : ∀ {depth : Nat}
    {p q : Site} {d : TypeDesc} {o o' : Outline}, p.Typed types table d → q.Typed types table d →
      p.top = q.top → p.attrs.name = q.attrs.name → p.attrs.nullable = q.attrs.nullable →
        outline types depth p = some o → outline types depth q = some o' →
          Alike R o.tree o'.tree := by
  intro depth
  induction depth with
  | zero =>
      intro p q d o o' _ _ _ _ _ ho
      cases ho
  | succ depth ih =>
      intro p q d o o' hp hq htop hname hnullable ho ho'
      have htree := treeOf_view htable hp ho
      have htree' := treeOf_view htable hq ho'
      rw [← htop] at htree'
      generalize d.view p.top = view, o.tree = t, o'.tree = t' at htree htree'
      cases view with
      | wrapper target =>
          cases htree with
          | wrapper hp' hop =>
              cases htree' with
              | wrapper hq' hoq =>
                  obtain rfl := Option.some.inj (hp'.find?_eq.symm.trans hq'.find?_eq)
                  refine ih hp'.typed hq'.typed ?_ ?_ ?_ hop hoq
                  · rw [hp'.top_eq, hq'.top_eq, htop]
                  · rw [hp'.name_eq, hq'.name_eq, hname]
                  · rw [hp'.nullable_eq, hq'.nullable_eq]
      | refused r =>
          cases htree with
          | refused hr =>
              cases htree' with
              | refused =>
                  exact alike_of_refused hp.typeRef_eq hq.typeRef_eq hr hname hnullable
                    (hp.defect_eq.trans hq.defect_eq.symm)
      | unnamed =>
          cases htree with
          | unnamed hlevel hempty =>
              cases htree' with
              | unnamed hlevel' =>
                  refine alike_of_isLevelTree hlevel hlevel' hempty hname hnullable
                    (forall₂_of_common hlevel.children hlevel'.children ?_)
                  rintro m c c' ⟨p', dp, op, hdp, hp', hattrs, htop, -, hop, rfl⟩
                    ⟨q', dq, oq, hdq, hq', hattrs', htop', -, hoq, rfl⟩
                  obtain rfl := Option.some.inj (hdp.symm.trans hdq)
                  exact ih hp' hq' (by rw [htop, htop']) (by rw [hattrs, hattrs'])
                    (by rw [hattrs, hattrs']) hop hoq
      | named n =>
          obtain ⟨hne, htype, hface⟩ := htree.label_of_named
          obtain ⟨-, htype', hface'⟩ := htree'.label_of_named
          refine alike_of_reference hne htype htype' ?_
          rw [hface, hface', hname, hnullable]

/-! ## The registry of typed values -/

theorem exists_typed_of_reaches (htable : table.WellFormed) {start : Site} {path : List Layer}
    (hstart : ∃ d, start.Typed types table d) (h : Reaches types start path p) :
    ∃ d, p.Typed types table d := by
  induction h with
  | start => exact hstart
  | member _ _ hq ih =>
      obtain ⟨d, hp⟩ := ih
      exact exists_typed_of_mem_members htable hp hq

/-- Every definition is made of a node of its type. -/
def IsRegistry (types : Types) (table : TypeTable) (R : List (Rose Attributes)) : Prop :=
  ∀ n t, n ≠ "" → R.find? (·.label.name == n) = some t →
    ∃ (p : Site) (d : TypeDesc) (depth : Nat) (u : Rose Attributes), p.Typed types table d
      ∧ d.declares? = some n ∧ p.IsLevelTree types table depth d u ∧ t = u.definition

theorem isLevelTree_of_enters (htable : table.WellFormed) (hp : p.Typed types table d) {l : Layer}
    {content : Outline} (h : p.Enters types depth l (some n) content) :
    d.declares? = some n ∧ p.IsLevelTree types table depth d content.tree := by
  obtain ⟨l', hl', hkind, hruling, hfits⟩ := hp.exists_layer
  obtain rfl := Option.some.inj (h.layer_eq.symm.trans hl')
  have hr := hruling.symm.trans h.ruling_eq
  obtain ⟨hname, -⟩ := d.declares?_of_enters hr
  have hform : ∀ target, d.form ≠ .optional target := by
    intro target hform
    cases hr.symm.trans (ruling_optional htable hp hform)
  have hcontent := h.outline_eq
  have hdefect := defect_head_enters p.attrs d.form.kind d.declares?
  have hgives := gives_content (hdefect.trans hp.defect_eq) hfits
  rw [hkind, ← hname] at hcontent
  exact ⟨hname, isLevelTree_of_gives htable hp hform hgives hcontent⟩

theorem isRegistry_of_outline (htable : table.WellFormed) (hp : p.Typed types table d) {o : Outline}
    (ho : outline types depth p = some o) : IsRegistry types table (recordAll [] o.finished) := by
  intro n t hne ht
  have hlabel : t.label.name = n := by simpa using List.find?_some ht
  rcases mem_recordAll (List.mem_of_find?_eq_some ht) with h | ⟨f, hf, m, hm, rfl⟩
  · exact absurd h List.not_mem_nil
  · obtain ⟨-, -, hname⟩ := defines?_eq_some.mp hm
    rw [Rose.label_definition] at hlabel
    obtain rfl : m = n := hname.symm.trans hlabel
    rcases named_outline types depth ho f.tree m (.inr ⟨f, hf, rfl⟩) hm with
      ⟨g, hg, hdeclares, htree⟩ | ⟨hempty, -⟩
    · obtain ⟨path, e, name, content, hpath, henters, hcontent⟩ :=
        exists_enters_of_mem_finished .start ho g hg
      obtain ⟨desc, hsite⟩ := exists_typed_of_reaches htable ⟨d, hp⟩ hpath
      obtain ⟨hlevel, -⟩ := declares?_of_enters henters.ruling_eq
      obtain rfl : name = some m := hlevel.symm.trans hdeclares.1
      obtain ⟨hdesc, htyped⟩ := isLevelTree_of_enters htable hsite henters
      exact ⟨_, desc, e, content.tree, hsite, hdesc, htyped, by rw [← htree, hcontent]⟩
    · exact absurd (hempty.symm.trans hp.typeRef_eq) hne

/-! ## Expanding a typed tree -/

/-- Members of one level expand alike, below any names. -/
theorem alike_of_isMemberTree (htable : table.WellFormed) (R : List (Rose Attributes))
    {above above' : Finset String} {m : Attributes × String}
    (h : IsMemberTree types table depth above m t)
    (h' : IsMemberTree types table depth' above' m t') : Alike R t t' := by
  obtain ⟨p, d, o, hd, hp, hattrs, htop, -, ho, rfl⟩ := h
  obtain ⟨q, d', o', hd', hq, hattrs', htop', -, ho', rfl⟩ := h'
  obtain rfl := Option.some.inj (hd.symm.trans hd')
  exact alike_of_typed htable R hp hq (by rw [htop, htop']) (by rw [hattrs, hattrs'])
    (by rw [hattrs, hattrs']) (outline_mono ho (Nat.le_max_left depth depth'))
    (outline_mono ho' (Nat.le_max_right depth depth'))

/-- Typed trees of a depth expand to what they show in full. -/
def ExpandsInFull (types : Types) (table : TypeTable) (R : List (Rose Attributes)) (depth : Nat) :
    Prop :=
  ∀ {p : Site} {d : TypeDesc} {o : Outline} {path : List String}, p.Typed types table d →
    outline types depth p = some o → (∀ n, n ∈ path ↔ n ∈ p.above) →
      (∀ a ∈ o.tree.preorder, Settled R a) → Expands R path [o.tree] [o.tree.map Attributes.face]

theorem expands_members (h : ExpandsInFull types table R depth) {above : Finset String}
    {path : List String} (hpath : ∀ n, n ∈ path ↔ n ∈ above) {ms : List (Attributes × String)}
    {ts : List (Rose Attributes)} (hts : List.Forall₂ (IsMemberTree types table depth above) ms ts)
    (hsettled : ∀ a ∈ Rose.preorderAll ts, Settled R a) :
    Expands R path ts (Rose.mapAll Attributes.face ts) := by
  induction hts with
  | nil => exact .nil
  | cons ht _ ih =>
      obtain ⟨q, d, o, -, hq, -, -, rfl, ho, rfl⟩ := ht
      refine expands_cons (h hq ho hpath fun a ha => ?_) (ih fun a ha => ?_)
      · exact hsettled a (List.mem_append_left _ ha)
      · exact hsettled a (List.mem_append_right _ ha)

theorem defect?_ne (form : TypeForm) : form.defect? ≠ some .cyclicalReference := by
  cases form with
  | record fields =>
      dsimp only [TypeForm.defect?]
      split
      · exact fun h => nomatch h
      · split <;> exact fun h => nomatch h
  | _ => exact fun h => nomatch h

/-- A node that shows the name of its type, which is not being expanded. -/
theorem expands_definition (htable : table.WellFormed) (hR : IsRegistry types table R)
    (hp : p.Typed types table d) (hlevel : p.IsLevelTree types table depth d t)
    (hname : d.declares? = some n) (hshown : d.shownName = n) (hne : n ≠ "") {path : List String}
    (hpath : n ∉ path) (hsettled : Settled R t.label)
    (hchildren : Expands R (n :: path) t.children us) :
    Expands R path [t] [.node t.label.face us] := by
  have htype : t.label.native.typeRef = n := hlevel.typeRef_eq.trans hshown
  have hcyc : t.label.defect ≠ some .cyclicalReference := by
    rw [show t.label.defect = d.form.defect? from congrArg Face.defect hlevel.face_eq]
    exact defect?_ne d.form
  obtain ⟨r, hr, hrn⟩ := hsettled n (defines?_of_typeRef htype hne hcyc)
  obtain ⟨e, he⟩ := Option.isSome_iff_exists.mp
    (List.find?_isSome.mpr ⟨r, hr, beq_iff_eq.mpr hrn⟩ :
      (R.find? (·.label.name == n)).isSome = true)
  -- the definition was made of another node of the same type
  obtain ⟨q, d', depth', u, hq, hname', hlevel', rfl⟩ := hR n e hne he
  obtain ⟨key, hd, -⟩ := hp.hasType
  obtain ⟨key', hd', -⟩ := hq.hasType
  obtain rfl := htable.unique key key' d d' n hd hd' hname hname'
  have halike := forall₂_of_common hlevel.children hlevel'.children fun m c c' =>
    alike_of_isMemberTree htable R
  have hbelow := (hchildren.of_alike halike).cut
  have hface : ({ u.definition.label.face with
      name := t.label.name, nullable := t.label.nullable } : Face) = t.label.face := by
    have hu := hlevel'.face_eq
    have ht := hlevel.face_eq
    rw [Rose.label_definition]
    have htypes : u.label.typeLabel = t.label.typeLabel :=
      (congrArg Face.type hu).trans (congrArg Face.type ht).symm
    have hdefects : u.label.defect = t.label.defect :=
      (congrArg Face.defect hu).trans (congrArg Face.defect ht).symm
    show (⟨t.label.name, u.label.typeLabel, t.label.nullable, u.label.defect⟩ : Face) = _
    rw [htypes, hdefects]
    rfl
  obtain ⟨a, below⟩ := t
  have htype : a.native.typeRef = n := htype
  have hexpands : Expands R path [.node a below] [.node { u.definition.label.face with
      name := a.name, nullable := a.nullable } us] := by
    refine .definition (htype ▸ hne) (htype ▸ hpath) (htype ▸ he) ?_ .nil
    rw [htype]
    obtain ⟨b, cs⟩ := u
    exact hbelow
  have hface : ({ u.definition.label.face with name := a.name, nullable := a.nullable } : Face) =
      a.face := hface
  rw [hface] at hexpands
  exact hexpands

theorem expands_of_typed (htable : table.WellFormed) (hR : IsRegistry types table R) (depth : Nat) :
    ExpandsInFull types table R depth := by
  induction depth with
  | zero =>
      intro p d o path _ ho
      cases ho
  | succ depth ih =>
      intro p d o path hp ho hpath hsettled
      have htree := treeOf_view htable hp ho
      generalize d.view p.top = view, o.tree = t at htree hsettled
      have hbelow : ∀ a ∈ Rose.preorderAll t.children, Settled R a := by
        obtain ⟨b, cs⟩ := t
        exact fun a ha => hsettled a (List.mem_cons_of_mem b ha)
      cases htree with
      | wrapper hq ho' => exact ih hq.typed ho' (fun n => by rw [hq.above_eq, hpath]) hsettled
      | @refused r hr =>
          have htype := Attributes.typeRef_head p.attrs d.form.kind r
          rw [hr] at htype
          exact .plain (htype.trans hp.typeRef_eq) .nil .nil
      | unnamed hlevel hempty hmembers =>
          have htype := hlevel.typeRef_eq.trans hempty
          have hchildren : Expands R path t.children (Rose.mapAll Attributes.face t.children) := by
            rcases hmembers with hnone | hnil
            · refine expands_members ih ?_ hlevel.children hbelow
              rw [hnone]
              exact hpath
            · rw [hnil]
              exact .nil
          obtain ⟨a, cs⟩ := t
          exact .plain htype hchildren .nil
      | @named n _ hlevel hne hname hdeclares habove =>
          have hpath' : ∀ m, m ∈ n :: path ↔ m ∈ declaredBelow p.above d.declares? := fun m => by
            rw [hdeclares, declaredBelow, List.mem_cons, Finset.mem_insert, hpath]
          have hchildren := expands_members ih hpath' hlevel.children hbelow
          have hexpands := expands_definition htable hR hp hlevel hdeclares hname hne
            (mt (hpath n).mp habove) (hsettled _ (Rose.label_mem_preorder t)) hchildren
          obtain ⟨a, cs⟩ := t
          exact hexpands
      | @cycle n hne habove =>
          have htype := Attributes.typeRef_head p.attrs d.form.kind (.cycle n)
          exact .cycle (htype ▸ hne) (htype ▸ (hpath n).mpr habove) .nil

/-! ## The main result -/

/-- Expanding the references that a rendering shows of a described type gives
what is shown where references are resolved, and nothing else. -/
theorem expands_iff_of_hasType {v : Value} {key : String} {s : Schema} {o o' : RenderOptions}
    (e : Engine) (htable : table.WellFormed) (hv : v.HasType types table key)
    (hs : (e.derive? types v).1 = some s) (ho' : o'.dereference = true) (us : List (Rose Face)) :
    Expands (s.shownTree o s.typeRefs).children [] [s.shownTree o s.root] us ↔
      us = [(s.shownTree o' s.root).map Attributes.face] := by
  obtain ⟨out, ⟨depth, hout⟩, hrenders⟩ := exists_outlines_of_derive? hs
  obtain ⟨d, -, hp⟩ := exists_typed (q := .start v) hv rfl rfl rfl
    fun n hn => absurd hn (Finset.notMem_empty n)
  have hR := isRegistry_of_outline htable hp hout
  have hsettled := SettlesBelow.settles (settled_of_outline types depth) hout rfl []
  have htree := expands_of_typed htable hR depth hp hout
    (fun n => iff_of_false List.not_mem_nil (Finset.notMem_empty n)) hsettled
  have hroot : Expands (recordAll [] out.finished) [] [s.tree s.root]
      [(s.tree s.root).map Attributes.face] := by
    rw [hrenders.root_eq]
    exact .plain rfl htree .nil
  have hordered := hroot.ordered
  have hdefinitions : ∀ t ∈ Rose.orderedAll Attributes.name (recordAll [] out.finished),
      t.label.isReference = false := by
    intro t ht
    obtain ⟨u, hu, rfl⟩ := Rose.exists_of_mem_orderedAll ht
    rw [Rose.label_ordered]
    rcases mem_recordAll hu with hu | ⟨f, -, -, -, rfl⟩
    · exact absurd hu List.not_mem_nil
    · rw [Rose.label_definition]
      exact Schema.isReference_definition _
  have hshown := hordered.shown (o := o) hdefinitions
  have hexpansion : [(s.shownTree o' s.root).map Attributes.face] =
      [(s.tree s.root).map Attributes.face].map (Rose.ordered Face.name) := by
    have hname : ∀ a : Attributes, a.face.name = a.name := fun _ => rfl
    rw [Schema.shownTree, Rose.shown_of_dereference ho', Rose.map_ordered hname]
    rfl
  have htypeRefs : (s.shownTree o s.typeRefs).children =
      Rose.shownAll o (Rose.orderedAll Attributes.name (recordAll [] out.finished)) := by
    have hlabel : (s.tree s.typeRefs).label.isReference = false := by
      rw [hrenders.typeRefs_eq]
      rfl
    rw [Schema.shownTree, Rose.children_shown, Rose.children_ordered, hrenders.typeRefs_eq]
    · rfl
    · rw [Rose.label_ordered, Schema.expands, hlabel, Bool.not_false, Bool.or_true]
  rw [htypeRefs, hexpansion]
  exact ⟨fun h => h.unique hshown, fun h => h ▸ hshown⟩

end Typed

/-- The type of a node in a chain, and that of the place of its next one. -/
def chainTable : TypeTable :=
  ⟨[("Node", { name := some "Node", form := .record [{ name := "Next", value := "Next" }] }),
    ("Next", { form := .optional "Node" })], by decide⟩

theorem find?_chainTable {key : String} {d : TypeDesc} (h : chainTable.find? key = some d) :
    d = { name := some "Node", form := .record [{ name := "Next", value := "Next" }] }
      ∨ d = { form := .optional "Node" } := by
  have hmem := Dictionary.mem_entries_of_find? h
  rcases List.mem_cons.mp hmem with heq | hmem
  · exact .inl (congrArg Prod.snd heq)
  · exact .inr (congrArg Prod.snd (List.mem_singleton.mp hmem))

theorem wellFormed_chainTable : chainTable.WellFormed where
  name_ne := by
    intro key d h
    rcases find?_chainTable h with rfl | rfl <;> decide
  unique := by
    intro key key' d d' n h h' hn hn'
    rcases find?_chainTable h with rfl | rfl
    · rcases find?_chainTable h' with rfl | rfl
      · rfl
      · cases hn'
    · cases hn
  optional := by
    intro key d target h hform
    rcases find?_chainTable h with rfl | rfl
    · cases hform
    · rfl

theorem hasType_chain : chain.HasType chainTypes chainTable "Node" := by
  refine ⟨fun v key => v = chain ∧ key = "Node" ∨ v = chainNext ∧ key = "Next", ?_, .inl ⟨rfl, rfl⟩⟩
  rintro v key (⟨rfl, rfl⟩ | ⟨rfl, rfl⟩)
  · exact ⟨_, _, rfl, rfl, rfl, .cons ⟨rfl, rfl, rfl, .inr ⟨rfl, rfl⟩⟩ .nil⟩
  · refine ⟨_, _, rfl, rfl, rfl, ?_, .inl ⟨rfl, rfl⟩⟩
    exact fun _ h => nomatch h

theorem expands_iff_of_hasType_chain : ∃ s us, derive? chainTypes chain = some s
    ∧ Expands (s.shownTree {} s.typeRefs).children [] [s.shownTree {} s.root] us
    ∧ Rose.preorderAll us = [⟨"Root", "root", false, none⟩, ⟨"", "struct", false, none⟩,
      ⟨"Next", "struct", true, some .cyclicalReference⟩] := by
  have hderive : (derive? chainTypes chain).map (fun s =>
      ((s.shownTree { dereference := true } s.root).map Attributes.face).preorder) =
        some [⟨"Root", "root", false, none⟩, ⟨"", "struct", false, none⟩,
          ⟨"Next", "struct", true, some .cyclicalReference⟩] := by
    decide +kernel
  obtain ⟨s, hs, hfaces⟩ := Option.map_eq_some_iff.mp hderive
  have hexpands : Expands (s.shownTree {} s.typeRefs).children [] [s.shownTree {} s.root]
      [(s.shownTree { dereference := true } s.root).map Attributes.face] :=
    (expands_iff_of_hasType {} wellFormed_chainTable hasType_chain hs rfl _).mpr rfl
  refine ⟨s, _, hs, hexpands, ?_⟩
  rw [Rose.preorderAll, Rose.preorderAll, List.append_nil, hfaces]

end TypeOutline
