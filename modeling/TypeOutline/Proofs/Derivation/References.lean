import TypeOutline.Proofs.Derivation.Faithful

/-!
# References and definitions

Which of the names that a schema shows for types are defined in it. A
name that is shown was declared by a level that was entered
(`traced_outline`). A level that is no wrapper defines the name that it
declares (`defines_iff_of_declares`). A wrapper does not if the level on the
same node below it writes another name there, or closes a cycle. So a name
is left without a definition exactly if every level that declares it is
such a wrapper (`derive?_defines_iff`).
-/

namespace TypeOutline

/-! ## What is shown and what is defined -/

/-- Some dialect shows the name for the type of the node. -/
def Attributes.RefersTo (a : Attributes) (n : String) : Prop :=
  n ≠ "" ∧ (a.typeRef = n ∨ ∃ dialect, (a.view dialect).typeRef = n)

namespace Schema

/-- A node below one of the tops shows the name for its type. -/
def RefersTo (s : Schema) (n : String) : Prop :=
  ∃ a ∈ (s.tree s.root).preorder ++ (s.tree s.typeRefs).preorder, a.RefersTo n

/-- There is a definition under the name. -/
def Defines (s : Schema) (n : String) : Prop := Defined (s.tree s.typeRefs).children n

end Schema

/-- The name is declared by the level, and written on its node. -/
def Finished.Declares (f : Finished) (n : String) : Prop :=
  f.level.declares? = some n ∧ f.level.shape.isAtomic = false

/-- The finished node defines the name. -/
def Finished.Defines (f : Finished) (n : String) : Prop := f.tree.label.defines? = some n

namespace Outline

def Declares (o : Outline) (n : String) : Prop := ∃ f ∈ o.finished, f.Declares n

/-- The node is below the top of the outline, or of a tree that was finished there. -/
def Shows (o : Outline) (a : Attributes) : Prop :=
  a ∈ o.tree.preorder ∨ ∃ f ∈ o.finished, a ∈ f.tree.preorder

variable {o : Outline} {a : Attributes} {n : String} {p : Site} {l : Layer}

theorem shows_leaf {b : Attributes} : (leaf b).Shows a ↔ a = b := by
  simp [Shows, leaf, Rose.preorder, Rose.preorderAll]

theorem shows_finish : (o.finish p l).Shows a ↔ o.Shows a := by
  simp only [Shows, finish, List.mem_append, List.mem_singleton]
  constructor
  · rintro (h | ⟨f, hf | rfl, ha⟩)
    · exact .inl h
    · exact .inr ⟨f, hf, ha⟩
    · exact .inl ha
  · rintro (h | ⟨f, hf, ha⟩)
    · exact .inl h
    · exact .inr ⟨f, .inl hf, ha⟩

theorem declares_finish : (o.finish p l).Declares n ↔
    o.Declares n ∨ l.declares? = some n ∧ l.shape.isAtomic = false := by
  simp only [Declares, finish, List.mem_append, List.mem_singleton]
  constructor
  · rintro ⟨f, hf | rfl, hn⟩
    · exact .inl ⟨f, hf, hn⟩
    · exact .inr hn
  · rintro (⟨f, hf, hn⟩ | hn)
    · exact ⟨f, .inl hf, hn⟩
    · exact ⟨_, .inr rfl, hn⟩

/-- A node of an outline with members is the top or a node of a member. -/
theorem shows_each {os : List Outline} (htrees : ∀ t ∈ o.tree.children, ∃ o' ∈ os, o'.tree = t)
    (hfinished : o.finished = os.flatMap (·.finished)) (h : o.Shows a) :
    a = o.tree.label ∨ ∃ o' ∈ os, o'.Shows a := by
  rcases h with h | ⟨f, hf, ha⟩
  · generalize o.tree = t at h htrees
    obtain ⟨b, ts⟩ := t
    rcases List.mem_cons.mp h with rfl | h
    · exact .inl rfl
    · obtain ⟨t, ht, hat⟩ := Rose.mem_preorderAll.mp h
      obtain ⟨o', ho', rfl⟩ := htrees t ht
      exact .inr ⟨o', ho', .inl hat⟩
  · rw [hfinished] at hf
    obtain ⟨o', ho', hf⟩ := List.mem_flatMap.mp hf
    exact .inr ⟨o', ho', .inr ⟨f, hf, ha⟩⟩

theorem declares_each {os : List Outline} (hfinished : o.finished = os.flatMap (·.finished))
    {o' : Outline} (ho' : o' ∈ os) (h : o'.Declares n) : o.Declares n := by
  obtain ⟨f, hf, hn⟩ := h
  refine ⟨f, ?_, hn⟩
  rw [hfinished]
  exact List.mem_flatMap.mpr ⟨o', ho', hf⟩

end Outline

/-! ## Every name that is shown is declared -/

/-- A name that a node of the outline shows was declared above, or stood
on the node before, or is declared by a level of the outline. -/
def Traced (derive : Site → Option Outline) : Prop :=
  ∀ {p : Site} {o : Outline}, derive p = some o → p.attrs.Consistent → ∀ a, o.Shows a →
    a.Consistent ∧ (a.native.typeRef = "" ∨ a.native.typeRef ∈ p.above
      ∨ a.native.typeRef = p.attrs.native.typeRef ∨ o.Declares a.native.typeRef)

theorem Traced.content {derive : Site → Option Outline} (h : Traced derive) {a : Attributes}
    {shape : Shape Value} {top : Bool} {above : Finset String} {o : Outline}
    (ho : (shape.content a).outline derive top above = some o) (ha : a.Consistent) :
    ∀ b, o.Shows b → b.Consistent ∧ (b.native.typeRef = ""
      ∨ shape.isAtomic = false
        ∧ (b.native.typeRef ∈ above ∨ b.native.typeRef = a.native.typeRef)
      ∨ o.Declares b.native.typeRef) := by
  intro b hb
  cases gives_outline ho with
  | leaf c _ hfits ho' =>
      subst ho'
      obtain rfl := Outline.shows_leaf.mp hb
      obtain ⟨-, hconsistent, htype⟩ := hfits
      refine ⟨hconsistent ha, ?_⟩
      cases hatomic : shape.isAtomic with
      | true =>
          rw [hatomic] at htype
          exact .inl htype
      | false =>
          rw [hatomic] at htype
          exact .inr (.inl ⟨rfl, .inr htype⟩)
  | same c v _ hfits ho' =>
      obtain ⟨-, hatomic, -, -, hkeeps⟩ := hfits
      obtain ⟨hconsistent, hn⟩ := h ho' (hkeeps.consistent ha) b hb
      refine ⟨hconsistent, ?_⟩
      rcases hn with hn | hn | hn | hn
      · exact .inl hn
      · exact .inr (.inl ⟨hatomic, .inl hn⟩)
      · exact .inr (.inl ⟨hatomic, .inr (hn.trans hkeeps.typeRef_eq)⟩)
      · exact .inr (.inr hn)
  | each os _ hatomic hkeeps _ htrees hfinished hos =>
      rcases Outline.shows_each htrees hfinished hb with rfl | ⟨o', ho', hb⟩
      · exact ⟨hkeeps.consistent ha, .inr (.inl ⟨hatomic, .inr hkeeps.typeRef_eq⟩)⟩
      · obtain ⟨q, hq, hblank, hqo⟩ := hos o' ho'
        obtain ⟨hconsistent, hn⟩ := h hqo hblank.consistent b hb
        refine ⟨hconsistent, ?_⟩
        rcases hn with hn | hn | hn | hn
        · exact .inl hn
        · exact .inr (.inl ⟨hatomic, .inl (above_of_mem_sites hq ▸ hn)⟩)
        · exact .inl (hn.trans hblank.typeRef_eq)
        · exact .inr (.inr (Outline.declares_each hfinished ho' hn))

theorem traced_outline (types : Types) (depth : Nat) : Traced (outline types depth) := by
  induction depth with
  | zero => exact fun h => nomatch h
  | succ depth ih =>
      intro p o h hp a ha
      obtain ⟨l, hl, ⟨hr, rfl⟩ | ⟨name, o, hr, ho, rfl⟩⟩ := outline_succ_cases h
      case inl =>
        obtain rfl := Outline.shows_leaf.mp ha
        refine ⟨hp.head _ _, ?_⟩
        rw [Attributes.typeRef_head]
        cases hruling : l.ruling p.top p.above with
        | unsupported => exact .inr (.inr (.inl rfl))
        | misplaced => exact .inr (.inr (.inl rfl))
        | cycle n => exact .inr (.inl (ruling_eq_cycle.mp hruling).2.2.2)
        | enters name => exact absurd hruling (hr name)
      case inr =>
        obtain ⟨hname, -⟩ := declares?_of_enters hr
        obtain ⟨hconsistent, hn⟩ := ih.content ho (hp.head _ _) a (Outline.shows_finish.mp ha)
        rw [Attributes.typeRef_head] at hn
        rw [Outline.declares_finish, hname]
        refine ⟨hconsistent, ?_⟩
        generalize a.native.typeRef = n at hn
        rcases hn with hn | ⟨hatomic, hn⟩ | hn
        · exact .inl hn
        · cases name with
          | none =>
              rcases hn with hn | hn
              · exact .inr (.inl hn)
              · exact .inr (.inr (.inl hn))
          | some m =>
              rcases hn with hn | hn
              · rcases Finset.mem_insert.mp hn with rfl | hn
                · exact .inr (.inr (.inr (.inr ⟨rfl, hatomic⟩)))
                · exact .inr (.inl hn)
              · exact .inr (.inr (.inr (.inr ⟨congrArg some hn.symm, hatomic⟩)))
        · exact .inr (.inr (.inr (.inl hn)))

/-! ## Which levels define a name -/

/-- A finished node that defines a name is the node of a level of the
outline that declares it, or carried the name before. -/
def Named (derive : Site → Option Outline) : Prop :=
  ∀ {p : Site} {o : Outline}, derive p = some o → ∀ t n,
    (t = o.tree ∨ ∃ f ∈ o.finished, f.tree = t) → t.label.defines? = some n →
      (∃ f ∈ o.finished, f.Declares n ∧ f.tree = t) ∨ p.attrs.native.typeRef = n ∧ t = o.tree

theorem Named.content {derive : Site → Option Outline} (h : Named derive) {a : Attributes}
    {shape : Shape Value} {top : Bool} {above : Finset String} {o : Outline}
    (ho : (shape.content a).outline derive top above = some o) : ∀ t n,
    (t = o.tree ∨ ∃ f ∈ o.finished, f.tree = t) → t.label.defines? = some n →
      (∃ f ∈ o.finished, f.Declares n ∧ f.tree = t)
        ∨ shape.isAtomic = false ∧ a.native.typeRef = n ∧ t = o.tree := by
  intro t n ht hn
  have hne := defines?_ne_empty hn
  cases gives_outline ho with
  | leaf c _ hfits ho' =>
      subst ho'
      rcases ht with rfl | ⟨f, hf, -⟩
      · obtain ⟨-, -, rfl⟩ := defines?_eq_some.mp hn
        obtain ⟨-, -, htype⟩ := hfits
        cases hatomic : shape.isAtomic with
        | true =>
            rw [hatomic] at htype
            exact absurd htype hne
        | false =>
            rw [hatomic] at htype
            exact .inr ⟨rfl, htype.symm, rfl⟩
      · exact absurd hf List.not_mem_nil
  | same c v _ hfits ho' =>
      obtain ⟨-, hatomic, -, -, hkeeps⟩ := hfits
      rcases h ho' t n ht hn with hf | ⟨htype, rfl⟩
      · exact .inl hf
      · exact .inr ⟨hatomic, hkeeps.typeRef_eq.symm.trans htype, rfl⟩
  | each os _ hatomic hkeeps _ _ hfinished hos =>
      rcases ht with rfl | ⟨f, hf, rfl⟩
      · obtain ⟨-, -, rfl⟩ := defines?_eq_some.mp hn
        exact .inr ⟨hatomic, hkeeps.typeRef_eq.symm, rfl⟩
      · rw [hfinished] at hf ⊢
        obtain ⟨o', ho', hf⟩ := List.mem_flatMap.mp hf
        obtain ⟨q, -, hblank, hqo⟩ := hos o' ho'
        rcases h hqo f.tree n (.inr ⟨f, hf, rfl⟩) hn with ⟨g, hg, hgn⟩ | ⟨htype, -⟩
        · exact .inl ⟨g, List.mem_flatMap.mpr ⟨o', ho', hg⟩, hgn⟩
        · exact absurd (htype.symm.trans hblank.typeRef_eq) hne

theorem named_outline (types : Types) (depth : Nat) : Named (outline types depth) := by
  induction depth with
  | zero => exact fun h => nomatch h
  | succ depth ih =>
      intro p o h t n ht hn
      obtain ⟨l, hl, ⟨hr, rfl⟩ | ⟨name, o, hr, ho, rfl⟩⟩ := outline_succ_cases h
      case inl =>
        rcases ht with rfl | ⟨f, hf, -⟩
        · obtain ⟨-, hcyc, hname⟩ := defines?_eq_some.mp hn
          rw [Outline.leaf, Rose.label, Attributes.typeRef_head] at hname
          cases hruling : l.ruling p.top p.above with
          | unsupported => exact .inr ⟨by rw [← hname, hruling]; rfl, rfl⟩
          | misplaced => exact .inr ⟨by rw [← hname, hruling]; rfl, rfl⟩
          | cycle m =>
              rw [hruling] at hcyc
              cases hcyc
          | enters name => exact absurd hruling (hr name)
        · exact absurd hf List.not_mem_nil
      case inr =>
        have ht' : t = o.tree ∨ ∃ f ∈ o.finished, f.tree = t := by
          rcases ht with ht | ⟨f, hf, rfl⟩
          · exact .inl ht
          · rcases List.mem_append.mp hf with hf | hf
            · exact .inr ⟨f, hf, rfl⟩
            · rw [List.mem_singleton.mp hf]
              exact .inl rfl
        rcases ih.content ho t n ht' hn with ⟨f, hf, hfn⟩ | ⟨hatomic, htype, rfl⟩
        · exact .inl ⟨f, List.mem_append_left _ hf, hfn⟩
        · rw [Attributes.typeRef_head] at htype
          cases name with
          | none => exact .inr ⟨htype, rfl⟩
          | some m =>
              obtain rfl : m = n := htype
              obtain ⟨hname, -⟩ := declares?_of_enters hr
              exact .inl ⟨⟨p, l, o.tree⟩, List.mem_append_right _ (List.mem_singleton_self _),
                ⟨hname, hatomic⟩, rfl⟩

/-- The level at the position takes over the node: it writes a name there,
or that there is none, or the content of a wrapper does. -/
inductive Site.Renames (types : Types) : Site → Prop where
  | name {p : Site} {l : Layer} {n : String} (hl : p.value.layer? types = some l)
      (hn : (l.ruling p.top p.above).name? = some n) : Renames types p
  | atomic {p : Site} {l : Layer} (hl : p.value.layer? types = some l)
      (hr : l.ruling p.top p.above = .enters none) (hatomic : l.shape.isAtomic = true) :
      Renames types p
  | wrapped {p q : Site} {l : Layer} (hl : p.value.layer? types = some l)
      (hr : l.ruling p.top p.above = .enters none) (hwrap : l.isWrapper = true)
      (hq : q ∈ p.members types) (h : Renames types q) : Renames types p

/-- The content of the wrapper takes over the node. -/
def Finished.IsRenamed (types : Types) (f : Finished) : Prop :=
  f.level.isWrapper = true ∧ ∃ q ∈ f.site.members types, q.Renames types

section Renames

variable {types : Types} {depth : Nat} {o : Outline} {n : String}

/-- A level takes over its node in one of two ways. -/
theorem renames_cases {p : Site} {l : Layer} (hl : p.value.layer? types = some l)
    (h : p.Renames types) : (∃ m, (l.ruling p.top p.above).name? = some m)
      ∨ l.ruling p.top p.above = .enters none ∧ (l.shape.isAtomic = true
        ∨ l.isWrapper = true ∧ ∃ q ∈ p.members types, q.Renames types) := by
  cases h with
  | @name _ _ m hl' hn =>
      obtain rfl := Option.some.inj (hl.symm.trans hl')
      exact .inl ⟨m, hn⟩
  | atomic hl' hr hatomic =>
      obtain rfl := Option.some.inj (hl.symm.trans hl')
      exact .inr ⟨hr, .inl hatomic⟩
  | @wrapped _ q _ hl' hr hwrap hq hrenames =>
      obtain rfl := Option.some.inj (hl.symm.trans hl')
      exact .inr ⟨hr, .inr ⟨hwrap, q, hq, hrenames⟩⟩

theorem defines?_of_typeRef {a : Attributes} (h : a.native.typeRef = n) (hne : n ≠ "")
    (hd : a.defect ≠ some .cyclicalReference) : a.defines? = some n := by
  refine defines?_eq_some.mpr ⟨?_, beq_eq_false_iff_ne.mpr hd, h⟩
  rw [Attributes.isReference, h]
  exact bne_iff_ne.mpr hne

/-- A name on a node is defined when the level there is finished, unless the
level is a wrapper whose content takes over the node. -/
theorem label_content_iff {a : Attributes} {shape : Shape Value} {top : Bool}
    {above : Finset String}
    (ho : (shape.content a).outline (outline types depth) top above = some o)
    (ha : a.native.typeRef = n) (hne : n ≠ "") (hd : a.defect ≠ some .cyclicalReference)
    (hatomic : shape.isAtomic = false)
    (hsame : ∀ {q : Site} {o' : Outline}, outline types depth q = some o' → q.above = above →
      q.attrs.native.typeRef = n → q.attrs.defect ≠ some .cyclicalReference →
        (o'.tree.label.defines? = some n ↔ ¬ q.Renames types)) :
    o.tree.label.defines? = some n ↔
      ¬ (shape.isWrapper = true ∧ ∃ q ∈ (shape.content a).sites top above, q.Renames types) := by
  cases gives_outline ho with
  | leaf b hcontent hfits ho' =>
      subst ho'
      obtain ⟨hdefect, -, htype⟩ := hfits
      rw [hatomic] at htype
      refine iff_of_true (defines?_of_typeRef (htype.trans ha) hne (hdefect hd)) ?_
      rw [hcontent]
      rintro ⟨-, q, hq, -⟩
      exact absurd hq List.not_mem_nil
  | same b v hcontent hfits ho' =>
      obtain ⟨hwrap, -, -, hdefect, hkeeps⟩ := hfits
      rw [hsame ho' rfl (hkeeps.typeRef_eq.trans ha) (hdefect ▸ hd), hcontent]
      simp [Content.sites, hwrap]
  | each os hwrap _ hkeeps hdefect _ _ _ =>
      refine iff_of_true (defines?_of_typeRef (hkeeps.typeRef_eq.trans ha) hne hdefect) ?_
      rintro ⟨hwrap', -⟩
      exact absurd (hwrap.symm.trans hwrap') (by decide)

/-- A name that is declared above is not declared again. -/
theorem not_declares_of_mem_above {p : Site} (h : outline types depth p = some o)
    (hn : n ∈ p.above) : ¬ o.Declares n := by
  rintro ⟨f, hf, hdeclares, -⟩
  obtain ⟨path, d, name, content, hpath, henters, -⟩ := exists_enters_of_mem_finished .start h f hf
  obtain ⟨hname, hnot⟩ := declares?_of_enters henters.ruling_eq
  exact hnot n (hname.symm.trans hdeclares) ((mem_above_iff hpath n).mpr (.inl hn))

/-- A name that a level above declared and wrote on the node. -/
theorem label_defines_iff (types : Types) (depth : Nat) : ∀ {p : Site} {o : Outline},
    outline types depth p = some o → p.attrs.native.typeRef = n → n ≠ "" → n ∈ p.above →
      p.attrs.defect ≠ some .cyclicalReference →
        (o.tree.label.defines? = some n ↔ ¬ p.Renames types) := by
  induction depth with
  | zero => exact fun h => nomatch h
  | succ depth ih =>
      intro p o h hp hne habove hd
      obtain ⟨l, hl, ⟨hr, rfl⟩ | ⟨name, o, hr, ho, rfl⟩⟩ := outline_succ_cases h
      case inl =>
        have htype := Attributes.typeRef_head p.attrs l.shape.kind (l.ruling p.top p.above)
        cases hruling : l.ruling p.top p.above with
        | enters name => exact absurd hruling (hr name)
        | cycle m =>
            refine iff_of_false (fun hn => ?_) fun hcon => hcon (.name hl (by rw [hruling]; rfl))
            obtain ⟨-, hcyc, -⟩ := defines?_eq_some.mp hn
            cases hcyc
        | _ =>
            rw [hruling] at htype
            refine iff_of_true (defines?_of_typeRef (htype.trans hp) hne (fun h => nomatch h)) ?_
            intro hcon
            rcases renames_cases hl hcon with ⟨m, hm⟩ | ⟨hr', -⟩
            · rw [hruling] at hm
              cases hm
            · exact hr _ hr'
      case inr =>
        have htype := Attributes.typeRef_head p.attrs l.shape.kind (.enters name)
        have hdefect := defect_head_enters p.attrs l.shape.kind name
        cases name with
        | some m =>
            -- the level writes its own name, and no level below declares this one again
            refine iff_of_false (fun hn => ?_) fun hcon => hcon (.name hl (by rw [hr]; rfl))
            obtain ⟨-, hfresh⟩ := declares?_of_enters hr
            rcases Named.content (named_outline types depth) ho o.tree n (.inl rfl) hn with
              ⟨f, hf, hfn, -⟩ | ⟨-, hm, -⟩
            · exact not_declares_of_mem_above h habove ⟨f, List.mem_append_left _ hf, hfn⟩
            · obtain rfl : m = n := htype.symm.trans hm
              exact hfresh m rfl habove
        | none =>
            cases hatomic : l.shape.isAtomic with
            | true =>
                refine iff_of_false (fun hn => ?_) fun hcon => hcon (.atomic hl hr hatomic)
                rcases Named.content (named_outline types depth) ho o.tree n (.inl rfl) hn with
                  ⟨f, hf, hfn, -⟩ | ⟨hatomic', -⟩
                · exact not_declares_of_mem_above h habove ⟨f, List.mem_append_left _ hf, hfn⟩
                · exact absurd (hatomic.symm.trans hatomic') (by decide)
            | false =>
                have hcontent := label_content_iff ho (htype.trans hp) hne (hdefect ▸ hd) hatomic
                  fun hq habove' hq' hqd => ih hq hq' hne (habove' ▸ habove) hqd
                rw [show (o.finish p l).tree = o.tree from rfl, hcontent, not_iff_not]
                have hmembers := members_of_enters hl hr
                constructor
                · rintro ⟨hwrap, q, hq, hrenames⟩
                  exact .wrapped hl hr hwrap (hmembers ▸ hq) hrenames
                · intro hcon
                  rcases renames_cases hl hcon with ⟨m, hm⟩ | ⟨-, hatomic' | ⟨hwrap, q, hq, hq'⟩⟩
                  · rw [hr] at hm
                    cases hm
                  · exact absurd (hatomic.symm.trans hatomic') Bool.false_ne_true
                  · exact ⟨hwrap, q, hmembers ▸ hq, hq'⟩

/-- A level defines the name that it declares, unless it is a wrapper whose
content takes over the node. -/
theorem defines_iff_of_declares {v : Value} (ho : Outlines types (.start v) o) {f : Finished}
    (hf : f ∈ o.finished) (hne : n ≠ "") (hn : f.Declares n) :
    f.Defines n ↔ ¬ f.IsRenamed types := by
  obtain ⟨depth, ho⟩ := ho
  obtain ⟨path, d, name, content, hpath, henters, htree⟩ :=
    exists_enters_of_mem_finished .start ho f hf
  obtain ⟨hdeclares, hatomic⟩ := hn
  obtain ⟨hname, -⟩ := declares?_of_enters henters.ruling_eq
  obtain rfl : name = some n := hname.symm.trans hdeclares
  have hdefect := defect_head_enters f.site.attrs f.level.shape.kind (some n)
  have htype : (f.site.attrs.head f.level.shape.kind (.enters (some n))).native.typeRef = n :=
    Attributes.typeRef_head f.site.attrs f.level.shape.kind (.enters (some n))
  have hcontent := label_content_iff henters.outline_eq htype hne
    (hdefect ▸ attrs_defect_ne hpath (fun h => nomatch h)) hatomic
    fun hq habove hq' hqd => label_defines_iff types d hq hq' hne
      (habove ▸ Finset.mem_insert_self n _) hqd
  rw [Finished.Defines, htree, hcontent, Finished.IsRenamed,
    members_of_enters henters.layer_eq henters.ruling_eq]
  rfl

end Renames

/-! ## The registry -/

section Registry

variable {R : List (Rose Attributes)} {t : Rose Attributes} {n : String}

theorem defined_record_iff :
    Defined (record R t) n ↔ Defined R n ∨ t.label.defines? = some n := by
  refine ⟨fun h => ?_, fun h => h.elim (fun h => h.record t) defined_record⟩
  unfold record at h
  split at h
  · exact .inl h
  · rename_i m hm
    split at h
    · exact .inl h
    · obtain ⟨d, hd, hdn⟩ := h
      rcases List.mem_append.mp hd with hd | hd
      · exact .inl ⟨d, hd, hdn⟩
      · rw [List.mem_singleton.mp hd, name_definition hm] at hdn
        exact .inr (hm.trans (congrArg some hdn))

theorem defined_recordAll_iff {fs : List Finished} :
    Defined (recordAll R fs) n ↔ Defined R n ∨ ∃ f ∈ fs, f.Defines n := by
  induction fs generalizing R with
  | nil => simp [recordAll]
  | cons f fs ih =>
      show Defined (recordAll (record R f.tree) fs) n ↔ _
      rw [ih, defined_record_iff, or_assoc]
      simp only [List.mem_cons, exists_eq_or_imp, Finished.Defines]

theorem mem_record {u : Rose Attributes} (h : t ∈ record R u) :
    t ∈ R ∨ (∃ n, u.label.defines? = some n) ∧ t = u.definition := by
  unfold record at h
  split at h
  · exact .inl h
  · rename_i n hn
    split at h
    · exact .inl h
    · rcases List.mem_append.mp h with h | h
      · exact .inl h
      · exact .inr ⟨⟨n, hn⟩, List.mem_singleton.mp h⟩

/-- Every definition is made of the node of a finished level. -/
theorem mem_recordAll {fs : List Finished} (h : t ∈ recordAll R fs) :
    t ∈ R ∨ ∃ f ∈ fs, ∃ n, f.Defines n ∧ t = f.tree.definition := by
  induction fs generalizing R with
  | nil => exact .inl h
  | cons f fs ih =>
      rcases ih h with h | ⟨g, hg, hn⟩
      · rcases mem_record h with h | ⟨⟨n, hn⟩, rfl⟩
        · exact .inl h
        · exact .inr ⟨f, List.mem_cons_self, n, hn, rfl⟩
      · exact .inr ⟨g, List.mem_cons_of_mem f hg, hn⟩

end Registry

/-! ## What definitions refer to -/

namespace Attributes

theorem Consistent.view_typeRef {a : Attributes} (h : a.Consistent) (dialect : String) :
    (a.view dialect).typeRef = a.native.typeRef := by
  unfold view
  cases hb : a.override? dialect with
  | none => rfl
  | some b =>
      show orElseText b.typeRef a.native.typeRef = a.native.typeRef
      unfold orElseText
      split
      · rfl
      · rename_i hne
        by_cases hd : dialect = nativeDialect
        · subst hd
          rw [native, hb]
          rfl
        · exact absurd (h.others dialect b hd hb) hne

theorem Consistent.typeRef_of_refersTo {a : Attributes} {n : String} (h : a.Consistent)
    (hn : a.RefersTo n) : a.native.typeRef = n := by
  obtain ⟨-, hn | ⟨dialect, hn⟩⟩ := hn
  · exact h.typeRef_eq.symm.trans hn
  · exact (h.view_typeRef dialect).symm.trans hn

theorem not_refersTo_top (name n : String) :
    ¬ ({ name := name, generic := .root } : Attributes).RefersTo n := by
  have hblank := blank_new name
  have hconsistent : ({ name := name, generic := .root } : Attributes).Consistent :=
    ⟨hblank.consistent.typeRef_eq, hblank.consistent.others⟩
  intro h
  exact h.1 (hconsistent.typeRef_of_refersTo h).symm

theorem typeRef_definition (a : Attributes) : a.definition.native.typeRef = "" := by
  have h := Schema.isReference_definition a
  simpa [isReference] using h

theorem override?_definition {a : Attributes} {dialect : String} {b : Override}
    (h : a.definition.override? dialect = some b) : b.typeRef = "" ∧ b.inclusion = .included := by
  rw [override?, definition, Dictionary.find?_mapValues] at h
  obtain ⟨b', -, rfl⟩ := Option.map_eq_some_iff.mp h
  exact ⟨rfl, rfl⟩

theorem consistent_definition (a : Attributes) : a.definition.Consistent :=
  ⟨(typeRef_definition a).symm, fun _ _ _ hb => (override?_definition hb).1⟩

/-- A definition shows no name for its own type. -/
theorem not_refersTo_definition (a : Attributes) (n : String) : ¬ a.definition.RefersTo n := by
  intro h
  have hn := (consistent_definition a).typeRef_of_refersTo h
  exact h.1 (hn.symm.trans (typeRef_definition a))

end Attributes

namespace Rose

mutual

/-- Cutting down leaves what a node refers to. -/
theorem exists_of_mem_cut {n : String} : (t : Rose Attributes) → ∀ {a : Attributes},
    a ∈ t.cut.preorder → a.RefersTo n → ∃ b ∈ t.preorder, b.RefersTo n
  | .node b ts, a, ha, hn => by
      rw [cut] at ha
      split at ha
      · split at ha
        · rcases List.mem_cons.mp ha with rfl | ha
          · exact ⟨b, List.mem_cons_self, hn⟩
          · exact ⟨a, List.mem_cons_of_mem b ha, hn⟩
        · rcases List.mem_cons.mp ha with rfl | ha
          · exact ⟨b, List.mem_cons_self, hn⟩
          · exact absurd ha List.not_mem_nil
      · rcases List.mem_cons.mp ha with rfl | ha
        · exact ⟨a, List.mem_cons_self, hn⟩
        · obtain ⟨c, hc, hcn⟩ := exists_of_mem_cutAll ts ha hn
          exact ⟨c, List.mem_cons_of_mem b hc, hcn⟩

theorem exists_of_mem_cutAll {n : String} : (ts : List (Rose Attributes)) →
    ∀ {a : Attributes}, a ∈ preorderAll (cutAll ts) → a.RefersTo n →
      ∃ b ∈ preorderAll ts, b.RefersTo n
  | [], a, ha, _ => absurd ha List.not_mem_nil
  | t :: ts, a, ha, hn => by
      rcases List.mem_append.mp ha with ha | ha
      · obtain ⟨b, hb, hbn⟩ := exists_of_mem_cut t ha hn
        exact ⟨b, List.mem_append_left _ hb, hbn⟩
      · obtain ⟨b, hb, hbn⟩ := exists_of_mem_cutAll ts ha hn
        exact ⟨b, List.mem_append_right _ hb, hbn⟩

end

theorem exists_of_mem_definition {t : Rose Attributes} {a : Attributes} {n : String}
    (ha : a ∈ t.definition.preorder) (hn : a.RefersTo n) : ∃ b ∈ t.preorder, b.RefersTo n := by
  obtain ⟨b, ts⟩ := t
  rcases List.mem_cons.mp ha with rfl | ha
  · exact absurd hn (b.not_refersTo_definition n)
  · obtain ⟨c, hc, hcn⟩ := exists_of_mem_cutAll ts ha hn
    exact ⟨c, List.mem_cons_of_mem b hc, hcn⟩

end Rose

/-! ## The main result -/

section Main

variable {types : Types} {v : Value} {s : Schema} {o : Outline} {n : String}

/-- A node below the tops that shows a name stands in the outline. -/
theorem exists_shows_of_refersTo (h : s.Renders o) (hn : s.RefersTo n) :
    ∃ a, o.Shows a ∧ a.RefersTo n := by
  obtain ⟨a, ha, hn⟩ := hn
  rw [h.root_eq, h.typeRefs_eq] at ha
  rcases List.mem_append.mp ha with ha | ha
  · rcases List.mem_cons.mp ha with rfl | ha
    · exact absurd hn (Attributes.not_refersTo_top rootName n)
    · rw [Rose.preorderAll, Rose.preorderAll, List.append_nil] at ha
      exact ⟨a, .inl ha, hn⟩
  · rcases List.mem_cons.mp ha with rfl | ha
    · exact absurd hn (Attributes.not_refersTo_top typeRefsName n)
    · obtain ⟨t, ht, hat⟩ := Rose.mem_preorderAll.mp ha
      rcases mem_recordAll ht with ht | ⟨f, hf, -, -, rfl⟩
      · exact absurd ht List.not_mem_nil
      · obtain ⟨b, hb, hbn⟩ := Rose.exists_of_mem_definition hat hn
        exact ⟨b, .inr ⟨f, hf, hb⟩, hbn⟩

theorem declares_of_refersTo (ho : Outlines types (.start v) o) (h : s.Renders o)
    (hn : s.RefersTo n) : o.Declares n := by
  obtain ⟨a, ha, hna⟩ := exists_shows_of_refersTo h hn
  obtain ⟨depth, ho⟩ := ho
  obtain ⟨hconsistent, hname⟩ := traced_outline types depth ho (blank_new "").consistent a ha
  rw [hconsistent.typeRef_of_refersTo hna] at hname
  rcases hname with hname | hname | hname | hname
  · exact absurd hname hna.1
  · exact absurd hname (Finset.notMem_empty n)
  · exact absurd hname hna.1
  · exact hname

/-- A schema has a definition under every name that one of the levels
entered for it declares and does not lose again. -/
theorem Schema.Renders.defines_iff (ho : Outlines types (.start v) o) (h : s.Renders o)
    (hne : n ≠ "") :
    s.Defines n ↔ ∃ f ∈ o.finished, f.Declares n ∧ ¬ f.IsRenamed types := by
  rw [Schema.Defines, h.typeRefs_eq, Rose.children, defined_recordAll_iff]
  constructor
  · rintro (⟨t, ht, -⟩ | ⟨f, hf, hn⟩)
    · exact absurd ht List.not_mem_nil
    · obtain ⟨depth, ho'⟩ := id ho
      rcases named_outline types depth ho' f.tree n (.inr ⟨f, hf, rfl⟩) hn with
        ⟨g, hg, hdeclares, htree⟩ | ⟨hempty, -⟩
      · refine ⟨g, hg, hdeclares, (defines_iff_of_declares ho hg hne hdeclares).mp ?_⟩
        rw [Finished.Defines, htree]
        exact hn
      · exact absurd hempty.symm hne
  · rintro ⟨f, hf, hdeclares, hrenamed⟩
    exact .inr ⟨f, hf, (defines_iff_of_declares ho hf hne hdeclares).mpr hrenamed⟩

/-- Every name that the schema of a value shows for a type is declared by a
level entered on the way. The schema lacks its definition exactly if all
such levels are wrappers whose content takes over their nodes. -/
theorem derive?_defines_iff (e : Engine) (hs : (e.derive? types v).1 = some s) :
    ∃ o, Outlines types (.start v) o ∧ ∀ n, s.RefersTo n → o.Declares n
      ∧ (¬ s.Defines n ↔ ∀ f ∈ o.finished, f.Declares n → f.IsRenamed types) := by
  obtain ⟨o, ho, hrenders⟩ := exists_outlines_of_derive? hs
  refine ⟨o, ho, fun n hn => ⟨declares_of_refersTo ho hrenders hn, ?_⟩⟩
  obtain ⟨-, -, hne, -⟩ := hn
  rw [hrenders.defines_iff ho hne]
  simp only [not_exists, not_and, not_not]

end Main

/-- A named optional of a named record that has the optional for a member. -/
def wrappedTypes : Types :=
  ⟨[("S", .layer (some "S") (.record [{ name := "Next", value := .declared none "W" }])),
    ("W", .layer (some "W") (.pointer none (.declared none "S")))], by decide⟩

def wrapped : Value := .declared none "W"

/-- The record closes the cycle with the name of the optional, which nothing defines. -/
theorem derive?_defines_iff_wrapped : ∃ s o,
    (({} : Engine).derive? wrappedTypes wrapped).1 = some s
      ∧ Outlines wrappedTypes (.start wrapped) o ∧ s.RefersTo "W" ∧ ¬ s.Defines "W"
      ∧ ∀ f ∈ o.finished, f.Declares "W" → f.IsRenamed wrappedTypes := by
  have hderive : (derive? wrappedTypes wrapped).map (fun s =>
      ((s.tree s.root).preorder.map (·.typeRef),
        (s.tree s.typeRefs).children.map (·.label.name))) =
      some (["", "S", "W"], ["S"]) := by
    decide +kernel
  obtain ⟨s, hs, htrees⟩ := Option.map_eq_some_iff.mp hderive
  obtain ⟨hroot, hrefs⟩ := Prod.mk.injEq .. ▸ htrees
  obtain ⟨o, ho, hiff⟩ := derive?_defines_iff {} hs
  have hrefers : s.RefersTo "W" := by
    have hmem : "W" ∈ (s.tree s.root).preorder.map (·.typeRef) := by
      rw [hroot]
      decide
    obtain ⟨a, ha, haw⟩ := List.mem_map.mp hmem
    exact ⟨a, List.mem_append_left _ ha, by decide, .inl haw⟩
  have hdangles : ¬ s.Defines "W" := by
    rintro ⟨t, ht, htw⟩
    have hmem : "W" ∈ (s.tree s.typeRefs).children.map (·.label.name) :=
      List.mem_map.mpr ⟨t, ht, htw⟩
    rw [hrefs] at hmem
    exact absurd hmem (by decide)
  exact ⟨s, o, hs, ho, hrefers, hdangles, ((hiff "W" hrefers).2).mp hdangles⟩

end TypeOutline
