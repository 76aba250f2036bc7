import TypeOutline.Proofs.Derivation.Nodes

/-!
# Where a type is met

Of the place where a value is met, its outline depends on three things:
what stands on the node already, whether the node is at the top, and which
of the names that occur in the value are declared above
(`exists_outline_of_agree`). A node that is met has not failed before,
unless it is that of a repeated map key (`arrives_of_reaches`).

A type that is met once is defined by the node where it is met
(`exists_definition_of_meetsOnce`). So it has the same members wherever
that is, below names that do not occur in it (`children_eq_of_meetsOnce`),
but none under a repeated key (`tree_of_failed`).
-/

namespace TypeOutline

open Relation

variable {types : Types}

/-! ## The names above -/

/-- Some level that the value unfolds into declares the name. -/
def Value.Declares (types : Types) (v : Value) (n : String) : Prop :=
  ∃ w l, ReflTransGen (Value.Unfolds types) v w ∧ w.layer? types = some l
    ∧ l.declares? = some n

theorem Value.Declares.of_member {v w : Value} {l : Layer} {n : String}
    (h : w.Declares types n) (hl : v.layer? types = some l) (hw : w ∈ l.shape.members) :
    v.Declares types n := by
  obtain ⟨u, m, hu, hm, hn⟩ := h
  exact ⟨u, m, .head ⟨l, hl, hw⟩ hu, hm, hn⟩

/-- A level asks of the names above only whether its own is there. -/
theorem ruling_eq_of_agree {l : Layer} {top : Bool} {above above' : Finset String}
    (h : ∀ n, l.declares? = some n → (n ∈ above ↔ n ∈ above')) :
    l.ruling top above = l.ruling top above' := by
  unfold Layer.ruling
  split
  · rfl
  · split
    · rfl
    · cases hname : l.declares? with
      | none => rfl
      | some n => simp only [h n hname]

theorem exists_mapM_of_forall {α β γ : Type} {f f' : α → Option β} (g : β → γ) :
    ∀ {xs : List α} {ys : List β}, xs.mapM f = some ys →
      (∀ x ∈ xs, ∀ y, f x = some y → ∃ y', f' x = some y' ∧ g y' = g y) →
        ∃ ys', xs.mapM f' = some ys' ∧ ys'.map g = ys.map g
  | [], ys, hm, _ => by
      obtain rfl : [] = ys := Option.some.inj hm
      exact ⟨[], rfl, rfl⟩
  | x :: xs, ys, hm, h => by
      obtain ⟨y, zs, hy, hzs, rfl⟩ := Schema.mapM_eq_some_cons.mp hm
      obtain ⟨y', hy', heq⟩ := h x List.mem_cons_self y hy
      obtain ⟨zs', hzs', heqs⟩ := exists_mapM_of_forall g hzs
        fun w hw => h w (List.mem_cons_of_mem x hw)
      refine ⟨y' :: zs', Schema.mapM_eq_some_cons.mpr ⟨y', zs', hy', hzs', rfl⟩, ?_⟩
      rw [List.map_cons, List.map_cons, heq, heqs]

theorem exists_gather_of_forall {f f' : Value → Option Outline} : ∀ {vs : List Value}
    {kinds kinds' : Dictionary Nat} {os : List Outline},
    Outline.gather f vs kinds = some (os, kinds') →
      (∀ v ∈ vs, ∀ o, f v = some o → ∃ o', f' v = some o' ∧ o'.tree = o.tree) →
        ∃ os', Outline.gather f' vs kinds = some (os', kinds')
          ∧ os'.map (·.tree) = os.map (·.tree)
  | [], kinds, kinds', os, hg, _ => by
      obtain ⟨rfl, rfl⟩ := Prod.mk.inj (Option.some.inj hg)
      exact ⟨[], rfl, rfl⟩
  | v :: vs, kinds, kinds', os, hg, h => by
      rw [Outline.gather] at hg
      obtain ⟨o, ho, hg⟩ := Option.bind_eq_some_iff.mp hg
      obtain ⟨o', ho', htree⟩ := h v List.mem_cons_self o ho
      rw [Outline.gather, ho']
      dsimp only [Option.bind_eq_bind, Option.bind_some] at hg ⊢
      rw [htree]
      split at hg
      · rename_i hk
        obtain ⟨rfl, rfl⟩ := Prod.mk.inj (Option.some.inj hg)
        rw [if_pos hk]
        exact ⟨[o'], rfl, by rw [List.map_singleton, List.map_singleton, htree]⟩
      · rename_i hk
        obtain ⟨⟨rest, k⟩, hrest, hg⟩ := Option.bind_eq_some_iff.mp hg
        obtain ⟨rfl, rfl⟩ := Prod.mk.inj (Option.some.inj hg)
        obtain ⟨rest', hrest', heqs⟩ := exists_gather_of_forall hrest
          fun w hw => h w (List.mem_cons_of_mem v hw)
        rw [if_neg hk, hrest']
        exact ⟨o' :: rest', rfl, by rw [List.map_cons, List.map_cons, htree, heqs]⟩

/-- The tree of a content depends on the trees of its members. -/
theorem Content.exists_outline_of_sites {c : Content} {derive : Site → Option Outline}
    {top : Bool} {above above' : Finset String} {o : Outline}
    (ho : c.outline derive top above = some o)
    (h : ∀ q ∈ c.sites top above, ∀ o, derive q = some o →
      ∃ o', derive { q with above := above' } = some o' ∧ o'.tree = o.tree) :
    ∃ o', c.outline derive top above' = some o' ∧ o'.tree = o.tree := by
  cases c with
  | leaf a => exact ⟨o, ho, rfl⟩
  | same a v => exact h _ List.mem_cons_self o ho
  | each a members =>
      obtain ⟨os, hos, ho⟩ := Option.bind_eq_some_iff.mp ho
      obtain rfl := Option.some.inj ho
      obtain ⟨os', hos', htrees⟩ := exists_mapM_of_forall (·.tree) hos
        fun m hm => h _ (List.mem_map_of_mem hm)
      refine ⟨.branch a os', by rw [Content.outline, hos']; rfl, ?_⟩
      rw [Outline.branch, Outline.branch, htrees]
  | probed a elements =>
      obtain ⟨⟨os, kinds⟩, hos, ho⟩ := Option.bind_eq_some_iff.mp ho
      obtain rfl := Option.some.inj ho
      obtain ⟨os', hos', htrees⟩ := exists_gather_of_forall hos
        fun v hv => h _ (List.mem_map_of_mem hv)
      refine ⟨.list a os' kinds, by rw [Content.outline, hos']; rfl, ?_⟩
      rw [Outline.list, Outline.list, htrees]

/-- Names above that do not occur in the value make no difference. -/
theorem exists_outline_of_agree (depth : Nat) : ∀ {p : Site} {above : Finset String}
    {o : Outline}, outline types depth p = some o →
      (∀ n, p.value.Declares types n → (n ∈ p.above ↔ n ∈ above)) →
        ∃ o', outline types depth { p with above := above } = some o' ∧ o'.tree = o.tree := by
  induction depth with
  | zero => exact fun ho => nomatch ho
  | succ depth ih =>
      intro p above o ho h
      obtain ⟨l, hl, hcases⟩ := outline_succ_cases ho
      have hruling : l.ruling p.top p.above = l.ruling p.top above :=
        ruling_eq_of_agree fun n hn => h n ⟨p.value, l, .refl, hl, hn⟩
      rw [hruling] at hcases
      obtain ⟨hr, rfl⟩ | ⟨name, content, hr, hcontent, rfl⟩ := hcases
      · exact ⟨_, outline_of_refused (p := { p with above := above }) hl hr depth, rfl⟩
      · obtain ⟨content', hcontent', htree⟩ :
            ∃ o', (l.shape.content (p.attrs.head l.shape.kind (.enters name))).outline
              (outline types depth) p.top (declaredBelow above name) = some o'
                ∧ o'.tree = content.tree := by
          refine Content.exists_outline_of_sites hcontent fun q hq o hqo => ih hqo fun n hn => ?_
          -- what a member declares occurs in the value, and the level adds one name on both sides
          have hiff := h n (hn.of_member hl (mem_sites hq).1)
          rw [above_of_mem_sites hq]
          cases name with
          | none => exact hiff
          | some m => rw [declaredBelow, declaredBelow, Finset.mem_insert, Finset.mem_insert, hiff]
        refine ⟨content'.finish { p with above := above } l, ?_, htree⟩
        rw [outline_of_enters (p := { p with above := above }) hl hr, hcontent']
        rfl

/-! ## Nodes that failed before -/

theorem arrives_of_mem_sites {a : Attributes} {shape : Shape Value} {top : Bool}
    {above : Finset String} {q : Site} (ha : a.Arrives)
    (hq : q ∈ (shape.content a).sites top above) : q.attrs.Arrives := by
  have hfits := content_fits a shape
  cases hc : shape.content a with
  | leaf b =>
      rw [hc] at hq
      exact absurd hq List.not_mem_nil
  | same b v =>
      rw [hc] at hq hfits
      obtain ⟨-, -, -, hdefect, -⟩ := hfits
      rw [List.mem_singleton.mp hq, Attributes.Arrives, hdefect]
      exact ha
  | each b members =>
      rw [hc] at hq hfits
      obtain ⟨-, -, -, -, hmembers⟩ := hfits
      obtain ⟨m, hm, rfl⟩ := List.mem_map.mp hq
      exact (hmembers m hm).1.arrives
  | probed b elements =>
      rw [hc] at hq
      obtain ⟨v, -, rfl⟩ := List.mem_map.mp hq
      exact (blank_new "").arrives

theorem arrives_of_reaches {start p : Site} {path : List Layer} (h : Reaches types start path p)
    (hstart : start.attrs.Arrives) : p.attrs.Arrives := by
  induction h with
  | start => exact hstart
  | @member path p q l _ hl hq ih =>
      obtain ⟨name, hr⟩ := exists_enters_of_mem_members hl hq
      rw [members_of_enters hl hr] at hq
      refine arrives_of_mem_sites ?_ hq
      rw [Attributes.Arrives, defect_head_enters]
      exact ih

/-! ## The tree of a record -/

section Record

variable {p : Site} {d : Nat} {l : Layer} {name : Option String} {content : Outline}
  {fields : List (Field Value)}

/-- A record on a node that failed before gets no members. -/
theorem tree_of_failed (h : p.Enters types d l name content) (hshape : l.shape = .record fields)
    (hd : p.attrs.defect.isSome = true) :
    content.tree = .node (p.attrs.head .struct (.enters name)) [] := by
  have ho := h.outline_eq
  rw [hshape] at ho
  dsimp only [Shape.content, Shape.kind] at ho
  rw [defect_head_enters, if_pos hd] at ho
  obtain rfl := Option.some.inj ho
  rfl

/-- The members of a record with exported fields. -/
def exportedMembers (fields : List (Field Value)) : List (Attributes × Value) :=
  (fields.filter (·.exported)).map fun f => (Schema.fieldAttributes f, f.value)

theorem exists_tree_of_record (h : p.Enters types d l name content)
    (hshape : l.shape = .record fields) (hfields : ∃ f ∈ fields, f.exported = true)
    (hd : p.attrs.defect = none) : ∃ os, (exportedMembers fields).mapM (fun m =>
        outline types d ⟨m.1, false, declaredBelow p.above name, m.2⟩) = some os
      ∧ content.tree = .node (p.attrs.head .struct (.enters name)) (os.map (·.tree)) := by
  obtain ⟨f, hf, hexported⟩ := hfields
  have hmem : f ∈ fields.filter (·.exported) := List.mem_filter.mpr ⟨hf, hexported⟩
  have hsome : ¬ fields.isEmpty = true := fun hnil => by
    rw [List.isEmpty_iff.mp hnil] at hf
    cases hf
  have hkept : ¬ (fields.filter (·.exported)).isEmpty = true := fun hnil => by
    rw [List.isEmpty_iff.mp hnil] at hmem
    cases hmem
  have ho := h.outline_eq
  rw [hshape] at ho
  dsimp only [Shape.content, Shape.kind] at ho
  rw [defect_head_enters, hd, if_neg (by decide), if_neg hsome, if_neg hkept] at ho
  obtain ⟨os, hos, ho⟩ := Option.bind_eq_some_iff.mp ho
  obtain rfl := Option.some.inj ho
  exact ⟨os, hos, rfl⟩

/-- The members of a record have the same trees below names that do not occur in them. -/
theorem children_eq_of_agree {q : Site} {e : Nat} {content' : Outline}
    (h : p.Enters types d l name content) (h' : q.Enters types e l name content')
    (hshape : l.shape = .record fields) (hfields : ∃ f ∈ fields, f.exported = true)
    (hp : p.attrs.defect = none) (hq : q.attrs.defect = none)
    (hagree : ∀ n, p.value.Declares types n → (n ∈ p.above ↔ n ∈ q.above)) :
    content.tree.children = content'.tree.children := by
  obtain ⟨os, hos, htree⟩ := exists_tree_of_record h hshape hfields hp
  obtain ⟨os', hos', htree'⟩ := exists_tree_of_record h' hshape hfields hq
  -- the outlines were found within different depths, and are compared within the greater one
  have hmembers : ∀ m ∈ exportedMembers fields, ∀ o,
      outline types d ⟨m.1, false, declaredBelow p.above name, m.2⟩ = some o →
        ∃ o', outline types (max d e) ⟨m.1, false, declaredBelow q.above name, m.2⟩ = some o'
          ∧ o'.tree = o.tree := by
    intro m hm o ho
    obtain ⟨f, hf, rfl⟩ := List.mem_map.mp hm
    have hmember : f.value ∈ l.shape.members := by
      rw [hshape]
      exact List.mem_map_of_mem hf
    refine exists_outline_of_agree (max d e) (outline_mono ho (Nat.le_max_left d e))
      fun n hn => ?_
    have hiff := hagree n (hn.of_member h.layer_eq hmember)
    cases name with
    | none => exact hiff
    | some m => simp only [declaredBelow, Finset.mem_insert, hiff]
  obtain ⟨os'', hos'', heq⟩ := exists_mapM_of_forall (·.tree) hos hmembers
  have hmono := mapM_congr
    (fun m _ o ho => outline_mono ho (Nat.le_max_right d e)) hos'
  obtain rfl : os' = os'' := Option.some.inj (hmono.symm.trans hos'')
  rw [htree, htree']
  exact heq.symm

theorem label_tree_of_record (h : p.Enters types d l name content)
    (hshape : l.shape = .record fields) (hfields : ∃ f ∈ fields, f.exported = true) :
    content.tree.label = p.attrs.head .struct (.enters name) := by
  cases hd : p.attrs.defect with
  | none =>
      obtain ⟨os, -, htree⟩ := exists_tree_of_record h hshape hfields hd
      rw [htree]
      rfl
  | some defect =>
      rw [tree_of_failed h hshape (by rw [hd]; rfl)]
      rfl

end Record

/-! ## Types that are met once -/

/-- Of the levels that are entered, one declares the name. It is met with the value, below names
that do not occur in it. -/
structure Outline.MeetsOnce (types : Types) (o : Outline) (t : Value) (n : String)
    (f : Finished) : Prop where
  filter_eq : o.finished.filter (fun g => g.level.declares? = some n) = [f]
  value_eq : f.site.value = t
  apart : ∀ m ∈ f.site.above, ¬ t.Declares types m

/-- The derivation of the value meets the type once, at the position. -/
def Value.MeetsOnce (types : Types) (v t : Value) (n : String) (p : Site) : Prop :=
  ∃ o f, Outlines types (.start v) o ∧ o.MeetsOnce types t n f ∧ f.site = p

namespace Outline.MeetsOnce

variable {v t : Value} {o : Outline} {n : String} {f g : Finished} {l : Layer}

theorem mem_finished (h : o.MeetsOnce types t n f) :
    f ∈ o.finished ∧ f.level.declares? = some n := by
  have hf : f ∈ o.finished.filter (fun g => g.level.declares? = some n) := by
    rw [h.filter_eq]
    exact List.mem_singleton_self f
  simpa using hf

theorem eq_of_declares (h : o.MeetsOnce types t n f) (hg : g ∈ o.finished)
    (hn : g.level.declares? = some n) : g = f := by
  have hmem : g ∈ o.finished.filter (fun g => g.level.declares? = some n) :=
    List.mem_filter.mpr ⟨hg, decide_eq_true hn⟩
  rw [h.filter_eq] at hmem
  exact List.mem_singleton.mp hmem

theorem exists_enters (h : o.MeetsOnce types t n f) (ho : Outlines types (.start v) o)
    (hl : t.layer? types = some l) : f.level = l ∧ ∃ path d content,
      Reaches types (.start v) path f.site ∧ f.site.Enters types d l (some n) content
        ∧ f.tree = content.tree := by
  obtain ⟨depth, ho⟩ := ho
  obtain ⟨path, d, name, content, hpath, henters, htree⟩ :=
    exists_enters_of_mem_finished .start ho f h.mem_finished.1
  obtain rfl : f.level = l := by
    have hlayer := henters.layer_eq
    rw [h.value_eq, hl] at hlayer
    exact (Option.some.inj hlayer).symm
  obtain ⟨hname, -⟩ := declares?_of_enters henters.ruling_eq
  obtain rfl : name = some n := hname.symm.trans h.mem_finished.2
  exact ⟨rfl, path, d, content, hpath, henters, htree⟩

/-- The node where a record is met is the one that defines it. -/
theorem tree_eq_of_defines (h : o.MeetsOnce types t n f) (ho : Outlines types (.start v) o)
    (hg : g ∈ o.finished) (hn : g.Defines n) : g.tree = f.tree := by
  obtain ⟨depth, ho⟩ := ho
  rcases named_outline types depth ho g.tree n (.inr ⟨g, hg, rfl⟩) hn with
    ⟨k, hk, hdeclares, htree⟩ | ⟨hempty, -⟩
  · rw [← htree, h.eq_of_declares hk hdeclares.1]
  · exact absurd hempty.symm (defines?_ne_empty hn)

end Outline.MeetsOnce

section Definition

variable {s : Schema} {v t : Value} {o : Outline} {n : String} {f : Finished} {l : Layer}
  {fields : List (Field Value)}

/-- A record that is met once is defined by the node where it is met. -/
theorem exists_definition_of_meetsOnce (hs : s.Linked) (hrenders : s.Renders o)
    (ho : Outlines types (.start v) o) (h : o.MeetsOnce types t n f)
    (hl : t.layer? types = some l) (hshape : l.shape = .record fields) (hne : n ≠ "") :
    ∃ d ∈ s.children s.typeRefs, s.childByName? s.typeRefs n = some d
      ∧ s.tree d = f.tree.definition := by
  obtain ⟨rfl, -⟩ := h.exists_enters ho hl
  obtain ⟨hf, hname⟩ := h.mem_finished
  have hdeclares : f.Declares n := ⟨hname, by rw [hshape]; rfl⟩
  have hrenamed : ¬ f.IsRenamed types := by
    rintro ⟨hwrap, -⟩
    rw [Layer.isWrapper, hshape] at hwrap
    cases hwrap
  have hdefines := (defines_iff_of_declares ho hf hne hdeclares).mpr hrenamed
  obtain ⟨u, hu, hun⟩ : Defined (recordAll [] o.finished) n :=
    defined_recordAll_iff.mpr (.inr ⟨f, hf, hdefines⟩)
  rw [← map_tree_definitions hs hrenders] at hu
  obtain ⟨c, hc, rfl⟩ := List.mem_map.mp hu
  rw [Schema.label_tree] at hun
  obtain ⟨d, hd⟩ := Option.isSome_iff_exists.mp (Schema.isSome_childByName?.mpr ⟨c, hc, hun⟩)
  have hmem := List.mem_of_find?_eq_some hd
  have hdn : (s.attrs d).name = n := by
    rw [Schema.childByName?] at hd
    simpa using List.find?_some hd
  refine ⟨d, hmem, hd, ?_⟩
  obtain ⟨g, hg, m, hm, htree⟩ := exists_finished_of_definition hs hrenders hmem
  -- a definition is named for the type that it is of
  obtain rfl : m = n := by
    obtain ⟨-, -, hmn⟩ := defines?_eq_some.mp hm
    rw [← hdn, ← Schema.label_tree, htree, Rose.label_definition, Attributes.definition, hmn]
  rw [htree, h.tree_eq_of_defines ho hg hm]

/-- A record that is met once in each of two values has the same members there, unless it fails at
one of the two places only. -/
theorem children_eq_of_meetsOnce {v' : Value} {o' : Outline} {f' : Finished}
    (ho : Outlines types (.start v) o) (ho' : Outlines types (.start v') o')
    (h : o.MeetsOnce types t n f) (h' : o'.MeetsOnce types t n f')
    (hl : t.layer? types = some l) (hshape : l.shape = .record fields)
    (hfields : ∃ f ∈ fields, f.exported = true)
    (hdefect : f.site.attrs.defect = f'.site.attrs.defect) :
    f.tree.children = f'.tree.children := by
  obtain ⟨-, -, d, content, -, henters, htree⟩ := h.exists_enters ho hl
  obtain ⟨-, -, e, content', -, henters', htree'⟩ := h'.exists_enters ho' hl
  rw [htree, htree']
  cases hd : f.site.attrs.defect with
  | none =>
      refine children_eq_of_agree henters henters' hshape hfields hd (hdefect ▸ hd) fun m hm => ?_
      rw [h.value_eq] at hm
      exact iff_of_false (fun hmem => h.apart m hmem hm) fun hmem => h'.apart m hmem hm
  | some defect =>
      have hfailed : f.site.attrs.defect.isSome = true := by rw [hd]; rfl
      rw [tree_of_failed henters hshape hfailed,
        tree_of_failed henters' hshape (hdefect ▸ hfailed)]
      rfl

end Definition

end TypeOutline
