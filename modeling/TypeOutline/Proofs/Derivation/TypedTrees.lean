import TypeOutline.Proofs.Derivation.Typing

/-!
# The trees of typed positions

Which tree comes of a level of a described type (`treeOf_view`). The type
decides it, up to what stands on the node before and to whether a name
above closes a cycle. The elements of a list all have the kind of their
type (`typeLabel_eq`), so no list is found to have several kinds, and the
node of a list has one child.
-/

namespace TypeOutline

section Trees

variable {types : Types} {table : TypeTable} {p q : Site} {d : TypeDesc} {depth : Nat}

/-! ## The kind of a node -/

theorem typeLabel_head (a b : Attributes) (kind : Kind) (r : Ruling) :
    (a.head kind r).typeLabel = (b.head kind r).typeLabel := by
  cases r with
  | enters name => cases name <;> rfl
  | _ => rfl

/-- Every level but an optional leaves the kind that it wrote. -/
theorem typeLabel_of_gives {T : Value → String → Prop} {a : Attributes} {form : TypeForm}
    {c : Content} {derive : Site → Option Outline} {top : Bool} {above : Finset String}
    {o : Outline} (h : form.Gives T a c) (hform : ∀ target, form ≠ .optional target)
    (ho : c.outline derive top above = some o) : o.tree.label.typeLabel = a.typeLabel := by
  cases h with
  | scalar kind =>
      obtain rfl := Option.some.inj ho
      exact congrArg Face.type (a.face_settleScalar kind)
  | failed =>
      obtain rfl := Option.some.inj ho
      rfl
  | same => exact absurd rfl (hform _)
  | each _ _ hface =>
      obtain ⟨os, -, ho⟩ := Option.bind_eq_some_iff.mp ho
      obtain rfl := Option.some.inj ho
      exact congrArg Face.type hface
  | @probed _ _ b elements hface _ _ _ =>
      obtain ⟨⟨os, kinds⟩, -, ho⟩ := Option.bind_eq_some_iff.mp ho
      obtain rfl := Option.some.inj ho
      dsimp only [Outline.list]
      split
      · exact (Attributes.typeLabel_mixedKinds b kinds).trans (congrArg Face.type hface)
      · exact congrArg Face.type hface

/-- Values of one type below the same names have nodes of one kind. -/
theorem typeLabel_eq (htable : table.WellFormed) : ∀ {depth : Nat} {p q : Site} {d : TypeDesc}
    {o o' : Outline}, p.Typed types table d → q.Typed types table d → p.top = q.top →
      p.above = q.above → outline types depth p = some o → outline types depth q = some o' →
        o.tree.label.typeLabel = o'.tree.label.typeLabel := by
  intro depth
  induction depth with
  | zero => exact fun _ _ _ _ h => nomatch h
  | succ depth ih =>
      intro p q d o o' hp hq htop habove ho ho'
      have hruling : d.ruling q.top q.above = d.ruling p.top p.above := by rw [htop, habove]
      by_cases hform : ∃ target, d.form = .optional target
      · obtain ⟨target, hform⟩ := hform
        obtain ⟨p', dp, op, hp', hop, htree⟩ := exists_content_of_optional htable hp hform ho
        obtain ⟨q', dq, oq, hq', hoq, htree'⟩ := exists_content_of_optional htable hq hform ho'
        obtain rfl := Option.some.inj (hp'.find?_eq.symm.trans hq'.find?_eq)
        rw [htree, htree']
        exact ih hp'.typed hq'.typed (by rw [hp'.top_eq, hq'.top_eq, htop])
          (by rw [hp'.above_eq, hq'.above_eq, habove]) hop hoq
      · have hform' : ∀ target, d.form ≠ .optional target := fun t ht => hform ⟨t, ht⟩
        rcases typed_succ_cases hp ho with ⟨r, hr, hne, rfl⟩ | ⟨l, c, content, hr, hgives, hc, rfl⟩
        · rcases typed_succ_cases hq ho' with ⟨r', hr', -, rfl⟩ | ⟨l', c', content', hr', -, -, -⟩
          · obtain rfl : r = r' := hr.symm.trans (hruling.symm.trans hr')
            exact typeLabel_head p.attrs q.attrs d.form.kind r
          · exact absurd (hr.symm.trans (hruling.symm.trans hr')) (hne _)
        · rcases typed_succ_cases hq ho' with
            ⟨r', hr', hne, -⟩ | ⟨l', c', content', hr', hgives', hc', rfl⟩
          · exact absurd (hr'.symm.trans (hruling.trans hr)) (hne _)
          · calc content.tree.label.typeLabel
              _ = (p.attrs.head d.form.kind (.enters d.declares?)).typeLabel :=
                  typeLabel_of_gives hgives hform' hc
              _ = (q.attrs.head d.form.kind (.enters d.declares?)).typeLabel :=
                  typeLabel_head p.attrs q.attrs d.form.kind _
              _ = content'.tree.label.typeLabel := (typeLabel_of_gives hgives' hform' hc').symm

/-! ## Lists -/

/-- Elements of one kind are counted under one key. -/
theorem size_le_of_gather {derive : Value → Option Outline} {label : String} : ∀ {vs : List Value}
    {kinds kinds' : Dictionary Nat} {os : List Outline},
    Outline.gather derive vs kinds = some (os, kinds') →
      (∀ v ∈ vs, ∀ o, derive v = some o → o.tree.label.typeLabel = label) →
        (kinds.entries = [] ∨ ∃ n, kinds.entries = [(label, n)]) → kinds'.size ≤ 1
  | [], kinds, kinds', os, h, _, hkinds => by
      obtain rfl : kinds = kinds' := congrArg Prod.snd (Option.some.inj h)
      unfold Dictionary.size
      rcases hkinds with hk | ⟨n, hk⟩ <;> simp [hk]
  | v :: vs, kinds, kinds', os, h, hlabel, hkinds => by
      rw [Outline.gather] at h
      obtain ⟨o, ho, h⟩ := Option.bind_eq_some_iff.mp h
      have hv := hlabel v List.mem_cons_self o ho
      have hstep : ∃ n, (kinds.update o.tree.label.typeLabel 0 (· + 1)).entries = [(label, n)] := by
        rw [hv]
        unfold Dictionary.update Dictionary.insert
        rcases hkinds with hk | ⟨n, hk⟩
        · exact ⟨_, by simp only [hk, Dictionary.insertIn]; rfl⟩
        · exact ⟨_, by simp only [hk, Dictionary.insertIn, if_true]; rfl⟩
      obtain ⟨n, hn⟩ := hstep
      have hsize : ¬ (kinds.update o.tree.label.typeLabel 0 (· + 1)).size > 1 := by
        unfold Dictionary.size
        simp [hn]
      dsimp only at h
      rw [if_neg hsize] at h
      obtain ⟨⟨os', k⟩, hos', h⟩ := Option.bind_eq_some_iff.mp h
      obtain rfl : k = kinds' := congrArg Prod.snd (Option.some.inj h)
      exact size_le_of_gather hos' (fun w hw => hlabel w (List.mem_cons_of_mem v hw))
        (.inr ⟨n, hn⟩)

/-! ## Levels that are no optionals -/

theorem category_ne_known_of_isCompound {form : TypeForm} (h : form.isCompound = true) :
    (Generic.ofKind form.kind).category ≠ .known := by
  cases form with
  | scalar kind => cases h
  | optional target => cases h
  | list fixed element => cases fixed <;> exact fun h => nomatch h
  | record fields => exact fun h => nomatch h

/-- The name that a node of the type shows once it is finished. -/
def TypeDesc.shownName (d : TypeDesc) : String :=
  if (Generic.ofKind d.form.kind).category = .known then "" else d.declares?.getD ""

/-- The tree is that of a member, at a position below the given names. -/
def IsMemberTree (types : Types) (table : TypeTable) (depth : Nat) (above : Finset String)
    (m : Attributes × String) (t : Rose Attributes) : Prop :=
  ∃ q d o, table.find? m.2 = some d ∧ q.Typed types table d ∧ q.attrs = m.1 ∧ q.top = false
    ∧ q.above = above ∧ outline types depth q = some o ∧ o.tree = t

/-- The tree is that of a level of the type, entered at the position. -/
structure Site.IsLevelTree (types : Types) (table : TypeTable) (depth : Nat) (p : Site)
    (d : TypeDesc) (t : Rose Attributes) : Prop where
  face_eq : t.label.face =
    ⟨p.attrs.name, (Generic.ofKind d.form.kind).slug, p.attrs.nullable, d.form.defect?⟩
  typeRef_eq : t.label.native.typeRef = d.shownName
  children : List.Forall₂
    (IsMemberTree types table depth (declaredBelow p.above d.declares?)) d.form.members t.children

theorem isMemberTree (hp : p.Typed types table d) (hform : d.form.isCompound = true)
    {m : Attributes × String} (hm : m ∈ d.form.members) {v : Value}
    (hv : v.HasType types table m.2) {o : Outline}
    (ho : outline types depth ⟨m.1, false, declaredBelow p.above d.declares?, v⟩ = some o) :
    IsMemberTree types table depth (declaredBelow p.above d.declares?) m o.tree := by
  obtain ⟨d', hd', hq⟩ := hp.exists_member hform hm hv
  exact ⟨_, d', o, hd', hq, rfl, rfl, rfl, ho, rfl⟩

theorem forall₂_of_mapM {α β γ : Type} {R : α → γ → Prop} {S : α → β → Prop} {f : β → Option γ} :
    ∀ {xs : List α} {ys : List β} {zs : List γ}, List.Forall₂ S xs ys → ys.mapM f = some zs →
      (∀ x ∈ xs, ∀ y z, S x y → f y = some z → R x z) → List.Forall₂ R xs zs
  | _, [], zs, .nil, h, _ => by
      obtain rfl : [] = zs := Option.some.inj h
      exact .nil
  | x :: xs, y :: ys, zs, .cons hxy hrest, h, hR => by
      obtain ⟨z, zs, hz, hzs, rfl⟩ := Schema.mapM_eq_some_cons.mp h
      exact .cons (hR x List.mem_cons_self y z hxy hz)
        (forall₂_of_mapM hrest hzs fun x' hx' => hR x' (List.mem_cons_of_mem x hx'))

/-- Of the elements of a typed list the first one stays. -/
theorem exists_tree_of_gather (htable : table.WellFormed) (hp : p.Typed types table d)
    {fixed : Bool} {element : String} (hform : d.form = .list fixed element)
    {elements : List Value} (hne : elements ≠ [])
    (helements : ∀ v ∈ elements, v.HasType types table element) {os : List Outline}
    {kinds : Dictionary Nat} (hos : Outline.gather (fun v => outline types depth
      ⟨{ name := "" }, false, declaredBelow p.above d.declares?, v⟩) elements {} = some (os, kinds))
    (b : Attributes) : ∃ t, (Outline.list b os kinds).tree = .node b [t]
      ∧ IsMemberTree types table depth (declaredBelow p.above d.declares?)
        ({ name := "" }, element) t := by
  have hcompound : d.form.isCompound = true := by rw [hform]; rfl
  have hm : (({ name := "" }, element) : Attributes × String) ∈ d.form.members := by
    rw [hform]
    exact List.mem_singleton_self _
  obtain ⟨v, vs, rfl⟩ := List.exists_cons_of_ne_nil hne
  obtain ⟨o, os, rfl, ho⟩ := exists_head_of_gather hos
  have hv := helements v List.mem_cons_self
  obtain ⟨dv, hdv, hq⟩ := hp.exists_member hcompound hm hv
  have hsame : ∀ w ∈ v :: vs, ∀ o', outline types depth
      ⟨{ name := "" }, false, declaredBelow p.above d.declares?, w⟩ = some o' →
        o'.tree.label.typeLabel = o.tree.label.typeLabel := by
    intro w hw o' ho'
    obtain ⟨dw, hdw, hq'⟩ := hp.exists_member hcompound hm (helements w hw)
    obtain rfl := Option.some.inj (hdv.symm.trans hdw)
    exact typeLabel_eq htable hq' hq rfl rfl ho' ho
  have hkinds := size_le_of_gather hos hsame (.inl rfl)
  refine ⟨o.tree, ?_, isMemberTree hp hcompound hm hv ho⟩
  rw [Outline.list, if_neg (Nat.not_lt_of_le hkinds)]
  rfl

theorem isLevelTree_of_gives (htable : table.WellFormed) (hp : p.Typed types table d)
    (hform : ∀ target, d.form ≠ .optional target) {c : Content} {content : Outline}
    (hgives : d.form.Gives (Value.HasType types table)
      (p.attrs.head d.form.kind (.enters d.declares?)) c)
    (hcontent : c.outline (outline types depth) p.top (declaredBelow p.above d.declares?) =
      some content) : p.IsLevelTree types table depth d content.tree := by
  have hface := Attributes.face_head_enters p.attrs d.form.kind d.declares?
  rw [hp.defect_eq] at hface
  have htype := Attributes.typeRef_head p.attrs d.form.kind (.enters d.declares?)
  have hname : d.declares?.getD p.attrs.native.typeRef = d.declares?.getD "" := by
    rw [hp.typeRef_eq]
  replace htype := htype.trans hname
  generalize p.attrs.head d.form.kind (.enters d.declares?) = a at hgives hface htype
  generalize hf : d.form = form at hgives
  cases hgives with
  | scalar kind =>
      obtain rfl := Option.some.inj hcontent
      refine ⟨?_, ?_, ?_⟩
      · rw [hf] at hface ⊢
        exact (a.face_settleScalar kind).trans hface
      · show (a.settleScalar kind).native.typeRef = _
        rw [TypeDesc.shownName, hf, TypeForm.kind, Attributes.settleScalar]
        split
        · rw [Attributes.native_modifyNative]
        · exact htype
      · rw [hf]
        exact .nil
  | failed hexported =>
      obtain rfl := Option.some.inj hcontent
      refine ⟨?_, ?_, ?_⟩
      · rw [hf] at hface ⊢
        show ({ a.face with defect := _ } : Face) = _
        rw [hface]
        rfl
      · rw [TypeDesc.shownName, hf]
        exact htype
      · rw [hf, TypeForm.members, hexported]
        exact .nil
  | same => exact absurd hf (hform _)
  | each hcompound hdefect hb hkeeps hmembers =>
      subst hf
      obtain ⟨os, hos, ho⟩ := Option.bind_eq_some_iff.mp hcontent
      obtain rfl := Option.some.inj ho
      refine ⟨?_, ?_, ?_⟩
      · rw [hdefect]
        exact hb.trans hface
      · rw [TypeDesc.shownName, if_neg (category_ne_known_of_isCompound hcompound)]
        exact hkeeps.typeRef_eq.trans htype
      · show List.Forall₂ _ _ (os.map (·.tree))
        rw [List.forall₂_map_right_iff]
        refine forall₂_of_mapM hmembers hos fun m hm m' o hmm ho => ?_
        rw [hmm.1] at ho
        exact isMemberTree hp hcompound hm hmm.2 ho
  | @probed fixed element b elements hb hkeeps hne helements =>
      obtain ⟨⟨os, kinds⟩, hos, hlist⟩ := Option.bind_eq_some_iff.mp hcontent
      obtain rfl := Option.some.inj hlist
      have hcompound : d.form.isCompound = true := by rw [hf]; rfl
      obtain ⟨t, htree, hmember⟩ := exists_tree_of_gather htable hp hf hne helements hos b
      rw [htree]
      refine ⟨?_, ?_, ?_⟩
      · rw [hf] at hface ⊢
        exact hb.trans hface
      · rw [TypeDesc.shownName, if_neg (category_ne_known_of_isCompound hcompound)]
        exact hkeeps.typeRef_eq.trans htype
      · rw [hf]
        exact .cons hmember .nil

/-! ## What becomes of a level -/

/-- What the levels of the type are refused for, below any names. -/
def TypeDesc.refusal? (d : TypeDesc) (top : Bool) : Option Ruling :=
  if Layer.isUnsupported ⟨d.name, .scalar d.form.kind⟩ then some .unsupported
  else if Layer.isMisplaced ⟨d.name, .scalar d.form.kind⟩ top then some .misplaced
  else none

/-- What becomes of the levels of a type, below any names. -/
inductive TypeDesc.View where
  | wrapper (target : String)
  | refused (r : Ruling)
  | unnamed
  | named (name : String)

def TypeDesc.view (d : TypeDesc) (top : Bool) : View :=
  match d.form with
  | .optional target => .wrapper target
  | _ =>
    match d.refusal? top with
    | some r => .refused r
    | none => if d.shownName = "" then .unnamed else .named d.shownName

/-- The trees that come of a level of the type. The names above matter to a
named type alone, which closes a cycle or does not. -/
inductive Site.TreeOf (types : Types) (table : TypeTable) (depth : Nat) (p : Site) (d : TypeDesc) :
    TypeDesc.View → Rose Attributes → Prop where
  | wrapper {target : String} {q : Site} {d' : TypeDesc} {o : Outline}
      (hq : p.IsContent types table q target d') (ho : outline types depth q = some o) :
      TreeOf types table depth p d (.wrapper target) o.tree
  | refused {r : Ruling} (hr : r.name? = none) :
      TreeOf types table depth p d (.refused r) (.node (p.attrs.head d.form.kind r) [])
  | unnamed {t : Rose Attributes} (hlevel : p.IsLevelTree types table depth d t)
      (hname : d.shownName = "") (hbelow : d.declares? = none ∨ t.children = []) :
      TreeOf types table depth p d .unnamed t
  | named {n : String} {t : Rose Attributes} (hlevel : p.IsLevelTree types table depth d t)
      (hne : n ≠ "") (hname : d.shownName = n) (hdeclares : d.declares? = some n)
      (habove : n ∉ p.above) :
      TreeOf types table depth p d (.named n) t
  | cycle {n : String} (hne : n ≠ "") (habove : n ∈ p.above) :
      TreeOf types table depth p d (.named n) (.node (p.attrs.head d.form.kind (.cycle n)) [])

theorem TypeDesc.ruling_eq (d : TypeDesc) (top : Bool) (above : Finset String) :
    d.ruling top above = (d.refusal? top).getD (match d.declares? with
      | none => .enters none
      | some n => if n ∈ above then .cycle n else .enters (some n)) := by
  rw [TypeDesc.ruling, Layer.ruling, TypeDesc.refusal?]
  split
  · rfl
  · split <;> rfl

theorem TypeDesc.eq_of_refusal? {top : Bool} {r : Ruling} (h : d.refusal? top = some r) :
    r = .unsupported ∨ r = .misplaced := by
  rw [TypeDesc.refusal?] at h
  split at h
  · exact .inl (Option.some.inj h).symm
  · split at h
    · exact .inr (Option.some.inj h).symm
    · cases h

theorem TypeDesc.view_eq (hform : ∀ target, d.form ≠ .optional target) (top : Bool) :
    d.view top = match d.refusal? top with
      | some r => .refused r
      | none => if d.shownName = "" then .unnamed else .named d.shownName := by
  rw [TypeDesc.view]
  split
  · rename_i target hd
    exact absurd hd (hform target)
  · rfl

/-- A declared name is shown, except by an atomic value. -/
theorem TypeDesc.shownName_cases {n : String} (hname : d.declares? = some n) :
    d.shownName = n ∨ d.shownName = "" ∧ d.form.isCompound = false := by
  rw [TypeDesc.shownName, hname]
  by_cases hknown : (Generic.ofKind d.form.kind).category = .known
  · rw [if_pos hknown]
    refine .inr ⟨rfl, Bool.eq_false_iff.mpr fun hcompound => ?_⟩
    exact category_ne_known_of_isCompound hcompound hknown
  · rw [if_neg hknown]
    exact .inl rfl

theorem Site.IsLevelTree.children_eq_nil {t : Rose Attributes}
    (h : p.IsLevelTree types table depth d t) (hform : ∀ target, d.form ≠ .optional target)
    (hatomic : d.form.isCompound = false) : t.children = [] := by
  have hmembers := h.children
  cases hd : d.form with
  | scalar kind =>
      rw [hd] at hmembers
      exact List.forall₂_nil_left_iff.mp hmembers
  | optional target => exact absurd hd (hform target)
  | list fixed element =>
      rw [hd] at hatomic
      cases hatomic
  | record fields =>
      rw [hd] at hatomic
      cases hatomic

/-- Only a type with members is declared above a typed position. -/
theorem Site.Typed.isCompound_of_mem_above (htable : table.WellFormed)
    (hp : p.Typed types table d) {n : String} (hname : d.declares? = some n) (hn : n ∈ p.above) :
    d.form.isCompound = true := by
  obtain ⟨key, d', hd', hname', hcompound⟩ := hp.above n hn
  obtain ⟨key', hd, -⟩ := hp.hasType
  obtain rfl := htable.unique key' key d d' n hd hd' hname hname'
  exact hcompound

/-- A refused level leaves a node without members. -/
theorem tree_of_refused (hp : p.Typed types table d) {o : Outline}
    (ho : outline types (depth + 1) p = some o) {r : Ruling} (hr : d.ruling p.top p.above = r)
    (hne : ∀ name, r ≠ .enters name) : o.tree = .node (p.attrs.head d.form.kind r) [] := by
  rcases typed_succ_cases hp ho with ⟨r', hr', -, rfl⟩ | ⟨l, c, content, hr', -⟩
  · rw [← hr, hr']
    rfl
  · exact absurd (hr.symm.trans hr') (hne _)

theorem isLevelTree_of_entered (htable : table.WellFormed) (hp : p.Typed types table d)
    (hform : ∀ target, d.form ≠ .optional target) {o : Outline}
    (ho : outline types (depth + 1) p = some o)
    (hr : d.ruling p.top p.above = .enters d.declares?) :
    p.IsLevelTree types table depth d o.tree := by
  rcases typed_succ_cases hp ho with ⟨r, hr', hne, -⟩ | ⟨l, c, content, -, hgives, hc, rfl⟩
  · exact absurd (hr'.symm.trans hr) (hne _)
  · have hcontent := isLevelTree_of_gives htable hp hform hgives hc
    exact hcontent

/-- What a level can give that the type is not refused for. -/
theorem treeOf_of_admitted (htable : table.WellFormed) (hp : p.Typed types table d)
    (hform : ∀ target, d.form ≠ .optional target) (hrefusal : d.refusal? p.top = none)
    {o : Outline} (ho : outline types (depth + 1) p = some o) : p.TreeOf types table depth d
      (if d.shownName = "" then .unnamed else .named d.shownName) o.tree := by
  have hruling := d.ruling_eq p.top p.above
  have hentered := isLevelTree_of_entered htable hp hform ho
  rw [hrefusal] at hruling
  cases hdeclares : d.declares? with
  | none =>
      have hname : d.shownName = "" := by
        rw [TypeDesc.shownName, hdeclares]
        exact ite_self ""
      rw [hdeclares] at hruling hentered
      rw [if_pos hname]
      exact .unnamed (hentered hruling) hname (.inl hdeclares)
  | some n =>
      obtain ⟨key, hd, -⟩ := hp.hasType
      have hne : n ≠ "" := fun hn => htable.name_ne key d hd (hn ▸ hdeclares)
      rw [hdeclares] at hruling hentered
      simp only [Option.getD_none] at hruling
      by_cases habove : n ∈ p.above
      · rw [if_pos habove] at hruling
        rw [tree_of_refused hp ho hruling fun name h => by cases h]
        rcases TypeDesc.shownName_cases hdeclares with hname | ⟨-, hatomic⟩
        · rw [hname, if_neg hne]
          exact .cycle hne habove
        · have hcompound := hp.isCompound_of_mem_above htable hdeclares habove
          rw [hatomic] at hcompound
          cases hcompound
      · rw [if_neg habove] at hruling
        have htree := hentered hruling
        rcases TypeDesc.shownName_cases hdeclares with hname | ⟨hname, hatomic⟩
        · rw [hname, if_neg hne]
          exact .named htree hne hname hdeclares habove
        · rw [if_pos hname]
          exact .unnamed htree hname (.inr (htree.children_eq_nil hform hatomic))

/-- All that a level of the type can give. -/
theorem treeOf_view (htable : table.WellFormed) (hp : p.Typed types table d) {o : Outline}
    (ho : outline types (depth + 1) p = some o) :
    p.TreeOf types table depth d (d.view p.top) o.tree := by
  by_cases hform : ∃ target, d.form = .optional target
  case pos =>
    obtain ⟨target, hform⟩ := hform
    obtain ⟨q, d', o', hq, ho', htree⟩ := exists_content_of_optional htable hp hform ho
    rw [htree, TypeDesc.view, hform]
    exact .wrapper hq ho'
  case neg =>
    have hform' : ∀ target, d.form ≠ .optional target := fun t ht => hform ⟨t, ht⟩
    rw [TypeDesc.view_eq hform']
    cases hrefusal : d.refusal? p.top with
    | none => exact treeOf_of_admitted htable hp hform' hrefusal ho
    | some r =>
        have hruling := d.ruling_eq p.top p.above
        rw [hrefusal, Option.getD_some] at hruling
        have hr : r.name? = none ∧ ∀ name, r ≠ .enters name := by
          rcases TypeDesc.eq_of_refusal? hrefusal with rfl | rfl
          · exact ⟨rfl, fun name h => by cases h⟩
          · exact ⟨rfl, fun name h => by cases h⟩
        rw [tree_of_refused hp ho hruling hr.2]
        exact .refused hr.1

/-- A node of a named type, entered or closing a cycle, refers to the type. -/
theorem Site.TreeOf.label_of_named {n : String} {t : Rose Attributes}
    (h : p.TreeOf types table depth d (.named n) t) :
    n ≠ "" ∧ t.label.native.typeRef = n ∧ { t.label.face with defect := none } =
      (⟨p.attrs.name, (Generic.ofKind d.form.kind).slug, p.attrs.nullable, none⟩ : Face) := by
  cases h with
  | named hlevel hne hname =>
      rw [hlevel.typeRef_eq, hlevel.face_eq]
      exact ⟨hne, hname, rfl⟩
  | cycle hne => exact ⟨hne, Attributes.typeRef_head p.attrs d.form.kind (.cycle n), rfl⟩

theorem face_head_eq {a b : Attributes} (kind : Kind) (r : Ruling) (hname : a.name = b.name)
    (hnullable : a.nullable = b.nullable) (hdefect : a.defect = b.defect) :
    (a.head kind r).face = (b.head kind r).face := by
  cases r with
  | enters name =>
      rw [Attributes.face_head_enters, Attributes.face_head_enters, hname, hnullable, hdefect]
  | _ =>
      show (⟨a.name, _, a.nullable, _⟩ : Face) = ⟨b.name, _, b.nullable, _⟩
      rw [hname, hnullable]
      rfl

end Trees

end TypeOutline
