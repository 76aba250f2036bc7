import TypeOutline.Proofs.Derivation.Contents
import TypeOutline.Proofs.Arena.Trees

/-!
# Deriving the members of a level

The members of a level are derived one after the other, each at its own
position. The outline of the level is found at another depth if theirs
are (`Content.outline_congr`), and it exists if theirs do
(`Content.exists_outline`). What it is made of is said once for all
shapes (`gives_outline`): it is a node without members, what the content
of a wrapper gives, or a node whose children are trees of members.
-/

namespace TypeOutline

/-! ## One after the other -/

theorem gather_congr {f g : Value → Option Outline} : ∀ {vs : List Value} {kinds : Dictionary Nat}
    {r : List Outline × Dictionary Nat}, (∀ v ∈ vs, ∀ o, g v = some o → f v = some o) →
      Outline.gather g vs kinds = some r → Outline.gather f vs kinds = some r
  | [], _, _, _, hg => hg
  | v :: vs, kinds, r, h, hg => by
      rw [Outline.gather] at hg ⊢
      obtain ⟨o, ho, hg⟩ := Option.bind_eq_some_iff.mp hg
      rw [h v List.mem_cons_self o ho]
      dsimp only [Option.bind_eq_bind, Option.bind_some] at hg ⊢
      split at hg
      · rename_i hk
        rw [if_pos hk]
        exact hg
      · rename_i hk
        rw [if_neg hk]
        obtain ⟨r', hr', hg⟩ := Option.bind_eq_some_iff.mp hg
        rw [gather_congr (fun w hw => h w (List.mem_cons_of_mem v hw)) hr']
        exact hg

theorem mapM_congr {α β : Type} {f g : α → Option β} : ∀ {xs : List α} {ys : List β},
    (∀ x ∈ xs, ∀ y, g x = some y → f x = some y) → xs.mapM g = some ys → xs.mapM f = some ys
  | [], _, _, hg => hg
  | x :: xs, ys, h, hg => by
      obtain ⟨y, zs, hy, hzs, rfl⟩ := Schema.mapM_eq_some_cons.mp hg
      exact Schema.mapM_eq_some_cons.mpr ⟨y, zs, h x List.mem_cons_self y hy,
        mapM_congr (fun x' hx' => h x' (List.mem_cons_of_mem x hx')) hzs, rfl⟩

theorem exists_gather {f : Value → Option Outline} : ∀ {vs : List Value},
    (∀ v ∈ vs, ∃ o, f v = some o) → ∀ kinds, ∃ r, Outline.gather f vs kinds = some r
  | [], _, kinds => ⟨([], kinds), rfl⟩
  | v :: vs, h, kinds => by
      obtain ⟨o, ho⟩ := h v List.mem_cons_self
      rw [Outline.gather, ho]
      dsimp only [Option.bind_eq_bind, Option.bind_some]
      split
      · exact ⟨_, rfl⟩
      · obtain ⟨r, hr⟩ := exists_gather (fun w hw => h w (List.mem_cons_of_mem v hw))
          (kinds.update o.tree.label.typeLabel 0 (· + 1))
        rw [hr]
        exact ⟨_, rfl⟩

theorem length_eq_of_mapM {α β : Type} {f : α → Option β} : ∀ {xs : List α} {ys : List β},
    xs.mapM f = some ys → ys.length = xs.length
  | [], ys, h => by
      obtain rfl : [] = ys := Option.some.inj h
      rfl
  | x :: xs, ys, h => by
      obtain ⟨y, zs, -, hzs, rfl⟩ := Schema.mapM_eq_some_cons.mp h
      rw [List.length_cons, List.length_cons, length_eq_of_mapM hzs]

theorem getElem?_of_mapM {α β : Type} {f : α → Option β} : ∀ {xs : List α} {ys : List β},
    xs.mapM f = some ys → ∀ {i : Nat} {x : α}, xs[i]? = some x →
      ∃ y, ys[i]? = some y ∧ f x = some y
  | [], _, _, _, _, hx => nomatch (List.getElem?_nil.symm.trans hx)
  | x :: xs, ys, h, i, x', hx => by
      obtain ⟨y, zs, hy, hzs, rfl⟩ := Schema.mapM_eq_some_cons.mp h
      cases i with
      | zero =>
          obtain rfl := Option.some.inj hx
          exact ⟨y, rfl, hy⟩
      | succ i => exact getElem?_of_mapM hzs hx

theorem exists_of_mem_mapM {α β : Type} {f : α → Option β} : ∀ {xs : List α} {ys : List β},
    xs.mapM f = some ys → ∀ y ∈ ys, ∃ x ∈ xs, f x = some y
  | [], ys, h, y, hy => by
      obtain rfl : [] = ys := Option.some.inj h
      exact absurd hy List.not_mem_nil
  | x :: xs, ys, h, y, hy => by
      obtain ⟨z, zs, hz, hzs, rfl⟩ := Schema.mapM_eq_some_cons.mp h
      rcases List.mem_cons.mp hy with rfl | hy
      · exact ⟨x, List.mem_cons_self, hz⟩
      · obtain ⟨x', hx', hy'⟩ := exists_of_mem_mapM hzs y hy
        exact ⟨x', List.mem_cons_of_mem x hx', hy'⟩

theorem exists_of_mem_gather {f : Value → Option Outline} : ∀ {vs : List Value}
    {kinds kinds' : Dictionary Nat} {os : List Outline},
    Outline.gather f vs kinds = some (os, kinds') → ∀ o ∈ os, ∃ v ∈ vs, f v = some o
  | [], _, _, os, h, o, ho => by
      obtain rfl : [] = os := congrArg Prod.fst (Option.some.inj h)
      exact absurd ho List.not_mem_nil
  | v :: vs, kinds, kinds', os, h, o, ho => by
      rw [Outline.gather] at h
      obtain ⟨o', ho', h⟩ := Option.bind_eq_some_iff.mp h
      dsimp only at h
      split at h
      · obtain rfl : [o'] = os := congrArg Prod.fst (Option.some.inj h)
        rw [List.mem_singleton.mp ho]
        exact ⟨v, List.mem_cons_self, ho'⟩
      · obtain ⟨⟨os', k⟩, hos', h⟩ := Option.bind_eq_some_iff.mp h
        obtain rfl : o' :: os' = os := congrArg Prod.fst (Option.some.inj h)
        rcases List.mem_cons.mp ho with rfl | ho
        · exact ⟨v, List.mem_cons_self, ho'⟩
        · obtain ⟨w, hw, hwo⟩ := exists_of_mem_gather hos' o ho
          exact ⟨w, List.mem_cons_of_mem v hw, hwo⟩

/-- The first element is always derived. -/
theorem exists_head_of_gather {derive : Value → Option Outline} {v : Value} {vs : List Value}
    {kinds kinds' : Dictionary Nat} {os : List Outline}
    (h : Outline.gather derive (v :: vs) kinds = some (os, kinds')) :
    ∃ o os', os = o :: os' ∧ derive v = some o := by
  rw [Outline.gather] at h
  obtain ⟨o, ho, h⟩ := Option.bind_eq_some_iff.mp h
  dsimp only at h
  split at h
  · exact ⟨o, [], (congrArg Prod.fst (Option.some.inj h)).symm, ho⟩
  · obtain ⟨⟨os', k⟩, -, h⟩ := Option.bind_eq_some_iff.mp h
    exact ⟨o, os', (congrArg Prod.fst (Option.some.inj h)).symm, ho⟩

/-! ## The members of a content -/

namespace Content

variable {c : Content} {top : Bool} {above : Finset String} {f g : Site → Option Outline}

/-- The members are derived at their positions and nowhere else. -/
theorem outline_congr {o : Outline}
    (h : ∀ q ∈ c.sites top above, ∀ o, g q = some o → f q = some o)
    (ho : c.outline g top above = some o) : c.outline f top above = some o := by
  cases c with
  | leaf a => exact ho
  | same a v => exact h _ List.mem_cons_self o ho
  | each a members =>
      rw [Content.outline] at ho ⊢
      obtain ⟨os, hos, ho⟩ := Option.bind_eq_some_iff.mp ho
      rw [mapM_congr (fun m hm => h _ (List.mem_map_of_mem hm)) hos]
      exact ho
  | probed a elements =>
      rw [Content.outline] at ho ⊢
      obtain ⟨r, hr, ho⟩ := Option.bind_eq_some_iff.mp ho
      rw [gather_congr (fun v hv => h _ (List.mem_map_of_mem hv)) hr]
      exact ho

/-- The members have outlines, so the level has one. -/
theorem exists_outline (h : ∀ q ∈ c.sites top above, ∃ o, f q = some o) :
    ∃ o, c.outline f top above = some o := by
  cases c with
  | leaf a => exact ⟨_, rfl⟩
  | same a v => exact h _ List.mem_cons_self
  | each a members =>
      have hmembers : ∀ m ∈ members, ∃ o, f ⟨m.1, false, above, m.2⟩ = some o :=
        fun m hm => h _ (List.mem_map_of_mem hm)
      obtain ⟨os, hos⟩ := Schema.exists_mapM hmembers
      rw [Content.outline, hos]
      exact ⟨_, rfl⟩
  | probed a elements =>
      obtain ⟨r, hr⟩ := exists_gather
        (f := fun v => f ⟨{ name := "" }, false, above, v⟩)
        (fun v hv => h _ (List.mem_map_of_mem hv)) {}
      rw [Content.outline, hr]
      exact ⟨_, rfl⟩

end Content

/-! ## What comes of the members -/

/-- All that the derivation of the members of a level can give. -/
inductive Content.Gives (derive : Site → Option Outline) (a : Attributes) (shape : Shape Value)
    (top : Bool) (above : Finset String) (o : Outline) : Prop where
  | leaf (b : Attributes) (hcontent : shape.content a = .leaf b)
      (hfits : (Content.leaf b).Fits a shape) (ho : o = .leaf b)
  | same (b : Attributes) (v : Value) (hcontent : shape.content a = .same b v)
      (hfits : (Content.same b v).Fits a shape) (ho : derive ⟨b, top, above, v⟩ = some o)
  | each (os : List Outline) (hwrap : shape.isWrapper = false) (hatomic : shape.isAtomic = false)
      (hkeeps : a.KeepsType o.tree.label)
      (hdefect : o.tree.label.defect ≠ some .cyclicalReference)
      (htrees : ∀ t ∈ o.tree.children, ∃ o' ∈ os, o'.tree = t)
      (hfinished : o.finished = os.flatMap (·.finished))
      (hos : ∀ o' ∈ os, ∃ q ∈ (shape.content a).sites top above,
        q.attrs.Blank ∧ derive q = some o')

theorem gives_outline {derive : Site → Option Outline} {a : Attributes} {shape : Shape Value}
    {top : Bool} {above : Finset String} {o : Outline}
    (ho : (shape.content a).outline derive top above = some o) :
    Content.Gives derive a shape top above o := by
  have hfits := content_fits a shape
  cases hc : shape.content a with
  | leaf b =>
      rw [hc] at ho hfits
      exact .leaf b hc hfits (Option.some.inj ho).symm
  | same b v =>
      rw [hc] at ho hfits
      exact .same b v hc hfits ho
  | each b members =>
      rw [hc] at ho hfits
      obtain ⟨hwrap, hatomic, hdefect, hkeeps, hmembers⟩ := hfits
      obtain ⟨os, hos, ho⟩ := Option.bind_eq_some_iff.mp ho
      obtain rfl := Option.some.inj ho
      refine .each os hwrap hatomic hkeeps ?_ ?_ rfl fun o' ho' => ?_
      · show b.defect ≠ _
        rw [hdefect]
        exact fun h => nomatch h
      · exact fun t ht => List.mem_map.mp ht
      · obtain ⟨m, hm, hmo⟩ := exists_of_mem_mapM hos o' ho'
        rw [hc]
        exact ⟨_, List.mem_map_of_mem hm, (hmembers m hm).1, hmo⟩
  | probed b elements =>
      rw [hc] at ho hfits
      obtain ⟨hwrap, hatomic, hdefect, hkeeps, -⟩ := hfits
      obtain ⟨⟨os, kinds⟩, hos, ho⟩ := Option.bind_eq_some_iff.mp ho
      obtain rfl := Option.some.inj ho
      have hmembers : ∀ o' ∈ os, ∃ q ∈ (shape.content a).sites top above,
          q.attrs.Blank ∧ derive q = some o' := by
        intro o' ho'
        obtain ⟨v, hv, hvo⟩ := exists_of_mem_gather hos o' ho'
        rw [hc]
        exact ⟨_, List.mem_map_of_mem hv, blank_new "", hvo⟩
      by_cases hkinds : kinds.size > 1
      · refine .each os hwrap hatomic ?_ ?_ ?_ rfl hmembers
        · simp only [Outline.list, if_pos hkinds]
          exact hkeeps.trans ((Attributes.keepsType_fail b _).trans
            (Attributes.keepsType_modifyOverride _ nativeDialect (by exact fun _ => rfl)))
        · simp only [Outline.list, if_pos hkinds]
          exact fun h => nomatch h
        · simp only [Outline.list, if_pos hkinds]
          exact fun t ht => absurd ht List.not_mem_nil
      · refine .each os hwrap hatomic ?_ ?_ ?_ rfl hmembers
        · simp only [Outline.list, if_neg hkinds]
          exact hkeeps
        · simp only [Outline.list, if_neg hkinds, Rose.label, hdefect]
          exact fun h => nomatch h
        · simp only [Outline.list, if_neg hkinds]
          exact fun t ht => List.mem_map.mp (List.mem_of_mem_take ht)

end TypeOutline
