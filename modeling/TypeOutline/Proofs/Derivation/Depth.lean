import TypeOutline.Proofs.Derivation.Members
import Mathlib.Data.Finset.Card
import Mathlib.Data.List.ProdSigma
import Mathlib.Data.List.Perm.Subperm

/-!
# How deep a derivation goes

More depth changes no outline (`outline_mono`), so the depth is only a
way to say that every way down has an end. If an outline needs exactly
`n` steps, then there is a way down of `n` positions no two of which are
alike: two alike positions would need the same depth. Positions on one
way down are told apart by a flag for a failed node, one for the top, the
value, and the number of names above, for the names only ever grow. There
are no more of these than `Value.depthBound`, so that depth is enough for
every outline that there is (`outline_depthBound`).
-/

namespace TypeOutline

variable {types : Types}

/-! ## More depth changes nothing -/

/-- An outline is found at another depth if those of the members are, one step down. -/
theorem outline_step {d e : Nat} {p : Site} {o : Outline}
    (h : ∀ q ∈ p.members types, ∀ o, outline types d q = some o → outline types e q = some o)
    (ho : outline types (d + 1) p = some o) : outline types (e + 1) p = some o := by
  obtain ⟨l, hl, ⟨hr, rfl⟩ | ⟨name, content, hr, hcontent, rfl⟩⟩ := outline_succ_cases ho
  · exact outline_of_refused hl hr e
  · rw [members_of_enters hl hr] at h
    rw [outline_of_enters hl hr, Content.outline_congr h hcontent]
    rfl

theorem outline_mono {d : Nat} : ∀ {e : Nat} {p : Site} {o : Outline},
    outline types d p = some o → d ≤ e → outline types e p = some o := by
  induction d with
  | zero => exact fun h => nomatch h
  | succ d ih =>
      intro e p o ho hle
      obtain ⟨e, rfl⟩ := Nat.exists_eq_add_of_le' (Nat.lt_of_lt_of_le (Nat.succ_pos d) hle)
      exact outline_step (fun q _ o hq => ih hq (Nat.le_of_succ_le_succ hle)) ho

theorem Outlines.unique {p : Site} {o o' : Outline} (h : Outlines types p o)
    (h' : Outlines types p o') : o = o' := by
  obtain ⟨d, hd⟩ := h
  obtain ⟨e, he⟩ := h'
  have hd' := outline_mono hd (Nat.le_max_left d e)
  have he' := outline_mono he (Nat.le_max_right d e)
  exact Option.some.inj (hd'.symm.trans he')

/-- Finitely many positions need one depth. -/
theorem exists_common_depth : ∀ {qs : List Site}, (∀ q ∈ qs, ∃ o, Outlines types q o) →
    ∃ d, ∀ q ∈ qs, ∃ o, outline types d q = some o
  | [], _ => ⟨0, fun q hq => absurd hq List.not_mem_nil⟩
  | q :: qs, h => by
      obtain ⟨o, e, he⟩ := h q List.mem_cons_self
      obtain ⟨d, hd⟩ := exists_common_depth fun q' hq' => h q' (List.mem_cons_of_mem q hq')
      refine ⟨max e d, fun q' hq' => ?_⟩
      rcases List.mem_cons.mp hq' with rfl | hq'
      · exact ⟨o, outline_mono he (Nat.le_max_left e d)⟩
      · obtain ⟨o', ho'⟩ := hd q' hq'
        exact ⟨o', outline_mono ho' (Nat.le_max_right e d)⟩

theorem exists_depth_of_forall₂ {α : Type} {site : α → Site} {xs : List α} {os : List Outline}
    (h : List.Forall₂ (fun x o => Outlines types (site x) o) xs os) :
    ∃ d, List.Forall₂ (fun x o => outline types d (site x) = some o) xs os := by
  induction h with
  | nil => exact ⟨0, .nil⟩
  | cons hx _ ih =>
      obtain ⟨e, he⟩ := hx
      obtain ⟨d, hd⟩ := ih
      refine ⟨max e d, .cons (outline_mono he (Nat.le_max_left e d)) (hd.imp fun x o ho => ?_)⟩
      exact outline_mono ho (Nat.le_max_right e d)

/-- The level of a position has an outline if its members have. -/
theorem exists_outlines {p : Site} {l : Layer} (hl : p.value.layer? types = some l)
    (h : ∀ q ∈ p.members types, ∃ o, Outlines types q o) : ∃ o, Outlines types p o := by
  by_cases hr : ∃ name, l.ruling p.top p.above = .enters name
  · obtain ⟨name, hr⟩ := hr
    obtain ⟨d, hd⟩ := exists_common_depth h
    rw [members_of_enters hl hr] at hd
    obtain ⟨o, ho⟩ := Content.exists_outline hd
    exact ⟨o.finish p l, d + 1, by rw [outline_of_enters hl hr, ho]; rfl⟩
  · exact ⟨_, 1, outline_of_refused hl (fun name hn => hr ⟨name, hn⟩) 0⟩

/-! ## What the depth depends on -/

/-- The contents have the same members and lead to the same decisions. -/
inductive Content.Alike : Content → Content → Prop where
  | leaf (a b : Attributes) : Alike (.leaf a) (.leaf b)
  | same {a b : Attributes} (h : a.defect.isSome = b.defect.isSome) (v : Value) :
      Alike (.same a v) (.same b v)
  | each (a b : Attributes) (members : List (Attributes × Value)) :
      Alike (.each a members) (.each b members)
  | probed (a b : Attributes) (elements : List Value) :
      Alike (.probed a elements) (.probed b elements)

/-- The content of a level is found from the attributes of its node only by
asking whether the node has failed. -/
theorem alike_content {a b : Attributes} (h : a.defect.isSome = b.defect.isSome)
    (shape : Shape Value) : (shape.content a).Alike (shape.content b) := by
  cases shape with
  | scalar kind => exact .leaf _ _
  | list fixed elements zero =>
      have h' : (a.modifyOptions (·.set "len" (toString elements.length))).defect.isSome =
          (b.modifyOptions (·.set "len" (toString elements.length))).defect.isSome := h
      dsimp only [Shape.content]
      rw [h']
      split
      · exact .leaf _ _
      · split
        · exact .each _ _ _
        · exact .probed _ _ _
  | record fields =>
      dsimp only [Shape.content]
      rw [h]
      split
      · exact .leaf _ _
      · split
        · exact .leaf _ _
        · split
          · exact .leaf _ _
          · exact .each _ _ _
  | map key keyType entries =>
      rw [Shape.content, Shape.content, h]
      split
      · exact .leaf _ _
      · split
        · exact .leaf _ _
        · split
          · exact .leaf _ _
          · exact .each _ _ _
  | slot target =>
      cases target with
      | none => exact .leaf _ _
      | some v => exact .same (by exact h) v
  | pointer target zero =>
      have h' : (a.modifyOptions (·.setBool "is_nil" target.isNone)).defect.isSome =
          (b.modifyOptions (·.setBool "is_nil" target.isNone)).defect.isSome := h
      dsimp only [Shape.content]
      rw [h']
      split
      · exact .leaf _ _
      · exact .same (by exact h') _
  | nil => exact .leaf _ _

/-- All of a position that decides how deep its derivation goes. -/
def Site.key (p : Site) : Bool × Bool × Finset String × Value :=
  (p.attrs.defect.isSome, p.top, p.above, p.value)

theorem isSome_outline_of_alike {f : Site → Option Outline}
    (hf : ∀ {p q : Site}, p.key = q.key → (f p).isSome = (f q).isSome) {c c' : Content}
    (h : c.Alike c') (top : Bool) (above : Finset String) :
    (c.outline f top above).isSome = (c'.outline f top above).isSome := by
  cases h with
  | leaf a b => rfl
  | @same a b hd v =>
      have hkey : (⟨a, top, above, v⟩ : Site).key = (⟨b, top, above, v⟩ : Site).key := by
        simp only [Site.key, hd]
      exact hf hkey
  | each a b members =>
      rw [Content.outline, Content.outline]
      generalize (members.mapM fun m => f ⟨m.1, false, above, m.2⟩) = os
      cases os <;> rfl
  | probed a b elements =>
      rw [Content.outline, Content.outline]
      generalize Outline.gather (fun v => f ⟨{ name := "" }, false, above, v⟩) elements {} = r
      cases r <;> rfl

theorem isSome_outline_of_key_eq {depth : Nat} : ∀ {p q : Site}, p.key = q.key →
    (outline types depth p).isSome = (outline types depth q).isSome := by
  induction depth with
  | zero => exact fun _ => rfl
  | succ depth ih =>
      intro p q hkey
      obtain ⟨a, top, above, v⟩ := p
      obtain ⟨b, top', above', v'⟩ := q
      simp only [Site.key, Prod.mk.injEq] at hkey
      obtain ⟨hdefect, rfl, rfl, rfl⟩ := hkey
      cases hl : v.layer? types with
      | none => simp only [outline, hl, Option.bind_eq_bind, Option.bind_none]
      | some l =>
          by_cases hr : ∃ name, l.ruling top above = .enters name
          case neg =>
            have hr' := fun name hn => hr ⟨name, hn⟩
            rw [outline_of_refused hl hr', outline_of_refused hl hr']
            rfl
          case pos =>
            obtain ⟨name, hr⟩ := hr
            have hhead : (a.head l.shape.kind (.enters name)).defect.isSome =
                (b.head l.shape.kind (.enters name)).defect.isSome := by
              rw [defect_head_enters, defect_head_enters]
              exact hdefect
            rw [outline_of_enters hl hr, outline_of_enters hl hr, Option.isSome_map,
              Option.isSome_map]
            exact isSome_outline_of_alike ih (alike_content hhead l.shape) top _

/-! ## A way down without two alike positions -/

/-- What tells positions on one way down apart. -/
def Site.rank (p : Site) : Bool × Bool × Nat × Value :=
  (p.attrs.defect.isSome, p.top, p.above.card, p.value)

/-- An outline that needs `n + 1` steps leads down `n + 1` positions that are all different. -/
theorem exists_chain {n : Nat} : ∀ {p : Site} {o : Outline},
    outline types (n + 1) p = some o → outline types n p = none →
      ∃ chain : List Site, chain.length = n ∧ (p :: chain).IsChain (fun p q => q ∈ p.members types)
        ∧ ((p :: chain).map Site.rank).Nodup
        ∧ ∀ q ∈ chain, p.above ⊆ q.above ∧ (outline types n q).isSome := by
  induction n with
  | zero => exact fun _ _ => ⟨[], rfl, .singleton _, List.nodup_singleton _, by simp⟩
  | succ n ih =>
      intro p o ho hnone
      obtain ⟨q, hq, o', ho', hnone'⟩ : ∃ q ∈ p.members types, ∃ o',
          outline types (n + 1) q = some o' ∧ outline types n q = none := by
        by_contra hcon
        have hstep : outline types (n + 1) p = some o := outline_step (fun q hq o' ho' => by
          cases hn : outline types n q with
          | none => exact absurd ⟨q, hq, o', ho', hn⟩ hcon
          | some o'' => rw [← ho', outline_mono hn (Nat.le_succ n)]) ho
        rw [hnone] at hstep
        cases hstep
      obtain ⟨chain, hlen, hchain, hnodup, hbelow⟩ := ih ho' hnone'
      have habove : p.above ⊆ q.above := by
        obtain ⟨l, hl, -⟩ := outline_succ_cases ho
        obtain ⟨name, hr⟩ := exists_enters_of_mem_members hl hq
        rw [members_of_enters hl hr] at hq
        rw [above_of_mem_sites hq]
        cases name with
        | none => exact Finset.Subset.refl _
        | some n => exact Finset.subset_insert n _
      have hall : ∀ r ∈ q :: chain, p.above ⊆ r.above ∧ (outline types (n + 1) r).isSome := by
        intro r hr
        rcases List.mem_cons.mp hr with rfl | hr
        · exact ⟨habove, by rw [ho']; rfl⟩
        · obtain ⟨hsub, hsome⟩ := hbelow r hr
          obtain ⟨o'', ho''⟩ := Option.isSome_iff_exists.mp hsome
          exact ⟨habove.trans hsub, by rw [outline_mono ho'' (Nat.le_succ n)]; rfl⟩
      refine ⟨q :: chain, by rw [List.length_cons, hlen], .cons_cons hq hchain, ?_, hall⟩
      -- an equal rank below would be an equal key, as the names only grow
      rw [List.map_cons]
      refine List.nodup_cons.mpr ⟨fun hmem => ?_, hnodup⟩
      obtain ⟨r, hr, hrank⟩ := List.mem_map.mp hmem
      obtain ⟨hsub, hsome⟩ := hall r hr
      simp only [Site.rank, Prod.mk.injEq] at hrank
      obtain ⟨hdefect, htop, hcard, hvalue⟩ := hrank
      have hkey : r.key = p.key := by
        rw [Site.key, Site.key, hdefect, htop, hvalue,
          Finset.eq_of_subset_of_card_le hsub (Nat.le_of_eq hcard)]
      rw [isSome_outline_of_key_eq hkey, hnone] at hsome
      cases hsome

/-! ## The bound -/

/-- The names that levels of a value over a table of types declare. -/
def declaredNames (types : Types) (v : Value) : List String :=
  (Value.written types v).filterMap fun w => (w.layer? types).bind (·.declares?)

/-- The value of a position is written down, and so are the names above. -/
structure Site.Within (types : Types) (v : Value) (p : Site) : Prop where
  value_mem : p.value ∈ Value.written types v
  above_subset : p.above ⊆ (declaredNames types v).toFinset

theorem Site.within_start (types : Types) (v : Value) : (Site.start v).Within types v where
  value_mem := Value.mem_written_self types v
  above_subset := Finset.empty_subset _

theorem Site.Within.member {v : Value} {p q : Site} (h : p.Within types v)
    (hq : q ∈ p.members types) : q.Within types v := by
  cases hl : p.value.layer? types with
  | none =>
      simp only [Site.members, hl] at hq
      exact absurd hq List.not_mem_nil
  | some l =>
      obtain ⟨hvalue, habove, -⟩ := mem_members hl hq
      have hpart := l.shape.members_subset_parts hvalue
      refine ⟨Value.mem_written_of_mem_parts h.value_mem hl hpart, ?_⟩
      rw [habove]
      cases hname : l.declares? with
      | none => exact h.above_subset
      | some n =>
          refine Finset.insert_subset (List.mem_toFinset.mpr ?_) h.above_subset
          exact List.mem_filterMap.mpr ⟨p.value, h.value_mem, by rw [hl]; exact hname⟩

theorem Site.Within.card_above_le {v : Value} {p : Site} (h : p.Within types v) :
    p.above.card ≤ (Value.written types v).length :=
  calc p.above.card
    _ ≤ (declaredNames types v).toFinset.card := Finset.card_le_card h.above_subset
    _ ≤ (declaredNames types v).length := List.toFinset_card_le _
    _ ≤ (Value.written types v).length := List.length_filterMap_le _ _

theorem within_of_isChain {v : Value} : ∀ {chain : List Site} {p : Site},
    (p :: chain).IsChain (fun p q => q ∈ p.members types) → p.Within types v →
      ∀ q ∈ p :: chain, q.Within types v
  | [], _, _, hp, q, hq => by
      rw [List.mem_singleton.mp hq]
      exact hp
  | r :: chain, p, h, hp, q, hq => by
      obtain ⟨hr, hchain⟩ := List.isChain_cons_cons.mp h
      rcases List.mem_cons.mp hq with rfl | hq
      · exact hp
      · exact within_of_isChain hchain (hp.member hr) q hq

/-- A way down without two positions of one rank is no longer than the bound. -/
theorem length_le_depthBound {v : Value} {chain : List Site}
    (hnodup : (chain.map Site.rank).Nodup) (hwithin : ∀ p ∈ chain, p.Within types v) :
    chain.length ≤ v.depthBound types := by
  have hlen := Value.length_written types v
  let ranks : List (Bool × Bool × Nat × Value) :=
    [false, true] ×ˢ [false, true]
      ×ˢ List.range ((Value.written types v).length + 1) ×ˢ Value.written types v
  have hsub : chain.map Site.rank ⊆ ranks := by
    intro r hr
    obtain ⟨p, hp, rfl⟩ := List.mem_map.mp hr
    have hbool : ∀ b : Bool, b ∈ [false, true] := by decide
    have habove := List.mem_range.mpr (Nat.lt_succ_of_le (hwithin p hp).card_above_le)
    exact List.pair_mem_product.mpr ⟨hbool _, List.pair_mem_product.mpr ⟨hbool _,
      List.pair_mem_product.mpr ⟨habove, (hwithin p hp).value_mem⟩⟩⟩
  calc chain.length
    _ = (chain.map Site.rank).length := (List.length_map _).symm
    _ ≤ ranks.length := (hnodup.subperm hsub).length_le
    _ = 2 * (2 * (((Value.written types v).length + 1) * (Value.written types v).length)) := by
        simp only [ranks, List.length_product, List.length_range]
        rfl
    _ ≤ 4 * (v.size + Value.sizeAll types.values + 1)
          * (v.size + Value.sizeAll types.values + 1) := by
        rw [hlen, ← Nat.mul_assoc, ← Nat.mul_assoc]
        exact Nat.mul_le_mul_left _ (Nat.le_succ _)

/-- Every outline that a value has is found within the bound. -/
theorem outline_depthBound {v : Value} {o : Outline} (h : Outlines types (.start v) o) :
    outline types (v.depthBound types) (.start v) = some o := by
  obtain ⟨d, hd⟩ := h
  induction d with
  | zero => cases hd
  | succ n ih =>
      cases hn : outline types n (.start v) with
      | some o' =>
          have heq := outline_mono hn (Nat.le_succ n)
          rw [hd] at heq
          exact ih (hn.trans heq.symm)
      | none =>
          obtain ⟨chain, hlen, hchain, hnodup, -⟩ := exists_chain hd hn
          have hle := length_le_depthBound hnodup
            (within_of_isChain hchain (Site.within_start types v))
          rw [List.length_cons, hlen] at hle
          exact outline_mono hd hle

end TypeOutline
