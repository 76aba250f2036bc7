import TypeOutline.Proofs.Derivation.Likeness
import TypeOutline.Proofs.Derivation.Probing

/-!
# Values in a place

A shape with one of its values left out (`Shape.Gap`). Whatever value is
filled in, the level leads to the same members around it, or it does not
look at the value at all (`exists_content_fill`). That is clear but for
maps, whose entries are sorted: the order looks at names and keys only,
so a value ends up in one place, whatever it is.

If the outlines of two values in the gap are related, then so are those
of the levels, provided that the relation looks at nothing but what
becomes of the one member (`Outline.Congruence`).
-/

namespace TypeOutline

/-! ## Lists around one element -/

theorem exists_mapM_fill {α β : Type} {f : α → Option β} {before after : List α} {x : α}
    {ys : List β} (h : (before ++ x :: after).mapM f = some ys) :
    ∃ lower y upper, f x = some y ∧ ys = lower ++ y :: upper ∧ lower.length = before.length
      ∧ ∀ {f' : α → Option β},
      (∀ z y, f z = some y → f' z = some y) → ∀ x' y', f' x' = some y' →
        (before ++ x' :: after).mapM f' = some (lower ++ y' :: upper) := by
  rw [List.mapM_append] at h
  obtain ⟨lower, hlower, h⟩ := Option.bind_eq_some_iff.mp h
  obtain ⟨rest, hrest, h⟩ := Option.bind_eq_some_iff.mp h
  rw [List.mapM_cons] at hrest
  obtain ⟨y, hy, hrest⟩ := Option.bind_eq_some_iff.mp hrest
  obtain ⟨upper, hupper, hrest⟩ := Option.bind_eq_some_iff.mp hrest
  obtain rfl := Option.some.inj hrest
  obtain rfl := Option.some.inj h
  refine ⟨lower, y, upper, hy, rfl, length_eq_of_mapM hlower, fun {f'} hmono x' y' hx' => ?_⟩
  rw [List.mapM_append, List.mapM_cons, mapM_congr (fun z _ => hmono z) hlower, hx',
    mapM_congr (fun z _ => hmono z) hupper]
  rfl

/-- If the order does not tell the elements of a family apart, each of them ends up in one place. -/
theorem exists_mergeSort_fill {α β : Type} [Inhabited β] (le : α → α → Bool) (f : β → α)
    (hle : ∀ x y a, le (f x) a = le (f y) a ∧ le a (f x) = le a (f y)) (before after : List α) :
    ∃ before' after', ∀ x,
      (before ++ f x :: after).mergeSort le = before' ++ f x :: after' := by
  -- the place is marked, and the mark is sorted like any element that is filled in
  let marked : List (Option α) := before.map some ++ none :: after.map some
  let fill (x : β) (a : Option α) : α := a.getD (f x)
  let leMarked (a b : Option α) : Bool := le (fill default a) (fill default b)
  have hfill : ∀ x, marked.map (fill x) = before ++ f x :: after := fun x => by
    simp [marked, fill, Function.comp_def]
  have hsort : ∀ x, (before ++ f x :: after).mergeSort le =
      (marked.mergeSort leMarked).map (fill x) := fun x => by
    rw [← hfill x, ← List.map_mergeSort]
    intro a _ b _
    cases a <;> cases b <;> simp only [leMarked, fill, Option.getD_none, Option.getD_some]
    · rw [(hle x default _).1, (hle x default _).2]
    · exact ((hle x default _).1).symm
    · exact ((hle x default _).2).symm
  have hperm := List.mergeSort_perm marked leMarked
  have hmem : none ∈ marked.mergeSort leMarked := List.mem_mergeSort.mpr (by simp [marked])
  obtain ⟨lower, upper, hsplit⟩ := List.append_of_mem hmem
  rw [hsplit] at hperm
  have hrest : (lower ++ upper).Perm (before.map some ++ after.map some) :=
    (List.perm_middle.symm.trans (hperm.trans List.perm_middle)).cons_inv
  have hsome : ∀ a ∈ lower ++ upper, ∀ x, fill x a = fill default a := by
    intro a ha x
    rcases List.mem_append.mp (hrest.mem_iff.mp ha) with ha | ha
    · obtain ⟨b, -, rfl⟩ := List.mem_map.mp ha
      rfl
    · obtain ⟨b, -, rfl⟩ := List.mem_map.mp ha
      rfl
  refine ⟨lower.map (fill default), upper.map (fill default), fun x => ?_⟩
  rw [hsort, hsplit, List.map_append, List.map_cons]
  refine congrArg₂ _ ?_ (congrArg₂ _ rfl ?_)
  · exact List.map_congr_left fun a ha => hsome a (List.mem_append_left _ ha) x
  · exact List.map_congr_left fun a ha => hsome a (List.mem_append_right _ ha) x

namespace Schema

theorem exists_markRepeated_fill (m : Member) (after : List Member) : (before : List Member) →
    ∀ last : Option String, ∃ before' : List Member, ∃ m' : Member, ∃ after',
      (m'.repeated = true → last = some m.name ∨ ∃ b ∈ before, b.name = m.name) ∧ ∀ v,
        markRepeated last (before ++ { m with value := v } :: after) =
          before' ++ { m' with value := v } :: after'
  | [], last => ⟨[], { m with repeated := last == some m.name }, markRepeated (some m.name) after,
      fun h => .inl (beq_iff_eq.mp h), fun _ => rfl⟩
  | b :: before, last => by
      obtain ⟨before', m', after', hrepeated, h⟩ :=
        exists_markRepeated_fill m after before (some b.name)
      refine ⟨{ b with repeated := last == some b.name } :: before', m', after', fun hm => ?_,
        fun v => ?_⟩
      · rcases hrepeated hm with hb | ⟨b', hb', hname⟩
        · exact .inr ⟨b, List.mem_cons_self, Option.some.inj hb⟩
        · exact .inr ⟨b', List.mem_cons_of_mem b hb', hname⟩
      · rw [List.cons_append, markRepeated, h, List.cons_append]

/-- Another entry has the same name, and its key is not after the key `text`. -/
def repeatsName (before after : List (String × Value)) (text : String) : Bool :=
  (before ++ after).any fun e =>
    Text.capitalize e.1 == Text.capitalize text && decide (e.1 ≤ text)

/-- The entry of a map is the member in one place, whatever its value is. -/
theorem exists_members_fill (before after : List (String × Value)) (key : String) :
    ∃ before' : List Member, ∃ m : Member, ∃ after',
      (m.repeated = true → repeatsName before after key = true) ∧ ∀ v,
        members (before ++ (key, v) :: after) = before' ++ { m with value := v } :: after' := by
  let member (e : String × Value) : Member :=
    { name := Text.capitalize e.1, key := e.1, value := e.2 }
  obtain ⟨lower, upper, hsort⟩ := exists_mergeSort_fill Member.le
    (fun v => { member (key, default) with value := v }) (fun _ _ _ => ⟨rfl, rfl⟩)
    (before.map member) (after.map member)
  obtain ⟨before', m, after', hrepeated, h⟩ :=
    exists_markRepeated_fill (member (key, default)) upper lower none
  refine ⟨before', m, after', fun hm => ?_, fun v => ?_⟩
  · obtain ⟨b, hb, hname⟩ := (hrepeated hm).resolve_left (Option.some_ne_none _).symm
    -- the member before it is that of another entry, and sorted before it
    have hperm := List.mergeSort_perm
      (before.map member ++ { member (key, default) with value := default } :: after.map member)
      Member.le
    have hsorted := List.pairwise_mergeSort Member.le_trans Member.le_total
      (before.map member ++ { member (key, default) with value := default } :: after.map member)
    rw [hsort default] at hperm hsorted
    have hothers : (lower ++ upper).Perm (before.map member ++ after.map member) :=
      (List.perm_middle.symm.trans (hperm.trans List.perm_middle)).cons_inv
    have hle := (List.pairwise_append.mp hsorted).2.2 b hb _ List.mem_cons_self
    have hmem := hothers.mem_iff.mp (List.mem_append_left upper hb)
    rw [← List.map_append] at hmem
    obtain ⟨e, he, rfl⟩ := List.mem_map.mp hmem
    have hkey : e.1 ≤ key := by
      rcases Member.le_iff.mp hle with hlt | ⟨-, hkey⟩
      · exact absurd (hname ▸ hlt) (String.lt_irrefl _)
      · exact hkey
    exact List.any_eq_true.mpr ⟨e, he, by simpa using ⟨hname, hkey⟩⟩
  · rw [← h v, ← hsort v, members, List.map_append, List.map_cons]

end Schema

/-! ## Gaps -/

/-- A shape with one of its values left out. -/
inductive Shape.Gap where
  | element (fixed : Bool) (before after : List Value) (zero : Value)
  /-- The value that stands for an element. -/
  | element? (fixed : Bool) (elements : List Value)
  | field (before : List (Field Value)) (name : String) (exported : Bool) (tag : String)
      (after : List (Field Value))
  | entry (key : Kind) (keyType : String) (before : List (String × Value)) (text : String)
      (after : List (String × Value))
  | target (zero : Value)
  /-- The value that stands for the target of an optional. -/
  | target? (target : Option Value)
  | slot

def Shape.Gap.fill : Shape.Gap → Value → Shape Value
  | element fixed before after zero, v => .list fixed (before ++ v :: after) zero
  | element? fixed elements, v => .list fixed elements v
  | field before name exported tag after, v =>
      .record (before ++ ⟨name, exported, tag, v⟩ :: after)
  | entry key keyType before text after, v => .map key keyType (before ++ (text, v) :: after)
  | target zero, v => .pointer (some v) zero
  | target? v', v => .pointer v' v
  | slot, v => .slot (some v)

theorem Shape.Gap.kind_fill (g : Shape.Gap) (v w : Value) : (g.fill v).kind = (g.fill w).kind := by
  cases g with
  | element fixed => cases fixed <;> rfl
  | element? fixed => cases fixed <;> rfl
  | _ => rfl

/-- Whether the node of the value in the gap has failed before the value is looked at. A slot leaves
its own node to the value, and so does an optional if the node has not failed. Of the entries of
a map those fail that repeat a name. -/
def Shape.Gap.fails (failed : Bool) : Shape.Gap → Bool
  | entry _ _ before text after => Schema.repeatsName before after text
  | slot => failed
  | element .. | element? .. | field .. | target _ | target? _ => false

theorem Shape.Gap.fails_mono (g : Shape.Gap) {failed failed' : Bool}
    (h : failed = true → failed' = true) (hg : g.fails failed = true) : g.fails failed' = true := by
  cases g with
  | entry => exact hg
  | slot => exact h hg
  | element | element? | field | target | target? => exact hg

/-- A content with one of its values left out. -/
inductive Content.Gap where
  | same (a : Attributes)
  | each (a : Attributes) (before : List (Attributes × Value)) (b : Attributes)
      (after : List (Attributes × Value))
  | probed (a : Attributes) (before after : List Value)

namespace Content.Gap

def fill : Content.Gap → Value → Content
  | same a, v => .same a v
  | each a before b after, v => .each a (before ++ (b, v) :: after)
  | probed a before after, v => .probed a (before ++ v :: after)

/-- The value in the gap has a node of its own. -/
def isApart : Content.Gap → Bool
  | same _ => false
  | each .. | probed .. => true

/-- What stands on the node before the value in the gap is looked at. -/
def node : Content.Gap → Attributes
  | same a => a
  | each _ _ b _ => b
  | probed .. => { name := "" }

/-- Where the value in the gap stands. -/
def site (top : Bool) (above : Finset String) (c : Content.Gap) (v : Value) : Site :=
  ⟨c.node, !c.isApart && top, above, v⟩

/-- What is known of the node in the gap of a level, on a node that has failed or not. -/
structure Fits (g : Shape.Gap) (failed : Bool) (c : Content.Gap) : Prop where
  fails : c.node.defect.isSome = true → g.fails failed = true
  blank : c.isApart = true → c.node.native.typeRef = ""

variable {g : Shape.Gap} {failed : Bool}

theorem fits_same {a : Attributes} (h : a.defect.isSome = true → g.fails failed = true) :
    (same a).Fits g failed where
  fails := h
  blank h := nomatch h

theorem fits_each {a b : Attributes} {before after : List (Attributes × Value)} (hb : b.Blank)
    (h : b.defect.isSome = true → g.fails failed = true) :
    (each a before b after).Fits g failed where
  fails := h
  blank _ := hb.typeRef_eq

theorem fits_probed {a : Attributes} {before after : List Value} :
    (probed a before after).Fits g failed where
  fails h := nomatch h
  blank _ := rfl

end Content.Gap

open Content.Gap

theorem exists_content_fill (a : Attributes) (g : Shape.Gap) :
    (∃ c, ∀ v, (g.fill v).content a = c)
      ∨ ∃ c : Content.Gap, c.Fits g a.defect.isSome ∧ ∀ v, (g.fill v).content a = c.fill v := by
  cases g with
  | element fixed before after zero =>
      have hlength : ∀ v, (before ++ v :: after).length = before.length + after.length + 1 :=
        fun v => by rw [List.length_append, List.length_cons, Nat.add_assoc]
      have hempty : ∀ v, (before ++ v :: after).isEmpty = false := fun v => by simp
      simp only [Shape.Gap.fill, Shape.content, hlength, hempty]
      split
      · exact .inl ⟨_, fun _ => rfl⟩
      · exact .inr ⟨.probed _ before after, fits_probed, fun _ => rfl⟩
  | element? fixed elements =>
      simp only [Shape.Gap.fill, Shape.content]
      split
      · exact .inl ⟨_, fun _ => rfl⟩
      · split
        · exact .inr ⟨.each _ [] _ [],
            fits_each (blank_new "") fun h => absurd h Bool.false_ne_true, fun _ => rfl⟩
        · exact .inl ⟨_, fun _ => rfl⟩
  | field before name exported tag after =>
      have hempty : ∀ v, (before ++ (⟨name, exported, tag, v⟩ : Field Value) :: after).isEmpty =
          false := fun v => by simp
      cases exported with
      | false =>
          simp only [Shape.Gap.fill, Shape.content, hempty, List.filter_append, List.filter_cons,
            Bool.false_eq_true, if_false]
          exact .inl ⟨_, fun _ => rfl⟩
      | true =>
          have hexported : ∀ (fs gs : List (Field Value)) (f : Field Value),
              (fs ++ f :: gs).isEmpty = false := fun fs gs f => by simp
          simp only [Shape.Gap.fill, Shape.content, hempty, List.filter_append, List.filter_cons,
            if_true, hexported, List.map_append, List.map_cons]
          split
          · exact .inl ⟨_, fun _ => rfl⟩
          · refine .inr ⟨.each a _ (Schema.fieldAttributes ⟨name, true, tag, ()⟩) _,
              fits_each (blank_fieldAttributes _) fun h => ?_, fun _ => rfl⟩
            rw [defect_fieldAttributes] at h
            cases h
  | entry key keyType before text after =>
      have hempty : ∀ v, (before ++ (text, v) :: after).isEmpty = false := fun v => by simp
      simp only [Shape.Gap.fill, Shape.content, hempty]
      split
      · exact .inl ⟨_, fun _ => rfl⟩
      · split
        · exact .inl ⟨_, fun _ => rfl⟩
        · obtain ⟨before', m, after', hrepeated, hmembers⟩ :=
            Schema.exists_members_fill before after text
          simp only [Bool.false_eq_true, if_false, hmembers, List.map_append, List.map_cons]
          refine .inr ⟨.each a _ m.attributes _, fits_each (blank_memberAttributes m) fun h => ?_,
            fun _ => rfl⟩
          rw [defect_attributes] at h
          split at h
          · exact hrepeated ‹_›
          · cases h
  | target zero =>
      simp only [Shape.Gap.fill, Shape.content, Option.isNone_some, Option.getD_some]
      split
      · exact .inl ⟨_, fun _ => rfl⟩
      · rename_i hopen
        exact .inr ⟨.same _, fits_same (by exact fun h => absurd h hopen), fun _ => rfl⟩
  | target? v =>
      cases v with
      | none =>
          simp only [Shape.Gap.fill, Shape.content]
          split
          · exact .inl ⟨_, fun _ => rfl⟩
          · rename_i hopen
            exact .inr ⟨.same _, fits_same (by exact fun h => absurd h hopen), fun _ => rfl⟩
      | some v => exact .inl ⟨(Shape.pointer (some v) default).content a, fun _ => rfl⟩
  | slot => exact .inr ⟨.same _, fits_same (by exact id), fun _ => rfl⟩

/-! ## Outlines of one member that is another one -/

/-- The relation holds of a node if it holds of one of its members, and related members are counted
as one type. -/
structure Outline.Congruence (R : Outline → Outline → Prop) : Prop where
  refl : ∀ o, R o o
  typeLabel_eq : ∀ {o o'}, R o o' → o.typeLabel = o'.typeLabel
  branch : ∀ {o o'}, R o o' → ∀ a lower upper,
    R (.branch a (lower ++ o :: upper)) (.branch a (lower ++ o' :: upper))
  /-- Of a list the member may be the one that is kept. -/
  list : ∀ {o o'}, R o o' → ∀ a kinds lower upper,
    R (.list a (lower ++ o :: upper) kinds) (.list a (lower ++ o' :: upper) kinds)
  finish : ∀ {o o'}, R o o' → ∀ p p' l l', R (o.finish p l) (o'.finish p' l')

section Congruence

variable {R : Outline → Outline → Prop} (hR : Outline.Congruence R)
include hR

/-- An element that takes the place of one of its type is counted like it. -/
theorem gather_fill {derive derive' : Value → Option Outline}
    (hmono : ∀ v o, derive v = some o → derive' v = some o) {v w : Value}
    (hvw : ∀ o, derive v = some o → ∃ o', derive' w = some o' ∧ R o o') (after : List Value) :
    ∀ (before : List Value) {kinds ks : Dictionary Nat} {os : List Outline},
      Outline.gather derive (before ++ v :: after) kinds = some (os, ks) →
        Outline.gather derive' (before ++ w :: after) kinds = some (os, ks)
          ∨ ∃ lower o o' upper, R o o' ∧ os = lower ++ o :: upper
            ∧ Outline.gather derive' (before ++ w :: after) kinds = some (lower ++ o' :: upper, ks)
  | [], kinds, ks, os, h => by
      rw [List.nil_append] at h
      obtain ⟨o, ho, -⟩ := Option.bind_eq_some_iff.mp h
      obtain ⟨o', ho', hoo⟩ := hvw o ho
      refine .inr ?_
      rw [gather_cons ho] at h
      rw [List.nil_append, gather_cons ho', ← hR.typeLabel_eq hoo]
      split at h
      · obtain ⟨rfl, rfl⟩ := Prod.mk.inj (Option.some.inj h)
        rename_i hsize
        exact ⟨[], o, o', [], hoo, rfl, if_pos hsize⟩
      · rename_i hsize
        obtain ⟨⟨upper, ks'⟩, hupper, heq⟩ := Option.map_eq_some_iff.mp h
        obtain ⟨rfl, rfl⟩ := Prod.mk.inj heq
        exact ⟨[], o, o', upper, hoo, rfl, by
          rw [if_neg hsize, gather_congr (fun v _ => hmono v) hupper]
          rfl⟩
  | b :: before, kinds, ks, os, h => by
      obtain ⟨q, hq, -⟩ := Option.bind_eq_some_iff.mp h
      rw [List.cons_append, gather_cons hq] at h
      rw [List.cons_append, gather_cons (hmono b q hq)]
      split at h
      · rename_i hsize
        exact .inl (by rw [if_pos hsize]; exact h)
      · rename_i hsize
        obtain ⟨⟨os', ks'⟩, hrest, heq⟩ := Option.map_eq_some_iff.mp h
        obtain ⟨rfl, rfl⟩ := Prod.mk.inj heq
        rw [if_neg hsize]
        rcases gather_fill hmono hvw after before hrest with hsame | ⟨lower, o, o', upper, hoo, rfl,
          hother⟩
        · exact .inl (by rw [hsame]; rfl)
        · exact .inr ⟨q :: lower, o, o', upper, hoo, rfl, by rw [hother]; rfl⟩

/-- A level with another member is finished like before if the member is. A member on a node of its
own is derived to an end there, and one on the node of the level is finished with it. -/
theorem Content.Gap.exists_outline {derive derive' : Site → Option Outline}
    (hmono : ∀ p o, derive p = some o → derive' p = some o) {top : Bool} {above : Finset String}
    {v w : Value} {o : Outline} (c : Content.Gap)
    (hvw : ∀ o, derive (c.site top above v) = some o → ∃ o', derive' (c.site top above w) = some o'
      ∧ (∀ p p' l l', R (o.finish p l) (o'.finish p' l')) ∧ (c.isApart = true → R o o'))
    (ho : (c.fill v).outline derive top above = some o) :
    ∃ o', (c.fill w).outline derive' top above = some o'
      ∧ ∀ p p' l l', R (o.finish p l) (o'.finish p' l') := by
  cases c with
  | same a =>
      obtain ⟨o', ho', hfinish, -⟩ := hvw o ho
      exact ⟨o', ho', hfinish⟩
  | each a before b after =>
      obtain ⟨os, hos, ho⟩ := Option.bind_eq_some_iff.mp ho
      obtain ⟨lower, q, upper, hq, rfl, -, hfill⟩ := exists_mapM_fill hos
      obtain ⟨q', hq', -, hqq⟩ := hvw q hq
      obtain rfl := Option.some.inj ho
      have hfilled := hfill (fun m => hmono ⟨m.1, false, above, m.2⟩) (b, w) q' hq'
      refine ⟨.branch a (lower ++ q' :: upper), ?_, hR.finish (hR.branch (hqq rfl) a lower upper)⟩
      rw [Content.Gap.fill, Content.outline, hfilled]
      rfl
  | probed a before after =>
      obtain ⟨⟨os, ks⟩, hgather, ho⟩ := Option.bind_eq_some_iff.mp ho
      obtain rfl := Option.some.inj ho
      have hmember : ∀ q, derive (elementSite above v) = some q →
          ∃ q', derive' (elementSite above w) = some q' ∧ R q q' := fun q hq => by
        obtain ⟨q', hq', -, hqq⟩ := hvw q hq
        exact ⟨q', hq', hqq rfl⟩
      have helement : ∀ v o, derive (elementSite above v) = some o →
          derive' (elementSite above v) = some o := fun v => hmono _
      rcases gather_fill hR helement hmember after before hgather with
        hsame | ⟨lower, q, q', upper, hqq, rfl, hother⟩
      · refine ⟨.list a os ks, ?_, hR.finish (hR.refl _)⟩
        rw [Content.Gap.fill, Content.outline]
        change (Outline.gather (fun v => derive' (elementSite above v)) _ _).bind _ = _
        rw [hsame]
        rfl
      · refine ⟨.list a (lower ++ q' :: upper) ks, ?_, hR.finish (hR.list hqq a ks lower upper)⟩
        rw [Content.Gap.fill, Content.outline]
        change (Outline.gather (fun v => derive' (elementSite above v)) _ _).bind _ = _
        rw [hother]
        rfl

end Congruence

end TypeOutline
