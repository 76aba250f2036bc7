import TypeOutline.Proofs.Arena.Subtrees
import TypeOutline.Proofs.Derivation.Faithful

/-!
# What the nodes of a tree stand for

A node of the tree of a value stands for a position of the value, or for
several if wrappers stand on it (`Schema.StandsFor`). Of the members of a
list only the first stands on a node, and of the others none. Below a node
is the tree of each position that it stands for
(`StandsFor.exists_outlines`), and no node of the tree is without a
position (`exists_standsFor`).
-/

namespace TypeOutline

open Relation (TransGen)

variable {types : Types}

/-! ## One level -/

section Positions

variable {p q : Site} {l : Layer} {o : Outline} {i : Nat} {t : Rose Attributes}

/-- A wrapper has no members, or one that gives its node all that stands below it. -/
theorem wrapper_cases {depth : Nat} (ho : outline types (depth + 1) p = some o)
    (hl : p.value.layer? types = some l) (hwrap : l.isWrapper = true) :
    (p.members types = [] ∧ o.tree.children = [])
      ∨ ∃ q o', p.members types = [q] ∧ outline types depth q = some o' ∧ o'.tree = o.tree := by
  obtain ⟨l', hl', ⟨hr, rfl⟩ | ⟨name, content, hr, hcontent, rfl⟩⟩ := outline_succ_cases ho
  · obtain rfl := Option.some.inj (hl.symm.trans hl')
    refine .inl ⟨?_, rfl⟩
    by_contra hne
    obtain ⟨q, hq⟩ := List.exists_mem_of_ne_nil _ hne
    obtain ⟨name, hname⟩ := exists_enters_of_mem_members hl hq
    exact hr name hname
  · obtain rfl := Option.some.inj (hl.symm.trans hl')
    rw [members_of_enters hl hr]
    have hfits := content_fits (p.attrs.head l.shape.kind (.enters name)) l.shape
    generalize l.shape.content (p.attrs.head l.shape.kind (.enters name)) = c at hcontent hfits ⊢
    cases c with
    | leaf b =>
        obtain rfl := Option.some.inj hcontent
        exact .inl ⟨rfl, rfl⟩
    | same b v => exact .inr ⟨_, content, rfl, hcontent, rfl⟩
    | each b ms => exact absurd (hfits.1.symm.trans hwrap) Bool.false_ne_true
    | probed b elements => exact absurd (hfits.1.symm.trans hwrap) Bool.false_ne_true

/-- The children of a node are the trees of the first members of its level, if that is no
wrapper. -/
theorem exists_member_of_child (ho : Outlines types p o) (hl : p.value.layer? types = some l)
    (hwrap : l.isWrapper = false) (ht : o.tree.children[i]? = some t) :
    ∃ q o', (p.members types)[i]? = some q ∧ Outlines types q o' ∧ o'.tree = t := by
  obtain ⟨depth, ho⟩ := ho
  cases depth with
  | zero => cases ho
  | succ depth =>
      obtain ⟨l', hl', ⟨-, rfl⟩ | ⟨name, content, hr, hcontent, rfl⟩⟩ := outline_succ_cases ho
      · exact nomatch List.getElem?_nil.symm.trans ht
      · obtain rfl := Option.some.inj (hl.symm.trans hl')
        rw [members_of_enters hl hr]
        have hfits := content_fits (p.attrs.head l.shape.kind (.enters name)) l.shape
        generalize l.shape.content (p.attrs.head l.shape.kind (.enters name)) = c
          at hcontent hfits
        cases c with
        | leaf b =>
            obtain rfl := Option.some.inj hcontent
            exact nomatch List.getElem?_nil.symm.trans ht
        | same b v => exact absurd (hwrap.symm.trans hfits.1) Bool.false_ne_true
        | each b ms =>
            obtain ⟨os, hos, hcontent⟩ := Option.bind_eq_some_iff.mp hcontent
            obtain rfl := Option.some.inj hcontent
            obtain ⟨o', ho', rfl⟩ :=
              Option.map_eq_some_iff.mp ((List.getElem?_map ..).symm.trans ht)
            have hi : i < ms.length := by
              rw [← length_eq_of_mapM hos]
              exact (List.getElem?_eq_some_iff.mp ho').1
            obtain ⟨o'', ho'', hq⟩ := getElem?_of_mapM hos (List.getElem?_eq_getElem hi)
            obtain rfl := Option.some.inj (ho'.symm.trans ho'')
            refine ⟨_, o', ?_, ⟨depth, hq⟩, rfl⟩
            rw [Content.sites, List.getElem?_map, List.getElem?_eq_getElem hi]
            rfl
        | probed b elements =>
            obtain ⟨-, -, -, -, -, hne⟩ := hfits
            obtain ⟨⟨os, kinds⟩, hos, hcontent⟩ := Option.bind_eq_some_iff.mp hcontent
            obtain rfl := Option.some.inj hcontent
            obtain ⟨v, vs, rfl⟩ := List.exists_cons_of_ne_nil hne
            obtain ⟨o', os', rfl, hv⟩ := exists_head_of_gather hos
            change (Outline.list b (o' :: os') kinds).tree.children[i]? = some t at ht
            unfold Outline.list at ht
            dsimp only at ht
            split at ht
            · exact nomatch List.getElem?_nil.symm.trans ht
            · -- the one child is that of the first element
              cases i with
              | zero => exact ⟨_, o', rfl, ⟨depth, hv⟩, Option.some.inj ht⟩
              | succ i => simp [Rose.children] at ht

end Positions

/-! ## Nodes and positions -/

namespace Schema

/-- The node of the schema is the one on which the position of the value is derived. -/
inductive StandsFor (s : Schema) (types : Types) (v : Value) : NodeId → Site → Prop
  | start {c : NodeId} (hc : s.children s.root = [c]) : StandsFor s types v c (.start v)
  /-- What a wrapper wraps is on the same node. -/
  | content {k : NodeId} {p q : Site} {l : Layer} (h : StandsFor s types v k p)
      (hl : p.value.layer? types = some l) (hwrap : l.isWrapper = true)
      (hq : q ∈ p.members types) : StandsFor s types v k q
  | member {k c : NodeId} {p q : Site} {l : Layer} {i : Nat} (h : StandsFor s types v k p)
      (hl : p.value.layer? types = some l) (hwrap : l.isWrapper = false)
      (hc : (s.children k)[i]? = some c) (hq : (p.members types)[i]? = some q) :
      StandsFor s types v c q

variable {s : Schema} {v : Value} {o : Outline} {k : NodeId} {p : Site}

theorem StandsFor.exists_reaches (h : s.StandsFor types v k p) :
    ∃ path, Reaches types (.start v) path p := by
  induction h with
  | start => exact ⟨[], .start⟩
  | content _ hl _ hq ih =>
      obtain ⟨path, hpath⟩ := ih
      exact ⟨_, hpath.member hl hq⟩
  | member _ hl _ _ hq ih =>
      obtain ⟨path, hpath⟩ := ih
      exact ⟨_, hpath.member hl (List.mem_of_getElem? hq)⟩

/-- The one child of the top. -/
theorem Renders.exists_children_root (hs : s.Linked) (h : s.Renders o) :
    ∃ c, s.children s.root = [c] ∧ s.tree c = o.tree := by
  obtain ⟨r, -, hr, -⟩ := hs.exists_trees
  have hnode := (tree_eq_node hr).symm.trans h.root_eq
  injection hnode with _ hchildren
  cases hc : s.children s.root with
  | nil =>
      rw [hc] at hchildren
      cases hchildren
  | cons c cs =>
      rw [hc] at hchildren
      obtain ⟨htree, hcs⟩ := List.cons.inj hchildren
      exact ⟨c, by rw [List.map_eq_nil_iff.mp hcs], htree⟩

/-- The tree of a node is that of the position that it stands for. -/
theorem StandsFor.exists_outlines (hs : s.Linked) (hrenders : s.Renders o)
    (ho : Outlines types (.start v) o) (h : s.StandsFor types v k p) :
    TransGen s.Owns s.root k ∧ ∃ o', Outlines types p o' ∧ s.tree k = o'.tree := by
  induction h with
  | @start c hc =>
      obtain ⟨c', hc', htree⟩ := hrenders.exists_children_root hs
      obtain rfl := List.singleton_inj.mp (hc.symm.trans hc')
      refine ⟨.single ?_, o, ho, htree⟩
      rw [Owns, hc]
      exact List.mem_singleton_self c
  | content _ hl hwrap hq ih =>
      obtain ⟨hreach, o', ⟨depth, ho'⟩, htree⟩ := ih
      cases depth with
      | zero => cases ho'
      | succ depth =>
          rcases wrapper_cases ho' hl hwrap with ⟨hnil, -⟩ | ⟨q', o'', hq', ho'', heq⟩
          · rw [hnil] at hq
            exact absurd hq List.not_mem_nil
          · rw [hq'] at hq
            rw [List.mem_singleton.mp hq]
            exact ⟨hreach, o'', ⟨depth, ho''⟩, htree.trans heq.symm⟩
  | @member k c p q l i _ hl hwrap hc hq ih =>
      obtain ⟨hreach, o', ho', htree⟩ := ih
      obtain ⟨r, -, hr, -⟩ := hs.exists_trees
      obtain ⟨r', hr'⟩ := exists_subtree?_of_reaches hr hreach.to_reflTransGen
      have hchild : o'.tree.children[i]? = some (s.tree c) := by
        rw [← htree, tree_eq_node hr', Rose.children, List.getElem?_map, hc]
        rfl
      obtain ⟨q', o'', hq', ho'', heq⟩ := exists_member_of_child ho' hl hwrap hchild
      obtain rfl := Option.some.inj (hq.symm.trans hq')
      exact ⟨hreach.tail (List.mem_of_getElem? hc), o'', ho'', heq.symm⟩

/-- The children of a node that stands for a position stand for positions too: for the members of
the level below all wrappers on the node. -/
theorem StandsFor.exists_member {c : NodeId} {i : Nat} (hc : (s.children k)[i]? = some c)
    (depth : Nat) : ∀ {p : Site} {o : Outline}, s.StandsFor types v k p →
      outline types depth p = some o → o.tree.children[i]? = some (s.tree c) →
        ∃ q, s.StandsFor types v c q := by
  induction depth with
  | zero => exact fun _ ho => nomatch ho
  | succ depth ih =>
      intro p o h ho hchild
      obtain ⟨l, hl, -⟩ := outline_succ_cases ho
      cases hwrap : l.isWrapper with
      | false =>
          obtain ⟨q, -, hq, -⟩ := exists_member_of_child ⟨_, ho⟩ hl hwrap hchild
          exact ⟨q, .member h hl hwrap hc hq⟩
      | true =>
          rcases wrapper_cases ho hl hwrap with ⟨-, hnil⟩ | ⟨q, o', hq, ho', heq⟩
          · rw [hnil] at hchild
            exact nomatch List.getElem?_nil.symm.trans hchild
          · have hmem : q ∈ p.members types := by
              rw [hq]
              exact List.mem_singleton_self q
            exact ih (.content h hl hwrap hmem) ho' (by rw [heq]; exact hchild)

/-- Every node below the top stands for a position. -/
theorem exists_standsFor (hs : s.Linked) (hrenders : s.Renders o)
    (ho : Outlines types (.start v) o) (hk : TransGen s.Owns s.root k) :
    ∃ p, s.StandsFor types v k p := by
  induction hk with
  | @single k hk =>
      obtain ⟨c, hc, -⟩ := hrenders.exists_children_root hs
      rw [Owns, hc] at hk
      rw [List.mem_singleton.mp hk]
      exact ⟨_, .start hc⟩
  | @tail k c hk hkc ih =>
      obtain ⟨p, hp⟩ := ih
      obtain ⟨-, o', ⟨depth, ho'⟩, htree⟩ := hp.exists_outlines hs hrenders ho
      obtain ⟨i, hi⟩ := List.mem_iff_getElem?.mp hkc
      obtain ⟨r, -, hr, -⟩ := hs.exists_trees
      obtain ⟨r', hr'⟩ := exists_subtree?_of_reaches hr hk.to_reflTransGen
      refine hp.exists_member hi depth ho' ?_
      rw [← htree, tree_eq_node hr', Rose.children, List.getElem?_map, hi]
      rfl

end Schema

end TypeOutline
