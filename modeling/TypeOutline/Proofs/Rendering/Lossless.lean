import TypeOutline.Proofs.Rendering.Retagged
import TypeOutline.Proofs.Rendering.Segments

/-!
# Reading documents back

The simple lines of a document tell its tree: for each node, in the order
in which a tree is walked, the line tells how far down the node is, and
what is said of it. From the depths alone the tree can be built again
(`levels_append_inj`), also where siblings have one name: the next line
belongs to a child of the node, or to a node that is not further down.
-/

namespace TypeOutline

/-! ## Trees from the depths of their nodes -/

namespace Rose

variable {α β : Type}

mutual

/-- The nodes of a tree with how far down they are, each before those below it. -/
def levels (depth : Nat) : Rose α → List (Nat × α)
  | .node a ts => (depth, a) :: levelsAll (depth + 1) ts

def levelsAll (depth : Nat) : List (Rose α) → List (Nat × α)
  | [] => []
  | t :: ts => t.levels depth ++ levelsAll depth ts

end

/-- The first node is not below the nodes at the depth. -/
def Rises (depth : Nat) (xs : List (Nat × α)) : Prop := ∀ x ∈ xs.head?, x.1 ≤ depth

theorem rises_levelsAll {depth : Nat} {xs : List (Nat × α)} (hxs : Rises depth xs)
    (ts : List (Rose α)) : Rises (depth + 1) (levelsAll (depth + 1) ts ++ xs) := by
  cases ts with
  | nil => exact fun x hx => Nat.le_succ_of_le (hxs x hx)
  | cons t ts =>
      obtain ⟨a, us⟩ := t
      intro x hx
      obtain rfl := Option.some.inj hx
      exact Nat.le_refl _

mutual

/-- Where the nodes of a tree end can be told from the depth of the next one. -/
theorem levels_append_inj {depth : Nat} {xs ys : List (Nat × α)} (hxs : Rises depth xs)
    (hys : Rises depth ys) : (t u : Rose α) →
      t.levels depth ++ xs = u.levels depth ++ ys → t = u ∧ xs = ys
  | .node a ts, .node b us, h => by
      obtain ⟨hlabel, hbelow⟩ := List.cons.inj h
      obtain ⟨hchildren, hrest⟩ := levelsAll_append_inj hxs hys ts us hbelow
      rw [(Prod.mk.inj hlabel).2, hchildren]
      exact ⟨rfl, hrest⟩

theorem levelsAll_append_inj {depth : Nat} {xs ys : List (Nat × α)} (hxs : Rises depth xs)
    (hys : Rises depth ys) : (ts us : List (Rose α)) →
      levelsAll (depth + 1) ts ++ xs = levelsAll (depth + 1) us ++ ys → ts = us ∧ xs = ys
  | [], [], h => ⟨rfl, h⟩
  | [], .node b us :: _, h => by
      have h : xs = (depth + 1, b) :: _ := h
      rw [h] at hxs
      exact absurd (hxs _ rfl) (Nat.not_succ_le_self depth)
  | .node a ts :: _, [], h => by
      have h : (depth + 1, a) :: _ = ys := h
      rw [← h] at hys
      exact absurd (hys _ rfl) (Nat.not_succ_le_self depth)
  | t :: ts, u :: us, h => by
      rw [levelsAll, levelsAll, List.append_assoc, List.append_assoc] at h
      obtain ⟨htree, h⟩ :=
        levels_append_inj (rises_levelsAll hxs ts) (rises_levelsAll hys us) t u h
      obtain ⟨htrees, hrest⟩ := levelsAll_append_inj hxs hys ts us h
      rw [htree, htrees]
      exact ⟨rfl, hrest⟩

end

mutual

/-- How long a way is tells how far down its node is. -/
theorem map_ways (above : List α) : (t : Rose α) →
    (t.ways above).map (fun way => (way.length, way.getLast?)) =
      (t.levels (above.length + 1)).map fun x => (x.1, some x.2)
  | .node a ts => by
      have hbelow := map_waysAll (above ++ [a]) ts
      rw [List.length_append, List.length_singleton] at hbelow
      rw [ways, levels, List.map_cons, List.map_cons, hbelow, List.length_append,
        List.length_singleton, List.getLast?_concat]

theorem map_waysAll (above : List α) : (ts : List (Rose α)) →
    (waysAll above ts).map (fun way => (way.length, way.getLast?)) =
      (levelsAll (above.length + 1) ts).map fun x => (x.1, some x.2)
  | [] => rfl
  | t :: ts => by
      rw [waysAll, levelsAll, List.map_append, List.map_append, map_ways above t,
        map_waysAll above ts]

end

/-- A tree is what the lengths and the ends of the ways in it say. -/
theorem eq_of_map_ways {t u : Rose α}
    (h : (t.ways []).map (fun way => (way.length, way.getLast?)) =
      (u.ways []).map fun way => (way.length, way.getLast?)) : t = u := by
  rw [map_ways, map_ways] at h
  have hlevels : t.levels 1 = u.levels 1 := by
    refine List.map_injective_iff.mpr ?_ h
    rintro ⟨m, a⟩ ⟨n, b⟩ heq
    simpa using heq
  have hnil : Rises 1 ([] : List (Nat × α)) := fun x hx => nomatch hx
  refine (levels_append_inj hnil hnil t u ?_).1
  rw [hlevels]

/-! ## Ways in documents -/

mutual

theorem ways_append (above above' : List α) : (t : Rose α) →
    t.ways (above ++ above') = (t.ways above').map (above ++ ·)
  | .node a ts => by
      rw [ways, ways, List.map_cons, List.append_assoc, waysAll_append above (above' ++ [a]) ts]

theorem waysAll_append (above above' : List α) : (ts : List (Rose α)) →
    waysAll (above ++ above') ts = (waysAll above' ts).map (above ++ ·)
  | [] => rfl
  | t :: ts => by
      rw [waysAll, waysAll, List.map_append, ways_append above above' t,
        waysAll_append above above' ts]

end

mutual

/-- A way passes nodes of the tree. -/
theorem of_mem_ways {above way : List α} : (t : Rose α) → way ∈ t.ways above →
    way ≠ [] ∧ ∀ a ∈ way, a ∈ above ∨ a ∈ t.preorder
  | .node b ts, h => by
      have hshort : ∀ a ∈ above ++ [b], a ∈ above ∨ a ∈ (Rose.node b ts).preorder := by
        intro a ha
        rcases List.mem_append.mp ha with ha | ha
        · exact .inl ha
        · exact .inr (List.mem_singleton.mp ha ▸ List.mem_cons_self)
      rcases List.mem_cons.mp h with rfl | h
      · exact ⟨List.concat_ne_nil _ _, hshort⟩
      · obtain ⟨hne, hnodes⟩ := of_mem_waysAll ts h
        refine ⟨hne, fun a ha => ?_⟩
        rcases hnodes a ha with ha | ha
        · exact hshort a ha
        · exact .inr (List.mem_cons_of_mem b ha)

theorem of_mem_waysAll {above way : List α} : (ts : List (Rose α)) → way ∈ waysAll above ts →
    way ≠ [] ∧ ∀ a ∈ way, a ∈ above ∨ a ∈ preorderAll ts
  | t :: ts, h => by
      rcases List.mem_append.mp h with h | h
      · obtain ⟨hne, hnodes⟩ := of_mem_ways t h
        exact ⟨hne, fun a ha => (hnodes a ha).imp_right (List.mem_append_left _)⟩
      · obtain ⟨hne, hnodes⟩ := of_mem_waysAll ts h
        exact ⟨hne, fun a ha => (hnodes a ha).imp_right (List.mem_append_right _)⟩

end

mutual

/-- Where the children stand in order already, nothing is sorted. -/
theorem ordered_eq : (t : Rose Attributes) → t.IsOrdered → t.ordered Attributes.name = t
  | .node a ts, h => by
      obtain ⟨hnames, hts⟩ := isOrdered_node.mp h
      rw [ordered_node, orderedAll, map_ordered_eq ts hts]
      exact congrArg _ (List.mergeSort_of_pairwise (hnames.imp fun hle => decide_eq_true hle))

theorem map_ordered_eq : (ts : List (Rose Attributes)) → (∀ t ∈ ts, t.IsOrdered) →
    ts.map (ordered Attributes.name) = ts
  | [], _ => rfl
  | t :: ts, h => by
      rw [List.map_cons, ordered_eq t (h t List.mem_cons_self),
        map_ordered_eq ts fun t' ht' => h t' (List.mem_cons_of_mem t ht')]

end

mutual

/-- Where nothing refers to a type, all is shown. -/
theorem shown_eq (o : RenderOptions) : (t : Rose Attributes) →
    (∀ a ∈ t.preorder, a.isReference = false) → t.shown o = t
  | .node a ts, h => by
      have ha : Schema.expands o a = true := by
        rw [Schema.expands, h a List.mem_cons_self]
        exact Bool.or_true _
      rw [shown, if_pos ha, shownAll_eq o ts fun b hb => h b (List.mem_cons_of_mem a hb)]

theorem shownAll_eq (o : RenderOptions) : (ts : List (Rose Attributes)) →
    (∀ a ∈ preorderAll ts, a.isReference = false) → shownAll o ts = ts
  | [], _ => rfl
  | t :: ts, h => by
      rw [shownAll, shown_eq o t fun a ha => h a (List.mem_append_left _ ha),
        shownAll_eq o ts fun a ha => h a (List.mem_append_right _ ha)]

end

end Rose

/-! ## The lines of a document -/

namespace Simple

/-- The line of the node at the end of a way in a document. -/
def documentLine (o : RenderOptions) (way : List Attributes) : String :=
  "Root" ++ pathTail (way.map fun a => quoteSegment (segment o a)) (way.getLast?.bind (·.defect))

theorem toList_documentLine (o : RenderOptions) (way : List Attributes) :
    (documentLine o way).toList = "Root".toList ++ wayText o way := by
  have htail := toList_pathTail (way.map (segment o)) (way.getLast?.bind (·.defect))
  rw [List.map_map, List.map_map] at htail
  rw [documentLine, String.toList_append]
  exact congrArg _ htail

theorem wayLine?_rootTop (o : RenderOptions) {way : List Attributes} (hne : way ≠ [])
    (hway : ∀ a ∈ way, a.IsPlain) : wayLine? o (rootTop :: way) = some (documentLine o way) := by
  obtain ⟨init, a, rfl⟩ := (List.eq_nil_or_concat' way).resolve_left hne
  have hlast : (rootTop :: (init ++ [a])).getLast? = some a := by
    rw [← List.cons_append, List.getLast?_concat]
  rw [wayLine?_cons, wayTail?, hlast, Option.bind_some,
    (hway a List.mem_concat_self).isRoot_eq, if_neg Bool.false_ne_true, documentLine,
    List.getLast?_concat]
  rfl

/-- A top with nothing below it has no lines. -/
theorem linesOf_bare (o : RenderOptions) {top : Attributes} (htop : top.isRoot = true) :
    linesOf o (.node top []) = [] := by
  have hways : (Rose.node top []).shownWays o = [[top]] := by
    rw [Rose.shownWays, Rose.ordered_node, Rose.orderedAll_nil, Rose.shown, Rose.shownAll, ite_self]
    rfl
  have hnone : wayLine? o [top] = none := if_pos htop
  rw [linesOf, hways, List.filterMap_cons_none hnone, List.filterMap_nil]

/-- The lines of a document are those of the ways in its tree. -/
theorem linesOf_rootTop (o : RenderOptions) {u : Rose Attributes}
    (hplain : ∀ a ∈ u.preorder, a.IsPlain) (hordered : u.IsOrdered) :
    linesOf o (.node rootTop [u]) = (u.ways []).map (documentLine o) := by
  have htree : (Rose.node rootTop [u]).IsOrdered := by
    refine Rose.isOrdered_node.mpr ⟨List.pairwise_singleton _ _, fun t ht => ?_⟩
    rwa [List.mem_singleton.mp ht]
  have hrefs : ∀ a ∈ (Rose.node rootTop [u]).preorder, a.isReference = false := by
    intro a ha
    rcases List.mem_cons.mp ha with rfl | ha
    · decide
    · exact (hplain a (by simpa [Rose.preorderAll] using ha)).isReference_eq
  have hways : (Rose.node rootTop [u]).ways [] = [rootTop] :: (u.ways []).map (rootTop :: ·) := by
    have hbelow := u.ways_append [rootTop] []
    rw [List.append_nil] at hbelow
    rw [Rose.ways, Rose.waysAll, Rose.waysAll, List.append_nil]
    exact congrArg _ hbelow
  have htop : wayLine? o [rootTop] = none := rfl
  rw [linesOf, Rose.shownWays, Rose.ordered_eq _ htree, Rose.shown_eq o _ hrefs, hways,
    List.filterMap_cons_none htop, List.filterMap_map, ← List.filterMap_eq_map]
  refine List.filterMap_congr fun way hway => ?_
  obtain ⟨hne, hnodes⟩ := Rose.of_mem_ways u hway
  exact wayLine?_rootTop o hne fun a ha => hplain a ((hnodes a ha).resolve_left List.not_mem_nil)

end Simple

/-- What the simple lines of a document are. -/
theorem exists_lines_deriveDocument (j : Json) : ∃ u : Rose Attributes,
    (deriveDocument j).tree (deriveDocument j).root = .node rootTop [u]
      ∧ (∀ a ∈ u.preorder, a.IsPlain)
      ∧ ∀ o url, (deriveDocument j).lines .simple o url =
        (u.ways []).map (Simple.documentLine o) := by
  obtain ⟨hs, out, ho, hdocument⟩ := exists_outline_deriveDocument j
  have hlinked := linked_of_derive? hs
  refine ⟨out.tree, ho.root_eq, hdocument.plain, fun o url => ?_⟩
  have hdefinitions :
      Simple.linesOf o ((deriveDocument j).tree (deriveDocument j).typeRefs) = [] := by
    rw [ho.typeRefs_eq, hdocument.recordAll_eq]
    exact Simple.linesOf_bare o rfl
  rw [simple_lines_eq hlinked ho, Schema.listed, List.filterMap_append,
    simple_filterMap_eq hlinked (.inl rfl), ho.root_eq,
    Simple.linesOf_rootTop o hdocument.plain hdocument.ordered]
  split
  · rfl
  · rw [simple_filterMap_eq hlinked (.inr rfl), hdefinitions]
    rfl

/-! ## The main result -/

theorem map_eq_of_map_eq {α α' β γ : Type} {f : α → β} {f' : α' → β} {g : α → γ} {g' : α' → γ}
    {xs : List α} {ys : List α'} (h : xs.map f = ys.map f')
    (hg : ∀ x ∈ xs, ∀ y ∈ ys, f x = f' y → g x = g' y) : xs.map g = ys.map g' := by
  induction xs generalizing ys with
  | nil =>
      obtain rfl := List.map_eq_nil_iff.mp h.symm
      rfl
  | cons x xs ih =>
      obtain ⟨y, ys, rfl, hxy, hrest⟩ := List.map_eq_cons_iff.mp h.symm
      rw [List.map_cons, List.map_cons, hg x List.mem_cons_self y List.mem_cons_self hxy.symm,
        ih hrest.symm fun x' hx' y' hy' =>
          hg x' (List.mem_cons_of_mem x hx') y' (List.mem_cons_of_mem y hy')]

/-- The derivation of a document ends, and from its simple lines, in either
mode, the tree of its names, types and failures can be read back: documents
with the same lines have the same tree, whatever their keys are. -/
theorem document_eq_of_simple_lines {j j' : Json} {o o' : RenderOptions} {url url' : Option String}
    (h : (deriveDocument j).lines .simple o url = (deriveDocument j').lines .simple o' url') :
    derive? {} j.toValue = some (deriveDocument j)
      ∧ derive? {} j'.toValue = some (deriveDocument j')
      ∧ ((deriveDocument j).tree (deriveDocument j).root).map Attributes.summary =
        ((deriveDocument j').tree (deriveDocument j').root).map Attributes.summary := by
  obtain ⟨u, hroot, hplain, hlines⟩ := exists_lines_deriveDocument j
  obtain ⟨u', hroot', hplain', hlines'⟩ := exists_lines_deriveDocument j'
  have hways : ∀ t : Rose Attributes,
      ((t.map Attributes.summary).ways []).map (fun way => (way.length, way.getLast?)) =
        (t.ways []).map fun way => (way.length, way.getLast?.map Attributes.summary) := by
    intro t
    rw [← List.map_nil, Rose.ways_map, List.map_map]
    refine List.map_congr_left fun way _ => ?_
    rw [Function.comp_apply, List.length_map, List.getLast?_map]
  have htree : u.map Attributes.summary = u'.map Attributes.summary := by
    refine Rose.eq_of_map_ways ?_
    rw [hlines, hlines'] at h
    rw [hways, hways]
    refine map_eq_of_map_eq h fun way hway way' hway' heq => ?_
    obtain ⟨hne, hnodes⟩ := Rose.of_mem_ways u hway
    obtain ⟨hne', hnodes'⟩ := Rose.of_mem_ways u' hway'
    have htext : Simple.wayText o way = Simple.wayText o' way' := by
      have heq := congrArg String.toList heq
      rw [Simple.toList_documentLine, Simple.toList_documentLine] at heq
      exact List.append_cancel_left heq
    obtain ⟨hlength, hlast⟩ := Simple.wayText_inj
      (fun a ha => hplain a ((hnodes a ha).resolve_left List.not_mem_nil))
      (fun a ha => hplain' a ((hnodes' a ha).resolve_left List.not_mem_nil)) hne hne' htext
    rw [hlength, hlast]
  refine ⟨(exists_outline_deriveDocument j).1, (exists_outline_deriveDocument j').1, ?_⟩
  rw [hroot, hroot', Rose.map, Rose.map, Rose.mapAll, Rose.mapAll, Rose.mapAll, Rose.mapAll, htree]

/-- A document of one number under a key. -/
def keyed (key : String) (j : Json) : Json := .object [(key, j)]

/-- Numbers are not told apart, and have the same tree. A key that imitates the path to a member
does not have its line. -/
theorem document_eq_of_simple_lines_keyed :
    ((deriveDocument (keyed "a.b" (.nat 1))).lines .simple {} none =
          (deriveDocument (keyed "a.b" (.nat 2))).lines .simple {} none
        ∧ ((deriveDocument (keyed "a.b" (.nat 1))).tree
              (deriveDocument (keyed "a.b" (.nat 1))).root).map Attributes.summary =
          ((deriveDocument (keyed "a.b" (.nat 2))).tree
              (deriveDocument (keyed "a.b" (.nat 2))).root).map Attributes.summary)
      ∧ (deriveDocument (keyed "a" (keyed "b" (.nat 1)))).lines .simple {} none ≠
        (deriveDocument (keyed "a:\x7b\x7d.B" (.nat 1))).lines .simple {} none := by
  have hkeyed : ∀ key j, j ≠ .null → (keyed key j).toValue =
      .ofShape (.map .string "string" [(key, .ofShape (.slot (some j.toValue)))]) := by
    intro key j hj
    rw [keyed, Json.toValue, Json.toEntries, Json.toEntries, Json.toSlot_of_ne_null hj]
  have hnumber : ∀ n, (Json.nat n).toValue = .ofShape (.scalar .f64) := fun n => by
    rw [Json.nat, Json.toValue]
  have hlines : (deriveDocument (keyed "a.b" (.nat 1))).lines .simple {} none =
      (deriveDocument (keyed "a.b" (.nat 2))).lines .simple {} none := by
    rw [deriveDocument, deriveDocument, hkeyed _ _ Json.noConfusion, hkeyed _ _ Json.noConfusion,
      hnumber, hnumber]
  refine ⟨⟨hlines, (document_eq_of_simple_lines hlines).2.2⟩, fun h => ?_⟩
  have htree := congrArg (·.preorder.length) (document_eq_of_simple_lines h).2.2
  rw [Rose.preorder_map, Rose.preorder_map, List.length_map, List.length_map, deriveDocument,
    deriveDocument, hkeyed _ _ Json.noConfusion, hkeyed _ _ Json.noConfusion,
    hkeyed _ _ Json.noConfusion, hnumber] at htree
  revert htree
  decide +kernel

end TypeOutline
