import TypeOutline.Proofs.Arena.Ownership

/-!
# The trees in an arena

`Traces s r` says that the tree of ids `r` follows the child lists of `s`
to their end. A node has at most one such tree, and `subtree?` finds it
as soon as the arena is as large as the tree is high
(`subtreeWithin?_of_traces`, `traces_of_subtreeWithin?`).

By the ownership law no id occurs twice in such a tree, given a rank that
grows from a parent to its children (`nodup_preorder`): a node met on two
ways down would have one parent, and that parent would be met on both
ways, too.
-/

namespace TypeOutline

namespace Rose

variable {α β : Type}

mutual

/-- The number of nodes on the longest way down. -/
def height : Rose α → Nat
  | node _ ts => heightAll ts + 1

def heightAll : List (Rose α) → Nat
  | [] => 0
  | t :: ts => max t.height (heightAll ts)

end

mutual

theorem height_le_length_preorder : (t : Rose α) → t.height ≤ t.preorder.length
  | node a ts => by
      rw [height, preorder, List.length_cons]
      exact Nat.succ_le_succ (heightAll_le_length_preorderAll ts)

theorem heightAll_le_length_preorderAll :
    (ts : List (Rose α)) → heightAll ts ≤ (preorderAll ts).length
  | [] => Nat.le_refl 0
  | t :: ts => by
      rw [heightAll, preorderAll, List.length_append]
      have h := height_le_length_preorder t
      have hs := heightAll_le_length_preorderAll ts
      omega

end

theorem height_le_heightAll {t : Rose α} : ∀ {ts : List (Rose α)}, t ∈ ts →
    t.height ≤ heightAll ts
  | [], h => absurd h List.not_mem_nil
  | u :: us, h => by
      rw [heightAll]
      rcases List.mem_cons.mp h with rfl | h
      · exact Nat.le_max_left ..
      · exact Nat.le_trans (height_le_heightAll h) (Nat.le_max_right ..)

theorem height_lt_of_mem {a : α} {t : Rose α} {ts : List (Rose α)} (h : t ∈ ts) :
    t.height < (node a ts).height :=
  Nat.lt_succ_of_le (height_le_heightAll h)

mutual

theorem height_map (f : α → β) : (t : Rose α) → (t.map f).height = t.height
  | node _ ts => congrArg (· + 1) (heightAll_mapAll f ts)

theorem heightAll_mapAll (f : α → β) :
    (ts : List (Rose α)) → heightAll (mapAll f ts) = heightAll ts
  | [] => rfl
  | t :: ts => by rw [mapAll, heightAll, heightAll, height_map f t, heightAll_mapAll f ts]

end

theorem mem_preorderAll {x : α} :
    {ts : List (Rose α)} → x ∈ preorderAll ts ↔ ∃ t ∈ ts, x ∈ t.preorder
  | [] => by simp [preorderAll]
  | t :: ts => by
      rw [preorderAll, List.mem_append, mem_preorderAll]
      simp

theorem label_mem_preorder (t : Rose α) : t.label ∈ t.preorder := by
  cases t with
  | node a ts => exact List.mem_cons_self

theorem mapAll_eq_map (f : α → β) : (ts : List (Rose α)) → mapAll f ts = ts.map (Rose.map f)
  | [] => rfl
  | t :: ts => by rw [mapAll, List.map_cons, mapAll_eq_map f ts]

mutual

theorem map_congr {f g : α → β} : (t : Rose α) → (∀ x ∈ t.preorder, f x = g x) → t.map f = t.map g
  | node a ts, h => by
      rw [map, map, h a List.mem_cons_self,
        mapAll_congr ts fun x hx => h x (List.mem_cons_of_mem a hx)]

theorem mapAll_congr {f g : α → β} : (ts : List (Rose α)) → (∀ x ∈ preorderAll ts, f x = g x) →
    mapAll f ts = mapAll g ts
  | [], _ => rfl
  | t :: ts, h => by
      rw [mapAll, mapAll, map_congr t fun x hx => h x (List.mem_append_left _ hx),
        mapAll_congr ts fun x hx => h x (List.mem_append_right _ hx)]

end

mutual

/-- A map after a map, if they agree with a third one on the labels. -/
theorem map_map_of_eq {γ : Type} {f : α → β} {g : β → γ} {h : α → γ} : (t : Rose α) →
    (∀ x ∈ t.preorder, g (f x) = h x) → (t.map f).map g = t.map h
  | node a ts, heq => by
      rw [map, map, map, heq a List.mem_cons_self,
        mapAll_mapAll_of_eq ts fun x hx => heq x (List.mem_cons_of_mem a hx)]

theorem mapAll_mapAll_of_eq {γ : Type} {f : α → β} {g : β → γ} {h : α → γ} :
    (ts : List (Rose α)) → (∀ x ∈ preorderAll ts, g (f x) = h x) →
      mapAll g (mapAll f ts) = mapAll h ts
  | [], _ => rfl
  | t :: ts, heq => by
      rw [mapAll, mapAll, mapAll, map_map_of_eq t fun x hx => heq x (List.mem_append_left _ hx),
        mapAll_mapAll_of_eq ts fun x hx => heq x (List.mem_append_right _ hx)]

end

@[simp] theorem label_map (f : α → β) (t : Rose α) : (t.map f).label = f t.label := by
  cases t with
  | node a ts => rfl

end Rose

namespace Schema

variable {s : Schema}

mutual

/-- The tree of ids follows the child lists to their end. -/
def Traces (s : Schema) : Rose NodeId → Prop
  | .node id rs => s.children id = rs.map Rose.label ∧ TracesAll s rs

def TracesAll (s : Schema) : List (Rose NodeId) → Prop
  | [] => True
  | r :: rs => Traces s r ∧ TracesAll s rs

end

theorem TracesAll.of_mem : {rs : List (Rose NodeId)} → TracesAll s rs → ∀ r ∈ rs, Traces s r
  | [], _, _, hm => absurd hm List.not_mem_nil
  | _ :: _, h, r, hm => by
      rcases List.mem_cons.mp hm with rfl | hm
      · exact h.1
      · exact TracesAll.of_mem h.2 r hm

/-! ## Finding the tree below a node -/

theorem mapM_eq_some_cons {α β : Type} {f : α → Option β} {x : α} {xs : List α} {ys : List β} :
    (x :: xs).mapM f = some ys ↔
      ∃ y zs, f x = some y ∧ xs.mapM f = some zs ∧ ys = y :: zs := by
  rw [List.mapM_cons]
  cases hx : f x with
  | none => simp
  | some y =>
      cases xs.mapM f with
      | none => simp
      | some zs => simp [eq_comm]

theorem exists_mapM {α β : Type} {f : α → Option β} : ∀ {xs : List α},
    (∀ x ∈ xs, ∃ y, f x = some y) → ∃ ys, xs.mapM f = some ys
  | [], _ => ⟨[], rfl⟩
  | x :: xs, h => by
      obtain ⟨y, hy⟩ := h x List.mem_cons_self
      obtain ⟨ys, hys⟩ := exists_mapM fun x' hx' => h x' (List.mem_cons_of_mem x hx')
      exact ⟨y :: ys, mapM_eq_some_cons.mpr ⟨y, ys, hy, hys, rfl⟩⟩

mutual

theorem subtreeWithin?_of_traces : {r : Rose NodeId} → Traces s r → ∀ {depth : Nat},
    r.height ≤ depth → s.subtreeWithin? depth r.label = some r
  | .node _ _, _, 0, hd => by simp [Rose.height] at hd
  | .node id rs, h, depth + 1, hd => by
      have hall := mapM_of_tracesAll h.2 (Nat.le_of_succ_le_succ hd)
      rw [← h.1] at hall
      show (do return Rose.node id (← (s.children id).mapM (s.subtreeWithin? depth))) = _
      rw [hall]
      rfl

theorem mapM_of_tracesAll : {rs : List (Rose NodeId)} → TracesAll s rs → ∀ {depth : Nat},
    Rose.heightAll rs ≤ depth → (rs.map Rose.label).mapM (s.subtreeWithin? depth) = some rs
  | [], _, _, _ => rfl
  | r :: rs, h, depth, hd => by
      rw [Rose.heightAll] at hd
      have hr := subtreeWithin?_of_traces h.1 (Nat.le_trans (Nat.le_max_left ..) hd)
      have hrs := mapM_of_tracesAll h.2 (Nat.le_trans (Nat.le_max_right ..) hd)
      exact mapM_eq_some_cons.mpr ⟨r, rs, hr, hrs, rfl⟩

end

theorem traces_of_mapM {f : NodeId → Option (Rose NodeId)}
    (hf : ∀ {id r}, f id = some r → r.label = id ∧ Traces s r) :
    ∀ {cs : List NodeId} {rs : List (Rose NodeId)}, cs.mapM f = some rs →
      cs = rs.map Rose.label ∧ TracesAll s rs
  | [], rs, h => by
      obtain rfl : [] = rs := Option.some.inj h
      exact ⟨rfl, trivial⟩
  | c :: cs, rs, h => by
      obtain ⟨r, rs', hr, hrs, rfl⟩ := mapM_eq_some_cons.mp h
      obtain ⟨hlabel, htr⟩ := hf hr
      obtain ⟨hcs, hall⟩ := traces_of_mapM hf hrs
      exact ⟨by rw [List.map_cons, hlabel, ← hcs], htr, hall⟩

/-- A tree that was found follows the child lists to their end. -/
theorem traces_of_subtreeWithin? : ∀ {depth : Nat} {id : NodeId} {r : Rose NodeId},
    s.subtreeWithin? depth id = some r → r.label = id ∧ Traces s r
  | 0, _, _, h => nomatch h
  | depth + 1, id, r, h => by
      rw [subtreeWithin?] at h
      cases hm : (s.children id).mapM (s.subtreeWithin? depth) with
      | none => rw [hm] at h; cases h
      | some rs =>
          rw [hm] at h
          obtain rfl : .node id rs = r := Option.some.inj h
          obtain ⟨hcs, hall⟩ := traces_of_mapM traces_of_subtreeWithin? hm
          exact ⟨rfl, hcs, hall⟩

theorem heightAll_le_of_mapM {f : NodeId → Option (Rose NodeId)} {depth : Nat}
    (hf : ∀ {id r}, f id = some r → r.height ≤ depth) :
    ∀ {cs : List NodeId} {rs : List (Rose NodeId)}, cs.mapM f = some rs →
      Rose.heightAll rs ≤ depth
  | [], rs, h => by
      obtain rfl : [] = rs := Option.some.inj h
      exact Nat.zero_le depth
  | c :: cs, rs, h => by
      obtain ⟨r, rs', hr, hrs, rfl⟩ := mapM_eq_some_cons.mp h
      exact Nat.max_le.mpr ⟨hf hr, heightAll_le_of_mapM hf hrs⟩

theorem height_le_of_subtreeWithin? : ∀ {depth : Nat} {id : NodeId} {r : Rose NodeId},
    s.subtreeWithin? depth id = some r → r.height ≤ depth
  | 0, _, _, h => nomatch h
  | depth + 1, id, r, h => by
      rw [subtreeWithin?] at h
      obtain ⟨rs, hm, h⟩ := Option.bind_eq_some_iff.mp h
      obtain rfl : .node id rs = r := Option.some.inj h
      exact Nat.succ_le_succ (heightAll_le_of_mapM height_le_of_subtreeWithin? hm)

/-- A node has one tree at most. -/
theorem Traces.unique {q r : Rose NodeId} (hq : Traces s q) (hr : Traces s r)
    (hlabel : q.label = r.label) : q = r := by
  have hq' := subtreeWithin?_of_traces hq (Nat.le_max_left q.height r.height)
  have hr' := subtreeWithin?_of_traces hr (Nat.le_max_right q.height r.height)
  rw [hlabel, hr'] at hq'
  exact (Option.some.inj hq').symm

theorem traces_of_subtree? {id : NodeId} {r : Rose NodeId} (h : s.subtree? id = some r) :
    r.label = id ∧ Traces s r :=
  traces_of_subtreeWithin? h

/-- The tree of a node is found if it is no higher than the arena is large. -/
theorem subtree?_of_traces {r : Rose NodeId} (h : Traces s r)
    (hheight : r.height ≤ s.nodes.size + 1) : s.subtree? r.label = some r :=
  subtreeWithin?_of_traces h hheight

theorem subtree_eq {id : NodeId} {r : Rose NodeId} (h : s.subtree? id = some r) :
    s.subtree id = r := by
  rw [subtree, h]
  rfl

/-! ## No id occurs twice -/

theorem children_subset_of_traces : {r : Rose NodeId} → Traces s r →
    ∀ {p c : NodeId}, p ∈ r.preorder → c ∈ s.children p → c ∈ r.preorder
  | .node id rs, h, p, c, hp, hc => by
      rw [Rose.preorder] at hp ⊢
      refine List.mem_cons_of_mem _ (Rose.mem_preorderAll.mpr ?_)
      rcases List.mem_cons.mp hp with rfl | hp
      · rw [h.1] at hc
        obtain ⟨r, hr, rfl⟩ := List.mem_map.mp hc
        exact ⟨r, hr, r.label_mem_preorder⟩
      · obtain ⟨r, hr, hpr⟩ := Rose.mem_preorderAll.mp hp
        exact ⟨r, hr, children_subset_of_traces (h.2.of_mem r hr) hpr hc⟩

/-- Every id of a tree but the top stands in the child list of another. -/
theorem exists_parent_of_traces : {r : Rose NodeId} → Traces s r → ∀ {x : NodeId},
    x ∈ r.preorder → x = r.label ∨ ∃ p ∈ r.preorder, x ∈ s.children p
  | .node id rs, h, x, hx => by
      rw [Rose.preorder] at hx ⊢
      rcases List.mem_cons.mp hx with rfl | hx
      · exact .inl rfl
      · obtain ⟨r, hr, hxr⟩ := Rose.mem_preorderAll.mp hx
        right
        rcases exists_parent_of_traces (h.2.of_mem r hr) hxr with rfl | ⟨p, hp, hxp⟩
        · refine ⟨id, List.mem_cons_self, ?_⟩
          rw [h.1]
          exact List.mem_map_of_mem hr
        · exact ⟨p, List.mem_cons_of_mem _ (Rose.mem_preorderAll.mpr ⟨r, hr, hp⟩), hxp⟩

/-- Along a rank that grows from parents to children, the top is lowest. -/
theorem rank_le_of_traces {rank : NodeId → Nat} : {r : Rose NodeId} → Traces s r →
    (∀ p ∈ r.preorder, ∀ c ∈ s.children p, rank p < rank c) →
    ∀ {x : NodeId}, x ∈ r.preorder → rank r.label ≤ rank x
  | .node id rs, h, hrank, x, hx => by
      rw [Rose.preorder] at hx hrank
      rcases List.mem_cons.mp hx with rfl | hx
      · exact Nat.le_refl _
      · obtain ⟨r, hr, hxr⟩ := Rose.mem_preorderAll.mp hx
        have hchild : r.label ∈ s.children id := by
          rw [h.1]
          exact List.mem_map_of_mem hr
        have hlt := hrank id List.mem_cons_self _ hchild
        have hle := rank_le_of_traces (h.2.of_mem r hr) (fun p hp => hrank p
          (List.mem_cons_of_mem _ (Rose.mem_preorderAll.mpr ⟨r, hr, hp⟩))) hxr
        exact Nat.le_trans (Nat.le_of_lt hlt) hle

/-- Two trees share no id if their tops do not stand in each other: a shared
id has one parent, which is shared, too. -/
theorem disjoint_of_traces (hs : s.Linked) {rank : NodeId → Nat} {q r : Rose NodeId}
    (hq : Traces s q) (hr : Traces s r)
    (hrank : ∀ p ∈ q.preorder, ∀ c ∈ s.children p, rank p < rank c)
    (hqr : q.label ∉ r.preorder) (hrq : r.label ∉ q.preorder) :
    ∀ x ∈ q.preorder, x ∉ r.preorder := by
  have key : ∀ n x, rank x ≤ n → x ∈ q.preorder → x ∉ r.preorder := by
    intro n
    induction n with
    | zero =>
        intro x hx hxq hxr
        rcases exists_parent_of_traces hq hxq with rfl | ⟨p, hp, hxp⟩
        · exact hqr hxr
        · have := hrank p hp x hxp
          omega
    | succ n ih =>
        intro x hx hxq hxr
        rcases exists_parent_of_traces hq hxq with rfl | ⟨p, hp, hxp⟩
        · exact hqr hxr
        · rcases exists_parent_of_traces hr hxr with rfl | ⟨p', hp', hxp'⟩
          · exact hrq hxq
          · have hpp : p = p' := hs.parent_unique hxp hxp'
            subst hpp
            have := hrank p hp x hxp
            exact ih p (by omega) hp hp'
  exact fun x => key (rank x) x (Nat.le_refl _)

mutual

/-- No id occurs twice in a tree of an arena that keeps the ownership law. -/
theorem nodup_preorder (hs : s.Linked) {rank : NodeId → Nat} : {r : Rose NodeId} → Traces s r →
    (∀ p ∈ r.preorder, ∀ c ∈ s.children p, rank p < rank c) → r.preorder.Nodup
  | .node id rs, h, hrank => by
      rw [Rose.preorder] at hrank ⊢
      have hchild : ∀ r ∈ rs, r.label ∈ s.children id := fun r hr => by
        rw [h.1]
        exact List.mem_map_of_mem hr
      have hbelow : ∀ x ∈ Rose.preorderAll rs, rank id < rank x := fun x hx => by
        obtain ⟨r, hr, hxr⟩ := Rose.mem_preorderAll.mp hx
        have hlt := hrank id List.mem_cons_self _ (hchild r hr)
        exact Nat.lt_of_lt_of_le hlt (rank_le_of_traces (h.2.of_mem r hr) (fun p hp => hrank p
          (List.mem_cons_of_mem _ (Rose.mem_preorderAll.mpr ⟨r, hr, hp⟩))) hxr)
      refine List.nodup_cons.mpr ⟨fun hid => Nat.lt_irrefl _ (hbelow id hid), ?_⟩
      refine nodup_preorderAll hs h.2 hchild ?_ hbelow
        fun p hp => hrank p (List.mem_cons_of_mem _ hp)
      rw [← h.1]
      exact hs.nodup_children id

theorem nodup_preorderAll (hs : s.Linked) {rank : NodeId → Nat} {id : NodeId} :
    {rs : List (Rose NodeId)} → TracesAll s rs → (∀ r ∈ rs, r.label ∈ s.children id) →
    (rs.map Rose.label).Nodup → (∀ x ∈ Rose.preorderAll rs, rank id < rank x) →
    (∀ p ∈ Rose.preorderAll rs, ∀ c ∈ s.children p, rank p < rank c) →
    (Rose.preorderAll rs).Nodup
  | [], _, _, _, _, _ => List.nodup_nil
  | r :: rs, h, hchild, hnodup, hbelow, hrank => by
      rw [Rose.preorderAll] at hbelow hrank ⊢
      rw [List.map_cons, List.nodup_cons] at hnodup
      have hin : ∀ {q}, q ∈ rs → ∀ x ∈ q.preorder, x ∈ Rose.preorderAll rs :=
        fun hq x hx => Rose.mem_preorderAll.mpr ⟨_, hq, hx⟩
      -- a sibling is not below another one: its parent would be, and `id` is below none
      have hapart : ∀ {q q' : Rose NodeId}, q ∈ r :: rs → q' ∈ r :: rs → q.label ≠ q'.label →
          (∀ x ∈ q'.preorder, rank id < rank x) → q.label ∉ q'.preorder := by
        intro q q' hq hq' hne hlow hm
        have hall : TracesAll s (r :: rs) := h
        have htr : Traces s q' := TracesAll.of_mem hall q' hq'
        rcases exists_parent_of_traces htr hm with heq | ⟨p, hp, hqp⟩
        · exact hne heq
        · have hid : p = id := hs.parent_unique hqp (hchild q hq)
          exact Nat.lt_irrefl _ (hid ▸ hlow p hp)
      refine List.nodup_append.mpr ⟨?_, ?_, ?_⟩
      · exact nodup_preorder hs h.1 fun p hp => hrank p (List.mem_append_left _ hp)
      · exact nodup_preorderAll hs h.2 (fun q hq => hchild q (List.mem_cons_of_mem _ hq))
          hnodup.2 (fun x hx => hbelow x (List.mem_append_right _ hx))
          fun p hp => hrank p (List.mem_append_right _ hp)
      · intro x hx y hy hxy
        subst hxy
        obtain ⟨q, hq, hxq⟩ := Rose.mem_preorderAll.mp hy
        have hne : r.label ≠ q.label := fun heq =>
          hnodup.1 (heq ▸ List.mem_map_of_mem hq)
        have hmem := List.mem_cons_of_mem r hq
        exact disjoint_of_traces hs h.1 (h.2.of_mem q hq)
          (fun p hp => hrank p (List.mem_append_left _ hp))
          (hapart List.mem_cons_self hmem hne
            fun x hx => hbelow x (List.mem_append_right _ (hin hq x hx)))
          (hapart hmem List.mem_cons_self (Ne.symm hne)
            fun x hx => hbelow x (List.mem_append_left _ hx))
          x hx hxq

end

end Schema

end TypeOutline
