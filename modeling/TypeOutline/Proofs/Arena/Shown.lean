import TypeOutline.Proofs.Arena.Trees

/-!
# Where the trees of an arena lie

While a schema grows, the ids below a node lie above its own and the ids
below one child lie before the next child. `Shows s lo hi id t` says that
the nodes at and below `id` show the tree `t` and lie in this way between
`lo` and `hi`. The interval is the footprint of the tree: whatever is
done to the arena outside of it leaves the tree as it is (`Shows.frame`).
-/

namespace TypeOutline

namespace Schema

mutual

/-- The nodes at and below `id` show the tree, and lie between `lo` and `hi`. -/
def Shows (s : Schema) (lo hi id : Nat) : Rose Attributes → Prop
  | .node a ts =>
      lo ≤ id ∧ id < hi ∧ s.attrs id = a ∧ ShowsAll s (id + 1) hi (s.children id) ts

/-- The nodes at and below the ids show the trees, each in an interval of its own. -/
def ShowsAll (s : Schema) (lo hi : Nat) : List NodeId → List (Rose Attributes) → Prop
  | [], [] => lo ≤ hi
  | c :: cs, t :: ts => ∃ mid, Shows s lo mid c t ∧ ShowsAll s mid hi cs ts
  | _, _ => False

end

/-- The nodes of an interval say the same and have the same children. -/
def Agree (s s' : Schema) (lo hi : Nat) : Prop :=
  ∀ k, lo ≤ k → k < hi → s'.attrs k = s.attrs k ∧ s'.children k = s.children k

variable {s s' : Schema}

/-! ## Intervals -/

theorem ShowsAll.le : ∀ {ts : List (Rose Attributes)} {lo hi : Nat} {cs : List NodeId},
    ShowsAll s lo hi cs ts → lo ≤ hi
  | [], _, _, [], h => h
  | [], _, _, _ :: _, h => h.elim
  | _ :: _, _, _, [], h => h.elim
  | .node _ _ :: _, _, _, _ :: _, ⟨_, ht, hts⟩ =>
      Nat.le_trans (Nat.le_trans ht.1 (Nat.le_of_lt ht.2.1)) hts.le

theorem Shows.le {lo hi id : Nat} {t : Rose Attributes} (h : Shows s lo hi id t) :
    lo ≤ id := by
  cases t with
  | node a ts => exact h.1

theorem Shows.lt {lo hi id : Nat} {t : Rose Attributes} (h : Shows s lo hi id t) :
    id < hi := by
  cases t with
  | node a ts => exact h.2.1

theorem Shows.attrs_eq {lo hi id : Nat} {t : Rose Attributes} (h : Shows s lo hi id t) :
    s.attrs id = t.label := by
  cases t with
  | node a ts => exact h.2.2.1

theorem Shows.showsAll {lo hi id : Nat} {t : Rose Attributes} (h : Shows s lo hi id t) :
    ShowsAll s (id + 1) hi (s.children id) t.children := by
  cases t with
  | node a ts => exact h.2.2.2

mutual

theorem Shows.mono : {t : Rose Attributes} → ∀ {lo hi lo' hi' id : Nat},
    Shows s lo hi id t → lo' ≤ lo → hi ≤ hi' → Shows s lo' hi' id t
  | .node _ _, _, _, _, _, _, h, hlo, hhi =>
      ⟨Nat.le_trans hlo h.1, Nat.lt_of_lt_of_le h.2.1 hhi, h.2.2.1,
        h.2.2.2.mono (Nat.le_refl _) hhi⟩

theorem ShowsAll.mono : {ts : List (Rose Attributes)} →
    ∀ {lo hi lo' hi' : Nat} {cs : List NodeId},
    ShowsAll s lo hi cs ts → lo' ≤ lo → hi ≤ hi' → ShowsAll s lo' hi' cs ts
  | [], _, _, _, _, [], h, hlo, hhi => Nat.le_trans hlo (Nat.le_trans h hhi)
  | [], _, _, _, _, _ :: _, h, _, _ => h.elim
  | _ :: _, _, _, _, _, [], h, _, _ => h.elim
  | _ :: _, _, _, _, _, _ :: _, ⟨mid, ht, hts⟩, hlo, hhi =>
      ⟨mid, ht.mono hlo (Nat.le_refl _), hts.mono (Nat.le_refl _) hhi⟩

end

/-- One more tree behind the others. -/
theorem ShowsAll.concat {t : Rose Attributes} {c mid hi : Nat} (ht : Shows s mid hi c t) :
    ∀ {ts : List (Rose Attributes)} {lo : Nat} {cs : List NodeId},
      ShowsAll s lo mid cs ts → ShowsAll s lo hi (cs ++ [c]) (ts ++ [t])
  | [], _, [], h => ⟨hi, ht.mono h (Nat.le_refl _), Nat.le_refl _⟩
  | [], _, _ :: _, h => h.elim
  | _ :: _, _, [], h => h.elim
  | _ :: _, _, _ :: _, ⟨m, hu, hus⟩ => ⟨m, hu, hus.concat ht⟩

theorem ShowsAll.length_eq : ∀ {ts : List (Rose Attributes)} {lo hi : Nat} {cs : List NodeId},
    ShowsAll s lo hi cs ts → cs.length = ts.length
  | [], _, _, [], _ => rfl
  | [], _, _, _ :: _, h => h.elim
  | _ :: _, _, _, [], h => h.elim
  | _ :: _, _, _, _ :: _, ⟨_, _, hts⟩ => congrArg (· + 1) hts.length_eq

theorem ShowsAll.mem_bounds : ∀ {ts : List (Rose Attributes)} {lo hi : Nat} {cs : List NodeId},
    ShowsAll s lo hi cs ts → ∀ c ∈ cs, lo ≤ c ∧ c < hi
  | [], _, _, [], _, _, hc => absurd hc List.not_mem_nil
  | [], _, _, _ :: _, h, _, _ => h.elim
  | _ :: _, _, _, [], h, _, _ => h.elim
  | _ :: _, lo, hi, d :: cs, ⟨mid, ht, hts⟩, c, hc => by
      have hle := hts.le
      rcases List.mem_cons.mp hc with rfl | hc
      · exact ⟨ht.le, Nat.lt_of_lt_of_le ht.lt hle⟩
      · obtain ⟨h1, h2⟩ := hts.mem_bounds c hc
        exact ⟨Nat.le_trans (Nat.le_trans ht.le (Nat.le_of_lt ht.lt)) h1, h2⟩

/-- The first trees alone. -/
theorem ShowsAll.take : ∀ {keep cs : List NodeId} {ts : List (Rose Attributes)} {lo hi : Nat},
    ShowsAll s lo hi (keep ++ cs) ts → ShowsAll s lo hi keep (ts.take keep.length)
  | [], _, _, _, _, h => h.le
  | _ :: _, _, [], _, _, h => h.elim
  | _ :: _, _, _ :: _, _, _, ⟨mid, ht, hts⟩ => ⟨mid, ht, hts.take⟩

/-! ## Frames -/

theorem Agree.mono {lo hi lo' hi' : Nat} (h : Agree s s' lo hi) (hlo : lo ≤ lo')
    (hhi : hi' ≤ hi) : Agree s s' lo' hi' :=
  fun k h1 h2 => h k (Nat.le_trans hlo h1) (Nat.lt_of_lt_of_le h2 hhi)

theorem Agree.of_node?_eq {lo hi : Nat}
    (h : ∀ k, lo ≤ k → k < hi → s'.node? k = s.node? k) : Agree s s' lo hi :=
  fun k h1 h2 => ⟨attrs_congr (h k h1 h2), children_congr (h k h1 h2)⟩

mutual

/-- A change outside of its interval leaves a tree as it is. -/
theorem Shows.frame : {t : Rose Attributes} → ∀ {lo hi id : Nat},
    Shows s lo hi id t → Agree s s' lo hi → Shows s' lo hi id t
  | .node _ _, lo, hi, id, ⟨hlo, hhi, ha, hts⟩, hag => by
      obtain ⟨hattrs, hchildren⟩ := hag id hlo hhi
      refine ⟨hlo, hhi, hattrs.trans ha, ?_⟩
      rw [hchildren]
      exact hts.frame (hag.mono (Nat.le_succ_of_le hlo) (Nat.le_refl _))

theorem ShowsAll.frame : {ts : List (Rose Attributes)} →
    ∀ {lo hi : Nat} {cs : List NodeId},
    ShowsAll s lo hi cs ts → Agree s s' lo hi → ShowsAll s' lo hi cs ts
  | [], _, _, [], h, _ => h
  | [], _, _, _ :: _, h, _ => h.elim
  | _ :: _, _, _, [], h, _ => h.elim
  | _ :: _, lo, hi, _ :: _, ⟨mid, ht, hts⟩, hag => by
      have hmid := hts.le
      have hlo := Nat.le_trans ht.le (Nat.le_of_lt ht.lt)
      have ht' := ht.frame (hag.mono (Nat.le_refl _) hmid)
      exact ⟨mid, ht', hts.frame (hag.mono hlo (Nat.le_refl _))⟩

end

/-! ## The tree that is shown is the tree of the arena -/

mutual

theorem Shows.exists_traces : {t : Rose Attributes} → ∀ {lo hi id : Nat},
    Shows s lo hi id t →
      ∃ r, Traces s r ∧ r.label = id ∧ r.map s.attrs = t ∧ id + r.height ≤ hi
  | .node a ts, lo, hi, id, ⟨_, hhi, ha, hts⟩ => by
      obtain ⟨rs, htr, hlabels, hmap, hheight⟩ := hts.exists_traces
      refine ⟨.node id rs, ⟨hlabels.symm, htr⟩, rfl, ?_, ?_⟩
      · rw [Rose.map, ha, hmap]
      · rw [Rose.height]
        omega

theorem ShowsAll.exists_traces : {ts : List (Rose Attributes)} →
    ∀ {lo hi : Nat} {cs : List NodeId}, ShowsAll s lo hi cs ts →
      ∃ rs, TracesAll s rs ∧ rs.map Rose.label = cs ∧ Rose.mapAll s.attrs rs = ts
        ∧ lo + Rose.heightAll rs ≤ hi
  | [], _, _, [], h => ⟨[], trivial, rfl, rfl, h⟩
  | [], _, _, _ :: _, h => h.elim
  | _ :: _, _, _, [], h => h.elim
  | t :: ts, lo, hi, c :: cs, ⟨mid, ht, hts⟩ => by
      obtain ⟨r, hr, hlabel, hmap, hheight⟩ := ht.exists_traces
      obtain ⟨rs, hrs, hlabels, hmaps, hheights⟩ := hts.exists_traces
      have hlo := ht.le
      have hlt := ht.lt
      refine ⟨r :: rs, ⟨hr, hrs⟩, ?_, ?_, ?_⟩
      · rw [List.map_cons, hlabel, hlabels]
      · rw [Rose.mapAll, hmap, hmaps]
      · rw [Rose.heightAll]
        omega

end

theorem Shows.height_le {t : Rose Attributes} {lo hi id : Nat} (h : Shows s lo hi id t) :
    id + t.height ≤ hi := by
  obtain ⟨r, -, -, rfl, hheight⟩ := h.exists_traces
  rw [Rose.height_map]
  exact hheight

/-- A tree that is shown inside the arena is found, and is the tree of its node. -/
theorem Shows.subtree? {t : Rose Attributes} {lo hi id : Nat} (h : Shows s lo hi id t)
    (hhi : hi ≤ s.nodes.size) : ∃ r, s.subtree? id = some r ∧ r.map s.attrs = t := by
  obtain ⟨r, hr, rfl, hmap, hheight⟩ := h.exists_traces
  exact ⟨r, subtree?_of_traces hr (by omega), hmap⟩

theorem Shows.tree_eq {t : Rose Attributes} {lo hi id : Nat} (h : Shows s lo hi id t)
    (hhi : hi ≤ s.nodes.size) : s.tree id = t := by
  obtain ⟨r, hr, hmap⟩ := h.subtree? hhi
  rw [tree, subtree_eq hr, hmap]

end Schema

end TypeOutline
