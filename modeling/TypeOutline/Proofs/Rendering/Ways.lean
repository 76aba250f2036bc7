import TypeOutline.Proofs.Rendering.Lines

/-!
# The ways to the nodes of a tree

A path renderer shows a node by the nodes on the way down to it. The ways
to the nodes that are listed are those of the tree that is shown
(`map_way_shown`), so the lines are a function of that tree: the line of
each node is made of its way alone (`Simple.line?_eq`).

A node that a dialect hides takes all below it with it. What is left is
what has no hidden node on its way (`shown_eq_filter`).
-/

namespace TypeOutline

open Relation (ReflTransGen TransGen)

namespace Rose

variable {α β : Type}

mutual

/-- The ways down to the nodes of a tree, each before those below it. -/
def ways (above : List α) : Rose α → List (List α)
  | .node a ts => (above ++ [a]) :: waysAll (above ++ [a]) ts

def waysAll (above : List α) : List (Rose α) → List (List α)
  | [] => []
  | t :: ts => t.ways above ++ waysAll above ts

end

mutual

theorem ways_map (f : α → β) (above : List α) :
    (t : Rose α) → (t.map f).ways (above.map f) = (t.ways above).map (·.map f)
  | .node a ts => by
      have hbelow := waysAll_map f (above ++ [a]) ts
      rw [List.map_append, List.map_singleton] at hbelow
      rw [map, ways, ways, hbelow, List.map_cons, List.map_append, List.map_singleton]

theorem waysAll_map (f : α → β) (above : List α) : (ts : List (Rose α)) →
    waysAll (above.map f) (mapAll f ts) = (waysAll above ts).map (·.map f)
  | [] => rfl
  | t :: ts => by
      rw [mapAll, waysAll, waysAll, ways_map f above t, waysAll_map f above ts, List.map_append]

end

end Rose

/-! ## Lines from ways -/

/-- What follows the name of the top in a line. -/
def pathTail (below : List String) (defect : Option Defect) : String :=
  String.join (below.map ("." ++ ·)) ++ defect.elim "" fun d => " ERROR:" ++ d.message

theorem pathLine_cons (top : String) (below : List String) (defect : Option Defect) :
    pathLine (top :: below) defect = top ++ pathTail below defect := by
  have hjoin : ∀ (below : List String) (top : String),
      ".".intercalate (top :: below) = top ++ String.join (below.map ("." ++ ·)) := by
    intro below
    induction below with
    | nil => simp
    | cons b below ih =>
        intro top
        rw [String.intercalate_cons_cons, ih, List.map_cons, String.join_cons, String.append_assoc,
          String.append_assoc]
  rw [pathLine, hjoin, pathTail, String.append_assoc]

theorem pathLine_cons_ne_empty {top : String} (h : top ≠ "") (below : List String)
    (defect : Option Defect) : pathLine (top :: below) defect ≠ "" := by
  rw [pathLine_cons]
  intro heq
  exact h (String.append_eq_empty_iff.mp heq).1

namespace Simple

/-- The path of a way: the name of the top, and a segment for each node below it. -/
def wayPath (o : RenderOptions) : List Attributes → List String
  | [] => []
  | top :: below => top.name :: below.map fun a => quoteSegment (segment o a)

/-- The line of the node at the end of a way. -/
def wayLine? (o : RenderOptions) (way : List Attributes) : Option String :=
  way.getLast?.bind fun a =>
    if a.isRoot then none else some (pathLine (wayPath o way) a.defect)

end Simple

namespace Schema

variable {s : Schema} {top k c : NodeId} {o : RenderOptions}

/-- Below the top a way passes nodes that stand below it. -/
theorem exists_of_mem_way (hs : s.Linked) (hlt : top < s.nodes.size) (htop : s.parent? top = none)
    (hk : ReflTransGen s.Owns top k) : ∃ below, s.way k = s.attrs top :: below
      ∧ ∀ a ∈ below, ∃ j, TransGen s.Owns top j ∧ s.attrs j = a := by
  induction hk with
  | refl => exact ⟨[], way_top hs hlt htop, fun a ha => absurd ha List.not_mem_nil⟩
  | @tail k c hk hc ih =>
      obtain ⟨below, hway, hbelow⟩ := ih
      refine ⟨below ++ [s.attrs c], ?_, fun a ha => ?_⟩
      · rw [way_child hs hlt htop hk hc, hway, List.cons_append]
      · rcases List.mem_append.mp ha with ha | ha
        · exact hbelow a ha
        · exact ⟨c, .tail' hk hc, (List.mem_singleton.mp ha).symm⟩

theorem getLast?_way (hs : s.Linked) (hlt : top < s.nodes.size) (htop : s.parent? top = none)
    (hk : ReflTransGen s.Owns top k) : (s.way k).getLast? = some (s.attrs k) := by
  cases hk with
  | refl => rw [way_top hs hlt htop]; rfl
  | tail hk hc => rw [way_child hs hlt htop hk hc, List.getLast?_concat]

/-- The simple line of a node is that of its way. -/
theorem simple_line?_eq (hs : s.Linked) (hlt : top < s.nodes.size) (htop : s.parent? top = none)
    (hk : ReflTransGen s.Owns top k) : Simple.line? s o k = Simple.wayLine? o (s.way k) := by
  rw [Simple.wayLine?, getLast?_way hs hlt htop hk]
  rfl

mutual

theorem map_way_of_hangs (hs : s.Linked) (hlt : top < s.nodes.size)
    (htop : s.parent? top = none) : (t : Rose NodeId) → Hangs s t → ∀ {above : List Attributes},
    ReflTransGen s.Owns top t.label → s.way t.label = above ++ [s.attrs t.label] →
      (s.shown o (fun _ => false) t).map s.way = ((t.map s.attrs).shown o).ways above
  | .node id ts, h, above, hreach, hway => by
      have hway : s.way id = above ++ [s.attrs id] := hway
      rw [shown, if_neg Bool.false_ne_true, Rose.map, Rose.shown, Rose.ways, List.map_cons, ← hway]
      split
      · rw [map_way_of_hangsAll hs hlt htop ts h hreach]
      · rfl

theorem map_way_of_hangsAll (hs : s.Linked) (hlt : top < s.nodes.size)
    (htop : s.parent? top = none) {p : NodeId} : (ts : List (Rose NodeId)) → HangsAll s p ts →
    ReflTransGen s.Owns top p →
      (s.shownAll o (fun _ => false) ts).map s.way =
        Rose.waysAll (s.way p) (Rose.shownAll o (Rose.mapAll s.attrs ts))
  | [], _, _ => rfl
  | t :: ts, h, hp => by
      rw [shownAll, Rose.mapAll, Rose.shownAll, Rose.waysAll, List.map_append,
        map_way_of_hangs hs hlt htop t h.2.1 (hp.tail h.1) (way_child hs hlt htop hp h.1),
        map_way_of_hangsAll hs hlt htop ts h.2.2 hp]

end

/-- The ways to the nodes that the simple dialect lists are those of the tree that is shown. -/
theorem map_way_shown (hs : s.Linked) (hlt : top < s.nodes.size) (htop : s.parent? top = none) :
    (Simple.shown s o top).map s.way = (s.shownTree o top).ways [] := by
  obtain ⟨hhangs, hlabel⟩ := hangs_orderedSubtree hs hlt htop .refl
  rw [Simple.shown, shownTree, ← map_attrs_orderedSubtree]
  refine map_way_of_hangs hs hlt htop _ hhangs ?_ ?_
  · rw [hlabel]
  · rw [hlabel, way_top hs hlt htop]
    rfl

/-! ## Hidden nodes -/

/-- The node and all nodes above it are on the way to it. -/
theorem mem_way (hs : s.Linked) (hlt : top < s.nodes.size) (htop : s.parent? top = none)
    {j : NodeId} (hj : ReflTransGen s.Owns top j) (hk : ReflTransGen s.Owns j k) :
    s.attrs j ∈ s.way k := by
  induction hk with
  | refl => exact List.mem_of_getLast? (getLast?_way hs hlt htop hj)
  | tail hk hc ih =>
      rw [way_child hs hlt htop (hj.trans hk) hc]
      exact List.mem_append_left _ ih

mutual

theorem reaches_of_mem_shown {hidden : Attributes → Bool} : (t : Rose NodeId) → Hangs s t →
    k ∈ s.shown o hidden t → ReflTransGen s.Owns t.label k
  | .node id ts, h, hk => by
      rw [shown] at hk
      split at hk
      · exact absurd hk List.not_mem_nil
      · rcases List.mem_cons.mp hk with rfl | hk
        · exact .refl
        · split at hk
          · exact reaches_of_mem_shownAll ts h hk
          · exact absurd hk List.not_mem_nil

theorem reaches_of_mem_shownAll {hidden : Attributes → Bool} {p : NodeId} :
    (ts : List (Rose NodeId)) → HangsAll s p ts → k ∈ s.shownAll o hidden ts →
      ReflTransGen s.Owns p k
  | [], _, hk => absurd hk List.not_mem_nil
  | t :: ts, h, hk => by
      rcases List.mem_append.mp hk with hk | hk
      · exact .head h.1 (reaches_of_mem_shown t h.2.1 hk)
      · exact reaches_of_mem_shownAll ts h.2.2 hk

end

/-- No node on the way to the node is hidden. -/
def clear (s : Schema) (hidden : Attributes → Bool) (k : NodeId) : Bool :=
  (s.way k).all (!hidden ·)

mutual

theorem shown_eq_filter (hs : s.Linked) (hlt : top < s.nodes.size) (htop : s.parent? top = none)
    {hidden : Attributes → Bool} : (t : Rose NodeId) → Hangs s t → ∀ {above : List Attributes},
    ReflTransGen s.Owns top t.label → s.way t.label = above ++ [s.attrs t.label] →
    above.all (!hidden ·) = true →
      s.shown o hidden t = (s.shown o (fun _ => false) t).filter (s.clear hidden)
  | .node id ts, h, above, hreach, hway, habove => by
      have hway : s.way id = above ++ [s.attrs id] := hway
      have hreach : ReflTransGen s.Owns top id := hreach
      by_cases hid : hidden (s.attrs id) = true
      · have hnone : ∀ k ∈ s.shown o (fun _ => false) (.node id ts), ¬ s.clear hidden k = true := by
          intro k hk hclear
          have hmem := mem_way hs hlt htop hreach (reaches_of_mem_shown _ h hk)
          have hnot := List.all_eq_true.mp hclear _ hmem
          rw [hid] at hnot
          exact absurd hnot (by decide)
        rw [List.filter_eq_nil_iff.mpr hnone, shown, if_pos hid]
      · have hclear : s.clear hidden id = true := by
          rw [clear, hway, List.all_append, habove]
          simpa using hid
        rw [shown, shown, if_neg hid, if_neg Bool.false_ne_true, List.filter_cons_of_pos hclear]
        split
        · rw [shownAll_eq_filter hs hlt htop ts h hreach hclear]
        · rfl

theorem shownAll_eq_filter (hs : s.Linked) (hlt : top < s.nodes.size)
    (htop : s.parent? top = none) {hidden : Attributes → Bool} {p : NodeId} :
    (ts : List (Rose NodeId)) → HangsAll s p ts → ReflTransGen s.Owns top p →
    s.clear hidden p = true →
      s.shownAll o hidden ts = (s.shownAll o (fun _ => false) ts).filter (s.clear hidden)
  | [], _, _, _ => rfl
  | t :: ts, h, hp, hclear => by
      rw [shownAll, shownAll, List.filter_append,
        shown_eq_filter hs hlt htop t h.2.1 (hp.tail h.1) (way_child hs hlt htop hp h.1) hclear,
        shownAll_eq_filter hs hlt htop ts h.2.2 hp hclear]

end

/-- What is listed with some nodes hidden is what is listed with none hidden, without the nodes
that are hidden or below a hidden one. -/
theorem shown_orderedSubtree_eq_filter (hs : s.Linked) (hlt : top < s.nodes.size)
    (htop : s.parent? top = none) (hidden : Attributes → Bool) :
    s.shown o hidden (s.orderedSubtree top) =
      (s.shown o (fun _ => false) (s.orderedSubtree top)).filter (s.clear hidden) := by
  obtain ⟨hhangs, hlabel⟩ := hangs_orderedSubtree hs hlt htop .refl
  have hway : s.way (s.orderedSubtree top).label =
      [] ++ [s.attrs (s.orderedSubtree top).label] := by
    rw [hlabel, way_top hs hlt htop, List.nil_append]
  refine shown_eq_filter hs hlt htop _ hhangs ?_ hway rfl
  rw [hlabel]

end Schema

end TypeOutline
