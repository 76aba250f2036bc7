import Mathlib.Data.List.Forall2

/-!
# Related options and lists

Two computations are compared by `Option.Rel`: one has a result exactly if
the other has one, and the results are related. Two lists are compared
place by place by `List.Forall₂`.

Of `mergeSort` three things are used. Lists that agree in what they are
sorted by are sorted alike (`forall₂_mergeSort`). The sort is stable, so
of the elements that the order does not tell apart the first stays the
first (`find?_mergeSort`). And if the order tells all elements apart, it
does not matter in which order they come (`mergeSort_eq_of_perm`).
-/

namespace TypeOutline

variable {α β γ δ : Type}

/-! ## Options -/

theorem rel_bind {r : α → β → Prop} {r' : γ → δ → Prop} {x : Option α}
    {y : Option β} {f : α → Option γ} {g : β → Option δ} (h : Option.Rel r x y)
    (hf : ∀ a b, y = some b → r a b → Option.Rel r' (f a) (g b)) :
    Option.Rel r' (x.bind f) (y.bind g) := by
  cases h with
  | some hab => exact hf _ _ rfl hab
  | none => exact .none

theorem rel_imp {r r' : α → β → Prop} {x : Option α} {y : Option β}
    (h : Option.Rel r x y) (hf : ∀ a b, r a b → r' a b) : Option.Rel r' x y := by
  cases h with
  | some hab => exact .some (hf _ _ hab)
  | none => exact .none

theorem rel_mapM {r : α → β → Prop} {r' : γ → δ → Prop} {f : α → Option γ} {g : β → Option δ}
    (hfg : ∀ a b, r a b → Option.Rel r' (f a) (g b)) : ∀ {xs : List α} {ys : List β},
      List.Forall₂ r xs ys → Option.Rel (List.Forall₂ r') (xs.mapM f) (ys.mapM g)
  | _, _, .nil => .some .nil
  | _, _, .cons h hs => by
      rw [List.mapM_cons, List.mapM_cons]
      refine rel_bind (hfg _ _ h) fun c d _ hcd => ?_
      exact rel_bind (rel_mapM hfg hs) fun cs ds _ hcds => .some (.cons hcd hcds)

theorem mapM_eq_some_iff {f : α → Option β} {xs : List α} {ys : List β} :
    xs.mapM f = some ys ↔ List.Forall₂ (fun x y => f x = some y) xs ys := by
  induction xs generalizing ys with
  | nil => cases ys <;> simp
  | cons x xs ih =>
      rw [List.mapM_cons]
      cases hx : f x with
      | none => cases ys <;> simp [hx]
      | some y =>
          cases hxs : xs.mapM f with
          | none => cases ys <;> simp [hx, ← ih, hxs]
          | some ys' => cases ys <;> simp [hx, ← ih, hxs]

/-! ## Lists -/

variable {S : α → β → Prop}

theorem forall₂_of_mem {S' : α → β → Prop} : ∀ {xs : List α} {ys : List β},
    List.Forall₂ S xs ys → (∀ x ∈ xs, ∀ y, S x y → S' x y) → List.Forall₂ S' xs ys
  | _, _, .nil, _ => .nil
  | _, _, .cons h hs, himp =>
      .cons (himp _ List.mem_cons_self _ h)
        (forall₂_of_mem hs fun x hx => himp x (List.mem_cons_of_mem _ hx))

theorem map_eq_of_forall₂ {f : α → γ} {g : β → γ} {xs : List α} {ys : List β}
    (h : List.Forall₂ S xs ys) (heq : ∀ x ∈ xs, ∀ y, S x y → f x = g y) :
    xs.map f = ys.map g := by
  rw [← List.forall₂_eq_eq_eq, List.forall₂_map_left_iff, List.forall₂_map_right_iff]
  exact forall₂_of_mem h heq

/-- Folding two lists alike, from one state, gives one result. -/
theorem foldlM_eq_of_forall₂ {f : γ → α → Option γ} {g : γ → β → Option γ}
    (hfg : ∀ c a b, S a b → f c a = g c b) : ∀ {xs : List α} {ys : List β},
      List.Forall₂ S xs ys → ∀ c, xs.foldlM f c = ys.foldlM g c
  | _, _, .nil, _ => rfl
  | _, _, .cons h hs, c => by
      rw [List.foldlM_cons, List.foldlM_cons, hfg c _ _ h]
      exact bind_congr fun c' => foldlM_eq_of_forall₂ hfg hs c'

theorem exists_mem_of_forall₂ : ∀ {xs : List α} {ys : List β}, List.Forall₂ S xs ys →
    ∀ x ∈ xs, ∃ y ∈ ys, S x y
  | _, _, .nil, _, hx => absurd hx List.not_mem_nil
  | _, _, .cons h hs, x, hx => by
      rcases List.mem_cons.mp hx with rfl | hx
      · exact ⟨_, List.mem_cons_self, h⟩
      · obtain ⟨y, hy, hxy⟩ := exists_mem_of_forall₂ hs x hx
        exact ⟨y, List.mem_cons_of_mem _ hy, hxy⟩

theorem isEmpty_eq_of_forall₂ {xs : List α} {ys : List β} (h : List.Forall₂ S xs ys) :
    xs.isEmpty = ys.isEmpty := by
  cases h <;> rfl

/-! ## Sorting -/

/-- Lists whose elements compare alike, place by place, are sorted alike. -/
theorem forall₂_mergeSort {le : α → α → Bool} {le' : β → β → Bool}
    (hS : ∀ a b a' b', S a b → S a' b' → le a a' = le' b b') {xs : List α} {ys : List β}
    (h : List.Forall₂ S xs ys) : List.Forall₂ S (xs.mergeSort le) (ys.mergeSort le') := by
  obtain ⟨hlength, hzip⟩ := List.forall₂_iff_zip.mp h
  have hxs : ((xs.zip ys).mergeSort fun p q => le p.1 q.1).map Prod.fst = xs.mergeSort le := by
    rw [List.map_mergeSort (s := le) (fun _ _ _ _ => rfl), List.map_fst_zip (Nat.le_of_eq hlength)]
  have hys : ((xs.zip ys).mergeSort fun p q => le p.1 q.1).map Prod.snd = ys.mergeSort le' := by
    rw [List.map_mergeSort (fun p hp q hq => hS _ _ _ _ (hzip hp) (hzip hq)),
      List.map_snd_zip (Nat.le_of_eq hlength.symm)]
  rw [← hxs, ← hys, List.forall₂_map_left_iff, List.forall₂_map_right_iff, List.forall₂_same]
  intro p hp
  exact hzip (List.mem_mergeSort.mp hp)

/-- Among elements that the order does not tell apart, the first stays the first. -/
theorem find?_mergeSort {le : α → α → Bool} {p : α → Bool} (xs : List α)
    (htrans : ∀ a b c, le a b → le b c → le a c) (htotal : ∀ a b, le a b || le b a)
    (hp : ∀ a b, p a → p b → le a b) : (xs.mergeSort le).find? p = xs.find? p := by
  have hsorted : (xs.filter p).Pairwise (le · ·) := by
    refine List.pairwise_of_forall_mem_list fun a ha b hb => ?_
    exact hp a b (List.mem_filter.mp ha).2 (List.mem_filter.mp hb).2
  have hsub := (List.sublist_mergeSort htrans htotal hsorted List.filter_sublist).filter p
  simp only [List.filter_filter, Bool.and_self] at hsub
  have heq := hsub.eq_of_length ((List.mergeSort_perm xs le).filter p).length_eq.symm
  rw [← List.head?_filter, ← heq, List.head?_filter]

/-- Elements that the order tells apart are sorted alike in whatever order they come. -/
theorem mergeSort_eq_of_perm {le : α → α → Bool} {xs ys : List α}
    (htrans : ∀ a b c, le a b → le b c → le a c) (htotal : ∀ a b, le a b || le b a)
    (hantisymm : ∀ a ∈ xs, ∀ b ∈ xs, le a b → le b a → a = b) (hperm : xs.Perm ys) :
    xs.mergeSort le = ys.mergeSort le := by
  have hsorted : (xs.mergeSort le).Perm (ys.mergeSort le) :=
    ((List.mergeSort_perm xs le).trans hperm).trans (List.mergeSort_perm ys le).symm
  refine List.Perm.eq_of_pairwise (fun a b ha hb => ?_) (List.pairwise_mergeSort htrans htotal xs)
    (List.pairwise_mergeSort htrans htotal ys) hsorted
  exact hantisymm a (List.mem_mergeSort.mp ha) b
    (hperm.mem_iff.mpr (List.mem_mergeSort.mp hb))

end TypeOutline
