/-!
# Names on a path

How often each declared name occurs on the way from the top of a value to one of its positions. The
counts are kept in the order of the names, so two records with the same counts are equal.
-/

namespace TypeOutline

structure Names where
  counts : List (String × Nat) := []
  sorted : counts.Pairwise (·.1 < ·.1) := by exact .nil
deriving Repr, DecidableEq

namespace Names

/-- One more occurrence of a name. -/
def addIn (name : String) : List (String × Nat) → List (String × Nat)
  | [] => [(name, 1)]
  | e :: es =>
    if name = e.1 then (e.1, e.2 + 1) :: es
    else if name < e.1 then (name, 1) :: e :: es
    else e :: addIn name es

theorem mem_addIn {name : String} {e : String × Nat} {es : List (String × Nat)}
    (h : e ∈ addIn name es) : e.1 = name ∨ ∃ o ∈ es, o.1 = e.1 := by
  induction es with
  | nil => exact .inl (by rw [List.mem_singleton.mp h])
  | cons o es ih =>
    rw [addIn] at h
    split at h
    · rename_i ho
      rcases List.mem_cons.mp h with rfl | h
      · exact .inl ho.symm
      · exact .inr ⟨e, List.mem_cons_of_mem _ h, rfl⟩
    · split at h
      · rcases List.mem_cons.mp h with rfl | h
        · exact .inl rfl
        · exact .inr ⟨e, h, rfl⟩
      · rcases List.mem_cons.mp h with rfl | h
        · exact .inr ⟨e, List.mem_cons_self, rfl⟩
        · rcases ih h with h | ⟨o', ho', he⟩
          · exact .inl h
          · exact .inr ⟨o', List.mem_cons_of_mem _ ho', he⟩

theorem pairwise_addIn (name : String) {es : List (String × Nat)}
    (h : es.Pairwise (·.1 < ·.1)) : (addIn name es).Pairwise (·.1 < ·.1) := by
  induction es with
  | nil => exact List.pairwise_singleton _ _
  | cons e es ih =>
    obtain ⟨he, hes⟩ := List.pairwise_cons.mp h
    rw [addIn]
    split
    · exact List.pairwise_cons.mpr ⟨he, hes⟩
    · rename_i hne
      split
      · rename_i hlt
        refine List.pairwise_cons.mpr ⟨fun o ho => ?_, h⟩
        rcases List.mem_cons.mp ho with rfl | ho
        · exact hlt
        · exact String.lt_trans hlt (he o ho)
      · rename_i hle
        refine List.pairwise_cons.mpr ⟨fun o ho => ?_, ih hes⟩
        rcases mem_addIn ho with ho | ⟨o', ho', heq⟩
        · rw [ho]
          exact Std.lt_of_le_of_ne hle (Ne.symm hne)
        · rw [← heq]
          exact he o' ho'

def add (ns : Names) (name : String) : Names :=
  ⟨addIn name ns.counts, pairwise_addIn name ns.sorted⟩

def count (ns : Names) (name : String) : Nat := (ns.counts.lookup name).getD 0

def contains (ns : Names) (name : String) : Bool := 0 < ns.count name

/-- The number of different names. -/
def size (ns : Names) : Nat := ns.counts.length

def isEmpty (ns : Names) : Bool := ns.counts.isEmpty

/-! ## What adding a name does to the counts -/

theorem lookup_eq_none_of_lt {name : String} {es : List (String × Nat)}
    (h : ∀ e ∈ es, name < e.1) : es.lookup name = none := by
  rw [List.lookup_eq_none_iff]
  intro e he
  exact bne_iff_ne.mpr fun hn => String.lt_irrefl _ (hn ▸ h e he : name < name)

theorem lookup_addIn (name k : String) {es : List (String × Nat)} (h : es.Pairwise (·.1 < ·.1)) :
    (addIn name es).lookup k =
      if k = name then some ((es.lookup name).getD 0 + 1) else es.lookup k := by
  induction es with
  | nil =>
    rw [addIn, List.lookup_cons]
    by_cases hk : k = name
    · simp [hk]
    · simp [hk, beq_eq_false_iff_ne.mpr hk]
  | cons e es ih =>
    obtain ⟨a, n⟩ := e
    obtain ⟨he, hes⟩ := List.pairwise_cons.mp h
    rw [addIn]
    by_cases ha : name = a
    · subst ha
      by_cases hk : k = name
      · simp [hk]
      · simp [hk, List.lookup_cons, beq_eq_false_iff_ne.mpr hk]
    · rw [if_neg ha]
      split
      · rename_i hlt
        have hnone : ((a, n) :: es).lookup name = none :=
          lookup_eq_none_of_lt fun o ho => by
            rcases List.mem_cons.mp ho with rfl | ho
            · exact hlt
            · exact String.lt_trans hlt (he o ho)
        rw [hnone, List.lookup_cons]
        by_cases hk : k = name
        · simp [hk]
        · simp [hk, beq_eq_false_iff_ne.mpr hk]
      · rw [List.lookup_cons, ih hes, List.lookup_cons, List.lookup_cons,
          beq_eq_false_iff_ne.mpr ha]
        by_cases hk : k = a
        · subst hk
          simp [Ne.symm ha]
        · rw [beq_eq_false_iff_ne.mpr hk]

@[simp] theorem count_add (ns : Names) (name k : String) :
    (ns.add name).count k = if k = name then ns.count name + 1 else ns.count k := by
  rw [count, add, lookup_addIn name k ns.sorted]
  split <;> rfl

@[simp] theorem contains_add (ns : Names) (name k : String) :
    (ns.add name).contains k = (k == name || ns.contains k) := by
  by_cases h : k = name
  · simp [contains, h]
  · simp [contains, h]

end Names

end TypeOutline
