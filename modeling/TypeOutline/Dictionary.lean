/-!
# Dictionaries in insertion order

A dictionary is a list of entries under distinct text keys. Writing to a key that is present
replaces its value where it stands; a new key goes to the end.
-/

namespace TypeOutline

/-- Entries under distinct text keys, in the order in which the keys were first written. -/
structure Dictionary (α : Type) where
  entries : List (String × α) := []
  nodup : (entries.map (·.1)).Nodup := by exact List.nodup_nil
deriving Repr, DecidableEq

namespace Dictionary

variable {α : Type}

def empty : Dictionary α := {}

/-- The dictionary of one entry. -/
def single (key : String) (value : α) : Dictionary α :=
  ⟨[(key, value)], List.pairwise_singleton _ _⟩

def keys (d : Dictionary α) : List String := d.entries.map (·.1)

def values (d : Dictionary α) : List α := d.entries.map (·.2)

def isEmpty (d : Dictionary α) : Bool := d.entries.isEmpty

def size (d : Dictionary α) : Nat := d.entries.length

/-- The value under a key. -/
def find? (d : Dictionary α) (key : String) : Option α := d.entries.lookup key

def contains (d : Dictionary α) (key : String) : Bool := (d.find? key).isSome

/-- Entries with the value under `key` replaced, or appended if there is none. -/
def insertIn (key : String) (value : α) : List (String × α) → List (String × α)
  | [] => [(key, value)]
  | e :: es => if e.1 = key then (key, value) :: es else e :: insertIn key value es

theorem map_fst_insertIn (key : String) (value : α) (es : List (String × α)) :
    (insertIn key value es).map (·.1) =
      if key ∈ es.map (·.1) then es.map (·.1) else es.map (·.1) ++ [key] := by
  induction es with
  | nil => rfl
  | cons e es ih =>
    by_cases h : e.1 = key
    · simp [insertIn, h]
    · simp only [insertIn, if_neg h, List.map_cons, ih, List.mem_cons]
      by_cases hm : key ∈ es.map (·.1)
      · rw [if_pos hm, if_pos (Or.inr hm)]
      · rw [if_neg hm, if_neg (not_or.mpr ⟨fun hk => h hk.symm, hm⟩)]
        rfl

theorem nodup_insertIn {es : List (String × α)} (h : (es.map (·.1)).Nodup) (key : String)
    (value : α) : ((insertIn key value es).map (·.1)).Nodup := by
  rw [map_fst_insertIn]
  split
  · exact h
  · rename_i hk
    exact List.nodup_append.mpr ⟨h, by simp, fun a ha b hb hab =>
      hk (List.mem_singleton.mp hb ▸ hab ▸ ha)⟩

/-- Write a value under a key. -/
def insert (d : Dictionary α) (key : String) (value : α) : Dictionary α :=
  ⟨insertIn key value d.entries, nodup_insertIn d.nodup key value⟩

/-- Drop the entry of a key; the others keep their order. -/
def erase (d : Dictionary α) (key : String) : Dictionary α :=
  ⟨d.entries.filter (·.1 ≠ key), d.nodup.sublist (List.filter_sublist.map _)⟩

/-- Change the value under a key; a key that is absent starts from `fresh`. -/
def update (d : Dictionary α) (key : String) (fresh : α) (f : α → α) : Dictionary α :=
  d.insert key (f ((d.find? key).getD fresh))

/-- Change every value. -/
def mapValues (d : Dictionary α) (f : α → α) : Dictionary α :=
  ⟨d.entries.map fun e => (e.1, f e.2), by simpa [Function.comp_def] using d.nodup⟩

/-- Write entries from left to right. -/
def insertAll (d : Dictionary α) (es : List (String × α)) : Dictionary α :=
  es.foldl (fun d e => d.insert e.1 e.2) d

/-- The dictionary of a list of entries, written from left to right. -/
def ofList (es : List (String × α)) : Dictionary α := empty.insertAll es

/-! ## What each operation does to a look-up -/

theorem lookup_insertIn (key : String) (value : α) (k : String) (es : List (String × α)) :
    (insertIn key value es).lookup k = if k = key then some value else es.lookup k := by
  induction es with
  | nil =>
    by_cases h : k = key
    · simp [insertIn, h]
    · simp [insertIn, h]
  | cons e es ih =>
    obtain ⟨a, b⟩ := e
    by_cases ha : a = key
    · subst ha
      by_cases h : k = a
      · simp [insertIn, h]
      · simp [insertIn, h, List.lookup_cons, beq_eq_false_iff_ne.mpr h]
    · by_cases h : k = a
      · subst h
        simp [insertIn, ha]
      · simp [insertIn, ha, List.lookup_cons, beq_eq_false_iff_ne.mpr h, ih]

theorem lookup_filter_ne (key k : String) (es : List (String × α)) :
    (es.filter (·.1 ≠ key)).lookup k = if k = key then none else es.lookup k := by
  induction es with
  | nil => simp
  | cons e es ih =>
    obtain ⟨a, b⟩ := e
    by_cases ha : a = key
    · subst ha
      rw [List.filter_cons_of_neg (by simp), ih, List.lookup_cons]
      by_cases h : k = a
      · rw [if_pos h, if_pos h]
      · rw [if_neg h, if_neg h, beq_eq_false_iff_ne.mpr h]
    · rw [List.filter_cons_of_pos (by simpa using ha), List.lookup_cons, List.lookup_cons, ih]
      by_cases h : k = a
      · subst h
        simp [ha]
      · rw [beq_eq_false_iff_ne.mpr h]

theorem lookup_map_snd {β : Type} (f : α → β) (k : String) (es : List (String × α)) :
    (es.map fun e => (e.1, f e.2)).lookup k = (es.lookup k).map f := by
  induction es with
  | nil => rfl
  | cons e es ih =>
    obtain ⟨a, b⟩ := e
    rw [List.map_cons, List.lookup_cons, List.lookup_cons, ih]
    cases k == a <;> rfl

@[simp] theorem find?_insert (d : Dictionary α) (key : String) (value : α) (k : String) :
    (d.insert key value).find? k = if k = key then some value else d.find? k :=
  lookup_insertIn key value k d.entries

@[simp] theorem find?_erase (d : Dictionary α) (key k : String) :
    (d.erase key).find? k = if k = key then none else d.find? k :=
  lookup_filter_ne key k d.entries

@[simp] theorem find?_update (d : Dictionary α) (key : String) (fresh : α) (f : α → α)
    (k : String) : (d.update key fresh f).find? k =
      if k = key then some (f ((d.find? key).getD fresh)) else d.find? k :=
  lookup_insertIn key _ k d.entries

@[simp] theorem find?_mapValues (d : Dictionary α) (f : α → α) (k : String) :
    (d.mapValues f).find? k = (d.find? k).map f :=
  lookup_map_snd f k d.entries

@[simp] theorem find?_empty (k : String) : (empty : Dictionary α).find? k = none := rfl

@[simp] theorem find?_single (key : String) (value : α) (k : String) :
    (single key value).find? k = if k = key then some value else none :=
  lookup_insertIn key value k []

theorem mem_entries_of_find? {d : Dictionary α} {key : String} {value : α}
    (h : d.find? key = some value) : (key, value) ∈ d.entries := by
  obtain ⟨es, es', he, -⟩ := List.lookup_eq_some_iff.mp h
  rw [he]
  exact List.mem_append_right es List.mem_cons_self

/-! ## The order of the keys -/

/-- Writing keeps the order of the keys; a new key is the last one. -/
theorem keys_insert (d : Dictionary α) (key : String) (value : α) :
    (d.insert key value).keys = if key ∈ d.keys then d.keys else d.keys ++ [key] :=
  map_fst_insertIn key value d.entries

theorem insertIn_of_not_mem {key : String} {es : List (String × α)} (h : key ∉ es.map (·.1))
    (value : α) : insertIn key value es = es ++ [(key, value)] := by
  induction es with
  | nil => rfl
  | cons e es ih =>
    rw [List.map_cons, List.mem_cons, not_or] at h
    rw [insertIn, if_neg (Ne.symm h.1), ih h.2, List.cons_append]

theorem find?_eq_some_of_mem {d : Dictionary α} {e : String × α} (he : e ∈ d.entries) :
    d.find? e.1 = some e.2 := by
  obtain ⟨es, es', hes⟩ := List.append_of_mem he
  refine List.lookup_eq_some_iff.mpr ⟨es, es', hes, fun f hf => ?_⟩
  have hnodup := d.nodup
  rw [hes, List.map_append, List.map_cons] at hnodup
  exact bne_iff_ne.mpr ((List.nodup_append.mp hnodup).2.2 _ (List.mem_map_of_mem hf) _
    List.mem_cons_self).symm

theorem eq_of_entries_eq : ∀ {d d' : Dictionary α}, d.entries = d'.entries → d = d'
  | ⟨_, _⟩, ⟨_, _⟩, rfl => rfl

/-- A dictionary is known by the order of its keys and by what it finds. -/
theorem eq_of_keys_eq {d d' : Dictionary α} (hkeys : d.keys = d'.keys)
    (hfind : ∀ k, d.find? k = d'.find? k) : d = d' := by
  have hmap (d : Dictionary α) :
      d.entries.map some = d.keys.map fun k => (d.find? k).map (k, ·) := by
    rw [keys, List.map_map]
    refine List.map_congr_left fun e he => ?_
    rw [Function.comp_apply, find?_eq_some_of_mem he, Option.map_some]
  have hentries : d.entries.map some = d'.entries.map some := by
    rw [hmap, hmap, hkeys]
    simp only [hfind]
  exact eq_of_entries_eq ((List.map_inj_right fun _ _ => Option.some.inj).mp hentries)

/-- Entries under new and distinct keys are put at the end as they are. -/
theorem entries_insertAll {es : List (String × α)} {d : Dictionary α}
    (h : ((d.entries ++ es).map (·.1)).Nodup) : (d.insertAll es).entries = d.entries ++ es := by
  induction es generalizing d with
  | nil => exact (List.append_nil d.entries).symm
  | cons e es ih =>
    have hkey : e.1 ∉ d.entries.map (·.1) := by
      rw [List.map_append, List.map_cons] at h
      exact fun he => (List.nodup_append.mp h).2.2 _ he _ List.mem_cons_self rfl
    have hentries : (d.insert e.1 e.2).entries = d.entries ++ [e] :=
      insertIn_of_not_mem hkey e.2
    have happend : d.entries ++ e :: es = (d.insert e.1 e.2).entries ++ es := by
      rw [hentries, List.append_assoc, List.singleton_append]
    rw [happend] at h ⊢
    exact ih h

/-- Entries under distinct keys are kept as they are. -/
theorem entries_ofList {es : List (String × α)} (h : (es.map (·.1)).Nodup) :
    (ofList es).entries = es :=
  entries_insertAll h

end Dictionary

end TypeOutline
