import Mathlib.Data.List.Nodup
import TypeOutline.Override

/-!
# Tags that are applied in turn

Applying tags to a block is a merge in which the last word wins. An option
goes into a block by one of two ways, but both write its value under its
key (`addOption_eq`): an option without a value is a flag, so the way that
drops a key is never taken. So the options of all tags, one after the
other, are a run of writes; what it leaves under a key is the last value
written there (`get?_foldl_addOption`), and a second run writes the same
values in the same places (`foldl_addOption_idem`).
-/

namespace TypeOutline

variable {b : Override} {o : OptionSet} {es : List (String × String)} {tags : List Tag}

/-! ## The last word -/

/-- The value of the last of some options under a key. -/
def lastValue? (es : List (String × String)) (key : String) : Option String :=
  es.reverse.lookup key

/-- The last name that is not empty among the names of some tags. -/
def lastName? (tags : List Tag) : Option String :=
  (tags.map (·.name)).reverse.find? (· ≠ "")

theorem lastValue?_cons (e : String × String) (es : List (String × String)) (key : String) :
    lastValue? (e :: es) key = (lastValue? es key).or (if key = e.1 then some e.2 else none) := by
  rw [lastValue?, List.reverse_cons, List.lookup_append, List.lookup_cons, List.lookup_nil]
  by_cases h : key = e.1
  · rw [if_pos h, beq_iff_eq.mpr h]
    rfl
  · rw [if_neg h, beq_eq_false_iff_ne.mpr h]
    rfl

theorem lastValue?_eq_none_iff {key : String} :
    lastValue? es key = none ↔ ∀ e ∈ es, e.1 ≠ key := by
  rw [lastValue?, List.lookup_eq_none_iff]
  simp only [List.mem_reverse, bne_iff_ne, ne_comm]

theorem lastName?_cons (t : Tag) (tags : List Tag) :
    lastName? (t :: tags) = (lastName? tags).or (if t.name = "" then none else some t.name) := by
  rw [lastName?, List.map_cons, List.reverse_cons, List.find?_append, List.find?_singleton]
  by_cases h : t.name = "" <;> simp [lastName?, h]

/-! ## Options -/

namespace OptionSet

/-- The keys of an option set, in the order in which they were first written. -/
def keys (o : OptionSet) : List String := o.entries.keys

/-- The texts of an option set are sorted, and there is one for each key. -/
structure ListsKeys (o : OptionSet) : Prop where
  nodup : o.keys.Nodup
  sorted : o.toSortedList.Pairwise (· ≤ ·)
  texts : o.toSortedList.Perm (o.keys.map fun key => text (key, (o.get? key).getD ""))

theorem listsKeys (o : OptionSet) : o.ListsKeys where
  nodup := o.entries.nodup
  sorted := by
    refine (List.pairwise_mergeSort (fun x y z hxy hyz => ?_) (fun x y => ?_) _).imp
      fun hle => of_decide_eq_true hle
    · exact decide_eq_true (String.le_trans (of_decide_eq_true hxy) (of_decide_eq_true hyz))
    · simpa using String.le_total x y
  texts := by
    have hmap : (o.keys.map fun key => text (key, (o.get? key).getD "")) =
        o.entries.entries.map text := by
      rw [keys, Dictionary.keys, List.map_map]
      refine List.map_congr_left fun e he => ?_
      rw [Function.comp_apply, get?, Dictionary.find?_eq_some_of_mem he, Option.getD_some]
    rw [hmap]
    exact List.mergeSort_perm _ _

end OptionSet

namespace Override

open OptionSet

/-- An option with a key is written, be it a flag or not; one without a key is passed over. -/
theorem addOption_eq (o : OptionSet) (e : String × String) :
    addOption o e = if e.1 = "" then o else ⟨o.entries.insert e.1 e.2⟩ := by
  rw [addOption, addFlag, OptionSet.set]
  by_cases hvalue : e.2 = ""
  · rw [if_pos hvalue, hvalue]
  · rw [if_neg hvalue, if_neg hvalue]

theorem get?_addOption (o : OptionSet) (e : String × String) (key : String) :
    (addOption o e).get? key = if key = e.1 ∧ key ≠ "" then some e.2 else o.get? key := by
  rw [addOption_eq]
  by_cases hempty : e.1 = ""
  · rw [if_pos hempty, if_neg fun h => h.2 (h.1.trans hempty)]
  · rw [if_neg hempty, get?, Dictionary.find?_insert]
    by_cases hkey : key = e.1
    · rw [if_pos hkey, if_pos ⟨hkey, hkey ▸ hempty⟩]
    · rw [if_neg hkey, if_neg fun h => hkey h.1, get?]

theorem mem_keys_addOption {e : String × String} {key : String} :
    key ∈ (addOption o e).keys ↔ key ∈ o.keys ∨ (key = e.1 ∧ key ≠ "") := by
  rw [addOption_eq]
  by_cases hempty : e.1 = ""
  · rw [if_pos hempty]
    exact ⟨.inl, fun h => h.elim id fun h => absurd (h.1.trans hempty) h.2⟩
  · rw [if_neg hempty, OptionSet.keys, Dictionary.keys_insert]
    split <;> grind [OptionSet.keys]

/-- An option whose key is there already leaves the keys and their order. -/
theorem keys_addOption_of_mem {e : String × String} (h : e.1 ≠ "" → e.1 ∈ o.keys) :
    (addOption o e).keys = o.keys := by
  rw [addOption_eq]
  split
  · rfl
  · rename_i hempty
    exact (Dictionary.keys_insert o.entries e.1 e.2).trans (if_pos (h hempty))

/-! ## Runs of options -/

/-- Under a key stands the last value that a run writes there, and what stood there before if it
writes none. -/
theorem get?_foldl_addOption {key : String} (hkey : key ≠ "") :
    ∀ (es : List (String × String)) (o : OptionSet),
      (es.foldl addOption o).get? key = (lastValue? es key).or (o.get? key)
  | [], _ => rfl
  | e :: es, o => by
      rw [List.foldl_cons, get?_foldl_addOption hkey es, get?_addOption, lastValue?_cons,
        Option.or_assoc]
      by_cases h : key = e.1
      · rw [if_pos ⟨h, hkey⟩, if_pos h, Option.some_or]
      · rw [if_neg fun hand => h hand.1, if_neg h, Option.none_or]

theorem get?_foldl_addOption_empty : ∀ (es : List (String × String)) (o : OptionSet),
    (es.foldl addOption o).get? "" = o.get? ""
  | [], _ => rfl
  | e :: es, o => by
      rw [List.foldl_cons, get?_foldl_addOption_empty es, get?_addOption, if_neg fun h => h.2 rfl]

theorem mem_keys_foldl_addOption {key : String} : ∀ {es : List (String × String)} {o : OptionSet},
    key ∈ (es.foldl addOption o).keys ↔ key ∈ o.keys ∨ (key ≠ "" ∧ ∃ e ∈ es, e.1 = key)
  | [], _ => by simp
  | e :: es, o => by
      rw [List.foldl_cons, mem_keys_foldl_addOption, mem_keys_addOption]
      grind

theorem keys_foldl_addOption_of_mem : ∀ {es : List (String × String)} {o : OptionSet},
    (∀ e ∈ es, e.1 ≠ "" → e.1 ∈ o.keys) → (es.foldl addOption o).keys = o.keys
  | [], _, _ => rfl
  | e :: es, o, h => by
      have hkeys := keys_addOption_of_mem (h e List.mem_cons_self)
      rw [List.foldl_cons, keys_foldl_addOption_of_mem fun f hf => ?_, hkeys]
      rw [hkeys]
      exact h f (List.mem_cons_of_mem _ hf)

/-- A second run finds every key in its place and writes there what the first left. -/
theorem foldl_addOption_idem (o : OptionSet) (es : List (String × String)) :
    es.foldl addOption (es.foldl addOption o) = es.foldl addOption o := by
  have hkeys : (es.foldl addOption (es.foldl addOption o)).keys = (es.foldl addOption o).keys :=
    keys_foldl_addOption_of_mem fun e he hempty =>
      mem_keys_foldl_addOption.mpr (.inr ⟨hempty, e, he, rfl⟩)
  have hfind (key : String) : (es.foldl addOption (es.foldl addOption o)).get? key =
      (es.foldl addOption o).get? key := by
    by_cases hempty : key = ""
    · rw [hempty, get?_foldl_addOption_empty]
    · rw [get?_foldl_addOption hempty, get?_foldl_addOption hempty, ← Option.or_assoc,
        Option.or_self]
  exact congrArg OptionSet.mk (Dictionary.eq_of_keys_eq hkeys hfind)

/-! ## Runs of tags -/

/-- A run of tags leaves of each part the last word on it. -/
theorem foldl_apply_eq (b : Override) (tags : List Tag) :
    tags.foldl apply b = { b with
      inclusion := if tags.any (·.ignore) then .excluded else b.inclusion
      name := (lastName? tags).getD b.name
      options := (tags.flatMap (·.options)).foldl addOption b.options } := by
  induction tags generalizing b with
  | nil => rfl
  | cons t tags ih =>
      have hname : (lastName? tags).getD (b.apply t).name =
          (lastName? (t :: tags)).getD b.name := by
        rw [lastName?_cons]
        by_cases hempty : t.name = "" <;> cases lastName? tags <;> simp [apply, hempty]
      have hinclusion : (if tags.any (·.ignore) then .excluded else (b.apply t).inclusion) =
          if (t :: tags).any (·.ignore) then Inclusion.excluded else b.inclusion := by
        rw [List.any_cons]
        cases hignore : t.ignore <;> simp [apply, hignore]
      rw [List.foldl_cons, ih, hname, hinclusion, List.flatMap_cons, List.foldl_append]
      rfl

/-- The block `b'` is the block `b` with the last word of some tags on each of its parts. -/
structure IsMergeOf (b' b : Override) (tags : List Tag) : Prop where
  excluded_iff : b'.inclusion = .excluded ↔ b.inclusion = .excluded ∨ ∃ t ∈ tags, t.ignore
  inclusion_of_not_excluded : b'.inclusion ≠ .excluded → b'.inclusion = b.inclusion
  name : b'.name = (lastName? tags).getD b.name
  said {key value : String} (hkey : key ≠ "")
    (hlast : lastValue? (tags.flatMap (·.options)) key = some value) :
    b'.options.get? key = some value
  unsaid {key : String} (hkey : key = "" ∨ ∀ t ∈ tags, ∀ e ∈ t.options, e.1 ≠ key) :
    b'.options.get? key = b.options.get? key
  dialect : b'.dialect = b.dialect
  type : b'.type = b.type
  typeRef : b'.typeRef = b.typeRef
  error : b'.error = b.error
  lists : b'.options.ListsKeys

theorem isMergeOf_foldl_apply (b : Override) (tags : List Tag) :
    (tags.foldl apply b).IsMergeOf b tags := by
  rw [foldl_apply_eq]
  refine ⟨?_, ?_, rfl, ?_, ?_, rfl, rfl, rfl, rfl, ?_⟩
  · rw [← List.any_eq_true]
    split <;> simp [*]
  · intro hincluded
    split
    · rename_i hignore
      rw [if_pos hignore] at hincluded
      exact absurd rfl hincluded
    · rfl
  · intro key value hkey hlast
    rw [get?_foldl_addOption hkey, hlast, Option.some_or]
  · intro key hkey
    by_cases hempty : key = ""
    · rw [hempty, get?_foldl_addOption_empty]
    · have hnone : lastValue? (tags.flatMap (·.options)) key = none := by
        refine lastValue?_eq_none_iff.mpr fun e he => ?_
        obtain ⟨t, ht, het⟩ := List.mem_flatMap.mp he
        exact hkey.resolve_left hempty t ht e het
      rw [get?_foldl_addOption hempty, hnone, Option.none_or]
  · exact listsKeys _

theorem foldl_apply_idem (b : Override) (tags : List Tag) :
    tags.foldl apply (tags.foldl apply b) = tags.foldl apply b := by
  have hinclusion : (if tags.any (·.ignore) then .excluded else
      if tags.any (·.ignore) then .excluded else b.inclusion) =
      if tags.any (·.ignore) then Inclusion.excluded else b.inclusion := by
    split <;> rfl
  have hname : (lastName? tags).getD ((lastName? tags).getD b.name) =
      (lastName? tags).getD b.name := by
    cases lastName? tags <;> rfl
  rw [foldl_apply_eq, foldl_apply_eq b, hinclusion, hname, foldl_addOption_idem]

/-- Tags that are applied in turn merge into a block, the last word winning, and once they are
applied there is nothing more that they change. -/
theorem last_word_wins (b : Override) (tags : List Tag) :
    (tags.foldl apply b).IsMergeOf b tags ∧
      tags.foldl apply (tags.foldl apply b) = tags.foldl apply b :=
  ⟨isMergeOf_foldl_apply b tags, foldl_apply_idem b tags⟩

/-- A flag, a value and a flag again under one key, a name twice, and a tag that ignores. -/
theorem last_word_wins_of_parsed :
    let b : Override :=
      { fresh "json" with options := ⟨.ofList [("kind", "vec"), ("omitempty", "")]⟩ }
    let tags := ["first,min,omitempty=no", "-", "second,min=1,=lost", ",min,max=2"].map Tag.parse
    let b' := tags.foldl apply b
    (b'.IsMergeOf b tags ∧ tags.foldl apply b' = b') ∧
      b'.name = "second" ∧ b'.inclusion = .excluded ∧
      b'.options.entries.entries =
        [("kind", "vec"), ("omitempty", "no"), ("min", ""), ("max", "2")] :=
  ⟨last_word_wins _ _, by decide +kernel, by decide +kernel, by decide +kernel⟩

end Override

end TypeOutline
