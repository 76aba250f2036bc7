import Mathlib.Data.List.DropRight
import TypeOutline.Text.Blank

/-!
# Taking texts apart

Cutting a text into pieces and putting a separator between pieces undo
each other, as long as no piece holds the separator. So lines that are
written one after the other, each with a line feed, can be read back
exactly if no line holds one (`pieces_ended_iff`).
-/

namespace TypeOutline.Text

variable {sep : Char} {cs xs : List Char}

/-! ## Pieces -/

theorem pieces_eq_splitOn (sep : Char) (cs : List Char) : pieces sep cs = cs.splitOn sep := by
  induction cs with
  | nil => rfl
  | cons c cs ih =>
      rw [pieces, ih, List.splitOn_cons_eq_if_modifyHead]
      simp only [beq_iff_eq]
      split
      · rfl
      · cases hpieces : cs.splitOn sep with
        | nil => exact absurd hpieces (List.splitOn_ne_nil sep cs)
        | cons p ps => rfl

theorem pieces_intercalate {ls : List (List Char)} (hls : ∀ l ∈ ls, sep ∉ l) (hne : ls ≠ []) :
    pieces sep ([sep].intercalate ls) = ls := by
  rw [pieces_eq_splitOn, List.splitOn_intercalate sep hls hne]

/-- No piece holds the separator. -/
theorem not_mem_of_mem_pieces {p : List Char} (hp : p ∈ pieces sep cs) : sep ∉ p := by
  induction cs generalizing p with
  | nil => exact List.mem_singleton.mp hp ▸ List.not_mem_nil
  | cons c cs ih =>
      rw [pieces] at hp
      split at hp
      · rcases List.mem_cons.mp hp with rfl | hp
        · exact List.not_mem_nil
        · exact ih hp
      · rename_i hc
        split at hp
        · exact List.mem_singleton.mp hp ▸ mt List.mem_singleton.mp (Ne.symm hc)
        · rename_i q qs hpieces
          rw [hpieces] at ih
          rcases List.mem_cons.mp hp with rfl | hp
          · refine mt List.mem_cons.mp (not_or.mpr ⟨Ne.symm hc, ih List.mem_cons_self⟩)
          · exact ih (List.mem_cons_of_mem q hp)

/-- A separator at the end leaves an empty piece behind it. -/
theorem pieces_concat (sep : Char) (cs : List Char) :
    pieces sep (cs ++ [sep]) = pieces sep cs ++ [[]] := by
  induction cs with
  | nil => exact if_pos rfl
  | cons c cs ih =>
      rw [List.cons_append, pieces, pieces, ih]
      split
      · rfl
      · obtain ⟨p, ps, hpieces⟩ := List.exists_cons_of_ne_nil (pieces_ne_nil sep cs)
        rw [hpieces]
        rfl

/-- Lines that are ended by a separator each are read back exactly if none holds one. -/
theorem pieces_ended_iff (ls : List (List Char)) :
    pieces sep (ls.flatMap (· ++ [sep])) = ls ++ [[]] ↔ ∀ l ∈ ls, sep ∉ l := by
  have htext : ls.flatMap (· ++ [sep]) = [sep].intercalate (ls ++ [[]]) := by
    induction ls with
    | nil => rfl
    | cons l ls ih =>
        obtain ⟨l', ls', hls⟩ :=
          List.exists_cons_of_ne_nil
            (List.append_ne_nil_of_right_ne_nil ls (List.cons_ne_nil [] []))
        rw [List.flatMap_cons, ih, List.cons_append, hls, List.intercalate_cons_cons]
  constructor
  · intro h l hl
    exact not_mem_of_mem_pieces (h ▸ List.mem_append_left _ hl)
  · intro h
    rw [htext]
    refine pieces_intercalate (fun l hl => ?_) (by simp)
    rcases List.mem_append.mp hl with hl | hl
    · exact h l hl
    · exact List.mem_singleton.mp hl ▸ List.not_mem_nil

/-! ## Cuts -/

theorem cut_of_not_mem (h : sep ∉ cs) : cut sep cs = (cs, none) := by
  induction cs with
  | nil => rfl
  | cons c cs ih =>
      obtain ⟨hc, hcs⟩ := not_or.mp (mt List.mem_cons.mpr h)
      rw [cut, if_neg (Ne.symm hc), ih hcs]

theorem cut_append_cons (h : sep ∉ xs) (cs : List Char) :
    cut sep (xs ++ sep :: cs) = (xs, some cs) := by
  induction xs with
  | nil => exact if_pos rfl
  | cons x xs ih =>
      obtain ⟨hx, hxs⟩ := not_or.mp (mt List.mem_cons.mpr h)
      rw [List.cons_append, cut, if_neg (Ne.symm hx), ih hxs]

/-! ## Blank ends -/

theorem trim_eq_rdropWhile (cs : List Char) :
    trim cs = (cs.dropWhile isBlank).rdropWhile isBlank := rfl

/-- Only white space at an end is dropped. -/
theorem trim_eq_self_iff : trim cs = cs ↔
    (∀ c ∈ cs.head?, isBlank c = false) ∧ ∀ c ∈ cs.getLast?, isBlank c = false := by
  have hfront : cs.dropWhile isBlank = cs ↔ ∀ c ∈ cs.head?, isBlank c = false := by
    rw [List.dropWhile_eq_self_iff]
    cases cs <;> simp
  have hback : cs.rdropWhile isBlank = cs ↔ ∀ c ∈ cs.getLast?, isBlank c = false := by
    rw [List.rdropWhile_eq_self_iff]
    rcases cs.eq_nil_or_concat' with rfl | ⟨xs, c, rfl⟩ <;> simp
  rw [← hfront, ← hback, trim_eq_rdropWhile]
  constructor
  · intro h
    have hdrop : cs.dropWhile isBlank = cs := by
      refine (List.dropWhile_suffix isBlank).eq_of_length_le ?_
      have hle := (List.rdropWhile_prefix isBlank (l := cs.dropWhile isBlank)).length_le
      rwa [h] at hle
    rw [hdrop] at h
    exact ⟨hdrop, h⟩
  · rintro ⟨hdrop, hback⟩
    rw [hdrop, hback]

theorem trim_append_cons (hsep : isBlank sep = false) (hxs : trim xs = xs) (hcs : trim cs = cs) :
    trim (xs ++ sep :: cs) = xs ++ sep :: cs := by
  refine trim_eq_self_iff.mpr ⟨fun c hc => ?_, fun c hc => ?_⟩
  · cases xs with
    | nil => exact Option.mem_some_iff.mp hc ▸ hsep
    | cons x xs => exact (trim_eq_self_iff.mp hxs).1 c hc
  · rw [List.getLast?_append_cons, List.getLast?_cons] at hc
    rcases hlast : cs.getLast? with - | d
    · rw [hlast] at hc
      exact Option.mem_some_iff.mp hc ▸ hsep
    · rw [hlast] at hc
      exact (trim_eq_self_iff.mp hcs).2 c (hlast ▸ hc)

theorem trim_intercalate (hsep : isBlank sep = false) {ls : List (List Char)}
    (hls : ∀ l ∈ ls, trim l = l) : trim ([sep].intercalate ls) = [sep].intercalate ls := by
  induction ls with
  | nil => rfl
  | cons l ls ih =>
      have hl := hls l List.mem_cons_self
      have hrest := ih fun l' hl' => hls l' (List.mem_cons_of_mem l hl')
      cases ls with
      | nil => simpa using hl
      | cons l' ls =>
          rw [List.intercalate_cons_cons, List.append_assoc, List.singleton_append]
          exact trim_append_cons hsep hl hrest

end TypeOutline.Text
