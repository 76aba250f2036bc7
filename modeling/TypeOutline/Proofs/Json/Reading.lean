import Mathlib.Data.List.TakeWhile
import TypeOutline.Proofs.Inputs.Outcomes
import TypeOutline.Proofs.Json.Grammar

/-!
# Readers and the texts that they take

Two things are shown of every reader. If it succeeds, it has taken a text of
the grammar off the front (`took_readWord`, and so on). And if it stands
before a text of the grammar, it goes the same way whatever follows that
text: it fails, or it takes just that text and gives one result
(`SameWay`). Only what is left of a text matters for this, not the place
where it starts.
-/

namespace TypeOutline.Json

variable {α β : Type} {c c' : Cursor} {left left' ds : List Char}

namespace Cursor

@[simp] theorem rest_next (c : Cursor) : c.next.rest = c.rest.tail := by
  rw [next]
  split <;> simp [*]

theorem rest_next_of_eq {x : Char} {rest : List Char} (h : c.rest = x :: rest) :
    c.next.rest = rest := by
  rw [rest_next, h, List.tail_cons]

/-- What is taken behind the next character is taken with that character. -/
theorem rest_eq_of_next {x : Char} {rest v : List Char} (h : c.rest = x :: rest)
    (hnext : c.next.rest = v ++ left) : c.rest = x :: v ++ left := by
  rw [h, List.cons_append, ← hnext, rest_next_of_eq h]

@[simp] theorem rest_skipText (test : Char → Bool) (cs : List Char) (p : Place) :
    (skipText test cs p).rest = cs.dropWhile test := by
  induction cs generalizing p with
  | nil => rfl
  | cons c cs ih =>
      rw [skipText, List.dropWhile_cons]
      split
      · exact ih _
      · rfl

/-- White space is passed over as far as it goes. -/
theorem exists_skipSpace (c : Cursor) : ∃ space, IsBlank space ∧
    c.rest = space ++ c.skipSpace.rest ∧ ∀ d ∈ c.skipSpace.rest.head?, isSpace d = false := by
  refine ⟨c.rest.takeWhile isSpace, fun d hd => (List.mem_takeWhile_imp hd), ?_, ?_⟩
  · rw [skipSpace, rest_skipText, List.takeWhile_append_dropWhile]
  · rw [skipSpace, rest_skipText]
    exact fun d hd => by
      have := List.head?_dropWhile_not isSpace c.rest
      rw [hd] at this
      simpa using this

end Cursor

/-! ## Going the same way -/

/-- Two readings go the same way: both fail, or both give one result and stop before what is left
of the text of each. -/
inductive SameWay (left left' : List Char) :
    Except ReadError (α × Cursor) → Except ReadError (α × Cursor) → Prop
  | ok (a : α) {c c' : Cursor} (hc : c.rest = left) (hc' : c'.rest = left') :
      SameWay left left' (.ok (a, c)) (.ok (a, c'))
  | error (e e' : ReadError) : SameWay left left' (.error e) (.error e')

theorem SameWay.bind {x x' : Except ReadError (α × Cursor)}
    {f f' : α × Cursor → Except ReadError (β × Cursor)} {mid mid' : List Char}
    (h : SameWay mid mid' x x') (hf : ∀ a c c', c.rest = mid → c'.rest = mid' →
      SameWay left left' (f (a, c)) (f' (a, c'))) :
    SameWay left left' (x >>= f) (x' >>= f') := by
  cases h with
  | ok a hc hc' => exact hf a _ _ hc hc'
  | error e e' => exact .error e e'

theorem SameWay.readBelow {step : Step} {r r' : Reader α} (h : SameWay left left' (r c) (r' c')) :
    SameWay left left' (readBelow step r c) (readBelow step r' c') := by
  rw [Json.readBelow, Json.readBelow]
  generalize r c = x at h ⊢
  generalize r' c' = x' at h ⊢
  cases h with
  | ok a hc hc' => exact .ok a hc hc'
  | error e e' => exact .error _ _

/-! ## Words and digits -/

theorem took_readWord : ∀ {xs : List Char} {c : Cursor},
    readWord xs c = .ok ((), c') → c.rest = xs ++ c'.rest
  | [], c, h => by
      cases h
      rfl
  | x :: xs, c, h => by
      rw [readWord] at h
      split at h
      · exact nomatch h
      · rename_i y rest hrest
        split at h
        · rename_i hxy
          have htook := took_readWord h
          rw [Cursor.rest_next_of_eq hrest] at htook
          rw [hrest, ← hxy, htook]
          rfl
        · exact nomatch h

theorem takeDigits_spec (c : Cursor) : c.rest = (takeDigits c).1 ++ (takeDigits c).2.rest
    ∧ (∀ d ∈ (takeDigits c).1, isDigit d) ∧ ∀ d ∈ (takeDigits c).2.rest.head?, ¬ isDigit d := by
  refine ⟨?_, fun d hd => List.mem_takeWhile_imp hd, fun d hd => ?_⟩
  · rw [takeDigits, Cursor.rest_skipText, List.takeWhile_append_dropWhile]
  · have hnot := List.head?_dropWhile_not isDigit c.rest
    rw [takeDigits, Cursor.rest_skipText] at hd
    rw [hd] at hnot
    simpa using hnot

theorem rest_skipSpace_of {space rest : List Char} (hc : c.rest = space ++ rest)
    (hspace : IsBlank space) (hrest : ∀ x ∈ rest.head?, Cursor.isSpace x = false) :
    c.skipSpace.rest = rest := by
  rw [Cursor.skipSpace, Cursor.rest_skipText, hc, List.dropWhile_append_of_pos hspace]
  cases rest with
  | nil => rfl
  | cons x rest => exact List.dropWhile_cons_of_neg (by simp [hrest x rfl])

theorem takeDigits_of (hc : c.rest = ds ++ left) (hds : ∀ d ∈ ds, isDigit d)
    (hleft : ∀ d ∈ left.head?, ¬ isDigit d) :
    (takeDigits c).1 = ds ∧ (takeDigits c).2.rest = left := by
  rw [takeDigits, Cursor.rest_skipText, hc, List.takeWhile_append_of_pos hds,
    List.dropWhile_append_of_pos hds]
  cases left with
  | nil => exact ⟨List.append_nil ds, rfl⟩
  | cons d left =>
      have hd := hleft d rfl
      rw [List.takeWhile_cons_of_neg hd, List.dropWhile_cons_of_neg hd, List.append_nil]
      exact ⟨rfl, rfl⟩

theorem sameWay_readWord : ∀ {xs : List Char} {c c' : Cursor}, c.rest = xs ++ left →
    c'.rest = xs ++ left' → SameWay left left' (readWord xs c) (readWord xs c')
  | [], _, _, hc, hc' => .ok () hc hc'
  | x :: xs, c, c', hc, hc' => by
      rw [readWord, readWord, hc, hc']
      simp only [List.cons_append, if_true]
      exact sameWay_readWord (Cursor.rest_next_of_eq hc)
        (Cursor.rest_next_of_eq hc')

end TypeOutline.Json
