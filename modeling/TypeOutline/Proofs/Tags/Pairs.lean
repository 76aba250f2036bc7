import Mathlib.Data.List.TakeWhile
import TypeOutline.Tag

/-!
# The pairs of a tag text

A pair is spaces, the name of a dialect, and a body between quotes after a
colon. In the body a backslash takes the next character with it, so the
first quote without one ends the body, and a text has one way at most to
start with a pair (`pair?_eq_some_iff`). The pairs of a text are read one
after the other from the front.
-/

namespace TypeOutline.Tag

variable {body dialect rest text : List Char}

/-! ## Quoted bodies -/

/-- What may stand between the quotes of a pair: every quote and every backslash
after a backslash, which stands before no line feed. -/
inductive IsQuotable : List Char → Prop
  | nil : IsQuotable []
  | plain {c : Char} {body : List Char} (hquote : c ≠ '"') (hback : c ≠ '\\')
      (hbody : IsQuotable body) : IsQuotable (c :: body)
  | escaped {c : Char} {body : List Char} (hline : c ≠ '\n') (hbody : IsQuotable body) :
      IsQuotable ('\\' :: c :: body)

theorem quotedBody?_append (hbody : IsQuotable body) (rest : List Char) :
    quotedBody? (body ++ '"' :: rest) = some (body, rest) := by
  induction hbody with
  | nil => rfl
  | @plain c body hquote hback _ ih =>
      rw [List.cons_append, quotedBody?, if_neg hback, ih]
      · rfl
      · exact hquote
      · exact fun _ _ hc _ => hback hc
  | @escaped c body hline _ ih =>
      rw [List.cons_append, List.cons_append, quotedBody?, if_neg hline, ih]
      rfl

theorem quotedBody?_eq_some_iff :
    quotedBody? text = some (body, rest) ↔ IsQuotable body ∧ text = body ++ '"' :: rest := by
  constructor
  · intro h
    fun_induction quotedBody? text generalizing body with
    | case1 => cases h
    | case2 r =>
        cases h
        exact ⟨.nil, rfl⟩
    | case3 => cases h
    | case4 c r hline ih =>
        obtain ⟨⟨b, r'⟩, hb, he⟩ := Option.map_eq_some_iff.mp h
        cases he
        obtain ⟨hbody, rfl⟩ := ih hb
        exact ⟨.escaped hline hbody, rfl⟩
    | case5 => cases h
    | case6 c r hquote _ hback ih =>
        obtain ⟨⟨b, r'⟩, hb, he⟩ := Option.map_eq_some_iff.mp h
        cases he
        obtain ⟨hbody, rfl⟩ := ih hb
        exact ⟨.plain hquote hback hbody, rfl⟩
  · rintro ⟨hbody, rfl⟩
    exact quotedBody?_append hbody rest

/-! ## Pairs -/

/-- The names that can stand before the colon of a pair. -/
def IsDialect (dialect : List Char) : Prop :=
  dialect ≠ [] ∧ ∀ c ∈ dialect, isDialectChar c = true

/-- The text of a pair after some spaces. -/
def pairText (spaces : Nat) (dialect body : List Char) : List Char :=
  List.replicate spaces ' ' ++ (dialect ++ (':' :: '"' :: (body ++ ['"'])))

/-- After its spaces the text starts with a pair. -/
def StartsWithPair (text : List Char) : Prop :=
  ∃ spaces dialect body rest, IsDialect dialect ∧ IsQuotable body ∧
    text = pairText spaces dialect body ++ rest

theorem pair?_append (hdialect : IsDialect dialect) (hbody : IsQuotable body) (spaces : Nat)
    (rest : List Char) :
    pair? (pairText spaces dialect body ++ rest) = some (dialect, body, rest) := by
  obtain ⟨d, ds, rfl⟩ := List.exists_cons_of_ne_nil hdialect.1
  have hd : d ≠ ' ' := by
    rintro rfl
    exact absurd (hdialect.2 ' ' List.mem_cons_self) (by decide)
  have hspaces : (pairText spaces (d :: ds) body ++ rest).dropWhile (· = ' ') =
      d :: ds ++ ':' :: '"' :: (body ++ '"' :: rest) := by
    simp only [pairText, List.append_assoc, List.cons_append, List.nil_append]
    rw [List.dropWhile_append_of_pos (by simp), List.dropWhile_cons_of_neg (by simpa using hd)]
  have hcolon : ¬isDialectChar ':' = true := by decide
  have htake : (d :: ds ++ ':' :: '"' :: (body ++ '"' :: rest)).takeWhile isDialectChar =
      d :: ds := by
    rw [List.takeWhile_append_of_pos hdialect.2, List.takeWhile_cons_of_neg hcolon, List.append_nil]
  have hdrop : (d :: ds ++ ':' :: '"' :: (body ++ '"' :: rest)).dropWhile isDialectChar =
      ':' :: '"' :: (body ++ '"' :: rest) := by
    rw [List.dropWhile_append_of_pos hdialect.2, List.dropWhile_cons_of_neg hcolon]
  simp only [pair?, hspaces, htake, hdrop, quotedBody?_append hbody]
  rfl

theorem pair?_eq_some_iff : pair? text = some (dialect, body, rest) ↔
    IsDialect dialect ∧ IsQuotable body ∧
      ∃ spaces, text = pairText spaces dialect body ++ rest := by
  constructor
  · intro h
    simp only [pair?] at h
    split at h
    · cases h
    · rename_i hne
      split at h
      · rename_i tail hdrop
        obtain ⟨⟨b, r⟩, hb, he⟩ := Option.map_eq_some_iff.mp h
        obtain ⟨hbody, rfl⟩ := quotedBody?_eq_some_iff.mp hb
        cases he
        refine ⟨⟨fun hnil => hne (List.isEmpty_iff.mpr hnil), fun c => List.mem_takeWhile_imp⟩,
          hbody, (text.takeWhile (· = ' ')).length, ?_⟩
        have hspaces : List.replicate (text.takeWhile (· = ' ')).length ' ' =
            text.takeWhile (· = ' ') := by
          refine (List.eq_replicate_of_mem fun c hc => ?_).symm
          simpa using List.mem_takeWhile_imp hc
        rw [pairText, hspaces, List.append_assoc, List.append_assoc, List.cons_append,
          List.cons_append, List.append_assoc, List.singleton_append, ← hdrop,
          List.takeWhile_append_dropWhile, List.takeWhile_append_dropWhile]
      · cases h
  · rintro ⟨hdialect, hbody, spaces, rfl⟩
    exact pair?_append hdialect hbody spaces rest

theorem pair?_eq_none_iff : pair? text = none ↔ ¬StartsWithPair text := by
  constructor
  · rintro h ⟨spaces, dialect, body, rest, hdialect, hbody, rfl⟩
    rw [pair?_append hdialect hbody] at h
    cases h
  · intro h
    refine Option.eq_none_iff_forall_ne_some.mpr fun ⟨dialect, body, rest⟩ hpair => h ?_
    obtain ⟨hdialect, hbody, spaces, htext⟩ := pair?_eq_some_iff.mp hpair
    exact ⟨spaces, dialect, body, rest, hdialect, hbody, htext⟩

/-! ## All pairs -/

theorem pairs_append (hdialect : IsDialect dialect) (hbody : IsQuotable body) (spaces : Nat)
    (rest : List Char) : pairs (pairText spaces dialect body ++ rest) =
      (String.ofList dialect, ofBody (unescape body)) :: pairs rest := by
  rw [pairs]
  split
  · rename_i h
    rw [pair?_append hdialect hbody] at h
    cases h
  · rename_i h
    rw [pair?_append hdialect hbody] at h
    cases h
    rfl

theorem pairs_of_not_startsWithPair (h : ¬StartsWithPair text) : pairs text = [] := by
  rw [pairs]
  split
  · rfl
  · rename_i hpair
    rw [pair?_eq_none_iff.mpr h] at hpair
    cases hpair

end TypeOutline.Tag
