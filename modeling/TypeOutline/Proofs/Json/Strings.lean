import TypeOutline.Proofs.Json.Reading
import TypeOutline.Proofs.Related

/-!
# Reading strings

A string ends with its first quote that is not escaped. Two escapes may
stand for one character, so what an escape leads to depends on the string
behind it, but on nothing behind the closing quote (`LeavesString`).
-/

namespace TypeOutline.Json

variable {α β : Type} {c c' : Cursor} {left left' text : List Char}

/-! ## What is taken -/

theorem took_readHex4 {k : Nat} (h : readHex4 c = .ok (k, c')) : ∃ p q r s,
    c.rest = p :: q :: r :: s :: c'.rest ∧ ∀ x ∈ [p, q, r, s], (hexValue? x).isSome := by
  rw [readHex4] at h
  split at h
  · exact nomatch h
  · split at h
    · rename_i a b d e hvalues
      obtain rfl : c.next.next.next.next = c' := (Prod.mk.inj (Except.ok.inj h)).2
      have hmap := mapM_eq_some_iff.mp hvalues
      generalize hfour : c.rest.take 4 = four at hmap
      obtain _ | ⟨hp, _ | ⟨hq, _ | ⟨hr, _ | ⟨hs, _ | _⟩⟩⟩⟩ := hmap
      rename_i p q r s
      obtain ⟨rest, hrest⟩ : ∃ rest, c.rest = p :: q :: r :: s :: rest :=
        ⟨c.rest.drop 4, (List.take_append_drop 4 c.rest).symm.trans (hfour ▸ rfl)⟩
      exact ⟨p, q, r, s, by simp [hrest], by simp [hp, hq, hr, hs]⟩
    · exact nomatch h

theorem took_expectInEscape {x : Char} (h : expectInEscape x c = .ok ((), c')) :
    c.rest = x :: c'.rest := by
  rw [expectInEscape] at h
  split at h
  · exact nomatch h
  · rename_i y rest hrest
    split at h
    · rename_i hxy
      cases h
      rw [hrest, hxy, Cursor.rest_next, hrest]
      rfl
    · exact nomatch h

/-- One escape, or two that are halves. -/
theorem took_readUnicode {x : Char} (h : readUnicode c = .ok (x, c')) :
    ∃ cs, c.rest = cs ++ c'.rest
      ∧ ∀ text, StringText text → StringText ('\\' :: 'u' :: (cs ++ text)) := by
  rw [readUnicode] at h
  obtain ⟨⟨m, c₁⟩, hm, h⟩ := exists_of_bind_eq_ok h
  obtain ⟨p, q, r, s, hc, hhex⟩ := took_readHex4 hm
  dsimp only at h
  split at h
  · exact nomatch h
  · split at h
    · cases h
      exact ⟨[p, q, r, s], hc, fun text htext => .char (.unicode hhex) htext⟩
    · obtain ⟨⟨⟨⟩, c₂⟩, hback, h⟩ := exists_of_bind_eq_ok h
      obtain ⟨⟨⟨⟩, c₃⟩, hu, h⟩ := exists_of_bind_eq_ok h
      obtain ⟨⟨m', c₄⟩, hm', h⟩ := exists_of_bind_eq_ok h
      obtain ⟨p', q', r', s', hc', hhex'⟩ := took_readHex4 hm'
      dsimp only at h
      split at h
      · exact nomatch h
      · obtain rfl : c₄ = c' := (Prod.mk.inj (Except.ok.inj h)).2
        refine ⟨[p, q, r, s, '\\', 'u', p', q', r', s'], ?_, fun text htext =>
          .char (.unicode hhex) (.char (.unicode hhex') htext)⟩
        rw [hc, took_expectInEscape hback, took_expectInEscape hu, hc']
        rfl

theorem took_readEscape {x : Char} (h : readEscape c = .ok (x, c')) :
    ∃ cs, c.rest = cs ++ c'.rest
      ∧ ∀ text, StringText text → StringText ('\\' :: (cs ++ text)) := by
  have hescaped : ∀ {y rest}, c.rest = y :: rest → c' = c.next →
      y ∈ ['"', '\\', '/', 'b', 'f', 'n', 'r', 't'] → ∃ cs, c.rest = cs ++ c'.rest
        ∧ ∀ text, StringText text → StringText ('\\' :: (cs ++ text)) := by
    intro y rest hrest hend hy
    refine ⟨[y], ?_, fun text htext => .char (.escaped hy) htext⟩
    rw [hend, Cursor.rest_next, hrest]
    rfl
  rw [readEscape] at h
  split at h
  · exact nomatch h
  case h_10 rest hrest =>
    obtain ⟨cs, hcs, htext⟩ := took_readUnicode h
    exact ⟨'u' :: cs, Cursor.rest_eq_of_next hrest hcs, htext⟩
  case h_11 => exact nomatch h
  all_goals
    rename_i rest hrest
    exact hescaped hrest (Prod.mk.inj (Except.ok.inj h)).2.symm (by decide)

theorem took_readStringFrom : ∀ {fuel : Nat} {read : List Char} {c : Cursor} {x : String},
    readStringFrom fuel read c = .ok (x, c') → ∃ text, c.rest = text ++ c'.rest ∧ StringText text
  | 0, _, _, _, h => nomatch h
  | fuel + 1, read, c, x, h => by
      rw [readStringFrom] at h
      split at h
      · exact nomatch h
      · rename_i y rest hrest
        split at h
        · rename_i hquote
          cases h
          refine ⟨['"'], ?_, .close⟩
          rw [Cursor.rest_next, hrest, hquote]
          rfl
        · rename_i hquote
          split at h
          · rename_i hback
            obtain ⟨⟨z, c₁⟩, hescape, h⟩ := exists_of_bind_eq_ok h
            obtain ⟨cs, hcs, hchar⟩ := took_readEscape hescape
            obtain ⟨text, htext, hstring⟩ := took_readStringFrom h
            refine ⟨'\\' :: (cs ++ text), ?_, hchar text hstring⟩
            rw [htext, ← List.append_assoc] at hcs
            exact hback ▸ Cursor.rest_eq_of_next hrest hcs
          · rename_i hback
            split at h
            · exact nomatch h
            · rename_i hcontrol
              obtain ⟨text, htext, hstring⟩ := took_readStringFrom h
              exact ⟨[y] ++ text, Cursor.rest_eq_of_next hrest htext,
                .char (.plain hquote hback hcontrol) hstring⟩

/-! ## Whatever follows -/

theorem sameWay_readHex4 {p q r s : Char} (hc : c.rest = p :: q :: r :: s :: left)
    (hc' : c'.rest = p :: q :: r :: s :: left') :
    SameWay left left' (readHex4 c) (readHex4 c') := by
  have hfour {c : Cursor} {left : List Char} (hc : c.rest = p :: q :: r :: s :: left) :
      c.rest.take 4 = [p, q, r, s] ∧ c.next.next.next.next.rest = left := by
    simp [hc]
  rw [readHex4, readHex4, (hfour hc).1, (hfour hc').1]
  split
  · exact .error _ _
  · split
    · exact .ok _ (hfour hc).2 (hfour hc').2
    · exact .error _ _

/-- The second half of a surrogate pair, after the first one. -/
def readSecondHalf (n : Nat) : Reader Char := fun c => do
  let (_, c) ← expectInEscape '\\' c
  let (_, c) ← expectInEscape 'u' c
  let (m, c) ← readHex4 c
  if m < 0xDC00 || 0xDFFF < m then failHere .loneSurrogate c
  else .ok (Char.ofNat ((n - 0xD800) * 0x400 + (m - 0xDC00) + 0x10000), c)

theorem expectInEscape_of_eq {x : Char} (hc : c.rest = x :: left) :
    expectInEscape x c = .ok ((), c.next) := by
  rw [expectInEscape, hc]
  exact if_pos rfl

theorem expectInEscape_of_ne {x y : Char} (h : x ≠ y) (hc : c.rest = y :: left) :
    ∃ e, expectInEscape x c = .error e := by
  rw [expectInEscape, hc]
  simp only [if_neg h]
  exact ⟨_, rfl⟩

/-- Two readings of an escape go the same way and leave a string, no longer than what was there
behind the escape. -/
def LeavesString (text left left' : List Char) (x x' : Except ReadError (α × Cursor)) : Prop :=
  ∃ text', StringText text' ∧ text'.length ≤ text.length
    ∧ SameWay (text' ++ left) (text' ++ left') x x'

theorem leavesString_error (htext : StringText text) (e e' : ReadError) :
    LeavesString text left left' (.error e : Except ReadError (α × Cursor)) (.error e') :=
  ⟨text, htext, Nat.le_refl _, .error e e'⟩

theorem leavesString_ok (htext : StringText text) (a : α) (hc : c.rest = text ++ left)
    (hc' : c'.rest = text ++ left') :
    LeavesString text left left' (.ok (a, c)) (.ok (a, c')) :=
  ⟨text, htext, Nat.le_refl _, .ok a hc hc'⟩

theorem LeavesString.mono {longer : List Char} {x x' : Except ReadError (α × Cursor)}
    (h : LeavesString text left left' x x') (hle : text.length ≤ longer.length) :
    LeavesString longer left left' x x' :=
  let ⟨text', htext', hle', hsame⟩ := h
  ⟨text', htext', Nat.le_trans hle' hle, hsame⟩

theorem leavesString_bind {x x' : Except ReadError (α × Cursor)}
    {f f' : α × Cursor → Except ReadError (β × Cursor)} (htext : StringText text)
    (h : SameWay (text ++ left) (text ++ left') x x')
    (hf : ∀ a c c', c.rest = text ++ left → c'.rest = text ++ left' →
      LeavesString text left left' (f (a, c)) (f' (a, c'))) :
    LeavesString text left left' (x >>= f) (x' >>= f') := by
  cases h with
  | ok a hc hc' => exact hf a _ _ hc hc'
  | error e e' => exact leavesString_error htext e e'

/-- The second half of a surrogate pair is looked for at the front of the string that follows. -/
theorem leavesString_secondHalf (n : Nat) (htext : StringText text) (hc : c.rest = text ++ left)
    (hc' : c'.rest = text ++ left') :
    LeavesString text left left' (readSecondHalf n c) (readSecondHalf n c') := by
  rw [readSecondHalf, readSecondHalf]
  cases htext with
  | close =>
      obtain ⟨e, he⟩ := expectInEscape_of_ne (x := '\\') (by decide) hc
      obtain ⟨e', he'⟩ := expectInEscape_of_ne (x := '\\') (by decide) hc'
      rw [he, he']
      exact leavesString_error .close e e'
  | @char cs text hchar htext =>
      have hwhole := StringText.char hchar htext
      cases hchar with
      | plain hquote hback hcontrol =>
          obtain ⟨e, he⟩ := expectInEscape_of_ne hback.symm hc
          obtain ⟨e', he'⟩ := expectInEscape_of_ne hback.symm hc'
          rw [he, he']
          exact leavesString_error hwhole e e'
      | @escaped y hy =>
          -- only a second escape of this sort can be the second half
          have hu : 'u' ≠ y := by
            rintro rfl
            exact absurd hy (by decide)
          have hnext {c : Cursor} {left : List Char} (hc : c.rest = ['\\', y] ++ text ++ left) :
              c.next.rest = y :: (text ++ left) :=
            Cursor.rest_next_of_eq hc
          obtain ⟨e, he⟩ := expectInEscape_of_ne hu (hnext hc)
          obtain ⟨e', he'⟩ := expectInEscape_of_ne hu (hnext hc')
          rw [expectInEscape_of_eq hc, expectInEscape_of_eq hc']
          simp only [ok_bind]
          rw [he, he']
          exact leavesString_error hwhole e e'
      | @unicode p q r s hhex =>
          have hnext {c : Cursor} {left : List Char}
              (hc : c.rest = ['\\', 'u', p, q, r, s] ++ text ++ left) :
              c.next.rest = 'u' :: p :: q :: r :: s :: (text ++ left)
                ∧ c.next.next.rest = p :: q :: r :: s :: (text ++ left) := by
            simp [hc]
          rw [expectInEscape_of_eq hc, expectInEscape_of_eq hc']
          simp only [ok_bind]
          rw [expectInEscape_of_eq (hnext hc).1, expectInEscape_of_eq (hnext hc').1]
          simp only [ok_bind]
          refine LeavesString.mono (leavesString_bind htext (sameWay_readHex4 (hnext hc).2
            (hnext hc').2) fun m c c' hc hc' => ?_) ?_
          · dsimp only
            split
            · exact leavesString_error htext _ _
            · exact leavesString_ok htext _ hc hc'
          · rw [List.length_append]
            exact Nat.le_add_left _ _

theorem leavesString_readUnicode {p q r s : Char} (htext : StringText text)
    (hc : c.rest = p :: q :: r :: s :: (text ++ left))
    (hc' : c'.rest = p :: q :: r :: s :: (text ++ left')) :
    LeavesString text left left' (readUnicode c) (readUnicode c') := by
  rw [readUnicode, readUnicode]
  refine leavesString_bind htext (sameWay_readHex4 hc hc') fun n c c' hc hc' => ?_
  dsimp only
  split
  · exact leavesString_error htext _ _
  · split
    · exact leavesString_ok htext _ hc hc'
    · exact leavesString_secondHalf n htext hc hc'

/-- An escape, after its backslash, and the string behind it. -/
theorem leavesString_readEscape {cs : List Char} (hchar : CharText ('\\' :: cs))
    (htext : StringText text) (hc : c.rest = cs ++ (text ++ left))
    (hc' : c'.rest = cs ++ (text ++ left')) :
    LeavesString text left left' (readEscape c) (readEscape c') := by
  cases hchar with
  | plain _ hback => exact absurd rfl hback
  | @escaped y hy =>
      have hnext {c : Cursor} {left : List Char} (hc : c.rest = [y] ++ (text ++ left)) :
          c.next.rest = text ++ left :=
        Cursor.rest_next_of_eq hc
      rw [readEscape, readEscape, hc, hc']
      simp only [List.mem_cons, List.not_mem_nil, or_false] at hy
      obtain rfl | rfl | rfl | rfl | rfl | rfl | rfl | rfl := hy <;>
        exact leavesString_ok htext _ (hnext hc) (hnext hc')
  | @unicode p q r s hhex =>
      have hnext {c : Cursor} {left : List Char}
          (hc : c.rest = ['u', p, q, r, s] ++ (text ++ left)) :
          c.next.rest = p :: q :: r :: s :: (text ++ left) :=
        Cursor.rest_next_of_eq hc
      rw [readEscape, readEscape, hc, hc']
      exact leavesString_readUnicode htext (hnext hc) (hnext hc')

theorem sameWay_readStringFrom {fuel fuel' : Nat} {read : List Char} (htext : StringText text)
    (hfuel : text.length < fuel) (hfuel' : text.length < fuel') (hc : c.rest = text ++ left)
    (hc' : c'.rest = text ++ left') :
    SameWay left left' (readStringFrom fuel read c) (readStringFrom fuel' read c') := by
  induction fuel generalizing fuel' read text c c' with
  | zero => exact absurd hfuel (Nat.not_lt_zero _)
  | succ fuel ih =>
      obtain ⟨fuel', rfl⟩ := Nat.exists_eq_add_one_of_ne_zero (Nat.ne_zero_of_lt hfuel')
      cases htext with
      | close =>
          rw [readStringFrom, readStringFrom, hc, hc']
          exact .ok _ (Cursor.rest_next_of_eq hc) (Cursor.rest_next_of_eq hc')
      | @char cs text hchar htext =>
          rw [List.append_assoc] at hc hc'
          rw [List.length_append] at hfuel hfuel'
          have hescape (rest : List Char) (hcs : cs = '\\' :: rest) :
              SameWay left left' (readStringFrom (fuel + 1) read c)
                (readStringFrom (fuel' + 1) read c') := by
            subst hcs
            have hnext {c : Cursor} {left : List Char}
                (hc : c.rest = '\\' :: rest ++ (text ++ left)) :
                c.next.rest = rest ++ (text ++ left) :=
              Cursor.rest_next_of_eq hc
            obtain ⟨text', htext', hle, hsame⟩ :=
              leavesString_readEscape hchar htext (hnext hc) (hnext hc')
            rw [List.length_cons] at hfuel hfuel'
            rw [readStringFrom, readStringFrom, hc, hc']
            exact hsame.bind fun y c c' hc hc' => ih htext' (by omega) (by omega) hc hc'
          cases hchar with
          | escaped => exact hescape _ rfl
          | unicode => exact hescape _ rfl
          | @plain x hquote hback hcontrol =>
              rw [List.length_singleton] at hfuel hfuel'
              rw [readStringFrom, readStringFrom, hc, hc']
              simp only [List.singleton_append, if_neg hquote, if_neg hback, if_neg hcontrol]
              exact ih htext (by omega) (by omega) (Cursor.rest_next_of_eq hc)
                (Cursor.rest_next_of_eq hc')

theorem sameWay_readString (htext : StringText text) (hc : c.rest = text ++ left)
    (hc' : c'.rest = text ++ left') : SameWay left left' (readString c) (readString c') := by
  have hlength {c : Cursor} {left : List Char} (hc : c.rest = text ++ left) :
      text.length < c.rest.length + 1 := by
    rw [hc, List.length_append]
    omega
  exact sameWay_readStringFrom htext (hlength hc) (hlength hc') hc hc'

end TypeOutline.Json
