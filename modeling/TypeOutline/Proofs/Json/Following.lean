import TypeOutline.Proofs.Json.Values

/-!
# What follows a value

Before a value the reader goes the same way whatever follows that value. So
what a text gives depends on the value that it starts with, and on nothing
behind it (`parse_eq_ok_iff`), and what is left behind that value is known
by the text (`StartsWith.left_unique`).
-/

namespace TypeOutline.Json

variable {α : Type} {c c' : Cursor} {left left' text : List Char}

/-! ## Separators -/

/-- White space before a value is passed over, and no more. -/
theorem rest_skipSpace_of_value {space v : List Char} (hv : ValueText v) (hspace : IsBlank space)
    (hc : c.rest = space ++ (v ++ left)) : c.skipSpace.rest = v ++ left := by
  refine rest_skipSpace_of hc hspace fun y hy => ?_
  obtain ⟨x, rest, rfl, hx, -⟩ := hv.exists_cons
  exact Option.some.inj hy ▸ hx

theorem nextElement?_close {first : Bool} {space : List Char} (hspace : IsBlank space)
    (hc : c.rest = space ++ ']' :: left) :
    ∃ c₁, nextElement? first c = .ok (false, c₁) ∧ c₁.rest = ']' :: left := by
  have hskip := rest_skipSpace_of hc hspace (by simp [Cursor.isSpace])
  rw [nextElement?]
  simp only [hskip]
  exact ⟨_, rfl, hskip⟩

theorem nextElement?_element {first : Bool} {sep v : List Char} (hsep : SeparatorText first sep)
    (hv : ValueText v) (hc : c.rest = sep ++ (v ++ left)) :
    ∃ c₁, nextElement? first c = .ok (true, c₁) ∧ c₁.rest = v ++ left := by
  obtain ⟨x, rest, rfl, -, hclose⟩ := hv.exists_cons
  cases hsep with
  | first hspace =>
      have hskip := rest_skipSpace_of_value hv hspace hc
      rw [nextElement?]
      dsimp only
      split
      · rename_i hnil
        exact absurd (hskip.symm.trans hnil) (List.cons_ne_nil _ _)
      · rename_i hbracket
        exact absurd (List.cons.inj (hskip.symm.trans hbracket)).1 hclose
      · exact ⟨_, rfl, hskip⟩
  | @next space space' hspace hspace' =>
      rw [List.append_assoc, List.cons_append] at hc
      have hskip := rest_skipSpace_of hc hspace (by simp [Cursor.isSpace])
      have hskip' := rest_skipSpace_of_value hv hspace' (Cursor.rest_next_of_eq hskip)
      rw [nextElement?]
      dsimp only
      split
      · rename_i hnil
        exact absurd (hskip.symm.trans hnil) (List.cons_ne_nil _ _)
      · rename_i hbracket
        exact absurd (List.cons.inj (hskip.symm.trans hbracket)).1 (by decide)
      · rename_i hcomma
        rw [if_neg Bool.false_ne_true, if_pos (List.cons.inj (hskip.symm.trans hcomma)).1.symm]
        split
        · rename_i hnil
          exact absurd (hskip'.symm.trans hnil) (List.cons_ne_nil _ _)
        · rename_i hbracket
          exact absurd (List.cons.inj (hskip'.symm.trans hbracket)).1 hclose
        · exact ⟨_, rfl, hskip'⟩

theorem readKey?_close {first : Bool} {space : List Char} (hspace : IsBlank space)
    (hc : c.rest = space ++ '\x7d' :: left) :
    ∃ c₁, readKey? first c = .ok (none, c₁) ∧ c₁.rest = '\x7d' :: left := by
  have hskip := rest_skipSpace_of hc hspace (by simp [Cursor.isSpace])
  have hnext : nextMember? first c = .ok (false, c.skipSpace) := by
    rw [nextMember?]
    simp only [hskip]
  rw [readKey?, readBelow, hnext]
  exact ⟨_, rfl, hskip⟩

theorem nextMember?_member {first : Bool} {sep rest : List Char} (hsep : SeparatorText first sep)
    (hc : c.rest = sep ++ '"' :: rest) :
    ∃ c₁, nextMember? first c = .ok (true, c₁) ∧ c₁.rest = '"' :: rest := by
  have hhead : ∀ y ∈ ('"' :: rest).head?, Cursor.isSpace y = false := by
    simp [Cursor.isSpace]
  cases hsep with
  | first hspace =>
      have hskip := rest_skipSpace_of hc hspace hhead
      rw [nextMember?]
      simp only [hskip, if_true]
      exact ⟨_, rfl, hskip⟩
  | @next space space' hspace hspace' =>
      rw [List.append_assoc, List.cons_append] at hc
      have hskip := rest_skipSpace_of hc hspace (by simp [Cursor.isSpace])
      have hskip' : c.skipSpace.next.skipSpace.rest = '"' :: rest :=
        rest_skipSpace_of (Cursor.rest_next_of_eq hskip) hspace' hhead
      rw [nextMember?]
      simp only [hskip, hskip', Bool.false_eq_true, if_false]
      exact ⟨_, rfl, hskip'⟩

/-- A member that is there is read from behind the opening quote of its key on. -/
theorem readKey?_member {first : Bool} {sep rest : List Char} (hsep : SeparatorText first sep)
    (hc : c.rest = sep ++ '"' :: rest) : ∃ c₁, c₁.rest = rest
      ∧ readKey? first c =
        readBelow .unknown readString c₁ >>= fun (key, c) => .ok (some key, c) := by
  obtain ⟨c₁, hnext, hc₁⟩ := nextMember?_member hsep hc
  refine ⟨c₁.next, Cursor.rest_next_of_eq hc₁, ?_⟩
  rw [readKey?, readBelow, readBelow, hnext]
  simp only [ok_bind, if_true]
  cases readString c₁.next <;> rfl

theorem readColon_of {space : List Char} (hspace : IsBlank space)
    (hc : c.rest = space ++ ':' :: left) :
    ∃ c₁, readColon c = .ok ((), c₁) ∧ c₁.rest = left := by
  have hskip := rest_skipSpace_of hc hspace (by simp [Cursor.isSpace])
  rw [readColon, hskip]
  exact ⟨_, rfl, Cursor.rest_next_of_eq hskip⟩

/-! ## Values -/

/-- Readers of values that go the same way on one value and what may follow it. -/
def ReadsAlike (value value' : Reader Json) : Prop :=
  ∀ (space space' : List Char) {v left left' : List Char} {c c' : Cursor}, IsBlank space →
    IsBlank space' → ValueText v → EndsAt v left → EndsAt v left' → c.rest = space ++ (v ++ left) →
      c'.rest = space' ++ (v ++ left') → SameWay left left' (value c) (value' c')

theorem sameWay_readElements {value value' : Reader Json} (hvalue : ReadsAlike value value')
    {fuel fuel' : Nat} {read : List Json} (htext : ElementsText read.isEmpty text)
    (hfuel : text.length < fuel) (hfuel' : text.length < fuel') (hc : c.rest = text ++ left)
    (hc' : c'.rest = text ++ left') :
    SameWay left left' (readElements value fuel read c) (readElements value' fuel' read c') := by
  induction fuel generalizing fuel' read text c c' with
  | zero => exact absurd hfuel (Nat.not_lt_zero _)
  | succ fuel ih =>
      obtain ⟨fuel', rfl⟩ := Nat.exists_eq_add_one_of_ne_zero (Nat.ne_zero_of_lt hfuel')
      rw [readElements, readElements]
      cases htext with
      | close hspace =>
          rw [List.append_assoc, List.singleton_append] at hc hc'
          obtain ⟨c₁, hnext, hc₁⟩ := nextElement?_close hspace hc
          obtain ⟨c₁', hnext', hc₁'⟩ := nextElement?_close hspace hc'
          rw [hnext, hnext']
          exact .ok _ (Cursor.rest_next_of_eq hc₁) (Cursor.rest_next_of_eq hc₁')
      | @element _ sep v text hsep hv htext =>
          simp only [List.length_append] at hfuel hfuel'
          rw [List.append_assoc, List.append_assoc] at hc hc'
          obtain ⟨c₁, hnext, hc₁⟩ := nextElement?_element hsep hv hc
          obtain ⟨c₁', hnext', hc₁'⟩ := nextElement?_element hsep hv hc'
          obtain ⟨x, rest, rfl, -⟩ := hv.exists_cons
          rw [List.length_cons] at hfuel hfuel'
          rw [hnext, hnext']
          refine (hvalue [] [] isBlank_nil isBlank_nil hv (htext.endsAt _ left)
            (htext.endsAt _ left') hc₁ hc₁').readBelow.bind fun j c c' hc hc' => ?_
          exact ih htext (by omega) (by omega) hc hc'

theorem sameWay_readMembers {value value' : Reader Json} (hvalue : ReadsAlike value value')
    {fuel fuel' : Nat} {first : Bool} {read : Dictionary Json} (htext : MembersText first text)
    (hfuel : text.length < fuel) (hfuel' : text.length < fuel') (hc : c.rest = text ++ left)
    (hc' : c'.rest = text ++ left') :
    SameWay left left' (readMembers value fuel first read c)
      (readMembers value' fuel' first read c') := by
  induction fuel generalizing fuel' first read text c c' with
  | zero => exact absurd hfuel (Nat.not_lt_zero _)
  | succ fuel ih =>
      obtain ⟨fuel', rfl⟩ := Nat.exists_eq_add_one_of_ne_zero (Nat.ne_zero_of_lt hfuel')
      rw [readMembers, readMembers]
      cases htext with
      | close hspace =>
          rw [List.append_assoc, List.singleton_append] at hc hc'
          obtain ⟨c₁, hnext, hc₁⟩ := readKey?_close hspace hc
          obtain ⟨c₁', hnext', hc₁'⟩ := readKey?_close hspace hc'
          rw [hnext, hnext']
          exact .ok _ (Cursor.rest_next_of_eq hc₁) (Cursor.rest_next_of_eq hc₁')
      | @member _ sep key space space' v text hsep hkey hspace hspace' hv htext =>
          simp only [List.length_append, List.length_cons] at hfuel hfuel'
          simp only [List.append_assoc, List.cons_append] at hc hc'
          obtain ⟨c₁, hc₁, hread⟩ := readKey?_member hsep hc
          obtain ⟨c₁', hc₁', hread'⟩ := readKey?_member hsep hc'
          rw [hread, hread', bind_assoc, bind_assoc]
          refine (sameWay_readString hkey hc₁ hc₁').readBelow.bind fun name c c' hc hc' => ?_
          obtain ⟨c₂, hcolon, hc₂⟩ := readColon_of hspace hc
          obtain ⟨c₂', hcolon', hc₂'⟩ := readColon_of hspace hc'
          simp only [ok_bind, hcolon, hcolon']
          refine (hvalue space' space' hspace' hspace' hv (htext.endsAt v left)
            (htext.endsAt v left') hc₂ hc₂').readBelow.bind fun j c c' hc hc' => ?_
          exact ih htext (by omega) (by omega) hc hc'

theorem readValueWithin_of_digit {depth : Nat} {d : Char} {rest : List Char} (hd : isDigit d)
    (hc : c.skipSpace.rest = d :: rest) : readValueWithin depth c =
      readNumber false c.skipSpace >>= fun (n, c) => .ok (.number n, c) := by
  rw [readValueWithin.eq_def]
  dsimp only
  split
  case h_1 hnil => exact nomatch hc.symm.trans hnil
  case h_9 hcons =>
    rw [← (List.cons.inj (hc.symm.trans hcons)).1, if_pos hd]
  all_goals
    rename_i hcons
    obtain rfl := (List.cons.inj (hc.symm.trans hcons)).1
    exact absurd hd (by decide)

theorem readsAlike_readValueWithin : ∀ depth,
    ReadsAlike (readValueWithin depth) (readValueWithin depth)
  | depth, _, _, v, left, left', c, c', hspace, hspace', hv, hleft, hleft', hc, hc' => by
      have hlength (x : Char) (text left : List Char) :
          text.length < (x :: text ++ left).length + 1 := by
        rw [List.length_append, List.length_cons]
        omega
      replace hc := rest_skipSpace_of_value hv hspace hc
      replace hc' := rest_skipSpace_of_value hv hspace' hc'
      -- only a number asks what follows it; every other value ends with a character of its own
      cases hv with
      | nullWord | trueWord | falseWord =>
          rw [readValueWithin.eq_def, readValueWithin.eq_def]
          dsimp only
          rw [hc, hc']
          exact (sameWay_readWord (Cursor.rest_next_of_eq hc) (Cursor.rest_next_of_eq hc')).bind
            fun _ _ _ hc hc' => .ok _ hc hc'
      | string htext =>
          rw [readValueWithin.eq_def, readValueWithin.eq_def]
          dsimp only
          rw [hc, hc']
          exact SameWay.bind (sameWay_readString htext (Cursor.rest_next_of_eq hc)
            (Cursor.rest_next_of_eq hc')) fun _ _ _ hc hc' => .ok _ hc hc'
      | number h =>
          have hstop := hleft h
          have hstop' := hleft' h
          cases h with
          | unsigned h =>
              obtain ⟨d, rest, rfl, hd⟩ := h.exists_cons
              rw [readValueWithin_of_digit hd hc, readValueWithin_of_digit hd hc']
              exact (sameWay_readNumber h hc hc' hstop hstop').bind
                fun _ _ _ hc hc' => .ok _ hc hc'
          | negative h =>
              simp only [takesOn_negative] at hstop hstop'
              rw [readValueWithin.eq_def, readValueWithin.eq_def]
              dsimp only
              rw [hc, hc']
              exact SameWay.bind (sameWay_readNumber h (Cursor.rest_next_of_eq hc)
                (Cursor.rest_next_of_eq hc') hstop hstop') fun _ _ _ hc hc' => .ok _ hc hc'
      | list htext =>
          rw [readValueWithin.eq_def, readValueWithin.eq_def]
          dsimp only
          rw [hc, hc']
          cases depth with
          | zero => exact .error _ _
          | succ depth =>
              show SameWay left left' (readElements _ _ [] _ >>= _) (readElements _ _ [] _ >>= _)
              refine SameWay.bind (sameWay_readElements (readsAlike_readValueWithin depth) htext
                ?_ ?_ (Cursor.rest_next_of_eq hc) (Cursor.rest_next_of_eq hc'))
                fun _ _ _ hc hc' => .ok _ hc hc'
              · exact hlength _ _ _
              · exact hlength _ _ _
      | object htext =>
          rw [readValueWithin.eq_def, readValueWithin.eq_def]
          dsimp only
          rw [hc, hc']
          cases depth with
          | zero => exact .error _ _
          | succ depth =>
              show SameWay left left' (readMembers _ _ _ {} _ >>= _) (readMembers _ _ _ {} _ >>= _)
              refine SameWay.bind (sameWay_readMembers (readsAlike_readValueWithin depth) htext
                ?_ ?_ (Cursor.rest_next_of_eq hc) (Cursor.rest_next_of_eq hc'))
                fun _ _ _ hc hc' => .ok _ hc hc'
              · exact hlength _ _ _
              · exact hlength _ _ _

/-! ## Texts -/

/-- A text starts with a value, and something is left behind it. -/
def StartsWith (cs v left : List Char) : Prop :=
  ∃ space, cs = space ++ (v ++ left) ∧ IsBlank space ∧ ValueText v ∧ EndsAt v left

/-- Texts that start with one value are read alike. -/
theorem sameWay_readValue {v : List Char} (h : StartsWith c.rest v left)
    (h' : StartsWith c'.rest v left') : SameWay left left' (readValue c) (readValue c') := by
  obtain ⟨space, hc, hspace, hv, hends⟩ := h
  obtain ⟨space', hc', hspace', -, hends'⟩ := h'
  exact readsAlike_readValueWithin maxDepth space space' hspace hspace' hv hends hends' hc hc'

theorem SameWay.rest_eq {x : Except ReadError (α × Cursor)} {r : α × Cursor}
    (h : SameWay left left' x x) (hx : x = .ok r) : r.2.rest = left := by
  subst hx
  generalize hr : (Except.ok r : Except ReadError (α × Cursor)) = x at h
  cases h with
  | ok a hc =>
      obtain rfl := Except.ok.inj hr
      exact hc
  | error => exact nomatch hr

theorem exists_readValue {text : String} {j : Json} (h : parse text = .ok j) :
    ∃ c, readValue (.ofString text) = .ok (j, c) := by
  rw [parse] at h
  cases hvalue : readValue (.ofString text) with
  | error e =>
      rw [hvalue] at h
      exact nomatch h
  | ok r =>
      rw [hvalue] at h
      obtain rfl : r.1 = j := Except.ok.inj h
      exact ⟨r.2, rfl⟩

/-- A text is read exactly if it starts with a value that is read by itself. What is left behind
the value makes no difference. -/
theorem parse_eq_ok_iff {text : String} {j : Json} : parse text = .ok j ↔
    ∃ v left, StartsWith text.toList v left ∧ parse (String.ofList v) = .ok j := by
  have hparse {v left : List Char} (h : StartsWith text.toList v left) :
      parse text = .ok j ↔ parse (String.ofList v) = .ok j := by
    have halone : StartsWith (String.ofList v).toList v [] := by
      obtain ⟨space, -, -, hv, -⟩ := h
      exact ⟨[], by simp, isBlank_nil, hv, nofun⟩
    have hway : SameWay left [] (readValue (.ofString text))
        (readValue (.ofString (String.ofList v))) := sameWay_readValue h halone
    rw [parse, parse]
    generalize readValue (.ofString text) = x at hway ⊢
    generalize readValue (.ofString (String.ofList v)) = x' at hway ⊢
    cases hway with
    | ok a hc hc' => exact Iff.rfl
    | error e e' => exact ⟨nofun, nofun⟩
  constructor
  · intro h
    obtain ⟨c, hread⟩ := exists_readValue h
    obtain ⟨space, v, hc, hspace, hv, hends⟩ := took_readValueWithin maxDepth hread
    have hstarts : StartsWith text.toList v c.rest := ⟨space, hc, hspace, hv, hends⟩
    exact ⟨v, _, hstarts, (hparse hstarts).mp h⟩
  · rintro ⟨v, left, hstarts, h⟩
    exact (hparse hstarts).mpr h

/-- However a text that is read is taken apart, the same is left behind its first value. -/
theorem StartsWith.left_unique {text : String} {j : Json} {v v' : List Char}
    (hread : parse text = .ok j) (h : StartsWith text.toList v left)
    (h' : StartsWith text.toList v' left') : left = left' := by
  have hway {v left : List Char} (h : StartsWith text.toList v left) :
      SameWay left left (readValue (.ofString text)) (readValue (.ofString text)) :=
    sameWay_readValue h h
  obtain ⟨c, hread⟩ := exists_readValue hread
  exact ((hway h).rest_eq hread).symm.trans ((hway h').rest_eq hread)

theorem isOneValue_iff {text : String} {j : Json} {v : List Char}
    (hread : parse text = .ok j) (h : StartsWith text.toList v left) :
    IsOneValue text.toList ↔ IsBlank left := by
  constructor
  · rintro ⟨space, v', left', hc, hspace, hv', hleft'⟩
    exact h.left_unique hread ⟨space, hc, hspace, hv', endsAt_blank hleft' v'⟩ ▸ hleft'
  · intro hleft
    obtain ⟨space, hc, hspace, hv, -⟩ := h
    exact ⟨space, v, left, hc, hspace, hv, hleft⟩

end TypeOutline.Json
