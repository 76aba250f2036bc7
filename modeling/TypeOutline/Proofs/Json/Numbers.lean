import TypeOutline.Proofs.Json.Reading

/-!
# Reading numbers

A number is taken as far as it goes: part by part, the reader stops where
no character follows that would take the number on (`Stops`), and where a
number ends in that sense it goes the same way whatever follows.
-/

namespace TypeOutline.Json

variable {c c' : Cursor} {left left' ds : List Char}
variable {negative : Bool} {digits : Nat} {e : Int} {n : Number}

/-! ## The parts of a reading -/

/-- Whether a sign turns an exponent down, and what is left after the sign. -/
def readSign (c : Cursor) : Bool × Cursor :=
  match c.rest with
  | '+' :: _ => (false, c.next)
  | '-' :: _ => (true, c.next)
  | _ => (false, c)

/-- An exponent, after its mark and its sign. -/
def readPower (negative : Bool) (digits : Nat) (e : Int) (down : Bool) : Reader Number := fun c =>
  match c.rest with
  | [] => failHere .endInValue c
  | d :: _ =>
    if !isDigit d then failAhead .invalidNumber c
    else
      let (ds, after) := takeDigits c
      let (n, left) := accumulate maxExponent 0 ds
      if left.isEmpty then
        readScaled negative digits (if down then e - n else e + n) after
      else if digits ≠ 0 && !down then
        .error
          { fault := .numberOutOfRange
            place := c.place.after (ds.length - left.length + 1) ds }
      else .ok (.ofFloat (if negative then -0.0 else 0.0), after)

/-- A number, after the digits of its whole part. -/
def readAfterWhole (negative : Bool) (ds : List Char) : Reader Number := fun c =>
  let (n, left) := accumulate maxWhole 0 ds
  match c.rest with
  | '.' :: _ => readDecimals negative n left.length c
  | 'e' :: _ | 'E' :: _ => readExponent negative n left.length c
  | _ =>
    if left.isEmpty then .ok (signed negative n, c)
    else readScaled negative n left.length c

theorem readExponent_eq (negative : Bool) (digits : Nat) (e : Int) (c : Cursor) :
    readExponent negative digits e c =
      readPower negative digits e (readSign c.next).1 (readSign c.next).2 := rfl

theorem readNumber_of_zero {rest : List Char} (hc : c.rest = '0' :: rest) :
    readNumber negative c =
      if c.next.rest.head?.any isDigit then failAhead .invalidNumber c.next
      else readAfterWhole negative ['0'] c.next := by
  rw [readNumber]
  simp only [hc]
  rw [if_neg (by decide)]
  simp only [if_true, decide_true, Bool.true_and]
  rfl

theorem readNumber_of_digit {d : Char} {rest : List Char} (hc : c.rest = d :: rest)
    (hd : isDigit d) (hzero : d ≠ '0') : readNumber negative c =
      readAfterWhole negative (takeDigits c).1 (takeDigits c).2 := by
  rw [readNumber]
  simp only [hc]
  rw [if_neg (by simpa using hd), if_neg hzero]
  simp only [decide_eq_false hzero, Bool.false_and]
  rfl

/-! ## Where a number ends -/

/-- A character that does not take a number with these parts on. -/
def Stops (decimals exponent : List Char) (c : Char) : Prop :=
  ¬ isDigit c ∧ (exponent = [] → c ≠ 'e' ∧ c ≠ 'E' ∧ (decimals = [] → c ≠ '.'))

theorem not_mem_of_digits {ds : List Char} {x : Char} (hds : ∀ d ∈ ds, isDigit d)
    (hx : isDigit x = false) : x ∉ ds :=
  fun h => Bool.false_ne_true (hx.symm.trans (hds x h))

/-- What takes a number on is known by the parts that the number has. -/
theorem not_takesOn_iff {whole decimals exponent : List Char} {d : Char} (hwhole : WholeText whole)
    (hdecimals : DecimalsText decimals) (hexponent : ExponentText exponent) :
    ¬ TakesOn (whole ++ (decimals ++ exponent)) d ↔ Stops decimals exponent d := by
  have he := not_mem_of_digits hwhole.digits_only (x := 'e') rfl
  have hE := not_mem_of_digits hwhole.digits_only (x := 'E') rfl
  have hpoint := not_mem_of_digits hwhole.digits_only (x := '.') rfl
  rw [TakesOn, Stops, not_or]
  refine and_congr_right fun _ => ?_
  cases hexponent with
  | some hmark => rcases hmark with rfl | rfl <;> simp
  | none =>
      cases hdecimals with
      | none => simp [he, hE, hpoint]
      | some hds =>
          have hde := not_mem_of_digits hds.2 (x := 'e') rfl
          have hdE := not_mem_of_digits hds.2 (x := 'E') rfl
          simp [he, hE, hde, hdE]

theorem takesOn_negative {v : List Char} {d : Char} : TakesOn ('-' :: v) d ↔ TakesOn v d := by
  simp [TakesOn]

/-! ## What is taken -/

theorem eq_of_readScaled (h : readScaled negative digits e c = .ok (n, c')) : c' = c := by
  rw [readScaled] at h
  split at h
  · exact nomatch h
  · exact (Prod.mk.inj (Except.ok.inj h)).2.symm

theorem rest_readSign (c : Cursor) : ∃ sign, c.rest = sign ++ (readSign c).2.rest
    ∧ (sign = [] ∨ sign = ['+'] ∨ sign = ['-']) := by
  rw [readSign]
  split
  · rename_i rest h
    exact ⟨['+'], by rw [Cursor.rest_next, h]; rfl, by simp⟩
  · rename_i rest h
    exact ⟨['-'], by rw [Cursor.rest_next, h]; rfl, by simp⟩
  · exact ⟨[], rfl, by simp⟩

theorem took_readPower {down : Bool} (h : readPower negative digits e down c = .ok (n, c')) :
    ∃ ds, c.rest = ds ++ c'.rest ∧ AreDigits ds ∧ ∀ d ∈ c'.rest.head?, ¬ isDigit d := by
  obtain ⟨htook, hdigits, hstop⟩ := takeDigits_spec c
  rw [readPower] at h
  split at h
  · cases h
  · rename_i d rest hc
    split at h
    · cases h
    · rename_i hd
      have hnil : (takeDigits c).1 ≠ [] := by
        rw [takeDigits, hc, List.takeWhile_cons_of_pos (by simpa using hd)]
        exact List.cons_ne_nil _ _
      have hend : c' = (takeDigits c).2 := by
        dsimp only at h
        split at h
        · exact eq_of_readScaled h
        · split at h
          · cases h
          · exact (Prod.mk.inj (Except.ok.inj h)).2.symm
      exact ⟨_, hend ▸ htook, ⟨hnil, hdigits⟩, hend ▸ hstop⟩

theorem took_readExponent {mark : Char} {rest : List Char} (decimals : List Char)
    (hc : c.rest = mark :: rest) (hmark : mark = 'e' ∨ mark = 'E')
    (h : readExponent negative digits e c = .ok (n, c')) :
    ∃ exponent, c.rest = exponent ++ c'.rest ∧ ExponentText exponent
      ∧ ∀ d ∈ c'.rest.head?, Stops decimals exponent d := by
  obtain ⟨sign, hsigned, hsign⟩ := rest_readSign c.next
  obtain ⟨ds, hds, hdigits, hstop⟩ := took_readPower (readExponent_eq .. ▸ h)
  refine ⟨mark :: (sign ++ ds), ?_, .some hmark hsign hdigits, fun d hd => ⟨hstop d hd, nofun⟩⟩
  rw [Cursor.rest_next_of_eq hc] at hsigned
  rw [hc, hsigned, hds, List.cons_append, List.append_assoc]

theorem took_readAfterDigits {decimals : List Char} (hdecimals : decimals ≠ [])
    (hc : ∀ d ∈ c.rest.head?, ¬ isDigit d)
    (h : readAfterDigits negative digits e c = .ok (n, c')) :
    ∃ exponent, c.rest = exponent ++ c'.rest ∧ ExponentText exponent
      ∧ ∀ d ∈ c'.rest.head?, Stops decimals exponent d := by
  rw [readAfterDigits] at h
  split at h
  · rename_i rest hmark
    exact took_readExponent decimals hmark (.inl rfl) h
  · rename_i rest hmark
    exact took_readExponent decimals hmark (.inr rfl) h
  · rename_i hlower hupper
    obtain rfl := eq_of_readScaled h
    refine ⟨[], rfl, .none, fun d hd => ⟨hc d hd, fun _ => ?_⟩⟩
    obtain ⟨rest, hrest⟩ := List.head?_eq_some_iff.mp hd
    exact ⟨fun he => hlower rest (he ▸ hrest), fun he => hupper rest (he ▸ hrest),
      fun hnil => absurd hnil hdecimals⟩

theorem took_readDecimals {rest : List Char} (hc : c.rest = '.' :: rest)
    (h : readDecimals negative digits e c = .ok (n, c')) :
    ∃ decimals exponent, c.rest = decimals ++ (exponent ++ c'.rest) ∧ DecimalsText decimals
      ∧ ExponentText exponent ∧ ∀ d ∈ c'.rest.head?, Stops decimals exponent d := by
  obtain ⟨htook, hdigits, hstop⟩ := takeDigits_spec c.next
  rw [readDecimals] at h
  dsimp only at h
  split at h
  · split at h
    · exact nomatch h
    · exact nomatch h
  · rename_i hnil
    obtain ⟨exponent, hrest, hexponent, hstops⟩ :=
      took_readAfterDigits (List.cons_ne_nil '.' (takeDigits c.next).1) hstop h
    refine ⟨_, exponent, ?_, .some ⟨mt List.isEmpty_iff.mpr hnil, hdigits⟩, hexponent, hstops⟩
    rw [Cursor.rest_next_of_eq hc] at htook
    rw [hc, List.cons_append, ← hrest, ← htook]

theorem took_readAfterWhole {ds : List Char} (hc : ∀ d ∈ c.rest.head?, ¬ isDigit d)
    (h : readAfterWhole negative ds c = .ok (n, c')) :
    ∃ decimals exponent, c.rest = decimals ++ (exponent ++ c'.rest) ∧ DecimalsText decimals
      ∧ ExponentText exponent ∧ ∀ d ∈ c'.rest.head?, Stops decimals exponent d := by
  rw [readAfterWhole] at h
  dsimp only at h
  split at h
  · rename_i rest hpoint
    exact took_readDecimals hpoint h
  · rename_i rest hmark
    obtain ⟨exponent, hrest, hexponent, hstops⟩ := took_readExponent [] hmark (.inl rfl) h
    exact ⟨[], exponent, hrest, .none, hexponent, hstops⟩
  · rename_i rest hmark
    obtain ⟨exponent, hrest, hexponent, hstops⟩ := took_readExponent [] hmark (.inr rfl) h
    exact ⟨[], exponent, hrest, .none, hexponent, hstops⟩
  · rename_i hpoint hlower hupper
    have hend : c' = c := by
      split at h
      · exact (Prod.mk.inj (Except.ok.inj h)).2.symm
      · exact eq_of_readScaled h
    subst hend
    refine ⟨[], [], rfl, .none, .none, fun d hd => ⟨hc d hd, fun _ => ?_⟩⟩
    obtain ⟨rest, hrest⟩ := List.head?_eq_some_iff.mp hd
    exact ⟨fun he => hlower rest (he ▸ hrest), fun he => hupper rest (he ▸ hrest),
      fun _ he => hpoint rest (he ▸ hrest)⟩

theorem took_readNumber (h : readNumber negative c = .ok (n, c')) :
    ∃ v, c.rest = v ++ c'.rest ∧ UnsignedText v ∧ ∀ d ∈ c'.rest.head?, ¬ TakesOn v d := by
  have hparts : ∃ whole decimals exponent, c.rest = whole ++ (decimals ++ (exponent ++ c'.rest))
      ∧ WholeText whole ∧ DecimalsText decimals ∧ ExponentText exponent
      ∧ ∀ d ∈ c'.rest.head?, Stops decimals exponent d := by
    cases hc : c.rest with
    | nil =>
        rw [readNumber, hc] at h
        cases h
    | cons d rest =>
        by_cases hd : isDigit d
        · by_cases hzero : d = '0'
          · subst hzero
            rw [readNumber_of_zero hc] at h
            split at h
            · cases h
            · rename_i hnext
              have hnext : ∀ d ∈ c.next.rest.head?, ¬ isDigit d := fun d hd hdigit =>
                hnext (by rw [Option.mem_def.mp hd]; exact hdigit)
              obtain ⟨decimals, exponent, hrest, hparts⟩ := took_readAfterWhole hnext h
              rw [Cursor.rest_next_of_eq hc] at hrest
              exact ⟨['0'], decimals, exponent, by rw [hrest]; rfl, .zero, hparts⟩
          · rw [readNumber_of_digit hc hd hzero] at h
            obtain ⟨htook, hdigits, hstop⟩ := takeDigits_spec c
            obtain ⟨decimals, exponent, hrest, hparts⟩ := took_readAfterWhole hstop h
            refine ⟨_, decimals, exponent, by rw [← hc, htook, hrest], ?_, hparts⟩
            rw [takeDigits, hc, List.takeWhile_cons_of_pos hd] at hdigits ⊢
            exact .digits hd hzero fun e he => hdigits e (List.mem_cons_of_mem _ he)
        · rw [readNumber, hc] at h
          simp only [hd, Bool.not_false, if_true] at h
          cases h
  obtain ⟨whole, decimals, exponent, hrest, hwhole, hdecimals, hexponent, hstops⟩ := hparts
  refine ⟨whole ++ (decimals ++ exponent), ?_, .intro hwhole hdecimals hexponent, fun d hd =>
    (not_takesOn_iff hwhole hdecimals hexponent).mpr (hstops d hd)⟩
  rw [hrest, List.append_assoc, List.append_assoc]

/-! ## Whatever follows -/

theorem sameWay_readScaled (hc : c.rest = left) (hc' : c'.rest = left') :
    SameWay left left' (readScaled negative digits e c) (readScaled negative digits e c') := by
  rw [readScaled, readScaled]
  split
  · exact .error _ _
  · exact .ok _ hc hc'

theorem sameWay_readPower {down : Bool} (hds : AreDigits ds) (hc : c.rest = ds ++ left)
    (hc' : c'.rest = ds ++ left') (hleft : ∀ d ∈ left.head?, ¬ isDigit d)
    (hleft' : ∀ d ∈ left'.head?, ¬ isDigit d) :
    SameWay left left' (readPower negative digits e down c)
      (readPower negative digits e down c') := by
  obtain ⟨hfst, hsnd⟩ := takeDigits_of hc hds.2 hleft
  obtain ⟨hfst', hsnd'⟩ := takeDigits_of hc' hds.2 hleft'
  obtain ⟨d, rest, rfl⟩ := List.exists_cons_of_ne_nil hds.1
  have hd := hds.2 d List.mem_cons_self
  rw [readPower, readPower, hc, hc']
  simp only [List.cons_append, hd, Bool.not_true, Bool.false_eq_true, if_false, hfst, hfst']
  split
  · exact sameWay_readScaled hsnd hsnd'
  · split
    · exact .error _ _
    · exact .ok _ hsnd hsnd'

theorem readSign_of {sign : List Char} (hsign : sign = [] ∨ sign = ['+'] ∨ sign = ['-'])
    (hds : AreDigits ds) (hc : c.rest = sign ++ (ds ++ left)) :
    (readSign c).1 = decide (sign = ['-']) ∧ (readSign c).2.rest = ds ++ left := by
  obtain ⟨d, rest, rfl⟩ := List.exists_cons_of_ne_nil hds.1
  have hd := hds.2 d List.mem_cons_self
  rw [readSign]
  obtain rfl | rfl | rfl := hsign
  · rw [hc]
    split
    · rename_i hplus
      obtain rfl := (List.cons.inj hplus).1
      exact absurd hd (by decide)
    · rename_i hminus
      obtain rfl := (List.cons.inj hminus).1
      exact absurd hd (by decide)
    · exact ⟨rfl, hc⟩
  · have hnext : c.next.rest = d :: rest ++ left := Cursor.rest_next_of_eq hc
    rw [hc]
    exact ⟨rfl, hnext⟩
  · have hnext : c.next.rest = d :: rest ++ left := Cursor.rest_next_of_eq hc
    rw [hc]
    exact ⟨rfl, hnext⟩

theorem not_isDigit_of_stops {decimals exponent : List Char}
    (h : ∀ d ∈ left.head?, Stops decimals exponent d) : ∀ d ∈ left.head?, ¬ isDigit d :=
  fun d hd => (h d hd).1

theorem not_isDigit_exponent {decimals exponent : List Char} (hexponent : ExponentText exponent)
    (h : ∀ d ∈ left.head?, Stops decimals exponent d) :
    ∀ d ∈ (exponent ++ left).head?, ¬ isDigit d := by
  cases hexponent with
  | none => exact not_isDigit_of_stops h
  | some hmark =>
      intro d hd
      obtain rfl := Option.some.inj hd
      obtain rfl | rfl := hmark <;> decide

theorem not_isDigit_decimals {decimals exponent : List Char} (hdecimals : DecimalsText decimals)
    (hexponent : ExponentText exponent) (h : ∀ d ∈ left.head?, Stops decimals exponent d) :
    ∀ d ∈ (decimals ++ (exponent ++ left)).head?, ¬ isDigit d := by
  cases hdecimals with
  | none =>
      rw [List.nil_append]
      exact not_isDigit_exponent hexponent h
  | some =>
      intro d hd
      obtain rfl := Option.some.inj hd
      decide

theorem sameWay_readExponent {decimals exponent : List Char} (hexponent : ExponentText exponent)
    (hnil : exponent ≠ []) (hc : c.rest = exponent ++ left) (hc' : c'.rest = exponent ++ left')
    (hleft : ∀ d ∈ left.head?, Stops decimals exponent d)
    (hleft' : ∀ d ∈ left'.head?, Stops decimals exponent d) :
    SameWay left left' (readExponent negative digits e c) (readExponent negative digits e c') := by
  cases hexponent with
  | none => exact absurd rfl hnil
  | @some mark sign ds hmark hsign hds =>
      have hnext {c : Cursor} {left : List Char} (hc : c.rest = mark :: (sign ++ ds) ++ left) :
          c.next.rest = sign ++ (ds ++ left) := by
        rw [Cursor.rest_next, hc, List.cons_append, List.tail_cons, List.append_assoc]
      obtain ⟨hdown, hrest⟩ := readSign_of hsign hds (hnext hc)
      obtain ⟨hdown', hrest'⟩ := readSign_of hsign hds (hnext hc')
      rw [readExponent_eq, readExponent_eq, hdown, hdown']
      exact sameWay_readPower hds hrest hrest' (not_isDigit_of_stops hleft)
        (not_isDigit_of_stops hleft')

/-- Where no exponent follows, what follows starts none. -/
theorem ne_of_stops {decimals : List Char} {x : Char} {rest : List Char}
    (h : ∀ d ∈ left.head?, Stops decimals [] d) (hleft : left = x :: rest) :
    x ≠ 'e' ∧ x ≠ 'E' ∧ (decimals = [] → x ≠ '.') :=
  (h x (hleft ▸ rfl)).2 rfl

theorem sameWay_readAfterDigits {decimals exponent : List Char} (hexponent : ExponentText exponent)
    (hc : c.rest = exponent ++ left) (hc' : c'.rest = exponent ++ left')
    (hleft : ∀ d ∈ left.head?, Stops decimals exponent d)
    (hleft' : ∀ d ∈ left'.head?, Stops decimals exponent d) :
    SameWay left left' (readAfterDigits negative digits e c)
      (readAfterDigits negative digits e c') := by
  have hplain {c : Cursor} {left : List Char} (hc : c.rest = left)
      (h : ∀ d ∈ left.head?, Stops decimals [] d) :
      readAfterDigits negative digits e c = readScaled negative digits e c := by
    rw [readAfterDigits]
    split
    · rename_i hrest
      exact absurd rfl (ne_of_stops h (hc.symm.trans hrest)).1
    · rename_i hrest
      exact absurd rfl (ne_of_stops h (hc.symm.trans hrest)).2.1
    · rfl
  have hmarked {c : Cursor} {mark : Char} {rest : List Char} (hmark : mark = 'e' ∨ mark = 'E')
      (hc : c.rest = mark :: rest) :
      readAfterDigits negative digits e c = readExponent negative digits e c := by
    rw [readAfterDigits, hc]
    obtain rfl | rfl := hmark <;> rfl
  cases hexponent with
  | none =>
      rw [hplain hc hleft, hplain hc' hleft']
      exact sameWay_readScaled hc hc'
  | some hmark hsign hds =>
      rw [hmarked hmark hc, hmarked hmark hc']
      exact sameWay_readExponent (.some hmark hsign hds) (List.cons_ne_nil _ _) hc hc' hleft hleft'

theorem sameWay_readDecimals {exponent : List Char} (hds : AreDigits ds)
    (hexponent : ExponentText exponent) (hc : c.rest = '.' :: ds ++ (exponent ++ left))
    (hc' : c'.rest = '.' :: ds ++ (exponent ++ left'))
    (hleft : ∀ d ∈ left.head?, Stops ('.' :: ds) exponent d)
    (hleft' : ∀ d ∈ left'.head?, Stops ('.' :: ds) exponent d) :
    SameWay left left' (readDecimals negative digits e c) (readDecimals negative digits e c') := by
  have hdigits {c : Cursor} {left : List Char} (hc : c.rest = '.' :: ds ++ (exponent ++ left))
      (hleft : ∀ d ∈ left.head?, Stops ('.' :: ds) exponent d) :
      (takeDigits c.next).1 = ds ∧ (takeDigits c.next).2.rest = exponent ++ left :=
    takeDigits_of (Cursor.rest_next_of_eq hc) hds.2 (not_isDigit_exponent hexponent hleft)
  obtain ⟨hfst, hsnd⟩ := hdigits hc hleft
  obtain ⟨hfst', hsnd'⟩ := hdigits hc' hleft'
  rw [readDecimals, readDecimals]
  dsimp only
  rw [hfst, hfst', if_neg (mt List.isEmpty_iff.mp hds.1), if_neg (mt List.isEmpty_iff.mp hds.1)]
  exact sameWay_readAfterDigits hexponent hsnd hsnd' hleft hleft'

theorem sameWay_readAfterWhole {decimals exponent : List Char} (hdecimals : DecimalsText decimals)
    (hexponent : ExponentText exponent) (hc : c.rest = decimals ++ (exponent ++ left))
    (hc' : c'.rest = decimals ++ (exponent ++ left'))
    (hleft : ∀ d ∈ left.head?, Stops decimals exponent d)
    (hleft' : ∀ d ∈ left'.head?, Stops decimals exponent d) :
    SameWay left left' (readAfterWhole negative ds c) (readAfterWhole negative ds c') := by
  have hplain {c : Cursor} {left : List Char} (hc : c.rest = left)
      (h : ∀ d ∈ left.head?, Stops [] [] d) : readAfterWhole negative ds c =
        if (accumulate maxWhole 0 ds).2.isEmpty then
          .ok (signed negative (accumulate maxWhole 0 ds).1, c)
        else readScaled negative (accumulate maxWhole 0 ds).1
          (accumulate maxWhole 0 ds).2.length c := by
    rw [readAfterWhole]
    dsimp only
    split
    · rename_i hrest
      exact absurd rfl ((ne_of_stops h (hc.symm.trans hrest)).2.2 rfl)
    · rename_i hrest
      exact absurd rfl (ne_of_stops h (hc.symm.trans hrest)).1
    · rename_i hrest
      exact absurd rfl (ne_of_stops h (hc.symm.trans hrest)).2.1
    · rfl
  cases hdecimals with
  | some hds =>
      rw [readAfterWhole, readAfterWhole, hc, hc']
      exact sameWay_readDecimals hds hexponent hc hc' hleft hleft'
  | none =>
      cases hexponent with
      | none =>
          rw [hplain hc hleft, hplain hc' hleft']
          split
          · exact .ok _ hc hc'
          · exact sameWay_readScaled hc hc'
      | some hmark hsign hds =>
          have hexponent := ExponentText.some hmark hsign hds
          rw [readAfterWhole, readAfterWhole, hc, hc']
          obtain rfl | rfl := hmark
          · exact sameWay_readExponent hexponent (List.cons_ne_nil _ _) hc hc' hleft hleft'
          · exact sameWay_readExponent hexponent (List.cons_ne_nil _ _) hc hc' hleft hleft'

theorem sameWay_readNumber {v : List Char} (hv : UnsignedText v) (hc : c.rest = v ++ left)
    (hc' : c'.rest = v ++ left') (hleft : ∀ d ∈ left.head?, ¬ TakesOn v d)
    (hleft' : ∀ d ∈ left'.head?, ¬ TakesOn v d) :
    SameWay left left' (readNumber negative c) (readNumber negative c') := by
  cases hv with
  | @intro whole decimals exponent hwhole hdecimals hexponent =>
      simp only [not_takesOn_iff hwhole hdecimals hexponent] at hleft hleft'
      rw [List.append_assoc, List.append_assoc] at hc hc'
      have hnext := not_isDigit_decimals hdecimals hexponent hleft
      have hnext' := not_isDigit_decimals hdecimals hexponent hleft'
      cases hwhole with
      | zero =>
          have hzero {c : Cursor} {rest : List Char} (hc : c.rest = ['0'] ++ rest)
              (hrest : ∀ d ∈ rest.head?, ¬ isDigit d) :
              readNumber negative c = readAfterWhole negative ['0'] c.next
                ∧ c.next.rest = rest := by
            have hcnext : c.next.rest = rest := Cursor.rest_next_of_eq hc
            rw [readNumber_of_zero hc, hcnext, if_neg]
            · exact ⟨rfl, rfl⟩
            · cases hhead : rest.head? with
              | none => exact Bool.false_ne_true
              | some d => exact hrest d hhead
          obtain ⟨hread, hrest⟩ := hzero hc hnext
          obtain ⟨hread', hrest'⟩ := hzero hc' hnext'
          rw [hread, hread']
          exact sameWay_readAfterWhole hdecimals hexponent hrest hrest' hleft hleft'
      | @digits d ds hd hzero hds =>
          have hall : ∀ e ∈ d :: ds, isDigit e := List.forall_mem_cons.mpr ⟨hd, hds⟩
          obtain ⟨hfst, hsnd⟩ := takeDigits_of hc hall hnext
          obtain ⟨hfst', hsnd'⟩ := takeDigits_of hc' hall hnext'
          rw [readNumber_of_digit hc hd hzero, readNumber_of_digit hc' hd hzero, hfst, hfst']
          exact sameWay_readAfterWhole hdecimals hexponent hsnd hsnd' hleft hleft'

end TypeOutline.Json
