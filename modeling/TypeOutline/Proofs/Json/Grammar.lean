import TypeOutline.Json.Reader

/-!
# The grammar of JSON texts

What a JSON text is, by itself: white space, words, numbers, strings, lists
and objects, as texts that are put together, without a reader. Only where a
value ends is not in its text: a number ends where no character follows
that would take it on (`EndsAt`), any other value with its last character.
-/

namespace TypeOutline.Json

/-- White space between tokens. -/
def IsBlank (cs : List Char) : Prop := ∀ c ∈ cs, Cursor.isSpace c

/-! ## Numbers -/

/-- One digit or more. -/
def AreDigits (ds : List Char) : Prop := ds ≠ [] ∧ ∀ d ∈ ds, isDigit d

/-- The digits before the point, without a zero in front of others. -/
inductive WholeText : List Char → Prop
  | zero : WholeText ['0']
  | digits {d : Char} {ds : List Char} (hd : isDigit d) (hzero : d ≠ '0')
      (hds : ∀ e ∈ ds, isDigit e) : WholeText (d :: ds)

/-- A point and digits, or nothing. -/
inductive DecimalsText : List Char → Prop
  | none : DecimalsText []
  | some {ds : List Char} (hds : AreDigits ds) : DecimalsText ('.' :: ds)

/-- The mark of an exponent, a sign or none, and digits, or nothing. -/
inductive ExponentText : List Char → Prop
  | none : ExponentText []
  | some {mark : Char} {sign ds : List Char} (hmark : mark = 'e' ∨ mark = 'E')
      (hsign : sign = [] ∨ sign = ['+'] ∨ sign = ['-']) (hds : AreDigits ds) :
      ExponentText (mark :: (sign ++ ds))

/-- A number without a sign. -/
inductive UnsignedText : List Char → Prop
  | intro {whole decimals exponent : List Char} (hwhole : WholeText whole)
      (hdecimals : DecimalsText decimals) (hexponent : ExponentText exponent) :
      UnsignedText (whole ++ (decimals ++ exponent))

inductive NumberText : List Char → Prop
  | unsigned {v : List Char} (h : UnsignedText v) : NumberText v
  | negative {v : List Char} (h : UnsignedText v) : NumberText ('-' :: v)

/-- The characters that take a number on: a digit, the mark of an exponent if it has none, and a
point if it is whole. -/
def TakesOn (v : List Char) (c : Char) : Prop :=
  isDigit c ∨ ('e' ∉ v ∧ 'E' ∉ v ∧ (c = 'e' ∨ c = 'E' ∨ c = '.' ∧ '.' ∉ v))

/-! ## Strings -/

/-- A character of a string, or an escape. -/
inductive CharText : List Char → Prop
  | plain {c : Char} (hquote : c ≠ '"') (hback : c ≠ '\\') (hcontrol : ¬ c.toNat < 0x20) :
      CharText [c]
  | escaped {c : Char} (h : c ∈ ['"', '\\', '/', 'b', 'f', 'n', 'r', 't']) : CharText ['\\', c]
  | unicode {p q r s : Char} (h : ∀ x ∈ [p, q, r, s], (hexValue? x).isSome) :
      CharText ['\\', 'u', p, q, r, s]

/-- A string after its opening quote, up to and with the closing one. -/
inductive StringText : List Char → Prop
  | close : StringText ['"']
  | char {cs text : List Char} (hchar : CharText cs) (h : StringText text) :
      StringText (cs ++ text)

/-! ## Values -/

/-- What stands before an element or a member: white space, and a comma if it is not the first. -/
inductive SeparatorText : (first : Bool) → List Char → Prop
  | first {space : List Char} (hspace : IsBlank space) : SeparatorText true space
  | next {space space' : List Char} (hspace : IsBlank space) (hspace' : IsBlank space') :
      SeparatorText false (space ++ ',' :: space')

mutual

inductive ValueText : List Char → Prop
  | nullWord : ValueText "null".toList
  | trueWord : ValueText "true".toList
  | falseWord : ValueText "false".toList
  | number {v : List Char} (h : NumberText v) : ValueText v
  | string {text : List Char} (h : StringText text) : ValueText ('"' :: text)
  | list {text : List Char} (h : ElementsText true text) : ValueText ('[' :: text)
  | object {text : List Char} (h : MembersText true text) : ValueText ('\x7b' :: text)

/-- The elements of a list after its opening bracket, or after an element, up to and with the
closing bracket. -/
inductive ElementsText : (first : Bool) → List Char → Prop
  | close {first : Bool} {space : List Char} (hspace : IsBlank space) :
      ElementsText first (space ++ [']'])
  | element {first : Bool} {sep v text : List Char} (hsep : SeparatorText first sep)
      (hv : ValueText v) (h : ElementsText false text) : ElementsText first (sep ++ (v ++ text))

/-- The members of an object after its opening brace, or after a member, up to and with the closing
brace. -/
inductive MembersText : (first : Bool) → List Char → Prop
  | close {first : Bool} {space : List Char} (hspace : IsBlank space) :
      MembersText first (space ++ ['\x7d'])
  | member {first : Bool} {sep key space space' v text : List Char}
      (hsep : SeparatorText first sep) (hkey : StringText key) (hspace : IsBlank space)
      (hspace' : IsBlank space') (hv : ValueText v) (h : MembersText false text) :
      MembersText first (sep ++ '"' :: (key ++ (space ++ ':' :: (space' ++ (v ++ text)))))

end

/-- A value ends before what follows it. -/
def EndsAt (v left : List Char) : Prop := NumberText v → ∀ c ∈ left.head?, ¬ TakesOn v c

theorem isBlank_nil : IsBlank [] := List.forall_mem_nil _

theorem IsBlank.append {cs ds : List Char} (hcs : IsBlank cs) (hds : IsBlank ds) :
    IsBlank (cs ++ ds) :=
  List.forall_mem_append.mpr ⟨hcs, hds⟩

theorem SeparatorText.append {first : Bool} {sep space : List Char} (h : SeparatorText first sep)
    (hspace : IsBlank space) : SeparatorText first (sep ++ space) := by
  cases h with
  | first h => exact .first (h.append hspace)
  | next h h' =>
      rw [List.append_assoc, List.cons_append]
      exact .next h (h'.append hspace)

theorem WholeText.digits_only {whole : List Char} (h : WholeText whole) :
    ∀ d ∈ whole, isDigit d := by
  cases h with
  | zero => exact fun d hd => List.mem_singleton.mp hd ▸ rfl
  | digits hd _ hds => exact List.forall_mem_cons.mpr ⟨hd, hds⟩

theorem UnsignedText.exists_cons {v : List Char} (h : UnsignedText v) :
    ∃ d rest, v = d :: rest ∧ isDigit d := by
  obtain ⟨hwhole, hdecimals, hexponent⟩ := h
  cases hwhole with
  | zero => exact ⟨'0', _, rfl, rfl⟩
  | digits hd => exact ⟨_, _, rfl, hd⟩

theorem NumberText.exists_cons {v : List Char} (h : NumberText v) :
    ∃ x rest, v = x :: rest ∧ (x = '-' ∨ isDigit x) := by
  cases h with
  | unsigned h =>
      obtain ⟨d, rest, rfl, hd⟩ := h.exists_cons
      exact ⟨d, rest, rfl, .inr hd⟩
  | negative => exact ⟨'-', _, rfl, .inl rfl⟩

/-- A value that does not start like a number ends with its last character. -/
theorem endsAt_cons {c : Char} {cs : List Char} (hsign : c ≠ '-') (hdigit : isDigit c = false)
    (left : List Char) : EndsAt (c :: cs) left := by
  intro h
  obtain ⟨x, rest, hv, hx⟩ := h.exists_cons
  obtain rfl := (List.cons.inj hv).1
  exact absurd hx (by simp [hsign, hdigit])

/-- The first character of a value is no white space and no bracket that closes. -/
theorem ValueText.exists_cons {v : List Char} (h : ValueText v) :
    ∃ x rest, v = x :: rest ∧ Cursor.isSpace x = false ∧ x ≠ ']' := by
  cases h with
  | nullWord => exact ⟨'n', _, rfl, rfl, by decide⟩
  | trueWord => exact ⟨'t', _, rfl, rfl, by decide⟩
  | falseWord => exact ⟨'f', _, rfl, rfl, by decide⟩
  | string => exact ⟨'"', _, rfl, rfl, by decide⟩
  | list => exact ⟨'[', _, rfl, rfl, by decide⟩
  | object => exact ⟨'\x7b', _, rfl, rfl, by decide⟩
  | number h =>
      obtain ⟨x, rest, rfl, hx⟩ := h.exists_cons
      refine ⟨x, rest, rfl, ?_, ?_⟩
      · rw [Bool.eq_false_iff]
        intro hspace
        simp only [Cursor.isSpace, Bool.or_eq_true, decide_eq_true_eq] at hspace
        obtain ((rfl | rfl) | rfl) | rfl := hspace <;> exact absurd hx (by decide)
      · rintro rfl
        exact absurd hx (by decide)

/-- No value runs on into white space, a comma or a bracket that closes. -/
theorem endsAt_of_head? {left : List Char}
    (h : ∀ x ∈ left.head?, Cursor.isSpace x ∨ x ∈ [',', ']', '\x7d'])
    (v : List Char) : EndsAt v left := by
  intro _ x hx hon
  have hends : isDigit x = false ∧ x ≠ 'e' ∧ x ≠ 'E' ∧ x ≠ '.' := by
    have hx := h x hx
    simp only [Cursor.isSpace, Bool.or_eq_true, decide_eq_true_eq, List.mem_cons,
      List.not_mem_nil, or_false] at hx
    obtain (((rfl | rfl) | rfl) | rfl) | rfl | rfl | rfl := hx <;> decide
  obtain ⟨hdigit, he, hE, hpoint⟩ := hends
  simp [TakesOn, hdigit, he, hE, hpoint] at hon

theorem endsAt_blank {left : List Char} (h : IsBlank left) (v : List Char) : EndsAt v left :=
  endsAt_of_head? (fun x hx => .inl (h x (List.mem_of_mem_head? hx))) v

theorem endsAt_space {space : List Char} {x : Char} (hspace : IsBlank space)
    (hx : x ∈ [',', ']', '\x7d']) (v left : List Char) : EndsAt v (space ++ x :: left) := by
  refine endsAt_of_head? (fun y hy => ?_) v
  cases space with
  | nil => exact .inr (Option.some.inj hy ▸ hx)
  | cons z space => exact .inl (hspace y (Option.some.inj hy ▸ List.mem_cons_self))

theorem SeparatorText.endsAt {sep : List Char} (h : SeparatorText false sep) (v left : List Char) :
    EndsAt v (sep ++ left) := by
  cases h with
  | next hspace =>
      rw [List.append_assoc]
      exact endsAt_space hspace (by decide) v _

theorem ElementsText.endsAt {text : List Char} (h : ElementsText false text)
    (v left : List Char) :
    EndsAt v (text ++ left) := by
  cases h with
  | close hspace =>
      rw [List.append_assoc]
      exact endsAt_space hspace (by decide) v _
  | element hsep =>
      rw [List.append_assoc]
      exact hsep.endsAt v _

theorem MembersText.endsAt {text : List Char} (h : MembersText false text)
    (v left : List Char) :
    EndsAt v (text ++ left) := by
  cases h with
  | close hspace =>
      rw [List.append_assoc]
      exact endsAt_space hspace (by decide) v _
  | member hsep =>
      rw [List.append_assoc]
      exact hsep.endsAt v _

/-- A text that is one value with only white space around it. -/
def IsOneValue (cs : List Char) : Prop :=
  ∃ space v space', cs = space ++ (v ++ space') ∧ IsBlank space ∧ ValueText v ∧ IsBlank space'

end TypeOutline.Json
