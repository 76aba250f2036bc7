import TypeOutline.Dictionary
import TypeOutline.Text.Blank

/-!
# Member tags

A member may carry a tag text of pairs `dialect:"body"` separated by spaces. A body is `-` to leave
the member out of the dialect, or another name followed by options, separated by commas; an option
is a bare key or `key=value`. White space around each part is dropped.
-/

namespace TypeOutline

/-- What a tag says about a member in one dialect. -/
structure Tag where
  /-- Leave the member out. -/
  ignore : Bool := false
  /-- Another name; empty for none. -/
  name : String := ""
  /-- Options in order; the value of a bare key is empty. -/
  options : List (String × String) := []
deriving Repr, DecidableEq

namespace Tag

open Text

/-- The option written between two commas; a blank text is none. -/
def optionOf? (text : List Char) : Option (String × String) :=
  let text := trim text
  if text.isEmpty then none else
    let (key, value) := cut '=' text
    some (String.ofList (trim key), String.ofList (trim (value.getD [])))

/-- The tag that a body says. -/
def ofBody (body : List Char) : Tag :=
  let body := trim body
  if body = ['-'] then { ignore := true } else
    let (name, rest) := cut ',' body
    { name := String.ofList (trim name)
      options := match rest with
        | none => []
        | some rest => (pieces ',' rest).filterMap optionOf? }

/-- The tag that a body says. -/
def parse (body : String) : Tag := ofBody body.toList

/-- A tag that says nothing. -/
def isEmpty (t : Tag) : Bool := !t.ignore && t.name.isEmpty && t.options.isEmpty

/-! ## Tag texts -/

/-- Characters of a dialect name: no control character or space, no colon, quote or delete. -/
def isDialectChar (c : Char) : Bool :=
  0x20 < c.toNat && c ≠ ':' && c ≠ '"' && c ≠ '\x7f'

/-- The body up to its closing quote, with its escapes as written, and what follows the quote. A
backslash takes the next character with it, whatever it is but a line feed. -/
def quotedBody? : List Char → Option (List Char × List Char)
  | [] => none
  | '"' :: rest => some ([], rest)
  | '\\' :: c :: rest =>
    if c = '\n' then none else (quotedBody? rest).map fun (b, r) => ('\\' :: c :: b, r)
  | c :: rest =>
    if c = '\\' then none else (quotedBody? rest).map fun (b, r) => (c :: b, r)

/-- A body with its escapes resolved: `\n` and `\t` are a line feed and a tab, any other escaped
character stands for itself. -/
def unescape : List Char → List Char
  | [] => []
  | '\\' :: 'n' :: rest => '\n' :: unescape rest
  | '\\' :: 't' :: rest => '\t' :: unescape rest
  | '\\' :: c :: rest => c :: unescape rest
  | ['\\'] => []
  | c :: rest => c :: unescape rest

/-- The pair at the front of a tag text: dialect, body as written, and the rest of the text. -/
def pair? (text : List Char) : Option (List Char × List Char × List Char) :=
  let text := text.dropWhile (· = ' ')
  let dialect := text.takeWhile isDialectChar
  if dialect.isEmpty then none else
    match text.dropWhile isDialectChar with
    | ':' :: '"' :: rest => (quotedBody? rest).map fun (body, rest) => (dialect, body, rest)
    | _ => none

theorem length_quotedBody? {cs body rest : List Char} (h : quotedBody? cs = some (body, rest)) :
    rest.length < cs.length := by
  fun_induction quotedBody? cs generalizing body with
  | case1 => cases h
  | case2 r =>
    cases h
    exact Nat.lt_succ_self _
  | case3 c => cases h
  | case4 c r hc ih =>
    obtain ⟨⟨b, r'⟩, hb, he⟩ := Option.map_eq_some_iff.mp h
    cases he
    exact Nat.lt_trans (ih hb) (by simp only [List.length_cons]; omega)
  | case5 c r => cases h
  | case6 c r hq hb hc ih =>
    obtain ⟨⟨b, r'⟩, hb, he⟩ := Option.map_eq_some_iff.mp h
    cases he
    exact Nat.lt_succ_of_lt (ih hb)

/-- A pair takes characters off the front of a tag text. -/
theorem length_pair? {text dialect body rest : List Char}
    (h : pair? text = some (dialect, body, rest)) : rest.length < text.length := by
  simp only [pair?] at h
  split at h
  · cases h
  · split at h
    · rename_i r hr
      obtain ⟨⟨b, r'⟩, hb, he⟩ := Option.map_eq_some_iff.mp h
      cases he
      have hspace := (List.dropWhile_sublist (p := (· = ' ')) (l := text)).length_le
      have hname := (List.dropWhile_sublist (p := isDialectChar)
        (l := text.dropWhile (· = ' '))).length_le
      rw [hr] at hname
      have hbody := length_quotedBody? hb
      simp only [List.length_cons] at hname
      show r'.length < text.length
      omega
    · cases h

/-- The pairs of a tag text up to the first malformed one. -/
def pairs (text : List Char) : List (String × Tag) :=
  match h : pair? text with
  | none => []
  | some (dialect, body, rest) =>
    have := length_pair? h
    (String.ofList dialect, ofBody (unescape body)) :: pairs rest
termination_by text.length

/-- The tags of a tag text by dialect. A tag that says nothing is passed over, and of two tags for
one dialect the later counts. -/
def parseAll (raw : String) : Dictionary Tag :=
  .ofList ((pairs raw.toList).filter (!·.2.isEmpty))

end Tag

end TypeOutline
