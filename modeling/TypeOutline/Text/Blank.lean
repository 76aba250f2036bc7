/-!
# White space, pieces and lines

The characters that count as white space are those of the Unicode property `White_Space`. Cutting at
a separator loses no character other than the separator, and there is always a piece.
-/

namespace TypeOutline.Text

/-- White space: tab to carriage return, the space, next line, and the spaces and separators beyond
ASCII. -/
def isBlank (c : Char) : Bool :=
  let n := c.toNat
  (9 ≤ n && n ≤ 13) || n == 0x20 || n == 0x85 || n == 0xA0 || n == 0x1680
    || (0x2000 ≤ n && n ≤ 0x200A) || n == 0x2028 || n == 0x2029 || n == 0x202F
    || n == 0x205F || n == 0x3000

/-- The characters without white space at either end. -/
def trim (cs : List Char) : List Char :=
  ((cs.dropWhile isBlank).reverse.dropWhile isBlank).reverse

/-- The part before the first separator, and the part after it if there is one. -/
def cut (sep : Char) : List Char → List Char × Option (List Char)
  | [] => ([], none)
  | c :: cs => if c = sep then ([], some cs) else
    let (before, after) := cut sep cs
    (c :: before, after)

/-- The parts between separators: one more than there are separators. -/
def pieces (sep : Char) : List Char → List (List Char)
  | [] => [[]]
  | c :: cs => if c = sep then [] :: pieces sep cs else
    match pieces sep cs with
    | [] => [[c]]
    | p :: ps => (c :: p) :: ps

/-- A line without the carriage return before its line feed. -/
def dropReturn (line : List Char) : List Char :=
  match line.reverse with
  | '\r' :: rest => rest.reverse
  | _ => line

/-- The lines of a text. A line ends with a line feed, or a carriage return and a line feed; the
last one may end with the text, and an empty remainder is no line. -/
def lines (text : List Char) : List (List Char) :=
  let all := pieces '\n' text
  let last := all.getLastD []
  all.dropLast.map dropReturn ++ if last.isEmpty then [] else [last]

/-! ## No character is lost -/

/-- The part before the separator holds none, and with it and the part after it gives the text
back. -/
theorem cut_eq (sep : Char) (cs : List Char) :
    sep ∉ (cut sep cs).1 ∧ cs = (cut sep cs).1 ++ (cut sep cs).2.elim [] (sep :: ·) := by
  induction cs with
  | nil => exact ⟨List.not_mem_nil, rfl⟩
  | cons c cs ih =>
    by_cases h : c = sep
    · simp [cut, h]
    · simp only [cut, if_neg h, List.mem_cons, not_or, List.cons_append]
      exact ⟨⟨fun hc => h hc.symm, ih.1⟩, by rw [← ih.2]⟩

theorem pieces_ne_nil (sep : Char) (cs : List Char) : pieces sep cs ≠ [] := by
  cases cs with
  | nil => simp [pieces]
  | cons c cs =>
    rw [pieces]
    split
    · exact List.cons_ne_nil _ _
    · split <;> exact List.cons_ne_nil _ _

end TypeOutline.Text
