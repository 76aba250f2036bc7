import TypeOutline.Text.Blank
import TypeOutline.Filter.Datum
import TypeOutline.Json.Token

/-!
# Words of the filter language

Text between quotes may hold filters in parentheses after a backslash; such a text is one word, with
the words of its filters inside. Signs of operators that stand together are one word, but a minus
sign always starts one. A comment goes from a hash sign to the end of its line, and on to the end of
the next line if an odd number of backslashes stands there.
-/

namespace TypeOutline.Filter

mutual

inductive Token where
  | word (name : String)
  /-- A name after a dollar sign. -/
  | var (name : String)
  /-- A name after a dot. -/
  | field (name : String)
  | number (n : Numeral)
  | text (pieces : List Piece)
  | sign (text : String)

inductive Piece where
  | chars (cs : List Char)
  | code (tokens : List Token)

end

namespace Token

def isWordStart (c : Char) : Bool := ('a' ≤ c && c ≤ 'z') || ('A' ≤ c && c ≤ 'Z') || c = '_'

def isWordChar (c : Char) : Bool := isWordStart c || Json.isDigit c

/-- A sign of an operator after its first one. -/
def isOperatorTail (c : Char) : Bool := "|=!<>+*/%".toList.contains c

def isOperator (c : Char) : Bool := c = '-' || isOperatorTail c

/-- A sign of one character. -/
def isSign (c : Char) : Bool := "()[]\x7b\x7d:;,?.".toList.contains c

/-- Digits at the front, of which there must be one, and what follows them. -/
def digits? (cs : List Char) : Option (List Char × List Char) :=
  if cs.head?.any Json.isDigit then some (cs.takeWhile Json.isDigit, cs.dropWhile Json.isDigit)
  else none

/-- A point and the digits after it, if there is one at the front, and what follows them. -/
def places? : List Char → Option (List Char × List Char)
  | '.' :: cs => (digits? cs).map fun (ds, rest) => ('.' :: ds, rest)
  | cs => some ([], cs)

/-- An exponent, if there is one at the front, and what follows it. -/
def exponent? : List Char → Option (List Char × List Char)
  | c :: cs =>
    if c = 'e' || c = 'E' then
      let sign := (cs.take 1).filter fun d => d = '+' || d = '-'
      (digits? (cs.drop sign.length)).map fun (ds, rest) => (c :: sign ++ ds, rest)
    else some ([], c :: cs)
  | [] => some ([], [])

/-- The number at the front of a text, and what follows it. -/
def number? (cs : List Char) : Option (Numeral × List Char) := do
  let (whole, rest) ← digits? cs
  let (places, rest) ← places? rest
  let (exponent, rest) ← exponent? rest
  if places.isEmpty && exponent.isEmpty then some (.ofDigits whole, rest)
  else some (.written (String.ofList (whole ++ places ++ exponent)), rest)

/-- What follows a comment, after its hash sign. An odd number of backslashes at the end of a line
takes in the next one. -/
def afterComment (cs : List Char) : List Char :=
  let line := cs.takeWhile (· ≠ '\n')
  let shown := match line.reverse with
    | '\r' :: back => back
    | back => back
  match h : cs.dropWhile (· ≠ '\n') with
  | [] => []
  | _ :: rest =>
    if (shown.takeWhile (· = '\\')).length % 2 = 0 then rest else afterComment rest
termination_by cs.length
decreasing_by
  have := (List.dropWhile_sublist (l := cs) (· ≠ '\n')).length_le
  rw [h] at this
  simp only [List.length_cons] at this
  omega

/-- The character of an escape, and what follows it. A half of a surrogate pair is none. -/
def escape? : List Char → Option (Char × List Char)
  | 'b' :: cs => some ('\x08', cs)
  | 'f' :: cs => some ('\x0c', cs)
  | 'n' :: cs => some ('\n', cs)
  | 'r' :: cs => some ('\r', cs)
  | 't' :: cs => some ('\t', cs)
  | 'u' :: p :: q :: r :: s :: cs => do
    let n ← [p, q, r, s].foldlM (fun n c => (Json.hexValue? c).map (n * 16 + ·)) 0
    if 0xD800 ≤ n && n ≤ 0xDFFF then none else some (Char.ofNat n, cs)
  | c :: cs => if c = '"' || c = '\\' || c = '/' then some (c, cs) else none
  | [] => none

mutual

/-- The words of a text and what follows them: up to its end, or up to the parenthesis that closes
the filter in a text, if the words are those of one; `depth` parentheses are open inside it. Every
round takes a character, so `fuel` need not exceed the length of the text by more than one. -/
def scan? : (fuel : Nat) → (inText : Bool) → (depth : Nat) → List Char →
    Option (List Token × List Char)
  | 0, _, _, _ => none
  | _ + 1, inText, _, [] => if inText then none else some ([], [])
  | fuel + 1, inText, depth, c :: cs =>
    let go (t : Token) (depth : Nat) (rest : List Char) : Option (List Token × List Char) :=
      (scan? fuel inText depth rest).map fun (ts, rest) => (t :: ts, rest)
    if Text.isBlank c then scan? fuel inText depth cs
    else if c = '#' then scan? fuel inText depth (afterComment cs)
    else if isWordStart c then
      go (.word (String.ofList ((c :: cs).takeWhile isWordChar))) depth (cs.dropWhile isWordChar)
    else if Json.isDigit c then do
      let (n, rest) ← number? (c :: cs)
      go (.number n) depth rest
    else if c = '$' then
      let name := cs.takeWhile isWordChar
      if (name.head?.any isWordStart) then
        go (.var (String.ofList name)) depth (cs.dropWhile isWordChar)
      else none
    else if c = '"' then do
      let (pieces, rest) ← scanText? fuel [] cs
      go (.text pieces) depth rest
    else if isOperator c then
      go (.sign (String.ofList (c :: cs.takeWhile isOperatorTail))) depth
        (cs.dropWhile isOperatorTail)
    else if c = '.' && cs.head? = some '.' then go (.sign "..") depth (cs.drop 1)
    else if c = '.' && cs.head?.any isWordStart then
      go (.field (String.ofList (cs.takeWhile isWordChar))) depth (cs.dropWhile isWordChar)
    else if c = ')' && inText && depth = 0 then some ([], cs)
    else if isSign c then
      let depth := if c = '(' then depth + 1 else if c = ')' then depth - 1 else depth
      go (.sign (String.ofList [c])) depth cs
    else none

/-- The pieces of a text after its opening quote, and what follows the closing one. The characters
`read` come first, the last one first. -/
def scanText? : (fuel : Nat) → (read : List Char) → List Char → Option (List Piece × List Char)
  | 0, _, _ | _, _, [] => none
  | _ + 1, read, '"' :: cs => some ([.chars read.reverse], cs)
  | fuel + 1, read, '\\' :: '(' :: cs => do
    let (tokens, rest) ← scan? fuel true 0 cs
    let (pieces, rest) ← scanText? fuel [] rest
    some (.chars read.reverse :: .code tokens :: pieces, rest)
  | fuel + 1, read, '\\' :: cs => do
    let (c, rest) ← escape? cs
    scanText? fuel (c :: read) rest
  | fuel + 1, read, c :: cs => scanText? fuel (c :: read) cs

end

/-- The words of a text. -/
def tokens? (text : String) : Option (List Token) :=
  (scan? (text.length + 1) false 0 text.toList).map (·.1)

end Token

end TypeOutline.Filter
