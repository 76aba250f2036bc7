import TypeOutline.Json.Basic
import TypeOutline.Json.Cursor

/-!
# Words, numbers and strings of JSON

The parts of a JSON text without parts of their own.
-/

namespace TypeOutline.Json

/-! ## Words -/

/-- The rest of a word, character by character. -/
def readWord : List Char → Reader Unit
  | [], c => .ok ((), c)
  | x :: xs, c => match c.rest with
    | [] => failHere .endInValue c
    | y :: _ => if x = y then readWord xs c.next else failAhead .expectedIdent c

/-! ## Numbers -/

def isDigit (c : Char) : Bool := '0' ≤ c && c ≤ '9'

def digitValue (c : Char) : Nat := c.toNat - '0'.toNat

/-- The digits at the front. -/
def takeDigits (c : Cursor) : List Char × Cursor :=
  (c.rest.takeWhile isDigit, Cursor.skipText isDigit c.rest c.place)

/-- The greatest whole number that a document can hold. -/
def maxWhole : Nat := 0xFFFFFFFFFFFFFFFF

/-- The greatest exponent that is taken as it is written. -/
def maxExponent : Nat := 0x7FFFFFFF

/-- Append digits to a number as long as it stays at most `limit`; with the digits left over. -/
def accumulate (limit : Nat) : Nat → List Char → Nat × List Char
  | n, [] => (n, [])
  | n, d :: ds =>
    let m := n * 10 + digitValue d
    if m > limit then (n, d :: ds) else accumulate limit m ds

/-- The power of ten with an exponent up to 308. -/
def tenTo (e : Nat) : Float := Float.ofScientific 1 false e

/-- `x · 10^e`, by one multiplication or division where `e` allows; none beyond the range of
numbers. A small exponent is taken in steps, and two of them reach zero. -/
def scaled? : (steps : Nat) → Float → Int → Option Float
  | steps, x, e =>
    if e.natAbs ≤ 308 then
      if 0 ≤ e then
        let y := x * tenTo e.toNat
        if y.isInf then none else some y
      else some (x / tenTo e.natAbs)
    else if x == 0.0 then some x
    else if 0 ≤ e then none
    else match steps with
      | 0 => some x
      | steps + 1 => scaled? steps (x / tenTo 308) (e + 308)

/-- The number of digits scaled by a power of ten. -/
def readScaled (negative : Bool) (digits : Nat) (e : Int) : Reader Number := fun c =>
  match scaled? 4 digits.toUInt64.toFloat e with
  | none => failHere .numberOutOfRange c
  | some x => .ok (.ofFloat (if negative then -x else x), c)

/-- An exponent, from its mark on. -/
def readExponent (negative : Bool) (digits : Nat) (e : Int) : Reader Number := fun c =>
  let c := c.next
  let (down, c) := match c.rest with
    | '+' :: _ => (false, c.next)
    | '-' :: _ => (true, c.next)
    | _ => (false, c)
  match c.rest with
  | [] => failHere .endInValue c
  | d :: _ =>
    if !isDigit d then failAhead .invalidNumber c
    else
      let (ds, after) := takeDigits c
      let (n, left) := accumulate maxExponent 0 ds
      if left.isEmpty then
        readScaled negative digits (if down then e - n else e + n) after
      else if digits ≠ 0 && !down then
        .error
          { fault := .numberOutOfRange
            place := c.place.after (ds.length - left.length + 1) ds }
      else .ok (.ofFloat (if negative then -0.0 else 0.0), after)

/-- What follows the digits of a number with a point or an exponent. -/
def readAfterDigits (negative : Bool) (digits : Nat) (e : Int) : Reader Number := fun c =>
  match c.rest with
  | 'e' :: _ | 'E' :: _ => readExponent negative digits e c
  | _ => readScaled negative digits e c

/-- Decimals, from the point on. -/
def readDecimals (negative : Bool) (digits : Nat) (e : Int) : Reader Number := fun c =>
  let c := c.next
  let (ds, after) := takeDigits c
  if ds.isEmpty then
    if c.rest.isEmpty then failHere .endInValue c else failAhead .invalidNumber c
  else
    let (n, left) := accumulate maxWhole digits ds
    readAfterDigits negative n (e - (ds.length - left.length : Nat)) after

/-- A whole number with its sign. A negative zero has none among the whole numbers, and one below
the least has to be scaled. -/
def signed (negative : Bool) (n : Nat) : Number :=
  if !negative then .whole n
  else if n = 0 || n > 0x8000000000000000 then .ofFloat (-n.toUInt64.toFloat)
  else .whole (-(n : Int))

/-- A number, after its sign. -/
def readNumber (negative : Bool) : Reader Number := fun c =>
  match c.rest with
  | [] => failHere .endInValue c
  | d :: _ =>
    if !isDigit d then failAhead .invalidNumber c
    else
      let (ds, after) := if d = '0' then (['0'], c.next) else takeDigits c
      if d = '0' && (after.rest.head?.any isDigit) then failAhead .invalidNumber after
      else
        let (n, left) := accumulate maxWhole 0 ds
        match after.rest with
        | '.' :: _ => readDecimals negative n left.length after
        | 'e' :: _ | 'E' :: _ => readExponent negative n left.length after
        | _ =>
          if left.isEmpty then .ok (signed negative n, after)
          else readScaled negative n left.length after

/-! ## Strings -/

def hexValue? (c : Char) : Option Nat :=
  if isDigit c then some (digitValue c)
  else if 'a' ≤ c && c ≤ 'f' then some (c.toNat - 'a'.toNat + 10)
  else if 'A' ≤ c && c ≤ 'F' then some (c.toNat - 'A'.toNat + 10)
  else none

/-- Four hexadecimal digits. -/
def readHex4 : Reader Nat := fun c =>
  let bytes := (c.rest.take 4).foldl (fun n x => n + x.utf8Size) 0
  if bytes < 4 then
    .error { fault := .endInString, place := c.place.after bytes c.rest }
  else
    match (c.rest.take 4).mapM hexValue? with
    | some [p, q, r, s] => .ok (((p * 16 + q) * 16 + r) * 16 + s, c.next.next.next.next)
    | _ => .error { fault := .invalidEscape, place := c.place.after 4 c.rest }

/-- One character that has to follow inside an escape. -/
def expectInEscape (x : Char) : Reader Unit := fun c =>
  match c.rest with
  | [] => failHere .endInString c
  | y :: _ => if x = y then .ok ((), c.next) else failAhead .unfinishedSurrogate c

/-- The character of a `\u` escape, after the `u`. Two escapes that are the halves of a surrogate
pair make one character. -/
def readUnicode : Reader Char := fun c => do
  let (n, c) ← readHex4 c
  if 0xDC00 ≤ n && n ≤ 0xDFFF then failHere .loneSurrogate c
  else if n < 0xD800 || 0xDBFF < n then .ok (Char.ofNat n, c)
  else
    let (_, c) ← expectInEscape '\\' c
    let (_, c) ← expectInEscape 'u' c
    let (m, c) ← readHex4 c
    if m < 0xDC00 || 0xDFFF < m then failHere .loneSurrogate c
    else .ok (Char.ofNat ((n - 0xD800) * 0x400 + (m - 0xDC00) + 0x10000), c)

/-- The character of an escape, after the backslash. -/
def readEscape : Reader Char := fun c =>
  match c.rest with
  | [] => failHere .endInString c
  | '"' :: _ => .ok ('"', c.next)
  | '\\' :: _ => .ok ('\\', c.next)
  | '/' :: _ => .ok ('/', c.next)
  | 'b' :: _ => .ok ('\x08', c.next)
  | 'f' :: _ => .ok ('\x0c', c.next)
  | 'n' :: _ => .ok ('\n', c.next)
  | 'r' :: _ => .ok ('\r', c.next)
  | 't' :: _ => .ok ('\t', c.next)
  | 'u' :: _ => readUnicode c.next
  | _ => failAhead .invalidEscape c

/-- A string after its opening quote, with the characters read so far, the last one first. Every
round takes a character, so `fuel` need not exceed the length of the text. -/
def readStringFrom : (fuel : Nat) → (read : List Char) → Reader String
  | 0, _, c => failHere .endInString c
  | fuel + 1, read, c => match c.rest with
    | [] => failHere .endInString c
    | x :: _ =>
      if x = '"' then .ok (String.ofList read.reverse, c.next)
      else if x = '\\' then do
        let (y, c) ← readEscape c.next
        readStringFrom fuel (y :: read) c
      else if x.toNat < 0x20 then failAhead .controlCharacter c
      else readStringFrom fuel (x :: read) c.next

/-- A string after its opening quote. -/
def readString : Reader String := fun c => readStringFrom (c.rest.length + 1) [] c

end TypeOutline.Json
