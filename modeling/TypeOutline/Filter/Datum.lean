import TypeOutline.Decimal.Read
import TypeOutline.Json.Printer

/-!
# The values of filters

A filter works on a document and on what it computes from it. Its numbers know where they come
from: a whole number of 64 bits is exact; any other number that stands in a document or in the
filter keeps the text that it is written with until something is computed from it, which gives a
binary64 number. The text of a value is JSON; a computed number that is not finite is written as
`null`.
-/

namespace TypeOutline.Filter

/-- A number of a filter. -/
inductive Numeral where
  /-- A whole number of 64 bits with a sign. -/
  | whole (n : Int)
  /-- A binary64 number by its bits. -/
  | computed (bits : UInt64)
  /-- A number by its decimal text. -/
  | written (text : String)
deriving Repr, DecidableEq

/-- The number has 64 bits with a sign. -/
def hasWord (n : Int) : Bool := -0x8000000000000000 ≤ n && n ≤ 0x7FFFFFFFFFFFFFFF

namespace Numeral

def ofFloat (x : Float) : Numeral := .computed x.toBits

def toFloat : Numeral → Float
  | whole n => Float.ofInt n
  | computed bits => Float.ofBits bits
  | written text => Decimal.read text

/-- The whole number that a number is kept as. -/
def whole? : Numeral → Option Int
  | whole n => some n
  | _ => none

/-- A number by its digits: exact if it has 64 bits, and as it is written if not. -/
def ofDigits (digits : List Char) : Numeral :=
  let n := Decimal.ofDigits digits
  if hasWord n then .whole n else .written (String.ofList digits)

/-- A number of a document. -/
def ofNumber : Number → Numeral
  | .whole n => if hasWord n then .whole n else .written (toString n)
  | .binary bits => .written (Decimal.text Decimal.documentFormat bits)

def text : Numeral → String
  | whole n => toString n
  | computed bits =>
    if Json.isFinite bits then Decimal.text Decimal.computedFormat bits else "null"
  | written text => text

end Numeral

inductive Datum where
  | null
  | bool (b : Bool)
  | number (n : Numeral)
  | string (s : String)
  | array (items : List Datum)
  | object (members : List (String × Datum))
deriving Repr

namespace Datum

instance : Inhabited Datum := ⟨null⟩

def nat (n : Nat) : Datum := number (.whole n)

/-! ## Documents -/

mutual

/-- The value that a document is. -/
def ofJson : Json → Datum
  | .null => null
  | .bool b => bool b
  | .number n => number (.ofNumber n)
  | .string s => string s
  | .array items => array (ofItems items)
  | .object members => object (ofMembers members)

def ofItems : List Json → List Datum
  | [] => []
  | j :: js => ofJson j :: ofItems js

def ofMembers : List (String × Json) → List (String × Datum)
  | [] => []
  | (k, j) :: ms => (k, ofJson j) :: ofMembers ms

end

/-! ## Texts -/

/-- A character as it stands in the text of a string: a backspace and a form feed by their numbers,
like the control characters that have no short form. -/
def escaped (c : Char) : List Char :=
  if c = '\x08' || c = '\x0c' then ['\\', 'u', '0', '0', '0', Nat.digitChar c.toNat]
  else Json.escaped c

def stringText (s : String) : String := String.ofList ('"' :: s.toList.flatMap escaped ++ ['"'])

mutual

/-- The text of a value on one line. -/
def text : Datum → String
  | null => "null"
  | bool b => if b then "true" else "false"
  | number n => n.text
  | string s => stringText s
  | array items => "[" ++ ",".intercalate (itemTexts items) ++ "]"
  | object members => "\x7b" ++ ",".intercalate (memberTexts members) ++ "\x7d"

def itemTexts : List Datum → List String
  | [] => []
  | d :: ds => text d :: itemTexts ds

def memberTexts : List (String × Datum) → List String
  | [] => []
  | (k, d) :: ms => (stringText k ++ ":" ++ text d) :: memberTexts ms

end

end Datum

end TypeOutline.Filter
