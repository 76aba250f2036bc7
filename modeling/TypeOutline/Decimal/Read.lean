import TypeOutline.Decimal.Shortest

/-!
# Reading decimals

The binary64 number nearest to a decimal text: digits, perhaps a point with digits after it, and
perhaps an exponent. Decimals beyond the range of finite numbers become infinite, those too small
become zero.
-/

namespace TypeOutline.Decimal

/-- The number that digits write. -/
def ofDigits (digits : List Char) : Nat :=
  digits.foldl (fun n c => n * 10 + (c.toNat - '0'.toNat)) 0

/-- The number that digits after a sign write. -/
def ofSignedDigits : List Char → Int
  | '-' :: cs => -(ofDigits (cs.takeWhile Char.isDigit))
  | '+' :: cs | cs => ofDigits (cs.takeWhile Char.isDigit)

/-- The decimal `n · 10^e` as the nearest binary64 number. Far outside of their range the exponent
alone decides. -/
def nearest (n : Nat) (e : Int) : Float :=
  let top := (digitCount n : Int) + e
  if n = 0 || top < -400 then 0.0
  else if top > 400 then 1.0 / 0.0
  else Float.ofScientific n (e < 0) e.natAbs

/-- The number of a decimal text without a sign. -/
def readPositive (cs : List Char) : Float :=
  let whole := cs.takeWhile Char.isDigit
  let (places, rest) := match cs.dropWhile Char.isDigit with
    | '.' :: rest => (rest.takeWhile Char.isDigit, rest.dropWhile Char.isDigit)
    | rest => ([], rest)
  let exponent := match rest with
    | 'e' :: rest | 'E' :: rest => ofSignedDigits rest
    | _ => 0
  nearest (ofDigits (whole ++ places)) (exponent - places.length)

/-- The number of a decimal text. -/
def read (text : String) : Float :=
  match text.toList with
  | '-' :: cs => -(readPositive cs)
  | cs => readPositive cs

end TypeOutline.Decimal
