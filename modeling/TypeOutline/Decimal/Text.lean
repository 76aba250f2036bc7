import TypeOutline.Decimal.Shortest

/-!
# Decimal text of binary64 numbers

A number is written with its shortest digits. Between the exponents `low` and `high` of its first
digit it is written out with a point and at least one digit after it; outside of them it has an
exponent.
-/

namespace TypeOutline.Decimal

/-- How numbers are written. -/
structure Format where
  /-- The smallest exponent of the first digit that is written out. -/
  low : Int
  /-- The greatest one. -/
  high : Int
  /-- The sign before an exponent that is not negative. -/
  plus : String

/-- Numbers in documents and messages: written out from `0.00001` to below `1e+16`. -/
def documentFormat : Format := { low := -5, high := 15, plus := "+" }

/-- Numbers that a filter computed: written out from `0.0001` to below `1e16`. -/
def computedFormat : Format := { low := -4, high := 15, plus := "" }

/-- Digits with a point after the first `n`. -/
def pointed (digits : List Char) (n : Nat) : List Char :=
  let whole := digits.take n ++ List.replicate (n - digits.length) '0'
  let rest := digits.drop n
  whole ++ ['.'] ++ if rest.isEmpty then ['0'] else rest

/-- The text of a positive number or zero. -/
def positiveText (f : Format) (bits : UInt64) : List Char :=
  let d := shortest bits
  let digits := Nat.toDigits 10 d.digits
  if d.digits = 0 then ['0', '.', '0'] else
    let first : Int := d.exponent + digits.length - 1
    if f.low ≤ first && first ≤ f.high then
      if 0 ≤ first then pointed digits (first.toNat + 1)
      else ['0', '.'] ++ List.replicate ((-first).toNat - 1) '0' ++ digits
    else
      let mantissa := match digits with
        | [] => []
        | c :: rest => if rest.isEmpty then [c] else c :: '.' :: rest
      let sign := if first < 0 then ['-'] else f.plus.toList
      mantissa ++ ['e'] ++ sign ++ Nat.toDigits 10 first.natAbs

/-- The text of a finite number. -/
def text (f : Format) (bits : UInt64) : String :=
  let negative := bits >>> 63 == 1
  let magnitude := bits &&& 0x7FFFFFFFFFFFFFFF
  String.ofList ((if negative then ['-'] else []) ++ positiveText f magnitude)

end TypeOutline.Decimal
