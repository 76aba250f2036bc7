/-!
# Shortest decimals

The decimal with the fewest digits that reads back as a given binary64 number and, of those, the
nearest one. A finite positive number is `m · 2^q`; the reals that round to it form an interval,
whose ends belong to it when `m` is even. On the grid of decimals with a given number of digits one
of the two neighbours of the number lies in the interval if any point of the grid does; the first
grid with a hit has the fewest digits.
-/

namespace TypeOutline.Decimal

/-- A positive binary64 number `mantissa · 2^exponent`. -/
structure Binary where
  mantissa : Nat
  exponent : Int
  /-- The next smaller number is half as far away as the next greater one. -/
  narrow : Bool

/-- The parts of a finite positive number from its bits. -/
def Binary.ofBits (bits : UInt64) : Binary :=
  let e := ((bits >>> 52) &&& 0x7FF).toNat
  let f := (bits &&& 0xFFFFFFFFFFFFF).toNat
  if e = 0 then { mantissa := f, exponent := -1074, narrow := false }
  else { mantissa := f + 0x10000000000000, exponent := (e : Int) - 1075, narrow := f == 0 && e > 1 }

/-- The denominator of `10^e`. -/
def tenBelow (e : Int) : Nat := Nat.pow 10 (-e).toNat

/-- The numerator of `10^e`. -/
def tenAbove (e : Int) : Nat := Nat.pow 10 e.toNat

/-- A number as a fraction over a common denominator, with the ends of its interval. -/
structure Interval where
  low : Nat
  value : Nat
  high : Nat
  denominator : Nat
  /-- The ends round to the number. -/
  closed : Bool

/-- The interval of the reals that round to a number. All parts are scaled by four, so that half a
step is a whole number also where the lower step is half as wide. -/
def Binary.interval (b : Binary) : Interval :=
  let up := Nat.pow 2 b.exponent.toNat
  let down := Nat.pow 2 (-b.exponent).toNat
  { low := (4 * b.mantissa - if b.narrow then 1 else 2) * up
    value := 4 * b.mantissa * up
    high := (4 * b.mantissa + 2) * up
    denominator := 4 * down
    closed := b.mantissa % 2 == 0 }

/-- `digits · 10^exponent`. -/
structure Digits where
  digits : Nat
  exponent : Int
deriving Repr, DecidableEq

/-- `n · 10^e` compared with the interval, everything brought to whole numbers. -/
def Interval.accepts (i : Interval) (n : Nat) (e : Int) : Bool :=
  let n := n * tenAbove e * i.denominator
  let scale := tenBelow e
  let low := i.low * scale
  let high := i.high * scale
  if i.closed then low ≤ n && n ≤ high else low < n && n < high

/-- The floor of the number on the grid of multiples of `10^e`. -/
def Interval.floorAt (i : Interval) (e : Int) : Nat :=
  (i.value * tenBelow e) / (i.denominator * tenAbove e)

/-- The lower neighbour on a grid is at most as far away as the upper one. -/
def Interval.nearerBelow (i : Interval) (n : Nat) (e : Int) : Bool :=
  let scale := tenBelow e
  let unit := tenAbove e * i.denominator
  2 * (i.value * scale) ≤ (2 * n + 1) * unit

/-- The grid point for the number among the multiples of `10^e`, if one reads back. -/
def Interval.hit? (i : Interval) (e : Int) : Option Digits :=
  let n := i.floorAt e
  let below := i.accepts n e && n != 0
  let above := i.accepts (n + 1) e
  if below && (!above || i.nearerBelow n e) then some ⟨n, e⟩
  else if above then some ⟨n + 1, e⟩
  else none

/-- The number of decimal digits. -/
def digitCount (n : Nat) : Nat := (Nat.toDigits 10 n).length

/-- The exponent of the first decimal digit of a number: it is at least `10^e` and less than
`10^(e+1)`. -/
def Interval.magnitude (i : Interval) : Int :=
  let whole := i.value / i.denominator
  if whole ≠ 0 then (digitCount whole : Int) - 1
  else
    let inverse := i.denominator / i.value
    let guess : Int := -(digitCount inverse : Int)
    if i.floorAt (guess + 1) ≠ 0 then guess + 1
    else if i.floorAt guess ≠ 0 then guess else guess - 1

/-- Digits without zeros at the end; `fuel` bounds their number. -/
def Digits.trimmed : (fuel : Nat) → Digits → Digits
  | 0, d => d
  | fuel + 1, d =>
    if d.digits % 10 = 0 && d.digits ≠ 0 then
      Digits.trimmed fuel { digits := d.digits / 10, exponent := d.exponent + 1 }
    else d

/-- The shortest decimal that reads back as the number. Seventeen digits always do. -/
def shortest (bits : UInt64) : Digits :=
  let b := Binary.ofBits bits
  if b.mantissa = 0 then ⟨0, 0⟩
  else
    let i := b.interval
    let top := i.magnitude
    let grids := (List.range 17).map fun (k : Nat) => top - (k : Int)
    match grids.findSome? i.hit? with
    | some d => d.trimmed 20
    | none => ⟨i.floorAt (top - 16), top - 16⟩

end TypeOutline.Decimal
