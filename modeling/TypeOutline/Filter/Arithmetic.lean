import TypeOutline.Filter.Order
import TypeOutline.Dictionary

/-!
# Arithmetic on values

Whole numbers are added, subtracted and multiplied exactly as long as the result has 64 bits;
beyond that, and in a division, numbers are binary64 numbers. Texts, lists and objects are joined by
a sum, and null changes nothing in one. What has no result is told with a text.
-/

namespace TypeOutline.Filter

inductive ArithOp where
  | add | sub | mul | div | rem
deriving Repr, DecidableEq

inductive CompareOp where
  | eq | ne | lt | le | gt | ge
deriving Repr, DecidableEq

namespace CompareOp

def holds (op : CompareOp) (a b : Datum) : Bool :=
  let o := compareValues a b
  match op with
  | eq => o == .eq
  | ne => o != .eq
  | lt => o == .lt
  | le => o != .gt
  | gt => o == .gt
  | ge => o != .lt

end CompareOp

/-- A whole number if it has 64 bits, and the binary64 number if not. -/
def wholeOr (n : Int) (x : Float) : Numeral := if hasWord n then .whole n else .ofFloat x

/-- Two numbers under an operation on whole numbers and the same one on binary64 numbers. -/
def onNumbers (f : Int → Int → Int) (g : Float → Float → Float) (m n : Numeral) : Numeral :=
  match m.whole?, n.whole? with
  | some a, some b => wholeOr (f a b) (g (Float.ofInt a) (Float.ofInt b))
  | _, _ => .ofFloat (g m.toFloat n.toFloat)

/-- The remainder of a division that goes towards zero. -/
def floatRemainder (x y : Float) : Float :=
  if x.isNaN || y.isNaN || x.isInf || y == 0.0 then 0.0 / 0.0
  else if y.isInf then x
  else
    let (m, e) := x.abs.frExp
    let (n, f) := y.abs.frExp
    let scaled (z : Float) (k : Int) : Nat := ((z.scaleB 53).toUInt64.toNat) * Nat.pow 2 k.toNat
    let low := min e f
    let r := (scaled m (e - low)) % (scaled n (f - low))
    let result := (Float.ofNat r).scaleB (low - 53)
    if x < 0.0 then -result else result

mutual

/-- The members of an object with those of another one: objects under the same key become one in
turn, and of other values the second one stays. -/
def mergeDeep (ms : List (String × Datum)) : List (String × Datum) → List (String × Datum)
  | [] => ms
  | (k, v) :: ns => mergeDeep (Dictionary.insertIn k (mergeValue (ms.lookup k) v) ms) ns

def mergeValue (old : Option Datum) : Datum → Datum
  | .object ns => match old with
    | some (.object ms) => .object (mergeDeep ms ns)
    | _ => .object ns
  | v => v

end

/-- The parts of a text between separators; an empty separator stands between all characters. -/
def splitText (text sep : String) : List String :=
  if text = "" then []
  else if sep = "" then text.toList.map fun c => String.ofList [c]
  else text.splitOn sep

/-- Two objects as one, with the right values under the keys of both. -/
def mergeMembers (ms ns : List (String × Datum)) : List (String × Datum) :=
  ns.foldl (fun es e => Dictionary.insertIn e.1 e.2 es) ms

namespace ArithOp

def result? : ArithOp → Datum → Datum → Option Datum
  | add, .null, b => some b
  | add, a, .null => some a
  | add, .number m, .number n => some (.number (onNumbers (· + ·) (· + ·) m n))
  | add, .string s, .string t => some (.string (s ++ t))
  | add, .array as, .array bs => some (.array (as ++ bs))
  | add, .object ms, .object ns => some (.object (mergeMembers ms ns))
  | sub, .number m, .number n => some (.number (onNumbers (· - ·) (· - ·) m n))
  | sub, .array as, .array bs => some (.array (as.filter fun a => !bs.any (CompareOp.eq.holds a)))
  | mul, .number m, .number n => some (.number (onNumbers (· * ·) (· * ·) m n))
  | mul, .string s, .number n | mul, .number n, .string s =>
    n.whole?.map fun k =>
      if k ≤ 0 then .null else .string (String.join (List.replicate k.toNat s))
  | mul, .object ms, .object ns => some (.object (mergeDeep ms ns))
  | div, .number m, .number n => some (.number (.ofFloat (m.toFloat / n.toFloat)))
  | div, .string s, .string t => some (.array ((splitText s t).map .string))
  | rem, .number m, .number n =>
    match m.whole?, n.whole? with
    | some a, some b => if b = 0 then none else some (.number (.whole (Int.tmod a b)))
    | _, _ => some (.number (.ofFloat (floatRemainder m.toFloat n.toFloat)))
  | _, _, _ => none

end ArithOp

/-- The value with its sign turned. -/
def negate? : Datum → Option Datum
  | .number n => some (.number (match n.whole? with
    | some a => wholeOr (-a) (-Float.ofInt a)
    | none => .ofFloat (-n.toFloat)))
  | _ => none

end TypeOutline.Filter
