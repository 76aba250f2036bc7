import TypeOutline.Filter.Datum

/-!
# The order of values

Null is least, then come false, true, numbers, strings, lists and objects. Lists are compared
element by element, objects by their sorted keys first and then by the values in the order of the
keys. Whole numbers are compared exactly, others as binary64 numbers, among which a number that is
none is less than all, itself included.
-/

namespace TypeOutline.Filter

def compareFloats (x y : Float) : Ordering :=
  if x.isNaN then .lt
  else if y.isNaN then .gt
  else if x < y then .lt
  else if y < x then .gt
  else .eq

def compareNumbers (m n : Numeral) : Ordering :=
  match m.whole?, n.whole? with
  | some a, some b => compare a b
  | _, _ => compareFloats m.toFloat n.toFloat

/-! ## Sorted keys -/

/-- The members in the order of their keys. -/
def byKey (members : List (String × Datum)) : List (String × Datum) :=
  members.mergeSort fun a b => decide (a.1 ≤ b.1)

mutual

/-- The value with the members of all its objects in the order of their keys. -/
def sortKeys : Datum → Datum
  | .array items => .array (sortKeysAll items)
  | .object members => .object (byKey (sortKeysMembers members))
  | j => j

def sortKeysAll : List Datum → List Datum
  | [] => []
  | j :: js => sortKeys j :: sortKeysAll js

def sortKeysMembers : List (String × Datum) → List (String × Datum)
  | [] => []
  | (k, j) :: ms => (k, sortKeys j) :: sortKeysMembers ms

end

/-! ## The order -/

/-- The place of a value's kind in the order. -/
def rank : Datum → Nat
  | .null => 0
  | .bool false => 1
  | .bool true => 2
  | .number _ => 3
  | .string _ => 4
  | .array _ => 5
  | .object _ => 6

def compareKeys : List (String × Datum) → List (String × Datum) → Ordering
  | [], [] => .eq
  | [], _ => .lt
  | _, [] => .gt
  | (k, _) :: ms, (l, _) :: ns => (compare k l).then (compareKeys ms ns)

mutual

/-- The order of values whose objects are sorted. -/
def compareSorted : Datum → Datum → Ordering
  | .number m, .number n => compareNumbers m n
  | .string s, .string t => compare s t
  | .array as, .array bs => compareLists as bs
  | .object ms, .object ns => (compareKeys ms ns).then (compareMembers ms ns)
  | a, b => compare (rank a) (rank b)

def compareLists : List Datum → List Datum → Ordering
  | [], [] => .eq
  | [], _ => .lt
  | _, [] => .gt
  | a :: as, b :: bs => (compareSorted a b).then (compareLists as bs)

def compareMembers : List (String × Datum) → List (String × Datum) → Ordering
  | (_, a) :: ms, (_, b) :: ns => (compareSorted a b).then (compareMembers ms ns)
  | _, _ => .eq

end

/-- The order of values. -/
def compareValues (a b : Datum) : Ordering := compareSorted (sortKeys a) (sortKeys b)

end TypeOutline.Filter
