import TypeOutline.Filter.Arithmetic
import TypeOutline.Filter.Stream

/-!
# Parts of values

A step leads from an object to the member under a key, from a list to an element counted from either
end, from a list or a text to a slice of it, and from a list or an object to all its values. A key
or place where nothing is leads to null; a step from any other kind of value fails. To change the
part at the end of a step is to put there what the change gives, or to take the part out if it gives
nothing; in an object the last member then moves to the free place.
-/

namespace TypeOutline.Filter

/-- A step to a part, with the values of its filters. -/
inductive Step where
  | entry (key : Datum)
  | slice (start stop : Option Datum)
  | all

/-- A step, and whether its failure is silent. -/
abbrev MarkedStep := Step × Bool

/-- The place of an element; a negative number counts from the end. -/
def place? (i : Int) (size : Nat) : Option Nat :=
  if 0 ≤ i then if i < size then some i.toNat else none
  else if 0 ≤ i + size then some (i + size).toNat
  else none

/-- A bound of a slice, as a place from nothing to all. -/
def bound (i : Int) (size : Nat) : Nat :=
  if 0 ≤ i then min i.toNat size else (i + size).toNat

/-- The whole number that a value is. -/
def whole? : Datum → Option Int
  | .number n => n.whole?
  | _ => none

/-- The first element of a slice and the number of its elements. -/
def span? (start stop : Option Datum) (size : Nat) : Option (Nat × Nat) := do
  let first ← start.elim (some 0) fun j => (whole? j).map (bound · size)
  let last ← stop.elim (some size) fun j => (whole? j).map (bound · size)
  some (first, last - first)

namespace Step

/-- The key of the path to a part. A slice has those of its bounds that are given. -/
def pathKey : Step → Datum
  | entry key => key
  | slice start stop =>
    .object ((start.map fun d => ("start", d)).toList ++ (stop.map fun d => ("end", d)).toList)
  | all => .null

/-- The parts at the end of a step, each with the key to it. -/
def follow (s : Step) (v : Datum) : Stream (Datum × Datum) :=
  match s, v with
  | slice start stop, .array items =>
    .ofOption "cannot slice" ((span? start stop items.length).map fun (first, size) =>
      (s.pathKey, .array ((items.drop first).take size)))
  | slice start stop, .string text =>
    .ofOption "cannot slice" ((span? start stop text.length).map fun (first, size) =>
      (s.pathKey, .string (String.ofList ((text.toList.drop first).take size))))
  | entry key@(.string k), .object ms => .single (key, (ms.lookup k).getD .null)
  | entry key, .array items =>
    .ofOption "cannot index" ((whole? key).map fun i =>
      (key, ((place? i items.length).bind (items[·]?)).getD .null))
  | all, .array items => .ofList (items.zipIdx.map fun (v, i) => (.nat i, v))
  | all, .object ms => .ofList (ms.map fun (k, v) => (.string k, v))
  | _, _ => .failWith "cannot index"

end Step

/-! ## Changes -/

/-- A change of a value: what takes its place. -/
abbrev Change := Datum → Stream Datum

/-- The first outcome of a change, as at most one value. -/
def firstOf (s : Stream Datum) : Stream (Option Datum) :=
  (s.take 1).collect.map (·.head?)

/-- Take the member with a key out of an object; the last member takes its place. -/
def takeOut (key : String) (ms : List (String × Datum)) : List (String × Datum) :=
  match ms.getLast? with
  | none => []
  | some last =>
    if last.1 = key then ms.dropLast
    else ms.dropLast.map fun m => if m.1 = key then last else m

/-- Put elements in the place of a part of a list. -/
def splice (items : List Datum) (first size : Nat) (new : List Datum) : List Datum :=
  items.take first ++ new ++ items.drop (first + size)

/-- Change the part at the end of a step. A silent step that leads nowhere changes nothing. -/
def Step.change (s : Step) (silent : Bool) (v : Datum) (f : Change) : Stream Datum :=
  let refuse (text : String) : Stream Datum := if silent then .single v else .failWith text
  match s, v with
  | .slice start stop, .array items =>
    match span? start stop items.length with
    | none => refuse "cannot slice"
    | some (first, size) =>
      (firstOf (f (.array ((items.drop first).take size)))).bind fun
        | none => .single (.array (splice items first size []))
        | some (.array new) => .single (.array (splice items first size new))
        | some _ => .failWith "a slice must be replaced by a list"
  | .entry (.string k), .object ms =>
    match ms.lookup k with
    | some old => (firstOf (f old)).map fun
      | some new => .object (Dictionary.insertIn k new ms)
      | none => .object (takeOut k ms)
    | none => (firstOf (f .null)).map fun
      | some new => .object (Dictionary.insertIn k new ms)
      | none => .object ms
  | .entry key, .array items =>
    match (whole? key).bind (place? · items.length) with
    | none => refuse "out of bounds"
    | some i =>
      (firstOf (f (items[i]?.getD .null))).map fun new => .array (splice items i 1 new.toList)
  | .all, .array items => ((Stream.ofList items).bind f).collect.map .array
  | .all, .object ms =>
    ((Stream.ofList ms).bind fun (k, v) =>
      (firstOf (f v)).map fun new => new.toList.map fun v => (k, v)).collect.map fun ms =>
        .object ms.flatten
  | _, _ => refuse "cannot index"

/-- Change the part at the end of several steps. -/
def changeAlong : List MarkedStep → Change → Change
  | [], f, v => f v
  | (s, silent) :: steps, f, v => s.change silent v (changeAlong steps f)

end TypeOutline.Filter
