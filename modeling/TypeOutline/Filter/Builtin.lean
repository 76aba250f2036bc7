import TypeOutline.Filter.Access
import TypeOutline.Filter.Term

/-!
# Built-in filters

The filters that are not defined by others. Some are functions of the input and of the values of
their arguments; the others run their arguments in a way of their own.
-/

namespace TypeOutline.Filter

inductive Builtin where
  | empty | error | length | keys | keysUnsorted | kind | has | range | first | limit | skip | path
deriving Repr, DecidableEq

namespace Builtin

def callee : Builtin → Callee
  | empty => ⟨"empty", 0⟩ | error => ⟨"error", 0⟩ | length => ⟨"length", 0⟩ | keys => ⟨"keys", 0⟩
  | keysUnsorted => ⟨"keys_unsorted", 0⟩ | kind => ⟨"type", 0⟩ | has => ⟨"has", 1⟩
  | range => ⟨"range", 3⟩ | first => ⟨"first", 1⟩ | limit => ⟨"limit", 2⟩ | skip => ⟨"skip", 2⟩
  | path => ⟨"path", 1⟩

def all : List Builtin :=
  [empty, error, length, keys, keysUnsorted, kind, has, range, first, limit, skip, path]

def ofCallee? (c : Callee) : Option Builtin := all.find? (·.callee == c)

end Builtin

/-- Everything is true but null and false. -/
def truthy : Datum → Bool
  | .null | .bool false => false
  | _ => true

/-- The text of a value; a text as it is. -/
def textOf : Datum → String
  | .string s => s
  | d => d.text

def kindName : Datum → String
  | .null => "null"
  | .bool _ => "boolean"
  | .number _ => "number"
  | .string _ => "string"
  | .array _ => "array"
  | .object _ => "object"

/-- The number of parts of a value; of a number the distance from zero. -/
def length? : Datum → Option Datum
  | .null => some (.nat 0)
  | .bool _ => none
  | .number n => some (.number (match n.whole? with
    | some i => wholeOr i.natAbs (Float.ofInt i).abs
    | none => .ofFloat n.toFloat.abs))
  | .string s => some (.nat s.length)
  | .array items => some (.nat items.length)
  | .object ms => some (.nat ms.length)

/-- The keys of the members, or the places of the elements. -/
def keys? : Datum → Option (List Datum)
  | .array items => some ((List.range items.length).map .nat)
  | .object ms => some (ms.map fun m => .string m.1)
  | _ => none

/-- There is an element at a place, or a member under a key. -/
def has? : Datum → Datum → Option Bool
  | .array items, .number n => n.whole?.bind fun i =>
    if 0 ≤ i then some (i < items.length) else none
  | .object ms, .string k => some (ms.lookup k).isSome
  | _, _ => none

/-- The numbers from one on in equal steps, as long as they have not reached `stop`, after those
`given`, the last one first. There are at most `fuel` of them. -/
def rangeFrom (stop step : Datum) :
    (fuel : Nat) → (given : List (Outcome Datum)) → Datum → Stream Datum
  | 0, given, _ => { outcomes := given.reverse, complete := false }
  | fuel + 1, given, v =>
    let order := compareValues v stop
    let inside := match compareValues step (.nat 0) with
      | .gt => order == .lt
      | .lt => order == .gt
      | .eq => order != .eq
    if !inside then { outcomes := given.reverse }
    else match ArithOp.add.result? v step with
      | some next => rangeFrom stop step fuel (.value v :: given) next
      | none => { outcomes := (.value v :: given).reverse } ++ Stream.failWith "cannot add"

end TypeOutline.Filter
