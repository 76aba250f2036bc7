import TypeOutline.Derive.Engine
import TypeOutline.Json.Basic

/-!
# Documents as values

A JSON document is a value whose parts stand in slots of any type: its lists grow, its objects are
maps with text keys, and all its numbers are of one kind. A part that is null is an empty slot.
-/

namespace TypeOutline

namespace Json

mutual

/-- The value that a document is. -/
def toValue : Json → Value
  | null => .ofShape .nil
  | bool _ => .ofShape (.scalar .bool)
  | number _ => .ofShape (.scalar .f64)
  | string _ => .ofShape (.scalar .string)
  | array items => .ofShape (.list false (toSlots items) .emptySlot)
  | object members => .ofShape (.map .string "string" (toEntries members))

/-- The slot that holds a part of a document. -/
def toSlot : Json → Value
  | null => .emptySlot
  | j => .ofShape (.slot (some j.toValue))

def toSlots : List Json → List Value
  | [] => []
  | j :: js => toSlot j :: toSlots js

def toEntries : List (String × Json) → List (String × Value)
  | [] => []
  | (k, j) :: ms => (k, toSlot j) :: toEntries ms

end

end Json

/-- The schema of a document; a document refers to no declared type. -/
def deriveDocument (j : Json) : Schema := (derive? {} j.toValue).getD .empty

end TypeOutline
