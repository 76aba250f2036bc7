import TypeOutline.Decimal.Text
import TypeOutline.Json.Reader

/-!
# Records written in JSON

A record is an object whose members are its fields, in any order, or a list of its fields in their
own order. A field that is not written keeps its default. A field that the record does not have, or
has twice, is a fault.
-/

namespace TypeOutline.Json

/-! ## Values of a fixed type -/

/-- A number as it is named in a message. -/
def describeNumber : Number → String
  | .whole n => "integer " ++ Fault.ticked (toString n)
  | .binary bits => "floating point " ++ Fault.ticked (Decimal.text Decimal.documentFormat bits)

/-- A fault at the cursor: a value of another type than expected. -/
def failType {α : Type} (found expected : String) (c : Cursor) : Except ReadError α :=
  failHere (.invalidType found expected) c

/-- The value at the cursor is none of the expected type. What is wrong with it is told by as much
of it as has to be read to name its type. -/
def readOtherType {α : Type} (expected : String) : Reader α := fun c =>
  match c.rest with
  | 'n' :: _ => do
    let (_, c) ← readWord "ull".toList c.next
    failType "null" expected c
  | 't' :: _ => do
    let (_, c) ← readWord "rue".toList c.next
    failType "boolean `true`" expected c
  | 'f' :: _ => do
    let (_, c) ← readWord "alse".toList c.next
    failType "boolean `false`" expected c
  | '-' :: _ => do
    let (n, c) ← readNumber true c.next
    failType (describeNumber n) expected c
  | '"' :: _ => do
    let (s, c) ← readString c.next
    failType ("string " ++ Text.quoted s) expected c
  | '[' :: _ => failType "sequence" expected c
  | '\x7b' :: _ => failType "map" expected c
  | [] => failHere .endInValue c
  | x :: _ =>
    if isDigit x then do
      let (n, c) ← readNumber false c
      failType (describeNumber n) expected c
    else failAhead .expectedValue c

def readBool : Reader Bool := fun c =>
  let c := c.skipSpace
  match c.rest with
  | 't' :: _ => do
    let (_, c) ← readWord "rue".toList c.next
    .ok (true, c)
  | 'f' :: _ => do
    let (_, c) ← readWord "alse".toList c.next
    .ok (false, c)
  | _ => readOtherType "a boolean" c

def readText : Reader String := fun c =>
  let c := c.skipSpace
  match c.rest with
  | '"' :: _ => readString c.next
  | _ => readOtherType "a string" c

/-- The null value. -/
def readNull : Reader Unit := fun c =>
  let c := c.skipSpace
  match c.rest with
  | 'n' :: _ => readWord "ull".toList c.next
  | _ => readOtherType "unit" c

/-- A value that null may take the place of. -/
def readOptional {α : Type} (value : Reader α) : Reader (Option α) := fun c =>
  let c := c.skipSpace
  match c.rest with
  | 'n' :: _ => do
    let (_, c) ← readWord "ull".toList c.next
    .ok (none, c)
  | _ => do
    let (v, c) ← value c
    .ok (some v, c)

/-- A whole number that is not negative. -/
def readCount : Reader Nat := fun c =>
  let c := c.skipSpace
  let accept (r : Except ReadError (Number × Cursor)) : Except ReadError (Nat × Cursor) := do
    let (n, c) ← r
    match n with
    | .whole (.ofNat k) => .ok (k, c)
    | .whole _ => failHere (.invalidValue (describeNumber n) "usize") c
    | .binary _ => failType (describeNumber n) "usize" c
  match c.rest with
  | '-' :: _ => accept (readNumber true c.next)
  | x :: _ => if isDigit x then accept (readNumber false c) else readOtherType "usize" c
  | [] => failHere .endInValue c

/-- One of several named values, written as its name or as an object from its name to null. -/
def readChoice {α : Type} (choices : List (String × α)) : Reader α := fun c =>
  let choose (name : String) (c : Cursor) : Except ReadError α :=
    match choices.lookup name with
    | some a => .ok a
    | none => failHere (.unknownVariant name (choices.map (·.1))) c
  let c := c.skipSpace
  match c.rest with
  | '"' :: _ => do
    let (name, c) ← readString c.next
    return (← choose name c, c)
  | '\x7b' :: _ => do
    let (named, c) ← nextMember? true c.next
    if !named then failAhead .expectedValue c else
    let (name, c) ← readString c.next
    let a ← choose name c
    let (_, c) ← readColon c
    let (_, c) ← readBelow (.key name) readNull c
    let c := c.skipSpace
    match c.rest with
    | '\x7d' :: _ => .ok (a, c.next)
    | [] => failHere .endInObject c
    | _ => failHere .expectedValue c
  | [] => failHere .endInValue c
  | _ => failAhead .expectedValue c

/-! ## Records -/

/-- A field of a record: its name, and how its value is read into the record. -/
structure RecordField (σ : Type) where
  name : String
  read : σ → Reader σ

/-- The place at which a fault in the key of a member is reported: after the white space that
follows the key, or after the closing brace if that follows. -/
def placeAfterKey (c : Cursor) : Place :=
  let c := c.skipSpace
  match c.rest with
  | '\x7d' :: _ => c.next.place
  | _ => c.place

/-- The end of a list that has all its fields. -/
def readListEnd : Reader Unit := fun c =>
  let c := c.skipSpace
  match c.rest with
  | ']' :: _ => .ok ((), c.next)
  | ',' :: _ =>
    let c := c.next.skipSpace
    match c.rest with
    | ']' :: _ => failAhead .trailingComma c
    | _ => failAhead .trailingCharacters c
  | [] => failHere .endInList c
  | _ => failAhead .trailingCharacters c

/-- The fields of a record in their own order, after the opening bracket. -/
def readFieldList {σ : Type} : List (RecordField σ) → (index : Nat) → σ → Reader σ
  | [], _, r, c => do
    let (_, c) ← readListEnd c
    .ok (r, c)
  | f :: fs, i, r, c => do
    let (more, c) ← nextElement? (i == 0) c
    if more then
      let (r, c) ← readBelow (.index i) (f.read r) c
      readFieldList fs (i + 1) r c
    else .ok (r, c.next)

/-- The field of a key. A key without a field, and one that was seen before, is a fault. -/
def fieldOf {σ : Type} (fields : List (RecordField σ)) (seen : List String) (key : String)
    (c : Cursor) : Except ReadError (RecordField σ) :=
  match fields.find? (·.name == key) with
  | none => .error
    ({ fault := .unknownField key (fields.map (·.name)), place := placeAfterKey c,
       path := [.key key] } : ReadError)
  | some f =>
    if seen.contains key then
      .error ({ fault := .duplicateField key, place := placeAfterKey c } : ReadError)
    else .ok f

/-- The fields of a record as members, after the opening brace. No field comes twice, so `fuel` need
not exceed their number by more than one. -/
def readFieldMembers {σ : Type} (fields : List (RecordField σ)) :
    (fuel : Nat) → (seen : List String) → σ → Reader σ
  | 0, _, _, c => failHere .endInObject c
  | fuel + 1, seen, r, c => do
    let (key?, c) ← readKey? seen.isEmpty c
    match key? with
    | none => .ok (r, c.next)
    | some key =>
      let f ← fieldOf fields seen key c
      let (_, c) ← readColon c
      let (r, c) ← readBelow (.key key) (f.read r) c
      readFieldMembers fields fuel (key :: seen) r c

/-- A record, from the values that its fields have if they are not written. -/
def readRecord {σ : Type} (expected : String) (fields : List (RecordField σ)) (start : σ) :
    Reader σ := fun c =>
  let c := c.skipSpace
  match c.rest with
  | '[' :: _ => readFieldList fields 0 start c.next
  | '\x7b' :: _ => readFieldMembers fields (fields.length + 1) [] start c.next
  | _ => readOtherType expected c

end TypeOutline.Json
