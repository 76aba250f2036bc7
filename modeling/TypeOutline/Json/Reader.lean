import TypeOutline.Dictionary
import TypeOutline.Json.Token

/-!
# Reading JSON

A text is read as the first value in it; what follows that value is left alone. A repeated key keeps
its first place and takes the last value. Lists and objects nest to a fixed depth.
-/

namespace TypeOutline.Json

/-- How deep lists and objects may nest. -/
def maxDepth : Nat := 127

/-! ## Separators -/

/-- Whether another element of a list follows, at the element or at the closing bracket. -/
def nextElement? (first : Bool) : Reader Bool := fun c =>
  let c := c.skipSpace
  match c.rest with
  | [] => failHere .endInList c
  | ']' :: _ => .ok (false, c)
  | x :: _ =>
    if first then .ok (true, c)
    else if x = ',' then
      let c := c.next.skipSpace
      match c.rest with
      | [] => failHere .endInValue c
      | ']' :: _ => failAhead .trailingComma c
      | _ => .ok (true, c)
    else failAhead .expectedListCommaOrEnd c

/-- Whether another member of an object follows, at its key or at the closing brace. -/
def nextMember? (first : Bool) : Reader Bool := fun c =>
  let c := c.skipSpace
  match c.rest with
  | [] => failHere .endInObject c
  | '\x7d' :: _ => .ok (false, c)
  | x :: _ =>
    if first then
      if x = '"' then .ok (true, c) else failAhead .keyMustBeString c
    else if x = ',' then
      let c := c.next.skipSpace
      match c.rest with
      | [] => failHere .endInValue c
      | '"' :: _ => .ok (true, c)
      | '\x7d' :: _ => failAhead .trailingComma c
      | _ => failAhead .keyMustBeString c
    else failAhead .expectedObjectCommaOrEnd c

/-- The colon between a key and its value. -/
def readColon : Reader Unit := fun c =>
  let c := c.skipSpace
  match c.rest with
  | ':' :: _ => .ok ((), c.next)
  | [] => failHere .endInObject c
  | _ => failAhead .expectedColon c

/-- The next key of an object; none at the closing brace. A fault here has no key to its name. -/
def readKey? (first : Bool) : Reader (Option String) := readBelow .unknown fun c => do
  let (more, c) ← nextMember? first c
  if more then
    let (key, c) ← readString c.next
    .ok (some key, c)
  else .ok (none, c)

/-! ## Values -/

/-- The elements of a list after its opening bracket, up to and with the closing one. `read` holds
those read so far, the last one first. -/
def readElements (value : Reader Json) : (fuel : Nat) → (read : List Json) → Reader (List Json)
  | 0, _, c => failHere .endInList c
  | fuel + 1, read, c => do
    let (more, c) ← nextElement? read.isEmpty c
    if more then
      let (v, c) ← readBelow (.index read.length) value c
      readElements value fuel (v :: read) c
    else .ok (read.reverse, c.next)

/-- The members of an object after its opening brace, up to and with the closing one. -/
def readMembers (value : Reader Json) :
    (fuel : Nat) → (first : Bool) → (read : Dictionary Json) → Reader (List (String × Json))
  | 0, _, _, c => failHere .endInObject c
  | fuel + 1, first, read, c => do
    let (key?, c) ← readKey? first c
    match key? with
    | none => .ok (read.entries, c.next)
    | some key =>
      let (_, c) ← readColon c
      let (v, c) ← readBelow (.key key) value c
      readMembers value fuel false (read.insert key v) c

/-- A value in which lists and objects nest at most `depth` deep. -/
def readValueWithin : (depth : Nat) → Reader Json
  | depth, c =>
    let c := c.skipSpace
    match c.rest with
    | [] => failHere .endInValue c
    | 'n' :: _ => do
      let (_, c) ← readWord "ull".toList c.next
      .ok (.null, c)
    | 't' :: _ => do
      let (_, c) ← readWord "rue".toList c.next
      .ok (.bool true, c)
    | 'f' :: _ => do
      let (_, c) ← readWord "alse".toList c.next
      .ok (.bool false, c)
    | '"' :: _ => do
      let (s, c) ← readString c.next
      .ok (.string s, c)
    | '-' :: _ => do
      let (n, c) ← readNumber true c.next
      .ok (.number n, c)
    | '[' :: _ => match depth with
      | 0 => failAhead .tooDeep c
      | depth + 1 => do
        let (items, c) ← readElements (readValueWithin depth) (c.rest.length + 1) [] c.next
        .ok (.array items, c)
    | '\x7b' :: _ => match depth with
      | 0 => failAhead .tooDeep c
      | depth + 1 => do
        let (members, c) ← readMembers (readValueWithin depth) (c.rest.length + 1) true {} c.next
        .ok (.object members, c)
    | x :: _ =>
      if isDigit x then do
        let (n, c) ← readNumber false c
        .ok (.number n, c)
      else failAhead .expectedValue c

/-- A value. -/
def readValue : Reader Json := readValueWithin maxDepth

/-- The first value of a text. -/
def parse (text : String) : Except ReadError Json :=
  (readValue (.ofString text)).map (·.1)

end TypeOutline.Json
