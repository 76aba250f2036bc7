import TypeOutline.Text.Quoted

/-!
# A place in a JSON text, and what can be wrong there

Lines count line feeds and columns count bytes. A fault is reported at the cursor or, where the byte
under the cursor is to blame, one byte further on. The path of a fault grows from the inside out, as
the readers of the enclosing lists and objects hand it on.
-/

namespace TypeOutline.Json

/-- A line from one, and the number of bytes before the place on it. -/
structure Place where
  line : Nat := 1
  column : Nat := 0
deriving Repr, DecidableEq

/-- The place after `n` bytes of a text. -/
def Place.after (p : Place) : Nat → List Char → Place
  | 0, _ => p
  | _, [] => p
  | n, c :: cs =>
    if c = '\n' then Place.after { line := p.line + 1, column := 0 } (n - 1) cs
    else if c.utf8Size ≤ n then
      Place.after { p with column := p.column + c.utf8Size } (n - c.utf8Size) cs
    else { p with column := p.column + n }

/-- What is left of a text, and where it starts. -/
structure Cursor where
  rest : List Char
  place : Place := {}
deriving Repr, DecidableEq

namespace Cursor

def ofString (text : String) : Cursor := { rest := text.toList }

/-- The place one byte further on; at the end of the text, the end. -/
def ahead (c : Cursor) : Place := c.place.after 1 c.rest

/-- Past the next character. -/
def next (c : Cursor) : Cursor :=
  match c.rest with
  | [] => c
  | x :: rest => { rest, place := c.place.after x.utf8Size [x] }

/-- White space between tokens. -/
def isSpace (c : Char) : Bool := c = ' ' || c = '\n' || c = '\t' || c = '\r'

/-- Past the characters that satisfy a test. -/
def skipText (test : Char → Bool) : List Char → Place → Cursor
  | [], p => { rest := [], place := p }
  | x :: rest, p =>
    if test x then skipText test rest (p.after x.utf8Size [x])
    else { rest := x :: rest, place := p }

/-- Past white space. -/
def skipSpace (c : Cursor) : Cursor := skipText isSpace c.rest c.place

end Cursor

/-- What can be wrong in a text that is read as JSON, or as a record written in JSON. -/
inductive Fault where
  | endInValue | endInList | endInObject | endInString
  | expectedColon | expectedListCommaOrEnd | expectedObjectCommaOrEnd
  | expectedIdent | expectedValue
  | invalidEscape | invalidNumber | numberOutOfRange | controlCharacter
  | keyMustBeString | loneSurrogate | trailingComma | trailingCharacters
  | unfinishedSurrogate | tooDeep
  /-- A value of another type than expected. -/
  | invalidType (found expected : String)
  /-- A value of the right type that is not allowed. -/
  | invalidValue (found expected : String)
  | unknownField (name : String) (known : List String)
  | unknownVariant (name : String) (known : List String)
  | duplicateField (name : String)
deriving Repr, DecidableEq

namespace Fault

/-- A name as it stands in a message. -/
def ticked (name : String) : String := "`" ++ name ++ "`"

/-- The names that would have been right. -/
def oneOf : List String → String
  | [] => "there are none"
  | [a] => "expected " ++ ticked a
  | [a, b] => "expected " ++ ticked a ++ " or " ++ ticked b
  | names => "expected one of " ++ ", ".intercalate (names.map ticked)

def message : Fault → String
  | endInValue => "EOF while parsing a value"
  | endInList => "EOF while parsing a list"
  | endInObject => "EOF while parsing an object"
  | endInString => "EOF while parsing a string"
  | expectedColon => "expected `:`"
  | expectedListCommaOrEnd => "expected `,` or `]`"
  | expectedObjectCommaOrEnd => "expected `,` or `\x7d`"
  | expectedIdent => "expected ident"
  | expectedValue => "expected value"
  | invalidEscape => "invalid escape"
  | invalidNumber => "invalid number"
  | numberOutOfRange => "number out of range"
  | controlCharacter => "control character (\\u0000-\\u001F) found while parsing a string"
  | keyMustBeString => "key must be a string"
  | loneSurrogate => "lone leading surrogate in hex escape"
  | trailingComma => "trailing comma"
  | trailingCharacters => "trailing characters"
  | unfinishedSurrogate => "unexpected end of hex escape"
  | tooDeep => "recursion limit exceeded"
  | invalidType found expected => "invalid type: " ++ found ++ ", expected " ++ expected
  | invalidValue found expected => "invalid value: " ++ found ++ ", expected " ++ expected
  | unknownField name known => "unknown field " ++ ticked name ++ ", " ++ oneOf known
  | unknownVariant name known => "unknown variant " ++ ticked name ++ ", " ++ oneOf known
  | duplicateField name => "duplicate field " ++ ticked name

end Fault

/-- One step from a value to a part of it. -/
inductive Step where
  | index (n : Nat)
  | key (name : String)
  /-- A member whose key could not be read. -/
  | unknown
deriving Repr, DecidableEq

namespace Step

def text : Step → String
  | index n => "[" ++ toString n ++ "]"
  | key name => name
  | unknown => "?"

/-- The text of the steps after the first one. -/
def restText : List Step → String
  | [] => ""
  | index n :: steps => (index n).text ++ restText steps
  | step :: steps => "." ++ step.text ++ restText steps

/-- The text of a path; the whole value is a dot. -/
def pathText : List Step → String
  | [] => "."
  | step :: steps => step.text ++ restText steps

end Step

/-- A fault at a place, and the path of the value that it was found in. -/
structure ReadError where
  fault : Fault
  place : Place
  path : List Step := []
deriving Repr, DecidableEq

namespace ReadError

/-- The same fault, seen from one value further out. -/
def below (step : Step) (e : ReadError) : ReadError := { e with path := step :: e.path }

/-- The fault with its place. -/
def message (e : ReadError) : String :=
  e.fault.message ++ " at line " ++ toString e.place.line ++ " column " ++ toString e.place.column

end ReadError

/-- A reader takes what it reads off the front of the text. -/
abbrev Reader (α : Type) := Cursor → Except ReadError (α × Cursor)

/-- A fault at the cursor. -/
def failHere {α : Type} (fault : Fault) (c : Cursor) : Except ReadError α :=
  .error { fault, place := c.place }

/-- A fault of the byte under the cursor. -/
def failAhead {α : Type} (fault : Fault) (c : Cursor) : Except ReadError α :=
  .error { fault, place := c.ahead }

/-- Read a part of a value; a fault in it gets the step to the part. -/
def readBelow {α : Type} (step : Step) (r : Reader α) : Reader α := fun c =>
  (r c).mapError (·.below step)

end TypeOutline.Json
