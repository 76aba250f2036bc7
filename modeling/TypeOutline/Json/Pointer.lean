import TypeOutline.Json.Basic
import TypeOutline.Text.Blank

/-!
# Pointers into documents

A pointer is empty, for the whole document, or a list of tokens each after a slash. In a token `~1`
stands for a slash and `~0` for a tilde. A token names a member of an object, or the place of an
element in a list, in decimal digits without leading zeros.
-/

namespace TypeOutline.Json

/-- A token with every `~1` resolved. -/
def unescapeSlash : List Char → List Char
  | [] => []
  | '~' :: '1' :: cs => '/' :: unescapeSlash cs
  | c :: cs => c :: unescapeSlash cs

/-- A token with every `~0` resolved. -/
def unescapeTilde : List Char → List Char
  | [] => []
  | '~' :: '0' :: cs => '~' :: unescapeTilde cs
  | c :: cs => c :: unescapeTilde cs

/-- The tokens of a pointer; none if it does not start with a slash. -/
def pointerTokens? : List Char → Option (List (List Char))
  | [] => some []
  | '/' :: cs => some ((Text.pieces '/' cs).map fun t => unescapeTilde (unescapeSlash t))
  | _ :: _ => none

/-- The place in a list that a token names. -/
def listPlace? : List Char → Option Nat
  | [] => none
  | ['0'] => some 0
  | '0' :: _ => none
  | ds =>
    if ds.all fun c => '0' ≤ c && c ≤ '9' then
      some (ds.foldl (fun n d => n * 10 + (d.toNat - '0'.toNat)) 0)
    else none

/-- The part of a document that a token names. -/
def step? (j : Json) (token : List Char) : Option Json :=
  match j with
  | object _ => j.member? (String.ofList token)
  | array items => (listPlace? token).bind fun i => items[i]?
  | _ => none

/-- The part of a document that a pointer leads to. -/
def pointer? (j : Json) (pointer : String) : Option Json := do
  (← pointerTokens? pointer.toList).foldlM step? j

end TypeOutline.Json
