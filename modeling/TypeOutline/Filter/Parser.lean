import TypeOutline.Filter.Term
import TypeOutline.Filter.Token

/-!
# Reading filters

A filter is read together with the names that are known at each place of it; one that uses an
unknown name is no filter. From the loosest to the tightest, the operators are the pipe and naming,
the comma, changes, `//`, `or`, `and`, comparisons, sums, products and remainders. Every reader
takes a bound on the depth of the filter, which the number of characters in its text provides.
-/

namespace TypeOutline.Filter

/-- The names known at a place of a filter. -/
structure Scope where
  callees : List Callee
  vars : List String := []
  labels : List String := []

namespace Scope

def withVars (sc : Scope) (names : List String) : Scope := { sc with vars := names ++ sc.vars }

/-- The parameters of a definition inside of it. -/
def withParam (sc : Scope) (param : String) : Scope :=
  if isValueParam param then
    let name := String.ofList (param.toList.drop 1)
    { sc with callees := ⟨name, 0⟩ :: sc.callees, vars := name :: sc.vars }
  else { sc with callees := ⟨param, 0⟩ :: sc.callees }

/-- The names of an environment. -/
def ofEnv (known : List Callee) : Env → Scope
  | .empty => { callees := known }
  | .value name _ outer => (ofEnv known outer).withVars [name]
  | .definition name params _ outer =>
    let sc := ofEnv known outer
    { sc with callees := ⟨name, params.length⟩ :: sc.callees }
  | .argument name _ _ outer =>
    let sc := ofEnv known outer
    { sc with callees := ⟨name, 0⟩ :: sc.callees }
  | .label name _ outer =>
    let sc := ofEnv known outer
    { sc with labels := name :: sc.labels }

end Scope

/-- Words that cannot be names of definitions. -/
def keywords : List String :=
  ["def", "if", "then", "elif", "else", "end", "as", "reduce", "foreach", "try", "catch", "label",
    "break", "and", "or", "import", "include", "__loc__"]

/-! ## Operators -/

inductive Operator where
  | pipe | comma | update | assign | orElse | either | both
  | updateArith (op : ArithOp) | updateOrElse
  | compare (op : CompareOp)
  | arith (op : ArithOp)

namespace Operator

/-- How tightly an operator binds. -/
def strength : Operator → Nat
  | pipe => 0
  | comma => 1
  | update | assign | updateArith _ | updateOrElse => 2
  | orElse => 3
  | either => 4
  | both => 5
  | compare .eq | compare .ne => 6
  | compare _ => 7
  | arith .add | arith .sub => 8
  | arith .mul | arith .div => 9
  | arith .rem => 10

/-- What stands on the right of an operator binds at least this tightly. -/
def rightStrength (o : Operator) : Nat :=
  match o with
  | pipe | update | assign | updateArith _ | updateOrElse | orElse => o.strength
  | _ => o.strength + 1

def ofToken? : Token → Option Operator
  | .word "or" => some either
  | .word "and" => some both
  | .sign s => [("|", pipe), (",", comma), ("|=", update), ("=", assign), ("//", orElse),
      ("//=", updateOrElse), ("+=", updateArith .add), ("-=", updateArith .sub),
      ("*=", updateArith .mul), ("/=", updateArith .div), ("%=", updateArith .rem),
      ("==", compare .eq), ("!=", compare .ne), ("<", compare .lt), ("<=", compare .le),
      (">", compare .gt), (">=", compare .ge), ("+", arith .add), ("-", arith .sub),
      ("*", arith .mul), ("/", arith .div), ("%", arith .rem)].lookup s
  | _ => none

def apply : Operator → Term → Term → Term
  | pipe => .pipe
  | comma => .comma
  | update => .update
  | assign => .assign
  | orElse => .orElse
  | either => .either
  | both => .both
  | updateArith op => .updateArith op
  | updateOrElse => .updateOrElse
  | compare op => .compare op
  | arith op => .arith op

end Operator

/-! ## Parts of filters -/

/-- A reader takes what it reads off the front of the words. -/
abbrev Parser (α : Type) := List Token → Option (α × List Token)

/-- The sign that has to follow. -/
def expect (sign : String) : Parser Unit
  | .sign s :: ts => if s = sign then some ((), ts) else none
  | _ => none

/-- The keyword that has to follow. -/
def expectWord (word : String) : Parser Unit
  | .word w :: ts => if w = word then some ((), ts) else none
  | _ => none

/-- Question marks, if there are any. -/
def optionalMark : List Token → Bool × List Token
  | .sign "?" :: ts => (true, (optionalMark ts).2)
  | ts => (false, ts)

def text (s : String) : Term := .constant (.string s)

/-- The sum of texts. -/
def joinTexts : List Term → Term
  | [] => text ""
  | [t] => t
  | t :: ts => ts.foldl (.arith .add) t

/-- The failing of a filter is no failure. -/
def silenced (t : Term) : Term := .attempt t (.call "empty" [])

mutual

/-- A filter; `comma` tells whether it may go on after a comma. -/
def term (sc : Scope) (comma : Bool) : (fuel : Nat) → Parser Term
  | 0, _ => none
  | fuel + 1, ts => do
    let (head, ts) ← atom sc fuel ts
    operators sc comma 0 head fuel ts

/-- What follows the left operand of an operator that binds at least as tightly as `strength`. -/
def operators (sc : Scope) (comma : Bool) (strength : Nat) (left : Term) :
    (fuel : Nat) → Parser Term
  | 0, _ => none
  | fuel + 1, ts =>
    match ts with
    | .word "as" :: rest =>
      if strength > 0 then some (left, ts) else do
        let (names, rest) ← binding sc fuel rest
        let (_, rest) ← expect "|" rest
        let (body, rest) ← term (sc.withVars names.names) comma fuel rest
        some (.bind left names body, rest)
    | t :: rest =>
      match Operator.ofToken? t with
      | none => some (left, ts)
      | some .comma =>
        if comma then binary sc comma strength left .comma fuel ts rest else some (left, ts)
      | some o => binary sc comma strength left o fuel ts rest
    | [] => some (left, [])

/-- The right operand of an operator, and what follows it. -/
def binary (sc : Scope) (comma : Bool) (strength : Nat) (left : Term) (o : Operator) :
    (fuel : Nat) → (before : List Token) → Parser Term
  | 0, _, _ => none
  | fuel + 1, before, ts =>
    if o.strength < strength then some (left, before) else do
      let (right, ts) ← atom sc fuel ts
      let (right, ts) ← operators sc comma o.rightStrength right fuel ts
      operators sc comma strength (o.apply left right) fuel ts

/-- A filter without operators. -/
def atom (sc : Scope) : (fuel : Nat) → Parser Term
  | 0, _ => none
  | fuel + 1, ts =>
    match ts with
    | .sign "-" :: ts => do
      let (t, ts) ← atom sc fuel ts
      some (.negate t, ts)
    | .word "def" :: ts => definition sc fuel ts
    | .word "label" :: .var name :: ts => do
      let (_, ts) ← expect "|" ts
      let (body, ts) ← term { sc with labels := name :: sc.labels } true fuel ts
      some (.label name body, ts)
    | .word "try" :: ts => do
      let (body, ts) ← atom sc fuel ts
      match ts with
      | .word "catch" :: ts =>
        let (handler, ts) ← atom sc fuel ts
        some (.attempt body handler, ts)
      | _ => some (silenced body, ts)
    | ts => do
      let (t, ts) ← simple sc fuel ts
      suffixes sc t fuel ts

/-- A filter without operators before or after it. -/
def simple (sc : Scope) : (fuel : Nat) → Parser Term
  | 0, _ => none
  | fuel + 1, ts =>
    match ts with
    | .number n :: ts => some (.constant (.number n), ts)
    | .text pieces :: ts => do some (← pieceTerms sc fuel pieces, ts)
    | .var name :: ts => if sc.vars.contains name then some (.var name, ts) else none
    | .field name :: ts => some (.identity, .field name :: ts)
    | .sign ".." :: ts => some (.call "recurse" [], ts)
    | .sign "." :: .text pieces :: ts => some (.identity, .sign "." :: .text pieces :: ts)
    | .sign "." :: ts => some (.identity, ts)
    | .sign "(" :: ts => do
      let (t, ts) ← term sc true fuel ts
      let (_, ts) ← expect ")" ts
      some (t, ts)
    | .sign "[" :: .sign "]" :: ts => some (.constant (.array []), ts)
    | .sign "[" :: ts => do
      let (t, ts) ← term sc true fuel ts
      let (_, ts) ← expect "]" ts
      some (.collect t, ts)
    | .sign "\x7b" :: .sign "\x7d" :: ts => some (.constant (.object []), ts)
    | .sign "\x7b" :: ts => members sc none fuel ts
    | .word "if" :: ts => conditional sc fuel ts
    | .word "reduce" :: ts => do
      let (source, ts) ← atom sc fuel ts
      let (_, ts) ← expectWord "as" ts
      let (names, ts) ← binding sc fuel ts
      let (_, ts) ← expect "(" ts
      let (init, ts) ← term sc true fuel ts
      let (_, ts) ← expect ";" ts
      let (step, ts) ← term (sc.withVars names.names) true fuel ts
      let (_, ts) ← expect ")" ts
      some (.reduce source names init step, ts)
    | .word "foreach" :: ts => do
      let (source, ts) ← atom sc fuel ts
      let (_, ts) ← expectWord "as" ts
      let (names, ts) ← binding sc fuel ts
      let (_, ts) ← expect "(" ts
      let (init, ts) ← term sc true fuel ts
      let (_, ts) ← expect ";" ts
      let inner := sc.withVars names.names
      let (step, ts) ← term inner true fuel ts
      let (result, ts) ← match ts with
        | .sign ";" :: ts => term inner true fuel ts
        | _ => some (.identity, ts)
      let (_, ts) ← expect ")" ts
      some (.each source names init step result, ts)
    | .word "break" :: .var name :: ts =>
      if sc.labels.contains name then some (.leave name, ts) else none
    | .word name :: ts =>
      if keywords.contains name then none else do
        let (args, ts) ← match ts with
          | .sign "(" :: ts => arguments sc fuel ts
          | _ => some ([], ts)
        if sc.callees.contains ⟨name, args.length⟩ then some (.call name args, ts) else none
    | _ => none

/-- Steps to parts of a value, and marks that silence failures. -/
def suffixes (sc : Scope) (t : Term) : (fuel : Nat) → Parser Term
  | 0, _ => none
  | fuel + 1, ts => do
    let (parts, ts) ← steps sc fuel ts
    let t := if parts.isEmpty then t else .path t parts
    match ts with
    | .sign "?" :: ts => suffixes sc (silenced t) fuel ts
    | _ => some (t, ts)

/-- Steps to parts of a value. -/
def steps (sc : Scope) : (fuel : Nat) → Parser (List Part)
  | 0, _ => none
  | fuel + 1, ts => do
    let found? : Option ((Bool → Part) × List Token) ← match ts with
      | .field name :: ts => some (some (.entry (text name), ts))
      | .sign "." :: .text pieces :: ts => do
        some (some (.entry (← pieceTerms sc fuel pieces), ts))
      | .sign "[" :: ts => (inBrackets sc fuel ts).map some
      | _ => some none
    match found? with
    | none => some ([], ts)
    | some (part, ts) =>
      let (optional, ts) := optionalMark ts
      let (parts, ts) ← steps sc fuel ts
      some (part optional :: parts, ts)

/-- A step in brackets, after the opening one. -/
def inBrackets (sc : Scope) : (fuel : Nat) → Parser (Bool → Part)
  | 0, _ => none
  | fuel + 1, ts =>
    match ts with
    | .sign "]" :: ts => some (.all, ts)
    | .sign ":" :: ts => do
      let (stop, ts) ← term sc true fuel ts
      let (_, ts) ← expect "]" ts
      some (.slice none (some stop), ts)
    | ts => do
      let (start, ts) ← term sc true fuel ts
      match ts with
      | .sign "]" :: ts => some (.entry start, ts)
      | .sign ":" :: .sign "]" :: ts => some (.slice (some start) none, ts)
      | .sign ":" :: ts =>
        let (stop, ts) ← term sc true fuel ts
        let (_, ts) ← expect "]" ts
        some (.slice (some start) (some stop), ts)
      | _ => none

/-- A text with filters in it. -/
def pieceTerms (sc : Scope) : (fuel : Nat) → List Piece → Option Term
  | 0, _ => none
  | fuel + 1, pieces => do
    let terms ← pieces.filterMapM fun
      | .chars cs => some (if cs.isEmpty then none else some (text (String.ofList cs)))
      | .code tokens => do
        let (t, rest) ← term sc true fuel tokens
        if rest.isEmpty then some (some (.asText t)) else none
    some (joinTexts terms)

/-- Arguments after an opening parenthesis. -/
def arguments (sc : Scope) : (fuel : Nat) → Parser (List Term)
  | 0, _ => none
  | fuel + 1, ts => do
    let (t, ts) ← term sc true fuel ts
    match ts with
    | .sign ")" :: ts => some ([t], ts)
    | .sign ";" :: ts =>
      let (args, ts) ← arguments sc fuel ts
      some (t :: args, ts)
    | _ => none

/-- The members of an object up to its closing brace, after those in `before`. -/
def members (sc : Scope) (before : Option Term) : (fuel : Nat) → Parser Term
  | 0, _ => none
  | fuel + 1, ts => do
    let (m, ts) ← member sc fuel ts
    let sum := before.elim m fun b => .arith .add b m
    match ts with
    | .sign "\x7d" :: ts | .sign "," :: .sign "\x7d" :: ts => some (sum, ts)
    | .sign "," :: ts => members sc (some sum) fuel ts
    | _ => none

/-- A member of an object. A key without a value names the member of the input to take. -/
def member (sc : Scope) : (fuel : Nat) → Parser Term
  | 0, _ => none
  | fuel + 1, ts =>
    let valued (key : Term) : Parser Term
      | .sign ":" :: ts => do
        let (v, ts) ← term sc false fuel ts
        some (.member key v, ts)
      | ts => some (.member key (.path .identity [.entry key false]), ts)
    match ts with
    | .var name :: ts =>
      if !sc.vars.contains name then none
      else match ts with
        | .sign ":" :: _ => valued (.var name) ts
        | _ => some (.member (text name) (.var name), ts)
    | .word name :: ts => valued (text name) ts
    | .text pieces :: ts => do valued (← pieceTerms sc fuel pieces) ts
    | .sign "(" :: ts => do
      let (key, ts) ← term sc true fuel ts
      let (_, ts) ← expect ")" ts
      let (_, ts) ← expect ":" ts
      let (v, ts) ← term sc false fuel ts
      some (.member key v, ts)
    | _ => none

/-- A choice after its `if` or `elif`. -/
def conditional (sc : Scope) : (fuel : Nat) → Parser Term
  | 0, _ => none
  | fuel + 1, ts => do
    let (condition, ts) ← term sc true fuel ts
    let (_, ts) ← expectWord "then" ts
    let (yes, ts) ← term sc true fuel ts
    match ts with
    | .word "end" :: ts => some (.branch condition yes .identity, ts)
    | .word "elif" :: ts =>
      let (no, ts) ← conditional sc fuel ts
      some (.branch condition yes no, ts)
    | .word "else" :: ts =>
      let (no, ts) ← term sc true fuel ts
      let (_, ts) ← expectWord "end" ts
      some (.branch condition yes no, ts)
    | _ => none

/-- A definition after its `def`, and the filter that may use it. -/
def definition (sc : Scope) : (fuel : Nat) → Parser Term
  | 0, _ => none
  | fuel + 1, ts =>
    match ts with
    | .word name :: ts =>
      if keywords.contains name then none else do
        let (params, ts) ← match ts with
          | .sign "(" :: ts => parameters fuel ts
          | _ => some ([], ts)
        let (_, ts) ← expect ":" ts
        let known := { sc with callees := ⟨name, params.length⟩ :: sc.callees }
        let (body, ts) ← term (params.foldl Scope.withParam known) true fuel ts
        let (_, ts) ← expect ";" ts
        let (rest, ts) ← term known true fuel ts
        some (.define name params body rest, ts)
    | _ => none

/-- Parameters after an opening parenthesis. -/
def parameters : (fuel : Nat) → Parser (List String)
  | 0, _ => none
  | fuel + 1, ts => do
    let (param, ts) ← match ts with
      | .word name :: ts => if keywords.contains name then none else some (name, ts)
      | .var name :: ts => some ("$" ++ name, ts)
      | _ => none
    match ts with
    | .sign ")" :: ts => some ([param], ts)
    | .sign ";" :: ts =>
      let (params, ts) ← parameters fuel ts
      some (param :: params, ts)
    | _ => none

/-- Names for a value or for parts of it. -/
def binding (sc : Scope) : (fuel : Nat) → Parser Binding
  | 0, _ => none
  | fuel + 1, ts =>
    match ts with
    | .var name :: ts => some (.name name, ts)
    | .sign "[" :: ts => (listBinding sc 0 fuel ts).map fun (ps, ts) => (.parts ps, ts)
    | .sign "\x7b" :: .sign "\x7d" :: ts => some (.parts [], ts)
    | .sign "\x7b" :: ts => (objectBinding sc fuel ts).map fun (ps, ts) => (.parts ps, ts)
    | _ => none

/-- Names for the elements of a list from a place on. -/
def listBinding (sc : Scope) (place : Nat) : (fuel : Nat) → Parser (List (Term × Binding))
  | 0, _ => none
  | fuel + 1, ts => do
    let (b, ts) ← binding sc fuel ts
    let part : Term × Binding := (.constant (.nat place), b)
    match ts with
    | .sign "]" :: ts => some ([part], ts)
    | .sign "," :: ts =>
      let (more, ts) ← listBinding sc (place + 1) fuel ts
      some (part :: more, ts)
    | _ => none

/-- Names for members of an object. A name alone is that of the member, too. -/
def objectBinding (sc : Scope) : (fuel : Nat) → Parser (List (Term × Binding))
  | 0, _ => none
  | fuel + 1, ts => do
    let valued (key : Term) : Parser (Term × Binding) := fun ts => do
      let (_, ts) ← expect ":" ts
      let (b, ts) ← binding sc fuel ts
      some ((key, b), ts)
    let (part, ts) ← match ts with
      | .var name :: ts => some ((text name, Binding.name name), ts)
      | .word name :: ts => valued (text name) ts
      | .text pieces :: ts => do valued (← pieceTerms sc fuel pieces) ts
      | .sign "(" :: ts => do
        let (key, ts) ← term sc true fuel ts
        let (_, ts) ← expect ")" ts
        valued key ts
      | _ => none
    match ts with
    | .sign "\x7d" :: ts | .sign "," :: .sign "\x7d" :: ts => some ([part], ts)
    | .sign "," :: ts =>
      let (more, ts) ← objectBinding sc fuel ts
      some (part :: more, ts)
    | _ => none

end

/-- The filter of a text over the names of a scope. -/
def parse? (sc : Scope) (source : String) : Option Term := do
  let tokens ← Token.tokens? source
  let (t, rest) ← term sc true (8 * (source.length + 1)) tokens
  if rest.isEmpty then some t else none

end TypeOutline.Filter
