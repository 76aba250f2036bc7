import TypeOutline.Inputs
import TypeOutline.Render.Options
import TypeOutline.Greeting

/-!
# Command lines

A command line names a command and its options. An option takes the words after it, or the text
attached to it; the input option takes any number of words, the others one. Options are checked as
they are completed: an option is completed by the next known one, by the end of the line, or at once
if its text is attached. An unknown word is refused before the option in front of it is looked at.
-/

namespace TypeOutline.Command

/-- Why a command line is not carried out. -/
inductive Refusal where
  | helpWanted | versionWanted | commandMissing
  | unknownCommand | unknownArgument | invalidValue | repeated | unexpectedValue | argumentMissing
deriving Repr, DecidableEq

structure RenderTask where
  inputs : InputSettings := {}
  dialect : Option Dialect := none
  dereference : Bool := false
  urlPath : Option String := none
  config : Option String := none
  /-- Show the tree dump instead of lines. -/
  tree : Bool := false
  /-- The file to write to. -/
  out : Option String := none
  /-- Do nothing. -/
  idle : Bool := false
deriving Repr, DecidableEq

/-- What a command line asks for. -/
inductive Task where
  /-- The built-in example under a URL path. -/
  | greet (urlPath : String)
  | render (r : RenderTask)
deriving Repr, DecidableEq

/-! ## Options -/

/-- What an option takes. -/
inductive Arity where
  | flag | one | many
deriving Repr, DecidableEq

/-- An option of commands: its names, and what a use of it does to what is known so far. -/
structure CommandOption (σ : Type) where
  name : String
  short : Option Char := none
  arity : Arity
  /-- It may be used more than once. -/
  repeatable : Bool := false
  apply : List String → σ → Option σ

def valueOf (set : String → σ → σ) : List String → σ → Option σ
  | [v], s => some (set v s)
  | _, _ => none

/-- A path is not empty. -/
def pathOf (set : String → σ → σ) : List String → σ → Option σ
  | [v], s => if v = "" then none else some (set v s)
  | _, _ => none

def flagOf (set : σ → σ) : List String → σ → Option σ := fun _ s => some (set s)

/-- The options of the example command; what is known is the URL path. -/
def greetOptions : List (CommandOption String) := [
  { name := "url-path", arity := .one, apply := valueOf fun v _ => v }]

def renderOptions : List (CommandOption RenderTask) := [
  { name := "ndjson", arity := .flag
    apply := flagOf fun r => { r with inputs.perLine := true } },
  { name := "json-pointer", arity := .one
    apply := valueOf fun v r => { r with inputs.pointer := some v } },
  { name := "jq-expr", arity := .one
    apply := valueOf fun v r => { r with inputs.filter := some v } },
  { name := "input", short := some 'i', arity := .many, repeatable := true
    apply := fun vs r => some { r with inputs.patterns := r.inputs.patterns ++ vs } },
  { name := "dialect", arity := .one
    apply := fun vs r => match vs with
      | [v] => (Dialect.ofName? v).map fun d => { r with dialect := some d }
      | _ => none },
  { name := "dereference", arity := .flag
    apply := flagOf fun r => { r with dereference := true } },
  { name := "url-path", arity := .one
    apply := valueOf fun v r => { r with urlPath := some v } },
  { name := "config", arity := .one
    apply := pathOf fun v r => { r with config := some v } },
  { name := "tree", arity := .flag, apply := flagOf fun r => { r with tree := true } },
  { name := "out", short := some 'o', arity := .one
    apply := pathOf fun v r => { r with out := some v } },
  { name := "no-op", arity := .flag, apply := flagOf fun r => { r with idle := true } }]

/-! ## Reading the words after a command -/

/-- How far the words have been read: what is known, the options used, and the option that waits for
words with those it has got. -/
structure Progress (σ : Type) where
  known : σ
  used : List String := []
  waiting : Option (CommandOption σ × List String) := none

namespace Progress

variable {σ : Type}

/-- Use an option with all its words. -/
def use (p : Progress σ) (o : CommandOption σ) (words : List String) :
    Except Refusal (Progress σ) :=
  if o.arity ≠ .flag && words.isEmpty then .error .invalidValue
  else if p.used.contains o.name && !o.repeatable then .error .repeated
  else match o.apply words p.known with
    | none => .error .invalidValue
    | some known => .ok { known, used := o.name :: p.used }

/-- Use the option that waits. -/
def settle (p : Progress σ) : Except Refusal (Progress σ) :=
  match p.waiting with
  | none => .ok p
  | some (o, words) => { p with waiting := none }.use o words

/-- The option that waits takes another word. -/
def takes (p : Progress σ) : Bool :=
  p.waiting.any fun (o, words) => o.arity = .many || words.isEmpty

/-- A known option, with the text attached to it. -/
def meet (p : Progress σ) (o : CommandOption σ) (attached : Option String) :
    Except Refusal (Progress σ) :=
  match o.arity, attached with
  | .flag, some _ => .error .unexpectedValue
  | .flag, none => do (← p.settle).use o []
  | _, some text => do (← p.settle).use o [text]
  | _, none => do
    let p ← p.settle
    .ok { p with waiting := some (o, []) }

/-- Help is wanted, once the option that waits is in order. -/
def help (p : Progress σ) : Except Refusal (Progress σ) := do
  let _ ← p.settle
  .error .helpWanted

end Progress

/-- A word with two dashes, as a name and the text after an equals sign. -/
def splitLong (cs : List Char) : String × Option String :=
  let (name, text) := Text.cut '=' cs
  (String.ofList name, text.map String.ofList)

section

variable {σ : Type} (options : List (CommandOption σ))

/-- The letters after a single dash. The text after the letter of an option that takes words is
attached to it. -/
def readLetters (p : Progress σ) : List Char → Except Refusal (Progress σ)
  | [] => .ok p
  | c :: cs =>
    if c = 'h' then p.help
    else match options.find? (·.short == some c) with
      | none => .error .unknownArgument
      | some o =>
        if o.arity = .flag then do readLetters (← p.meet o none) cs
        else match cs with
          | [] => p.meet o none
          | '=' :: text => p.meet o (some (String.ofList text))
          | text => p.meet o (some (String.ofList text))

/-- A word with two dashes. -/
def readLong (p : Progress σ) (cs : List Char) : Except Refusal (Progress σ) :=
  let (name, attached) := splitLong cs
  if name = "help" then
    if attached.isSome then .error .unexpectedValue else p.help
  else match options.find? (·.name == name) with
    | none => .error .unknownArgument
    | some o => p.meet o attached

/-- The words after a command. No word may follow two dashes that stand alone. -/
def readWords (p : Progress σ) : List String → Except Refusal (Progress σ)
  | [] => p.settle
  | word :: words =>
    match word.toList with
    | ['-', '-'] => if words.isEmpty then p.settle else .error .unknownArgument
    | '-' :: '-' :: cs => do readWords (← readLong options p cs) words
    | '-' :: c :: cs => do readWords (← readLetters options p (c :: cs)) words
    | _ => match p.waiting with
      | some (o, given) =>
        if p.takes then readWords { p with waiting := some (o, given ++ [word]) } words
        else .error .unknownArgument
      | none => .error .unknownArgument

end

/-! ## Commands -/

/-- The names of commands, and that of help on them. -/
def commandNames : List String := ["hello", "render", "help"]

def parseGreet (words : List String) : Except Refusal Task := do
  let p ← readWords greetOptions { known := Greeting.defaultPath } words
  return .greet p.known

def parseRender (words : List String) : Except Refusal Task := do
  let p ← readWords renderOptions { known := {} } words
  if p.known.inputs.patterns.isEmpty then throw .argumentMissing
  return .render p.known

/-- Help on a command, of which there is only one level. -/
def helpOn : List String → Refusal
  | [] => .helpWanted
  | [name] => if commandNames.contains name then .helpWanted else .unknownCommand
  | _ => .unknownCommand

/-- Letters after a single dash in front of a command. -/
def topLetters : List Char → Refusal
  | 'h' :: _ => .helpWanted
  | 'V' :: _ => .versionWanted
  | _ => .unknownArgument

/-- A word with two dashes in front of a command. -/
def topLong (cs : List Char) : Refusal :=
  let (name, attached) := splitLong cs
  if name = "help" || name = "version" then
    if attached.isSome then .unexpectedValue
    else if name = "help" then .helpWanted else .versionWanted
  else .unknownArgument

/-- The command of a command line. -/
def parse : List String → Except Refusal Task
  | [] => .error .commandMissing
  | word :: words =>
    match word.toList with
    | ['-', '-'] => match words with
      | [] => .error .commandMissing
      | word :: _ =>
        .error (if commandNames.contains word then .unknownArgument else .unknownCommand)
    | '-' :: '-' :: cs => .error (topLong cs)
    | '-' :: c :: cs => .error (topLetters (c :: cs))
    | _ =>
      if word = "hello" then parseGreet words
      else if word = "render" then parseRender words
      else if word = "help" then .error (helpOn words)
      else .error .unknownCommand

end TypeOutline.Command
