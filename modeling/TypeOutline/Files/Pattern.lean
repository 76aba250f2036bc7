import TypeOutline.Text.Blank

/-!
# Name patterns

In a pattern `?` stands for any character, `*` for any text, and brackets for one character of a
class: single characters and ranges, all others after `!`. A closing bracket at the front of a class
is one of its characters. Two stars stand alone between slashes, for directories to any depth; three
are a fault, and so is a bracket that is not closed. Braces mean nothing.
-/

namespace TypeOutline

/-- What can be wrong with a pattern. -/
inductive PatternFault where
  | wildcards | recursion | range
deriving Repr, DecidableEq

/-- A fault and the number of characters before it. -/
structure PatternError where
  position : Nat
  fault : PatternFault
deriving Repr, DecidableEq

namespace PatternError

def message (e : PatternError) : String :=
  "Pattern syntax error near position " ++ toString e.position ++ ": " ++ match e.fault with
    | .wildcards => "wildcards are either regular `*` or recursive `**`"
    | .recursion => "recursive wildcards must form a single path component"
    | .range => "invalid range pattern"

end PatternError

/-- The characters from one to another; a single character is the range from it to itself. -/
structure CharRange where
  low : Char
  high : Char
deriving Repr, DecidableEq

def CharRange.contains (r : CharRange) (c : Char) : Bool := r.low ≤ c && c ≤ r.high

/-- A part of a pattern. -/
inductive Wildcard where
  | char (c : Char)
  | anyChar
  | oneOf (ranges : List CharRange)
  | noneOf (ranges : List CharRange)
  | anyText
  /-- Directories to any depth. -/
  | anyDepth
deriving Repr, DecidableEq

namespace Wildcard

def char? : Wildcard → Option Char
  | char c => some c
  | _ => none

/-- The part stands for exactly this one character. -/
def accepts : Wildcard → Char → Bool
  | char c, x => c = x
  | anyChar, _ => true
  | oneOf rs, x => rs.any (·.contains x)
  | noneOf rs, x => !rs.any (·.contains x)
  | anyText, _ | anyDepth, _ => false

end Wildcard

/-- The parts of a pattern. -/
abbrev Pattern := List Wildcard

namespace Pattern

/-- The ranges of a class. -/
def rangesOf : List Char → List CharRange
  | [] => []
  | low :: '-' :: high :: cs => ⟨low, high⟩ :: rangesOf cs
  | c :: cs => ⟨c, c⟩ :: rangesOf cs

/-- The text up to a closing bracket that is not its first character, and what follows it. -/
def classBody? : List Char → Option (List Char × List Char)
  | [] => none
  | c :: cs =>
    let (body, rest) := Text.cut ']' cs
    rest.map fun rest => (c :: body, rest)

/-- The class after an opening bracket, and what follows it. -/
def class? : List Char → Option (Wildcard × List Char)
  | '!' :: cs => (classBody? cs).map fun (body, rest) => (.noneOf (rangesOf body), rest)
  | cs => (classBody? cs).map fun (body, rest) => (.oneOf (rangesOf body), rest)

theorem length_of_cut {sep : Char} {cs body rest : List Char}
    (h : Text.cut sep cs = (body, some rest)) : rest.length < cs.length := by
  have hcs := (Text.cut_eq sep cs).2
  rw [h] at hcs
  rw [hcs]
  simp only [Option.elim_some, List.length_append, List.length_cons]
  omega

theorem length_classBody? {cs body rest : List Char} (h : classBody? cs = some (body, rest)) :
    rest.length < cs.length := by
  cases cs with
  | nil => cases h
  | cons c cs =>
    obtain ⟨r, hr, he⟩ := Option.map_eq_some_iff.mp h
    cases he
    exact Nat.lt_succ_of_lt (length_of_cut (Prod.ext rfl hr))

/-- A class takes characters off the front of a pattern. -/
theorem length_class? {cs : List Char} {w : Wildcard} {rest : List Char}
    (h : class? cs = some (w, rest)) : rest.length < cs.length := by
  unfold class? at h
  split at h
  · obtain ⟨⟨b, r⟩, hb, he⟩ := Option.map_eq_some_iff.mp h
    cases he
    exact Nat.lt_succ_of_lt (length_classBody? hb)
  · obtain ⟨⟨b, r⟩, hb, he⟩ := Option.map_eq_some_iff.mp h
    cases he
    exact length_classBody? hb

/-- The parts of the text of a pattern, of which `taken` came before, the last one first. -/
def parseFrom (taken : List Char) : List Char → Except PatternError Pattern
  | [] => .ok []
  | '?' :: cs => do return .anyChar :: (← parseFrom ('?' :: taken) cs)
  | '*' :: '*' :: '*' :: _ => .error ⟨taken.length + 2, .wildcards⟩
  | '*' :: '*' :: rest => do
    if !(taken.head?.all (· = '/')) then throw ⟨taken.length - 1, .recursion⟩
    if !(rest.head?.all (· = '/')) then throw ⟨taken.length + 2, .recursion⟩
    return .anyDepth :: (← parseFrom (rest.take 1 ++ ['*', '*'] ++ taken) (rest.drop 1))
  | '*' :: cs => do return .anyText :: (← parseFrom ('*' :: taken) cs)
  | '[' :: cs =>
    match h : class? cs with
    | none => .error ⟨taken.length, .range⟩
    | some (w, rest) => do
      have := length_class? h
      let body := cs.take (cs.length - rest.length)
      return w :: (← parseFrom (body.reverse ++ '[' :: taken) rest)
  | c :: cs => do return .char c :: (← parseFrom (c :: taken) cs)
termination_by cs => cs.length

def parse (text : List Char) : Except PatternError Pattern := parseFrom [] text

/-- The text that a pattern without wildcards stands for. -/
def literal? (p : Pattern) : Option String := (p.mapM Wildcard.char?).map String.ofList

/-- The pattern of directories to any depth. -/
def isRecursive (p : Pattern) : Bool := p.contains .anyDepth

/-- The name that a pattern stands for. -/
def accepts : Pattern → List Char → Bool
  | [], cs => cs.isEmpty
  | .anyText :: ws, [] => accepts ws []
  | .anyText :: ws, c :: cs => accepts ws (c :: cs) || accepts (.anyText :: ws) cs
  | _ :: _, [] => false
  | w :: ws, c :: cs => w.accepts c && accepts ws cs
termination_by ws cs => ws.length + cs.length

end Pattern

/-- A path pattern: a pattern for each name. -/
structure PathPattern where
  /-- The names start at the top of the file system. -/
  absolute : Bool
  names : List Pattern
  /-- Only directories are meant. -/
  directory : Bool
deriving Repr, DecidableEq

namespace PathPattern

/-- The texts between slashes, without an empty one at the end. -/
def components (text : List Char) : List (List Char) :=
  let all := Text.pieces '/' text
  if all.getLast? = some [] then all.dropLast else all

/-- The path pattern of a text. A pattern that is well formed as a whole, but not between slashes,
is a fault as well. -/
def parse (text : String) : Except PatternError PathPattern := do
  let cs := text.toList
  let _ ← Pattern.parse cs
  let absolute := cs.head? = some '/'
  let names ← (components (if absolute then cs.tail else cs)).mapM Pattern.parse
  return { absolute, names, directory := cs.getLast? = some '/' }

/-- Characters that make a text a path pattern. -/
def isPattern (text : String) : Bool :=
  text.toList.any fun c => c = '*' || c = '?' || c = '[' || c = '\x7b'

end PathPattern

end TypeOutline
