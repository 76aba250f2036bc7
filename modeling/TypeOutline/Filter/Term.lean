import TypeOutline.Filter.Arithmetic

/-!
# Filters

A filter takes a value to a stream of values. A path filter leads to parts of its input and can be
used to change them. Names of definitions, parameters, variables and labels are resolved in the
environment in which a filter runs.
-/

namespace TypeOutline.Filter

mutual

inductive Term where
  /-- The input. -/
  | identity
  | constant (v : Datum)
  | var (name : String)
  /-- Parts of what another filter gives. -/
  | path (target : Term) (parts : List Part)
  /-- The text of a value; a text as it is. -/
  | asText (t : Term)
  /-- All outputs as one list. -/
  | collect (t : Term)
  /-- An object with one member. -/
  | member (key value : Term)
  | negate (t : Term)
  | arith (op : ArithOp) (left right : Term)
  | compare (op : CompareOp) (left right : Term)
  | both (left right : Term)
  | either (left right : Term)
  /-- The true outputs of the first filter, or if there are none the outputs of the second. -/
  | orElse (left right : Term)
  | pipe (first second : Term)
  /-- The outputs of one filter and then those of the other. -/
  | comma (left right : Term)
  /-- A filter run with each output of another under names. -/
  | bind (source : Term) (names : Binding) (body : Term)
  | branch (condition yes no : Term)
  /-- A filter with its failures handed to another. -/
  | attempt (body handler : Term)
  /-- A state taken through the outputs of `source`, from those of `init`. -/
  | reduce (source : Term) (names : Binding) (init step : Term)
  /-- The states on the way. -/
  | each (source : Term) (names : Binding) (init step result : Term)
  | label (name : String) (body : Term)
  | leave (name : String)
  | define (name : String) (params : List String) (body rest : Term)
  | call (name : String) (args : List Term)
  /-- Change the parts that a filter leads to by another. -/
  | update (target change : Term)
  /-- Put the outputs of a filter there. -/
  | assign (target source : Term)
  /-- Put the result of an operation on the part and an output there. -/
  | updateArith (op : ArithOp) (target source : Term)
  /-- Put the outputs of a filter where nothing true is. -/
  | updateOrElse (target source : Term)

/-- A step from a value to parts of it; an optional step fails without a failure. -/
inductive Part where
  | entry (key : Term) (optional : Bool)
  | slice (start stop : Option Term) (optional : Bool)
  | all (optional : Bool)

/-- Names for a value, or for parts of it under keys; the keys are filters on the value. -/
inductive Binding where
  | name (name : String)
  | parts (parts : List (Term × Binding))

end

instance : Inhabited Term := ⟨.identity⟩

mutual

/-- The names of a binding. -/
def Binding.names : Binding → List String
  | .name n => [n]
  | .parts ps => Binding.partNames ps

def Binding.partNames : List (Term × Binding) → List String
  | [] => []
  | (_, b) :: ps => b.names ++ Binding.partNames ps

end

/-- A name with a number of arguments. -/
structure Callee where
  name : String
  arity : Nat
deriving Repr, DecidableEq

/-- What the names in a filter stand for, the innermost name first. -/
inductive Env where
  | empty
  | value (name : String) (value : Datum) (outer : Env)
  /-- A definition, which knows itself and all outer names. -/
  | definition (name : String) (params : List String) (body : Term) (outer : Env)
  /-- An argument, with the names that are known where it was written. -/
  | argument (name : String) (body : Term) (scope : Env) (outer : Env)
  | label (name : String) (number : Nat) (outer : Env)

namespace Env

/-- The value of a variable. -/
def find? (name : String) : Env → Option Datum
  | empty => none
  | value n v outer => if n = name then some v else outer.find? name
  | definition _ _ _ outer | argument _ _ _ outer | label _ _ outer => outer.find? name

def label? (name : String) : Env → Option Nat
  | empty => none
  | label n number outer => if n = name then some number else outer.label? name
  | value _ _ outer | definition _ _ _ outer | argument _ _ _ outer => outer.label? name

/-- The definition or argument of a name, with all that is known to it: the environment from it on
outwards. -/
def callable? (callee : Callee) : Env → Option Env
  | empty => none
  | e@(definition n params _ outer) =>
    if n = callee.name && params.length = callee.arity then some e else outer.callable? callee
  | e@(argument n _ _ outer) =>
    if n = callee.name && callee.arity = 0 then some e else outer.callable? callee
  | value _ _ outer | label _ _ outer => outer.callable? callee

/-- The definitions at the front of a filter, in an environment. -/
def withDefinitions : Env → Term → Env
  | e, .define name params body rest => withDefinitions (definition name params body e) rest
  | e, _ => e

end Env

/-- The parameter takes values, not filters. -/
def isValueParam (param : String) : Bool := param.toList.head? = some '$'

end TypeOutline.Filter
