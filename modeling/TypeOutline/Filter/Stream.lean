import TypeOutline.Filter.Datum

/-!
# Streams of outcomes

A filter gives any number of outcomes, one after the other. A failure is an outcome like any other:
what follows it in the stream is still there, but a filter that catches failures stops at the first.
A stream that was given up on for want of steps ends early, and says so.
-/

namespace TypeOutline.Filter

/-- One outcome of a filter. -/
inductive Outcome (α : Type) where
  | value (a : α)
  /-- A failure, with the value that tells about it. -/
  | failure (cause : Datum)
  /-- The way out of the label with a number. -/
  | leave (label : Nat)

structure Stream (α : Type) where
  outcomes : List (Outcome α) := []
  /-- Nothing is missing at the end. -/
  complete : Bool := true

namespace Stream

variable {α β : Type}

def empty : Stream α := {}

/-- The stream of which nothing is known. -/
def unknown : Stream α := { complete := false }

def single (a : α) : Stream α := { outcomes := [.value a] }

def ofList (as : List α) : Stream α := { outcomes := as.map .value }

def fail (cause : Datum) : Stream α := { outcomes := [.failure cause] }

/-- The stream of a failure that is told by a text. -/
def failWith (text : String) : Stream α := fail (.string text)

def ofOption (text : String) (a? : Option α) : Stream α := a?.elim (failWith text) single

/-- One stream after the other. -/
def append (s t : Stream α) : Stream α :=
  if s.complete then { t with outcomes := s.outcomes ++ t.outcomes } else s

instance : Append (Stream α) := ⟨append⟩

/-- The outcomes of a list of streams in order, after those `given`, the last one first. -/
def joinFrom (given : List (Outcome β)) (f : Outcome α → Stream β) :
    List (Outcome α) → Bool → Stream β
  | [], complete => { outcomes := given.reverse, complete }
  | o :: os, complete =>
    let s := f o
    let given := s.outcomes.reverse ++ given
    if s.complete then joinFrom given f os complete
    else { outcomes := given.reverse, complete := false }

/-- Follow every outcome by a stream. -/
def bindOutcomes (s : Stream α) (f : Outcome α → Stream β) : Stream β :=
  joinFrom [] f s.outcomes s.complete

/-- Follow every value by a stream; other outcomes stay. -/
def bind (s : Stream α) (f : α → Stream β) : Stream β :=
  s.bindOutcomes fun
    | .value a => f a
    | .failure cause => fail cause
    | .leave label => { outcomes := [.leave label] }

def map (f : α → β) (s : Stream α) : Stream β := s.bind fun a => single (f a)

/-- The stream without its failures. -/
def withoutFailures (s : Stream α) : Stream α :=
  { s with outcomes := s.outcomes.filter fun
      | .failure _ => false
      | _ => true }

/-- The outcomes before the first failure, and from there on those of a handler, after those
`given`, the last one first. -/
def rescueFrom (given : List (Outcome α)) (handler : Datum → Stream α) (complete : Bool) :
    List (Outcome α) → Stream α
  | [] => { outcomes := given.reverse, complete }
  | .failure cause :: _ => { outcomes := given.reverse : Stream α } ++ handler cause
  | o :: os => rescueFrom (o :: given) handler complete os

/-- The outcomes before the first failure, and from there on those of a handler. -/
def rescue (s : Stream α) (handler : Datum → Stream α) : Stream α :=
  rescueFrom [] handler s.complete s.outcomes

/-- The first `n` outcomes. -/
def take (n : Nat) (s : Stream α) : Stream α :=
  { outcomes := s.outcomes.take n, complete := s.complete || n ≤ s.outcomes.length }

/-- All but the first `n` outcomes. -/
def drop (n : Nat) (s : Stream α) : Stream α := { s with outcomes := s.outcomes.drop n }

/-- The outcomes up to the way out of a label. -/
def upTo (label : Nat) (s : Stream α) : Stream α :=
  let leaves : Outcome α → Bool := fun
    | .leave l => l == label
    | _ => false
  { outcomes := s.outcomes.takeWhile (!leaves ·), complete := s.complete || s.outcomes.any leaves }

/-- All values as one list, or the first outcome that is no value. -/
def collectFrom (values : List α) : List (Outcome α) → Bool → Stream (List α)
  | [], true => single values.reverse
  | [], false => unknown
  | .value a :: os, complete => collectFrom (a :: values) os complete
  | .failure cause :: _, _ => fail cause
  | .leave label :: _, _ => { outcomes := [.leave label] }

/-- All values as one list, or the first outcome that is no value. -/
def collect (s : Stream α) : Stream (List α) := collectFrom [] s.outcomes s.complete

/-- Change a state by every value, through any number of next states each time. -/
def foldFrom (step : α → β → Stream β) (complete : Bool) : List (Outcome α) → β → Stream β
  | [], b => if complete then single b else unknown
  | .value a :: os, b => (step a b).bind (foldFrom step complete os)
  | .failure cause :: _, _ => fail cause
  | .leave label :: _, _ => { outcomes := [.leave label] }

/-- The last states. -/
def fold (s : Stream α) (b : β) (step : α → β → Stream β) : Stream β :=
  foldFrom step s.complete s.outcomes b

/-- The states on the way, each as `emit` shows it. -/
def scanFrom {γ : Type} (step : α → β → Stream β) (emit : α → β → Stream γ) (complete : Bool) :
    List (Outcome α) → β → Stream γ
  | [], _ => { complete }
  | .value a :: os, b =>
    (step a b).bind fun b => emit a b ++ scanFrom step emit complete os b
  | .failure cause :: _, _ => fail cause
  | .leave label :: _, _ => { outcomes := [.leave label] }

/-- The states on the way, each as `emit` shows it. -/
def scan {γ : Type} (s : Stream α) (b : β) (step : α → β → Stream β) (emit : α → β → Stream γ) :
    Stream γ :=
  scanFrom step emit s.complete s.outcomes b

end Stream

end TypeOutline.Filter
