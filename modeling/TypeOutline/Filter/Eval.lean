import TypeOutline.Filter.Builtin

/-!
# Running filters

A filter is run on a value together with the path to it, as far as there is one: steps to parts make
the path longer, and whatever computes a new value loses it. Where a filter has several operands
with several outputs, those of the left operand make the outer loop. A definition may call itself,
so a run is cut off after a number of nested steps.

A path filter can also change its input: the change goes through the parts that it leads to, one
after the other.
-/

namespace TypeOutline.Filter

/-- A value, and the keys that lead to it, the last one first. -/
structure Located where
  value : Datum
  way : Option (List Datum) := none

/-- A value that is no part of the input. -/
def Located.plain (v : Datum) : Located := { value := v }

/-- The parts at the end of several steps. -/
def followAlong : List MarkedStep → Located → Stream Located
  | [], v => .single v
  | (s, silent) :: steps, v =>
    let parts := (s.follow v.value).map fun (key, w) =>
      ({ value := w, way := v.way.map (key :: ·) } : Located)
    (if silent then parts.withoutFailures else parts).bind (followAlong steps)

namespace Stream

variable {α β γ : Type}

/-- All pairs of outcomes, those of the first stream in the outer loop; a pair of values is followed
by a stream. -/
def product (s : Stream α) (t : Stream β) (f : α → β → Stream γ) : Stream γ :=
  s.bindOutcomes fun
    | .value a => t.bind (f a)
    | .failure cause => t.bindOutcomes fun _ => fail cause
    | .leave label => t.bindOutcomes fun _ => { outcomes := [.leave label] }

end Stream

/-- The outputs that count as true, and all failures. -/
def truths (s : Stream Located) : Stream Located :=
  { s with outcomes := s.outcomes.filter fun
      | .value v => truthy v.value
      | _ => true }

/-- How many numbers of a range are there at most. A range without a whole number at its end may
have no end, and is cut off earlier. -/
def maxRange (stop : Datum) : Nat := if (whole? stop).isSome then 1000001 else 200000

mutual

/-- The outputs of a filter. -/
def eval : (fuel : Nat) → Env → Term → Located → Stream Located
  | 0, _, _, _ => .unknown
  | fuel + 1, env, t, v =>
    let plain : Stream Datum → Stream Located := Stream.map Located.plain
    match t with
    | .identity => .single v
    | .constant j => .single (.plain j)
    | .var name => plain (.ofOption "unknown variable" (env.find? name))
    | .path target parts =>
      (eval fuel env target v).bind fun y =>
        (stepsOf fuel env parts v).bind fun steps => followAlong steps y
    | .asText t => plain ((eval fuel env t v).map fun y => .string (textOf y.value))
    | .collect t => plain ((eval fuel env t v).collect.map fun ys => .array (ys.map (·.value)))
    | .member key value =>
      (eval fuel env key v).product (eval fuel env value v) fun k w => plain (match k.value with
        | .string k => .single (.object [(k, w.value)])
        | _ => .failWith "keys must be texts")
    | .negate t =>
      (eval fuel env t v).bind fun y => plain (.ofOption "cannot negate" (negate? y.value))
    | .arith op l r =>
      (eval fuel env l v).product (eval fuel env r v) fun x y =>
        plain (.ofOption "cannot calculate" (op.result? x.value y.value))
    | .compare op l r =>
      (eval fuel env l v).product (eval fuel env r v) fun x y =>
        plain (.single (.bool (op.holds x.value y.value)))
    | .both l r =>
      (eval fuel env l v).bind fun x =>
        if truthy x.value then plain ((eval fuel env r v).map fun y => .bool (truthy y.value))
        else plain (.single (.bool false))
    | .either l r =>
      (eval fuel env l v).bind fun x =>
        if truthy x.value then plain (.single (.bool true))
        else plain ((eval fuel env r v).map fun y => .bool (truthy y.value))
    | .orElse l r =>
      let left := truths (eval fuel env l v)
      if left.outcomes.isEmpty && left.complete then eval fuel env r v else left
    | .pipe f g => (eval fuel env f v).bind (eval fuel env g)
    | .comma l r => eval fuel env l v ++ eval fuel env r v
    | .bind source names body =>
      (withNames fuel env names (eval fuel env source v)).bind fun env => eval fuel env body v
    | .branch condition yes no =>
      (eval fuel env condition v).bind fun y =>
        eval fuel env (if truthy y.value then yes else no) v
    | .attempt body handler =>
      (eval fuel env body v).rescue fun cause => eval fuel env handler (.plain cause)
    | .reduce source names init step =>
      let turns := withNames fuel env names (eval fuel env source v)
      (eval fuel env init v).bind fun i => turns.fold i fun env state => eval fuel env step state
    | .each source names init step result =>
      let turns := withNames fuel env names (eval fuel env source v)
      (eval fuel env init v).bind fun i =>
        turns.scan i (fun env state => eval fuel env step state)
          (fun env state => eval fuel env result state)
    | .label name body => (eval fuel (.label name fuel env) body v).upTo fuel
    | .leave name =>
      ((env.label? name).elim (.failWith "unknown label") fun n => { outcomes := [.leave n] })
    | .define name params body rest => eval fuel (.definition name params body env) rest v
    | .call name args =>
      match env.callable? ⟨name, args.length⟩ with
      | some (.argument _ body scope _) => eval fuel scope body v
      | some e@(.definition _ params body _) =>
        (withArguments fuel env v (params.zip args) e).bind fun env => eval fuel env body v
      | _ => match Builtin.ofCallee? ⟨name, args.length⟩ with
        | some b => builtin fuel env b args v
        | none => .failWith "unknown filter"
    | .update target change =>
      plain (edit fuel env target
        (fun y => (eval fuel env change (.plain y)).map (·.value)) v.value)
    | .assign target source =>
      (eval fuel env source v).bind fun y =>
        plain (edit fuel env target (fun _ => .single y.value) v.value)
    | .updateArith op target source =>
      (eval fuel env source v).bind fun y =>
        plain (edit fuel env target
          (fun x => .ofOption "cannot calculate" (op.result? x y.value)) v.value)
    | .updateOrElse target source =>
      (eval fuel env source v).bind fun y =>
        plain (edit fuel env target
          (fun x => .single (if truthy x then x else y.value)) v.value)

/-- The environments in which names stand for each of some values or for parts of it. -/
def withNames (fuel : Nat) (env : Env) (names : Binding) (values : Stream Located) : Stream Env :=
  match fuel with
  | 0 => .unknown
  | fuel + 1 => match names with
    | .name name => values.map fun y => .value name y.value env
    | .parts parts => values.bind fun y => withPartNames fuel env parts y.value env

/-- The environments, from `inner` on, in which names stand for parts of a value. The keys of the
parts are run in the outer environment. -/
def withPartNames (fuel : Nat) (env : Env) (parts : List (Term × Binding)) (v : Datum)
    (inner : Env) : Stream Env :=
  match fuel with
  | 0 => .unknown
  | fuel + 1 => match parts with
    | [] => .single inner
    | (key, names) :: parts =>
      let found := (eval fuel env key (.plain v)).bind fun k =>
        ((Step.entry k.value).follow v).map (·.2)
      let envs : Stream Env := match names with
        | .name name => found.map fun w => .value name w inner
        | .parts below => found.bind fun w => withPartNames fuel env below w inner
      envs.bind (withPartNames fuel env parts v)

/-- The steps of a path: all combinations of the keys that its filters give. -/
def stepsOf (fuel : Nat) (env : Env) (parts : List Part) (v : Located) :
    Stream (List MarkedStep) :=
  match fuel with
  | 0 => .unknown
  | fuel + 1 => match parts with
    | [] => .single []
    | part :: parts =>
      let bounds : Option Term → Stream (Option Datum)
        | none => .single none
        | some t => (eval fuel env t v).map fun y => some y.value
      let first : Stream MarkedStep := match part with
        | .entry key silent => (eval fuel env key v).map fun k => (.entry k.value, silent)
        | .slice start stop silent =>
          (bounds start).product (bounds stop) fun a b => .single (.slice a b, silent)
        | .all silent => .single (.all, silent)
      first.bind fun s => (stepsOf fuel env parts v).map (s :: ·)

/-- The environments of a definition's body. An argument is passed on as a filter, unless its
parameter takes values. -/
def withArguments (fuel : Nat) (env : Env) (v : Located) (args : List (String × Term))
    (inner : Env) : Stream Env :=
  match fuel with
  | 0 => .unknown
  | fuel + 1 => match args with
    | [] => .single inner
    | (param, arg) :: args =>
      if isValueParam param then
        let name := String.ofList (param.toList.drop 1)
        (eval fuel env arg v).bind fun y =>
          withArguments fuel env v args
            (.argument name (.constant y.value) .empty (.value name y.value inner))
      else withArguments fuel env v args (.argument param arg env inner)

/-- The outputs of a built-in filter. -/
def builtin (fuel : Nat) (env : Env) (b : Builtin) (args : List Term) (v : Located) :
    Stream Located :=
  match fuel with
  | 0 => .unknown
  | fuel + 1 =>
    let plain : Stream Datum → Stream Located := Stream.map Located.plain
    let count (t : Term) (f : Nat → Stream Located) : Stream Located :=
      (eval fuel env t v).bind fun n =>
        (whole? n.value).elim (.failWith "no whole number") fun n => f n.toNat
    match b, args with
    | .empty, _ => .empty
    | .error, _ => .fail v.value
    | .length, _ => plain (.ofOption "no length" (length? v.value))
    | .keys, _ =>
      plain (.ofOption "no keys" ((keys? v.value).map fun ks =>
        .array (ks.mergeSort fun a b => compareValues a b != .gt)))
    | .keysUnsorted, _ => plain (.ofOption "no keys" ((keys? v.value).map .array))
    | .kind, _ => plain (.single (.string (kindName v.value)))
    | .has, [key] =>
      (eval fuel env key v).bind fun k =>
        plain (.ofOption "cannot index" ((has? v.value k.value).map .bool))
    | .range, [start, stop, step] =>
      (eval fuel env start v).bind fun a => (eval fuel env stop v).bind fun b =>
        (eval fuel env step v).bind fun c =>
          plain (rangeFrom b.value c.value (maxRange b.value) [] a.value)
    | .first, [t] => (eval fuel env t v).take 1
    | .limit, [n, t] => count n fun n => if n = 0 then .empty else (eval fuel env t v).take n
    | .skip, [n, t] => count n fun n => (eval fuel env t v).drop n
    | .path, [t] =>
      (eval fuel env t { v with way := some [] }).bind fun y =>
        plain (.ofOption "no path" (y.way.map fun keys => .array keys.reverse))
    | _, _ => .failWith "wrong arguments"

/-- Change the parts that a filter leads to. Only filters that are made of paths lead to parts. -/
def edit : (fuel : Nat) → Env → Term → Change → Change
  | 0, _, _, _, _ => .unknown
  | fuel + 1, env, t, f, v =>
    match t with
    | .identity => f v
    | .path target parts =>
      edit fuel env target (fun y =>
        (stepsOf fuel env parts (.plain v)).fold y fun steps w => changeAlong steps f w) v
    | .pipe l r => edit fuel env l (edit fuel env r f) v
    | .comma l r => (edit fuel env l f v).bind (edit fuel env r f)
    | .bind source names body =>
      (withNames fuel env names (eval fuel env source (.plain v))).fold v fun env w =>
        edit fuel env body f w
    | .branch condition yes no =>
      (eval fuel env condition (.plain v)).fold v fun y w =>
        edit fuel env (if truthy y.value then yes else no) f w
    | .orElse l r =>
      let left := truths (eval fuel env l (.plain v))
      match left.outcomes with
      | [] => if left.complete then edit fuel env r f v else .unknown
      | .value _ :: _ => edit fuel env l f v
      | .failure cause :: _ => .fail cause
      | .leave label :: _ => { outcomes := [.leave label] }
    | .reduce source names init step =>
      let turns := withNames fuel env names (eval fuel env source (.plain v))
      edit fuel env init (editTurns fuel step f turns.complete turns.outcomes) v
    | .each source names init step result =>
      let turns := withNames fuel env names (eval fuel env source (.plain v))
      edit fuel env init (editEach fuel step result f turns.complete turns.outcomes) v
    | .leave name =>
      ((env.label? name).elim (.failWith "unknown label") fun n => { outcomes := [.leave n] })
    | .define name params body rest => edit fuel (.definition name params body env) rest f v
    | .call name args =>
      match env.callable? ⟨name, args.length⟩ with
      | some (.argument _ body scope _) => edit fuel scope body f v
      | some e@(.definition _ params body _) =>
        (withArguments fuel env (.plain v) (params.zip args) e).fold v fun env w =>
          edit fuel env body f w
      | _ => match Builtin.ofCallee? ⟨name, args.length⟩ with
        | some .empty => .single v
        | some .error => .fail v
        | _ => .failWith "no path"
    | _ => .failWith "no path"

/-- Change the parts that a filter leads to after one run of it in each environment. -/
def editTurns (fuel : Nat) (step : Term) (f : Change) (complete : Bool)
    (turns : List (Outcome Env)) : Change :=
  match fuel with
  | 0 => fun _ => .unknown
  | fuel + 1 => match turns with
    | [] => fun v => if complete then f v else .unknown
    | .value env :: turns => edit fuel env step (editTurns fuel step f complete turns)
    | .failure cause :: _ => fun _ => .fail cause
    | .leave label :: _ => fun _ => { outcomes := [.leave label] }

/-- Change the parts that a filter leads to after each run of another in each environment. -/
def editEach (fuel : Nat) (step result : Term) (f : Change) (complete : Bool)
    (turns : List (Outcome Env)) : Change :=
  match fuel with
  | 0 => fun _ => .unknown
  | fuel + 1 => match turns with
    | [] => fun v => if complete then .single v else .unknown
    | .value env :: turns => edit fuel env step fun v =>
      (edit fuel env result f v).bind (editEach fuel step result f complete turns)
    | .failure cause :: _ => fun _ => .fail cause
    | .leave label :: _ => fun _ => { outcomes := [.leave label] }

end

end TypeOutline.Filter
