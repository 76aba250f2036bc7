import TypeOutline.Command.Run
import TypeOutline.Proofs.Inputs.Faults

/-!
# What a render run does, and when

A render run step by step, on a world of printed text and files: it looks
at the configuration, at the paths of one argument after the other and at
one file after the other, and only when all documents are there does it
print line by line, or make directories and write (`perform`). Filters may
be of any language (`runBy`). Whenever `runBy` gives a result, `perform`
leaves it behind, and whenever `runBy` fails `perform` fails in the same
way (`endsAs_perform`).

What can go wrong before the first step that changes anything is listed
apart (`troubles`). If anything in the list is wrong, the run fails with
the first of it and the world is as it was
(`run_of_troubles`).
-/

namespace TypeOutline.Command

/-! ## Steps -/

/-- What a run acts on. -/
structure World where
  printed : String
  files : FileTree

/-- A run that may fail, and leaves a world behind even then. -/
abbrev Action := ExceptT Trouble (StateM World)

namespace Action

variable {α β : Type} {w : World}

/-- Look at the files. -/
def look (f : FileTree → Except Trouble α) : Action α := fun w => (f w.files, w)

/-- Print a line. -/
def print (line : String) : Action Unit := fun w =>
  (.ok (), { w with printed := w.printed ++ (line ++ "\n") })

/-- Change the files, unless that fails. -/
def change (f : FileTree → Except Trouble FileTree) : Action Unit := fun w =>
  match f w.files with
  | .ok t => (.ok (), { w with files := t })
  | .error e => (.error e, w)

/-- A run ends in the world that a computation gives, or fails as that does, in whatever world. -/
def EndsAs (result : Except Trouble Unit × World) : Except Trouble World → Prop
  | .ok w => result = (.ok (), w)
  | .error e => result.1 = .error e

theorem endsAs_change (f : FileTree → Except Trouble FileTree) (w : World) :
    EndsAs (change f w) ((f w.files).map ({ w with files := · })) := by
  rw [change]
  cases f w.files <;> rfl

theorem bind_eq (a : Action α) (f : α → Action β) (w : World) :
    (a >>= f) w = match a w with
      | (.ok x, w') => f x w'
      | (.error e, w') => (.error e, w') := by
  rw [show (a >>= f) w = (match (a w).1 with
    | .ok x => f x
    | .error e => fun w' => (Except.error e, w')) (a w).2 from ?_]
  · rcases a w with ⟨e | x, w'⟩ <;> rfl
  · show ExceptT.bindCont f (a w).1 (a w).2 = _
    cases (a w).1 <;> rfl

/-- Looking twice is looking once. -/
theorem look_bind (f : FileTree → Except Trouble α) (g : α → FileTree → Except Trouble β) :
    (look f >>= fun x => look (g x)) = look fun t => f t >>= (g · t) := by
  funext w
  rw [bind_eq, look, look]
  cases f w.files <;> rfl

theorem look_mapM (f : α → FileTree → Except Trouble β) : ∀ xs : List α,
    (xs.mapM fun x => look (f x)) = look fun t => xs.mapM (f · t)
  | [] => rfl
  | x :: xs => by
      have hrest : ∀ y : β, (do
          let ys ← xs.mapM fun x => look (f x)
          return y :: ys) = look fun t => do return y :: (← xs.mapM (f · t)) := by
        intro y
        rw [look_mapM f xs]
        exact look_bind _ fun ys _ => .ok (y :: ys)
      simp only [List.mapM_cons, hrest]
      exact look_bind _ _

theorem print_all (lines : List String) : ∀ w : World,
    forM lines print w = (.ok (), { w with printed := w.printed ++ RenderTask.textOf lines }) := by
  induction lines with
  | nil =>
    intro w
    rw [RenderTask.textOf, List.map_nil, String.join_nil, String.append_empty]
    rfl
  | cons line lines ih =>
    intro w
    rw [List.forM_cons, bind_eq]
    show forM lines print { w with printed := w.printed ++ (line ++ "\n") } = _
    rw [ih, RenderTask.textOf, RenderTask.textOf, List.map_cons, String.join_cons,
      String.append_assoc]

end Action

/-! ## The run -/

namespace RenderTask

open TypeOutline.Command.Action
open InputSettings (refineBy)

variable {lang : Filter.Language} {r : RenderTask} {g : Config} {ds : List Document} {w : World}

/-- A run, with filters of some language. -/
def runBy (lang : Filter.Language) (r : RenderTask) (t : FileTree) : Except Trouble Result := do
  if r.idle then return { output := "", files := t }
  let g ← (r.configFor t).mapError .loadingConfig
  let ds ← (r.inputs.loadBy (refineBy lang r.inputs.filter) t).mapError .loadingInputs
  if ds.any (r.linesFault g) then throw .indentTooWide
  let text := r.textFor g ds
  match r.out with
  | none => return { output := text, files := t }
  | some path => return { output := "", files := ← writeOut t path text }

theorem run_eq_runBy (r : RenderTask) (t : FileTree) : r.run t = r.runBy Filter.builtIn t := by
  unfold run runBy
  rewrite [InputSettings.load_eq_loadBy, InputSettings.refine_eq_refineBy]
  rfl

/-- Load all documents, with a look at the files for each argument and for each path. -/
def loadDocuments (lang : Filter.Language) (s : InputSettings) : Action (List Document) := do
  let paths ← s.patterns.mapM fun text =>
    look fun t => (Glob.pathsOf t text).mapError .loadingInputs
  let documents ← paths.flatten.mapM fun path =>
    look fun t => (s.loadFileBy (refineBy lang s.filter) t path).mapError .loadingInputs
  return documents.flatten

/-- Show the documents, when all of them are there: line by line, or in a file. -/
def deliver (r : RenderTask) (g : Config) (ds : List Document) : Action Unit :=
  match r.out with
  | none => forM ds fun d =>
      forM ((if ds.length > 1 then [header d] else []) ++ r.linesOf g d) print
  | some path => do
      match Path.parent? path with
      | none => pure ()
      | some above => change fun t => (t.makeDirectories above).mapError (.creating above)
      change fun t => (t.write path (r.textFor g ds)).mapError (.writing path)

/-- A run, step by step. -/
def perform (lang : Filter.Language) (r : RenderTask) : Action Unit :=
  if r.idle then pure ()
  else do
    let g ← look fun t => (r.configFor t).mapError .loadingConfig
    let ds ← loadDocuments lang r.inputs
    if ds.any (r.linesFault g) then throw .indentTooWide
    else r.deliver g ds

/-- The configuration and all documents. -/
def gather (lang : Filter.Language) (r : RenderTask) (t : FileTree) :
    Except Trouble (Config × List Document) := do
  let g ← (r.configFor t).mapError .loadingConfig
  return (g, ← (r.inputs.loadBy (refineBy lang r.inputs.filter) t).mapError .loadingInputs)

theorem loadDocuments_eq (lang : Filter.Language) (s : InputSettings) :
    loadDocuments lang s =
      look fun t => (s.loadBy (refineBy lang s.filter) t).mapError .loadingInputs := by
  generalize hfilter : refineBy lang s.filter = f
  have hload : ∀ t, (s.loadBy f t).mapError Trouble.loadingInputs = do
      let paths ← s.patterns.mapM fun text => (Glob.pathsOf t text).mapError .loadingInputs
      let documents ← paths.flatten.mapM fun path => (s.loadFileBy f t path).mapError .loadingInputs
      return documents.flatten := by
    intro t
    rw [InputSettings.loadBy, mapError_bind, Glob.resolve, ← mapError_mapM]
    cases s.patterns.mapM (Glob.pathsOf t) with
    | error e => rfl
    | ok paths =>
      show (paths.flatten.mapM (s.loadFileBy f t) >>= fun documents => _).mapError _ = _
      rw [mapError_bind, mapError_mapM]
      rfl
  have hfiles : ∀ paths : List String, (do
      let documents ← look fun t =>
        paths.mapM fun path => (s.loadFileBy f t path).mapError .loadingInputs
      return documents.flatten) = look fun t => do
        let documents ← paths.mapM fun path => (s.loadFileBy f t path).mapError .loadingInputs
        return documents.flatten :=
    fun paths => look_bind _ fun (documents : List (List Document)) _ => .ok documents.flatten
  simp only [loadDocuments, look_mapM, hfilter, hfiles, hload]
  exact look_bind _ _

/-- A run that gets its documents shows them; any other stops there, and leaves the world alone. -/
theorem perform_eq (hidle : r.idle = false) (w : World) :
    r.perform lang w = match r.gather lang w.files with
      | .ok (g, ds) =>
        if ds.any (r.linesFault g) then (.error .indentTooWide, w) else r.deliver g ds w
      | .error e => (.error e, w) := by
  rw [perform, hidle, if_neg Bool.false_ne_true, gather, loadDocuments_eq, bind_eq, look]
  cases (r.configFor w.files).mapError Trouble.loadingConfig with
  | error e => rfl
  | ok g =>
    dsimp only
    rw [bind_eq, look]
    cases (r.inputs.loadBy _ w.files).mapError Trouble.loadingInputs with
    | error e => rfl
    | ok ds =>
      show (if ds.any (r.linesFault g) then throw .indentTooWide
          else r.deliver g ds : Action Unit) w =
        if ds.any (r.linesFault g) then (.error .indentTooWide, w) else r.deliver g ds w
      split <;> rfl

theorem runBy_eq (hidle : r.idle = false) (t : FileTree) :
    r.runBy lang t = match r.gather lang t with
      | .ok (g, ds) =>
        if ds.any (r.linesFault g) then .error .indentTooWide
        else match r.out with
          | none => .ok { output := r.textFor g ds, files := t }
          | some path => (writeOut t path (r.textFor g ds)).map ({ output := "", files := · })
      | .error e => .error e := by
  rw [runBy, hidle, if_neg Bool.false_ne_true, gather]
  cases (r.configFor t).mapError Trouble.loadingConfig with
  | error e => rfl
  | ok g =>
    cases (r.inputs.loadBy _ t).mapError Trouble.loadingInputs with
    | error e => rfl
    | ok ds =>
      show (if ds.any (r.linesFault g) then _ else _) = if ds.any (r.linesFault g) then _ else _
      split
      · rfl
      · cases r.out with
        | none => rfl
        | some path => rfl

theorem print_documents (f : Document → List String) (ds : List Document) : ∀ w : World,
    (forM ds fun d => forM (f d) print : Action Unit) w =
      (.ok (), { w with printed := w.printed ++ String.join (ds.map fun d => textOf (f d)) }) := by
  induction ds with
  | nil =>
    intro w
    rw [List.map_nil, String.join_nil, String.append_empty]
    rfl
  | cons d ds ih =>
    intro w
    rw [List.forM_cons, bind_eq, print_all]
    show forM ds (fun d => forM (f d) print) { w with printed := w.printed ++ textOf (f d) } = _
    rw [ih, List.map_cons, String.join_cons, String.append_assoc]

theorem endsAs_writeOut (t : FileTree) (path text printed : String) :
    EndsAs ((do
        match Path.parent? path with
        | none => pure ()
        | some above => change fun t => (t.makeDirectories above).mapError (.creating above)
        change fun t => (t.write path text).mapError (.writing path) : Action Unit) ⟨printed, t⟩)
      ((writeOut t path text).map (⟨printed, ·⟩)) := by
  rw [writeOut]
  cases Path.parent? path with
  | none => exact endsAs_change _ ⟨printed, t⟩
  | some above =>
    dsimp only
    rw [bind_eq, change]
    dsimp only
    cases (t.makeDirectories above).mapError (Trouble.creating above) with
    | error e => rfl
    | ok t' => exact endsAs_change _ ⟨printed, t'⟩

/-- The steps of a run fail as the run does, and leave its result behind. -/
theorem endsAs_perform (lang : Filter.Language) (r : RenderTask) (w : World) :
    EndsAs (r.perform lang w)
      ((r.runBy lang w.files).map fun result => ⟨w.printed ++ result.output, result.files⟩) := by
  cases hidle : r.idle with
  | true =>
    rw [runBy, perform, hidle, if_pos rfl, if_pos rfl]
    show ((.ok (), w) : Except Trouble Unit × World) = (.ok (), ⟨w.printed ++ "", w.files⟩)
    rw [String.append_empty]
  | false =>
    rw [perform_eq hidle, runBy_eq hidle]
    cases r.gather lang w.files with
    | error e => rfl
    | ok gathered =>
      obtain ⟨g, ds⟩ := gathered
      dsimp only
      split
      · rfl
      · rw [deliver]
        cases r.out with
        | none =>
          dsimp only
          rw [print_documents]
          rfl
        | some path =>
          dsimp only
          have hwritten := endsAs_writeOut w.files path (r.textFor g ds) w.printed
          cases hfiles : writeOut w.files path (r.textFor g ds) with
          | error e =>
            rw [hfiles] at hwritten
            exact hwritten
          | ok t =>
            rw [hfiles] at hwritten
            refine hwritten.trans ?_
            dsimp only
            rw [String.append_empty]

/-! ## What can go wrong before anything is changed -/

/-- What is wrong with the configuration. -/
def configFaults (r : RenderTask) (t : FileTree) : List Failure :=
  match r.config with
  | none => []
  | some path => match t.read path with
    | .error cause => [.unreadable path cause]
    | .ok text => match Config.parse text with
      | .error cause => [.config path cause]
      | .ok _ => []

/-- All that keeps a run from getting its documents: what is wrong with the configuration, then what
is wrong with the inputs. -/
def troubles (lang : Filter.Language) (r : RenderTask) (t : FileTree) : List Trouble :=
  if r.idle then []
  else (r.configFaults t).map .loadingConfig ++ (r.inputs.faults lang t).map .loadingInputs

theorem reports_configFor (r : RenderTask) (t : FileTree) :
    Reports (r.configFor t) (r.configFaults t) := by
  have hload : Reports (r.config.elim (.ok {}) (Config.load t)) (r.configFaults t) := by
    rw [configFaults]
    cases r.config with
    | none => exact .ok _
    | some path =>
      dsimp only [Option.elim]
      rw [Config.load]
      cases t.read path with
      | error cause => exact .error _
      | ok text =>
        show Reports ((Config.parse text).mapError (Failure.config path)) _
        dsimp only
        cases Config.parse text with
        | error cause => exact .error _
        | ok g => exact .ok _
  exact hload.map _

theorem reports_gather (hidle : r.idle = false) (t : FileTree) :
    Reports (r.gather lang t) (r.troubles lang t) := by
  rw [troubles, hidle, if_neg Bool.false_ne_true]
  refine ((reports_configFor r t).mapError _).bind fun g _ => ?_
  exact ((InputSettings.reports_loadBy lang r.inputs t).mapError _).map (g, ·)

/-- A run with nothing in the list gets its documents. -/
theorem gather_of_troubles_eq_nil (hidle : r.idle = false) {t : FileTree}
    (h : r.troubles lang t = []) : ∃ g ds, r.gather lang t = .ok (g, ds) := by
  obtain ⟨⟨g, ds⟩, hgather⟩ := (reports_gather hidle t).eq_nil_iff.mp h
  exact ⟨g, ds, hgather⟩

theorem writeOut_ne_loading {t : FileTree} {path text : String} (f : Failure) :
    writeOut t path text ≠ .error (.loadingConfig f)
      ∧ writeOut t path text ≠ .error (.loadingInputs f) := by
  rw [writeOut]
  have hwrite : ∀ t : FileTree,
      (t.write path text).mapError (.writing path) ≠ .error (Trouble.loadingConfig f)
        ∧ (t.write path text).mapError (.writing path) ≠ .error (Trouble.loadingInputs f) := by
    intro t
    cases t.write path text <;> exact ⟨nofun, nofun⟩
  cases Path.parent? path with
  | none => exact hwrite t
  | some above =>
    dsimp only
    cases t.makeDirectories above with
    | error e => exact ⟨nofun, nofun⟩
    | ok t' => exact hwrite t'

theorem map_ne_error {ε α β : Type} {x : Except ε α} {e : ε} (f : α → β) (h : x ≠ .error e) :
    x.map f ≠ .error e := by
  cases x with
  | error e' => exact fun h' => h (congrArg Except.error (Except.error.inj h'))
  | ok a => exact nofun

/-- With nothing in the list, what goes wrong is the width of an indent or the output file. -/
theorem runBy_ne_loading {t : FileTree} (h : r.troubles lang t = []) (f : Failure) :
    r.runBy lang t ≠ .error (.loadingConfig f) ∧ r.runBy lang t ≠ .error (.loadingInputs f) := by
  cases hidle : r.idle with
  | true =>
    rw [runBy, hidle, if_pos rfl]
    exact ⟨nofun, nofun⟩
  | false =>
    obtain ⟨g, ds, hgather⟩ := gather_of_troubles_eq_nil hidle h
    rw [runBy_eq hidle, hgather]
    dsimp only
    split
    · exact ⟨nofun, nofun⟩
    · cases r.out with
      | none => exact ⟨nofun, nofun⟩
      | some path =>
        obtain ⟨hconfig, hinputs⟩ := writeOut_ne_loading f
        exact ⟨map_ne_error _ hconfig, map_ne_error _ hinputs⟩

end RenderTask

/-! ## The main result -/

theorem run_of_parse {args : List String} {r : RenderTask} (h : parse args = .ok (.render r))
    (t : FileTree) : run args t = r.run t := by
  rw [run, h]
  rfl

/-- If anything is wrong with the configuration, a pattern, a file, a text of a value, a pointer or
an output of a filter, the run fails with the first of it, in that order, and has printed nothing
and left all files as they were. If nothing of that is wrong, the run does not fail for such
a reason. Whatever happens, the steps of the run end as the run does. All this holds for filters of
any language, and what is run here is one of them. -/
theorem run_of_troubles (args : List String) (r : RenderTask) (t : FileTree)
    (lang : Filter.Language) (hparse : parse args = .ok (.render r)) :
    (∀ first rest, r.troubles lang t = first :: rest →
        r.runBy lang t = .error first
          ∧ ∀ printed, r.perform lang ⟨printed, t⟩ = (.error first, ⟨printed, t⟩))
      ∧ (r.troubles lang t = [] → ∀ f, r.runBy lang t ≠ .error (.loadingConfig f)
        ∧ r.runBy lang t ≠ .error (.loadingInputs f))
      ∧ (∀ printed, Action.EndsAs (r.perform lang ⟨printed, t⟩)
        ((r.runBy lang t).map fun result => ⟨printed ++ result.output, result.files⟩))
      ∧ run args t = r.runBy Filter.builtIn t := by
  refine ⟨fun first rest hlist => ?_, RenderTask.runBy_ne_loading,
    fun printed => r.endsAs_perform lang ⟨printed, t⟩,
    (run_of_parse hparse t).trans (r.run_eq_runBy t)⟩
  have hidle : r.idle = false := by
    cases hidle : r.idle with
    | false => rfl
    | true =>
      rw [RenderTask.troubles, hidle, if_pos rfl] at hlist
      exact nomatch hlist
  have hgather : r.gather lang t = .error first :=
    (RenderTask.reports_gather hidle t).eq_error_iff.mpr (hlist ▸ rfl)
  refine ⟨?_, fun printed => ?_⟩
  · rw [RenderTask.runBy_eq hidle, hgather]
  · rw [RenderTask.perform_eq hidle, hgather]

/-- A pointer and two patterns with nothing to them. -/
def unfitting : RenderTask :=
  { inputs := { pointer := some "/x", patterns := ["a.json", "/locked/*.json", "*.txt"] } }

/-- An empty object in a file of the working directory, and a directory that may not be listed. -/
def locked : FileTree :=
  { entries := [("w", .directory [("a.json", .text "\x7b\x7d")]), ("locked", .directory [])]
    here := ["w"]
    barriers := [{ place := ["locked"], access := .read, fault := .denied }] }

/-- A directory that may not be listed is reported before a pattern without files and a pointer that
leads nowhere in the file of an argument in front of both, and nothing is printed or changed. -/
theorem run_of_troubles_locked :
    run ["render", "--input", "a.json", "/locked/*.json", "*.txt", "--json-pointer", "/x"] locked =
        .error (.loadingInputs (.unreadable "/locked" .denied))
      ∧ ∀ printed, unfitting.perform Filter.builtIn ⟨printed, locked⟩ =
        (.error (.loadingInputs (.unreadable "/locked" .denied)), ⟨printed, locked⟩) := by
  have hparse :
      parse ["render", "--input", "a.json", "/locked/*.json", "*.txt", "--json-pointer", "/x"] =
        .ok (.render unfitting) := by
    decide +kernel
  have hlist : unfitting.troubles Filter.builtIn locked =
      [.loadingInputs (.unreadable "/locked" .denied), .loadingInputs (.noMatch "*.txt"),
        .loadingInputs (.pointer "a.json" "/x")] := by
    decide +kernel
  obtain ⟨hfails, -, -, hrun⟩ := run_of_troubles _ unfitting locked Filter.builtIn hparse
  obtain ⟨hfirst, hperform⟩ := hfails _ _ hlist
  exact ⟨hrun.trans hfirst, hperform⟩

end TypeOutline.Command
