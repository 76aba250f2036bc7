import TypeOutline.Proofs.Inputs.Documents
import TypeOutline.Proofs.Inputs.Languages

/-!
# What is wrong with inputs

Everything that keeps documents from being loaded, in the order in which
a run meets it: first what is wrong with the patterns, then what is wrong
with the files of the paths that they give. A pattern is not well formed,
or leads to directories that cannot be listed, or to nothing. A file cannot
be read, or the texts of its values are not well formed, or its values lack
what the pointer leads to, or outputs of the filter fail. The list is not
cut off at the first entry, and says of each pattern, file, value and
output what is wrong with it whether a run gets there or not. A run does
not get beyond the first (`reports_loadBy`).
-/

namespace TypeOutline

namespace InputSettings

variable (lang : Filter.Language) (s : InputSettings) (t : FileTree)

/-! ## The list -/

/-- What is wrong with the text of a value. -/
def sourceFaults (origin text : String) : List Failure :=
  match Json.parse text with
  | .ok _ => []
  | .error cause => [.malformed origin cause]

/-- What is wrong with a value of a file: the pointer leads nowhere in it, or the filter fails on
the part that the pointer leads to. -/
def valueFaults (path : String) (j : Json) : List Failure :=
  match s.pointer with
  | none => lang.faults s.filter j
  | some p => match j.pointer? p with
    | none => [.pointer path p]
    | some part => lang.faults s.filter part

/-- What is wrong with the text of a file: with the texts of all its values, then with the values.
-/
def textFaults (path text : String) : List Failure :=
  (s.sources path text).flatMap (fun (origin, text) => sourceFaults origin text)
    ++ ((s.sources path text).filterMap fun source => (Json.parse source.2).toOption).flatMap
      (s.valueFaults lang path)

/-- What is wrong with a file. -/
def fileFaults (path : String) : List Failure :=
  match t.read path with
  | .error cause => [.unreadable path cause]
  | .ok text => s.textFaults lang path text

/-- What is wrong with a path that a pattern stands for. -/
def findingFaults : Glob.Finding → List Failure
  | .error f => [f]
  | .ok _ => []

/-- What is wrong with an argument: a pattern is not well formed, or there are directories on its
way that cannot be listed, or it leads to nothing at all. -/
def patternFaults (text : String) : List Failure :=
  if PathPattern.isPattern text then
    match PathPattern.parse text with
    | .error cause => [.pattern cause]
    | .ok p =>
      let found := Glob.findings t p
      if found.isEmpty then [.noMatch text] else found.flatMap findingFaults
  else []

/-- The paths that an argument gives, if nothing is wrong with it. -/
def pathsGiven (text : String) : List String := (Glob.pathsOf t text).toOption.getD []

/-- What is wrong with all arguments, then with all files. -/
def faults : List Failure :=
  s.patterns.flatMap (patternFaults t)
    ++ (s.patterns.flatMap (pathsGiven t)).flatMap (s.fileFaults lang t)

/-! ## A run fails with the first -/

variable {lang s t}

theorem reports_parseFrom (origin text : String) :
    Reports (Json.parseFrom origin text) (sourceFaults origin text) := by
  rw [Json.parseFrom, sourceFaults]
  cases Json.parse text with
  | error cause => exact .error _
  | ok j => exact .ok _

theorem reports_value (path : String) (j : Json) :
    Reports (do refineBy lang s.filter (← narrow s.pointer path j))
      (s.valueFaults lang path j) := by
  unfold valueFaults narrow
  cases s.pointer with
  | none => exact reports_refineBy lang s.filter j
  | some p =>
    dsimp only
    cases j.pointer? p with
    | none => exact .error _
    | some part => exact reports_refineBy lang s.filter part

theorem reports_valuesOf (path text : String) :
    Reports (s.valuesOf path text)
      ((s.sources path text).flatMap fun (origin, text) => sourceFaults origin text) :=
  .mapM fun source _ => reports_parseFrom source.1 source.2

/-- The values that are well formed are those that are read, if all are. -/
theorem filterMap_eq_of_valuesOf {path text : String} {values : List Json}
    (h : s.valuesOf path text = .ok values) :
    ((s.sources path text).filterMap fun source => (Json.parse source.2).toOption) = values := by
  rw [valuesOf, mapM_eq_ok_iff] at h
  generalize s.sources path text = sources at h
  induction h with
  | nil => rfl
  | @cons source j sources values hj _ ih =>
    change (Json.parse source.2).mapError (Failure.malformed source.1) = .ok j at hj
    cases hparse : Json.parse source.2 with
    | error cause =>
      rw [hparse] at hj
      cases hj
    | ok j' =>
      rw [hparse] at hj
      cases hj
      rw [List.filterMap_cons, hparse, ih]
      rfl

theorem reports_outputsBy (path text : String) :
    Reports (s.outputsBy (refineBy lang s.filter) path text) (s.textFaults lang path text) := by
  refine (reports_valuesOf path text).bind fun values hvalues => ?_
  rw [filterMap_eq_of_valuesOf hvalues]
  exact .mapM fun j _ => reports_value path j

theorem reports_loadFileBy (path : String) :
    Reports (s.loadFileBy (refineBy lang s.filter) t path) (s.fileFaults lang t path) := by
  rw [loadFileBy, fileFaults]
  cases t.read path with
  | error cause => exact .error _
  | ok text => exact (reports_outputsBy path text).map _

theorem reports_finding (found : Glob.Finding) : Reports found (findingFaults found) := by
  cases found with
  | error f => exact .error f
  | ok path => exact .ok path

theorem reports_pathsOf (text : String) : Reports (Glob.pathsOf t text) (patternFaults t text) := by
  rw [Glob.pathsOf, patternFaults]
  split
  · cases PathPattern.parse text with
    | error cause => exact .error _
    | ok p =>
      dsimp only
      split
      · rename_i hempty
        rw [List.isEmpty_iff.mp hempty]
        exact .error _
      · rename_i hfound
        have hpaths : Reports ((Glob.findings t p).mapM id)
            ((Glob.findings t p).flatMap findingFaults) :=
          .mapM fun found _ => reports_finding found
        rw [← List.append_nil (List.flatMap _ _)]
        refine hpaths.bind fun paths hpaths => ?_
        have hlength := (mapM_eq_ok_iff.mp hpaths).length_eq
        rw [if_neg]
        · exact .ok paths
        · rintro hempty
          rw [List.isEmpty_iff.mp hempty, List.length_nil] at hlength
          exact hfound (List.isEmpty_iff_length_eq_zero.mpr hlength)
  · exact .ok _

/-- The paths that the arguments give are those that are read, if nothing is wrong with one. -/
theorem flatMap_pathsGiven {texts paths : List String} (h : Glob.resolve t texts = .ok paths) :
    texts.flatMap (pathsGiven t) = paths := by
  rw [Glob.resolve] at h
  cases hparts : texts.mapM (Glob.pathsOf t) with
  | error e => rw [hparts] at h; exact nomatch h
  | ok parts =>
    rw [hparts] at h
    obtain rfl : parts.flatten = paths := Except.ok.inj h
    have hgiven := map_eq_of_forall₂ (f := pathsGiven t) (g := id) (mapM_eq_ok_iff.mp hparts)
      fun text _ part hpart => by rw [pathsGiven, hpart]; rfl
    rw [List.flatMap_def, hgiven, List.map_id]

theorem reports_loadBy (lang : Filter.Language) (s : InputSettings) (t : FileTree) :
    Reports (s.loadBy (refineBy lang s.filter) t) (s.faults lang t) := by
  have hresolve : Reports (Glob.resolve t s.patterns) (s.patterns.flatMap (patternFaults t)) :=
    (Reports.mapM fun text _ => reports_pathsOf text).map _
  refine hresolve.bind fun paths hpaths => ?_
  rw [flatMap_pathsGiven hpaths]
  exact (Reports.mapM fun path _ => reports_loadFileBy path).map _

end InputSettings

end TypeOutline
