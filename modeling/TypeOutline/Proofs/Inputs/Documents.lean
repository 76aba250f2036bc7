import TypeOutline.Inputs
import TypeOutline.Proofs.Inputs.Outcomes
import TypeOutline.Proofs.Related

/-!
# From texts to documents

What a file gives, in the order in which a run gets there: the texts of
its values, the values, and from each value a list of documents. The last
step is taken for any filter, which is only asked to turn a value into
a list of documents or to fail. The documents may be named after all of
them are there (`load_eq_loadBy`).
-/

namespace TypeOutline

namespace InputSettings

variable {s : InputSettings} {f : Json → Except Failure (List Json)} {t : FileTree}

/-! ## Values -/

/-- The texts of the values of a file, each under the name that messages about it show. -/
def sources (s : InputSettings) (path text : String) : List (String × String) :=
  if s.perLine then
    (((Text.lines text.toList).zipIdx 1).filter fun (line, _) => !(Text.trim line).isEmpty).map
      fun (line, n) => (path ++ ":" ++ toString n, String.ofList line)
  else [(path, text)]

/-- The values of a file. -/
def valuesOf (s : InputSettings) (path text : String) : Except Failure (List Json) :=
  (s.sources path text).mapM fun (origin, text) => Json.parseFrom origin text

theorem valuesOf_eq (s : InputSettings) (path text : String) :
    s.valuesOf path text =
      if s.perLine then readLines path text else (Json.parseFrom path text).map ([·]) := by
  rw [valuesOf, sources]
  split
  · rw [List.mapM_map, readLines]
    rfl
  · rw [List.mapM_cons]
    dsimp only
    cases Json.parseFrom path text <;> rfl

/-! ## Documents of any filter -/

/-- The documents made of the values of a file, in a list for each value. -/
def outputsBy (s : InputSettings) (f : Json → Except Failure (List Json)) (path text : String) :
    Except Failure (List (List Json)) := do
  (← s.valuesOf path text).mapM fun j => do f (← narrow s.pointer path j)

/-- The documents of a file under their names. -/
def labelled (path : String) (many : Bool) (outputs : List (List Json)) : List Document :=
  outputs.zipIdx.flatMap fun (values, index) => named path many index values

/-- The documents of a file. -/
def loadFileBy (s : InputSettings) (f : Json → Except Failure (List Json)) (t : FileTree)
    (path : String) : Except Failure (List Document) := do
  let outputs ← s.outputsBy f path (← (t.read path).mapError (.unreadable path))
  return labelled path s.perLine outputs

/-- All documents, in the order of the paths. -/
def loadBy (s : InputSettings) (f : Json → Except Failure (List Json)) (t : FileTree) :
    Except Failure (List Document) := do
  let documents ← (← Glob.resolve t s.patterns).mapM (s.loadFileBy f t)
  return documents.flatten

/-- Naming the documents of each value is naming them when all are there. -/
theorem mapM_zipIdx_named (path : String) (many : Bool) (g : Json → Except Failure (List Json)) :
    ∀ (values : List Json) (start : Nat),
      ((values.zipIdx start).mapM fun (j, index) => do
        return named path many index (← g j)) =
      (values.mapM g).map fun outputs =>
        (outputs.zipIdx start).map fun (vs, index) => named path many index vs
  | [], _ => rfl
  | j :: values, start => by
      rw [List.zipIdx_cons, List.mapM_cons, List.mapM_cons,
        mapM_zipIdx_named path many g values (start + 1)]
      dsimp only
      cases g j with
      | error e => rfl
      | ok vs => cases values.mapM g <;> rfl

theorem documentsOf_eq (s : InputSettings) (path text : String) :
    s.documentsOf path text =
      (s.outputsBy (refine s.filter) path text).map (labelled path s.perLine) := by
  have hdocuments : s.documentsOf path text = do
      let documents ← (← s.valuesOf path text).zipIdx.mapM fun (j, index) => do
        return named path s.perLine index (← refine s.filter (← narrow s.pointer path j))
      return documents.flatten := by
    rw [documentsOf, valuesOf_eq]
    split <;> rfl
  rw [hdocuments, outputsBy]
  cases s.valuesOf path text with
  | error e => rfl
  | ok values =>
    have hnamed := mapM_zipIdx_named path s.perLine
      (fun j => do refine s.filter (← narrow s.pointer path j)) values 0
    simp only [bind_assoc] at hnamed
    show (do
      let documents ← values.zipIdx.mapM fun (j, index) => do
        return named path s.perLine index (← refine s.filter (← narrow s.pointer path j))
      return documents.flatten) = _
    rw [hnamed]
    show _ = (values.mapM fun j => do refine s.filter (← narrow s.pointer path j)).map _
    cases values.mapM fun j => do refine s.filter (← narrow s.pointer path j) with
    | error e => rfl
    | ok outputs => exact congrArg Except.ok (List.flatMap_def ..).symm

theorem load_eq_loadBy (s : InputSettings) (t : FileTree) :
    s.load t = s.loadBy (refine s.filter) t := by
  have hfile : s.loadFile t = s.loadFileBy (refine s.filter) t := by
    funext path
    rw [loadFile, loadFileBy]
    cases t.read path with
    | error e => rfl
    | ok text => exact documentsOf_eq s path text
  rw [load, loadBy, hfile]

/-- The text and the outputs behind the documents of a file. -/
theorem loadFileBy_eq_ok_iff {path : String} {ds : List Document} :
    s.loadFileBy f t path = .ok ds ↔ ∃ text outputs, t.read path = .ok text
      ∧ s.outputsBy f path text = .ok outputs ∧ ds = labelled path s.perLine outputs := by
  rw [loadFileBy]
  cases t.read path with
  | error e => exact ⟨fun h => (nomatch h), fun ⟨_, _, h, _⟩ => nomatch h⟩
  | ok text =>
    show (s.outputsBy f path text).map (labelled path s.perLine) = .ok ds ↔ _
    constructor
    · intro h
      cases houtputs : s.outputsBy f path text with
      | error e => rw [houtputs] at h; exact nomatch h
      | ok outputs =>
        rw [houtputs] at h
        exact ⟨text, outputs, rfl, houtputs, (Except.ok.inj h).symm⟩
    · rintro ⟨text', outputs, htext, houtputs, rfl⟩
      cases htext
      rw [houtputs]
      rfl

/-- The paths and the documents of each file behind all documents. -/
theorem loadBy_eq_ok_iff {ds : List Document} :
    s.loadBy f t = .ok ds ↔ ∃ paths documents, Glob.resolve t s.patterns = .ok paths
      ∧ List.Forall₂ (fun path ds => s.loadFileBy f t path = .ok ds) paths documents
      ∧ ds = documents.flatten := by
  rw [loadBy]
  constructor
  · intro h
    cases hpaths : Glob.resolve t s.patterns with
    | error e => rw [hpaths] at h; exact nomatch h
    | ok paths =>
      rw [hpaths] at h
      change (paths.mapM (s.loadFileBy f t)).bind (fun documents => .ok documents.flatten) = _ at h
      cases hdocuments : paths.mapM (s.loadFileBy f t) with
      | error e => rw [hdocuments] at h; exact nomatch h
      | ok documents =>
        rw [hdocuments] at h
        exact ⟨paths, documents, rfl, mapM_eq_ok_iff.mp hdocuments, (Except.ok.inj h).symm⟩
  · rintro ⟨paths, documents, hpaths, hdocuments, rfl⟩
    rw [hpaths]
    show (paths.mapM (s.loadFileBy f t)).bind (fun documents => .ok documents.flatten) = _
    rw [mapM_eq_ok_iff.mpr hdocuments]
    rfl

/-- A file that is not read by lines is one value. -/
theorem length_of_outputsBy {path text : String} {outputs : List (List Json)}
    (hline : s.perLine = false) (h : s.outputsBy f path text = .ok outputs) :
    outputs.length = 1 := by
  rw [outputsBy, valuesOf_eq, hline, if_neg Bool.false_ne_true] at h
  cases hparse : Json.parseFrom path text with
  | error e => rw [hparse] at h; exact nomatch h
  | ok j =>
    rw [hparse] at h
    exact (mapM_eq_ok_iff.mp h).length_eq.symm

/-- Each list of outputs is what the filter gives for some value. -/
theorem exists_of_mem_outputsBy {path text : String} {outputs : List (List Json)}
    (h : s.outputsBy f path text = .ok outputs) : ∀ vs ∈ outputs, ∃ j, f j = .ok vs := by
  rw [outputsBy] at h
  cases hvalues : s.valuesOf path text with
  | error e => rw [hvalues] at h; exact nomatch h
  | ok values =>
    rw [hvalues] at h
    intro vs hvs
    obtain ⟨j, -, hj⟩ := exists_mem_of_forall₂ (mapM_eq_ok_iff.mp h).flip vs hvs
    cases hnarrow : narrow s.pointer path j with
    | error e => rw [hnarrow] at hj; exact nomatch hj
    | ok part => rw [hnarrow] at hj; exact ⟨part, hj⟩

end InputSettings

end TypeOutline
