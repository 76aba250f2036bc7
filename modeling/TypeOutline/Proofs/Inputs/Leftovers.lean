import TypeOutline.Proofs.Inputs.Documents
import TypeOutline.Proofs.Json.Following

/-!
# What loading leaves unread

A load that succeeds has read every source, a file or a line that is not
blank, as the value that it starts with. What stands behind that value is
not looked at, be it white space or other values.
-/

namespace TypeOutline

namespace InputSettings

variable {s : InputSettings} {f : Json → Except Failure (List Json)} {t : FileTree}
variable {path text : String}

/-- A source is read as a value. -/
def Gives (source : String × String) (j : Json) : Prop := Json.parse source.2 = .ok j

theorem gives_of_valuesOf {values : List Json} (h : s.valuesOf path text = .ok values) :
    List.Forall₂ Gives (s.sources path text) values :=
  (mapM_eq_ok_iff.mp h).imp fun _ _ => eq_ok_of_mapError

/-- The values behind the documents of a file. -/
theorem exists_valuesOf {outputs : List (List Json)} (h : s.outputsBy f path text = .ok outputs) :
    ∃ values, s.valuesOf path text = .ok values ∧
      List.Forall₂ (fun j vs => (do f (← narrow s.pointer path j)) = .ok vs) values outputs := by
  obtain ⟨values, hvalues, houtputs⟩ := exists_of_bind_eq_ok h
  exact ⟨values, hvalues, mapM_eq_ok_iff.mp houtputs⟩

theorem map_value_named (path : String) (many : Bool) (index : Nat) (values : List Json) :
    (named path many index values).map (·.value) = values := by
  rw [named.eq_def]
  split
  · rw [List.map_map]
    exact List.zipIdx_map_fst index values
  · rw [List.map_map]
    exact List.map_id values

/-- The documents of a file are its outputs. -/
theorem map_value_labelled (path : String) (many : Bool) (outputs : List (List Json)) :
    (labelled path many outputs).map (·.value) = outputs.flatten := by
  rw [labelled, List.map_flatMap]
  simp only [map_value_named]
  rw [List.flatMap_def, List.zipIdx_map_fst]

/-- The files behind all documents, with the texts that were read. -/
theorem exists_files {ds : List Document} (h : s.loadBy f t = .ok ds) :
    ∃ (files : List (String × String)) (documents : List (List Document)),
      Glob.resolve t s.patterns = .ok (files.map (·.1)) ∧ ds = documents.flatten ∧
      List.Forall₂ (fun file ds => t.read file.1 = .ok file.2 ∧
        ∃ outputs, s.outputsBy f file.1 file.2 = .ok outputs ∧
          ds = labelled file.1 s.perLine outputs) files documents := by
  obtain ⟨paths, documents, hpaths, hfiles, rfl⟩ := loadBy_eq_ok_iff.mp h
  suffices hexists : ∃ files : List (String × String), files.map (·.1) = paths ∧
      List.Forall₂ (fun file ds => t.read file.1 = .ok file.2 ∧
        ∃ outputs, s.outputsBy f file.1 file.2 = .ok outputs ∧
          ds = labelled file.1 s.perLine outputs) files documents by
    obtain ⟨files, rfl, hdocuments⟩ := hexists
    exact ⟨files, documents, hpaths, rfl, hdocuments⟩
  clear hpaths h
  induction hfiles with
  | nil => exact ⟨[], rfl, .nil⟩
  | cons hfile _ ih =>
      obtain ⟨text, outputs, htext, houtputs, hds⟩ := loadFileBy_eq_ok_iff.mp hfile
      obtain ⟨files, hfiles, hdocuments⟩ := ih
      exact ⟨(_, text) :: files, congrArg (_ :: ·) hfiles,
        .cons ⟨htext, outputs, houtputs, hds⟩ hdocuments⟩

/-- The outputs of a file without pointer and filter are its values. -/
theorem outputs_of_bare {outputs : List (List Json)} {values : List Json}
    (hpointer : s.pointer = none) (hfilter : ∀ j, f j = .ok [j])
    (h : List.Forall₂ (fun j vs => (do f (← narrow s.pointer path j)) = .ok vs) values outputs) :
    outputs.flatten = values := by
  induction h with
  | nil => rfl
  | cons hj _ ih =>
      rw [hpointer, narrow] at hj
      obtain rfl := Except.ok.inj ((hfilter _).symm.trans hj)
      rw [List.flatten_cons, ih]
      rfl

/-- A load that succeeds has read each source as the value `v` that it starts with. Whatever else
stands behind `v` gives the same, so the source is that one value exactly if `left` is blank.
Without pointer and filter there is one document for each source, in order. -/
theorem documents_of_loadBy (s : InputSettings) (f : Json → Except Failure (List Json))
    (t : FileTree) (ds : List Document) (h : s.loadBy f t = .ok ds) :
    ∃ files : List (String × String), Glob.resolve t s.patterns = .ok (files.map (·.1))
      ∧ (∀ file ∈ files, t.read file.1 = .ok file.2
        ∧ ∀ source ∈ s.sources file.1 file.2, ∃ v left j,
          Json.StartsWith source.2.toList v left ∧ Json.parse source.2 = .ok j
          ∧ (∀ left', Json.EndsAt v left' → Json.parse (String.ofList (v ++ left')) = .ok j)
          ∧ (Json.IsOneValue source.2.toList ↔ Json.IsBlank left))
      ∧ (s.pointer = none → (∀ j, f j = .ok [j]) →
        List.Forall₂ (fun source d => Json.parse source.2 = .ok d.value)
          (files.flatMap fun file => s.sources file.1 file.2) ds)
      ∧ s.load t = s.loadBy (refine s.filter) t := by
  obtain ⟨files, documents, hpaths, rfl, hfiles⟩ := exists_files h
  refine ⟨files, hpaths, ?_, ?_, load_eq_loadBy s t⟩
  · intro file hfile
    obtain ⟨ds, -, htext, outputs, houtputs, -⟩ := exists_mem_of_forall₂ hfiles file hfile
    obtain ⟨values, hvalues, -⟩ := exists_valuesOf houtputs
    refine ⟨htext, fun source hsource => ?_⟩
    obtain ⟨j, -, hj⟩ := exists_mem_of_forall₂ (gives_of_valuesOf hvalues) source hsource
    obtain ⟨v, left, hstarts, hv⟩ := Json.parse_eq_ok_iff.mp hj
    refine ⟨v, left, j, hstarts, hj, fun left' hends => ?_, Json.isOneValue_iff hj hstarts⟩
    obtain ⟨space, -, -, hvalue, -⟩ := hstarts
    exact Json.parse_eq_ok_iff.mpr ⟨v, left', ⟨[], by simp, Json.isBlank_nil, hvalue, hends⟩, hv⟩
  · intro hpointer hfilter
    have hdocuments : List.Forall₂ (fun file ds =>
        List.Forall₂ (fun source (d : Document) => Gives source d.value)
          (s.sources file.1 file.2) ds) files documents := by
      refine hfiles.imp fun file ds ⟨_, outputs, houtputs, hds⟩ => ?_
      obtain ⟨values, hvalues, hj⟩ := exists_valuesOf houtputs
      have hvalue : ds.map (·.value) = values := by
        rw [hds, map_value_labelled, outputs_of_bare hpointer hfilter hj]
      have hparse := gives_of_valuesOf hvalues
      rw [← hvalue] at hparse
      exact List.forall₂_map_right_iff.mp hparse
    rw [List.flatMap_def]
    exact List.rel_flatten (List.forall₂_map_left_iff.mpr hdocuments)

/-- A list with another list behind it. -/
def listsTree : FileTree := { entries := [("lists.json", .text "[1] [2]")] }

theorem startsWith_lists : Json.StartsWith "[1] [2]".toList "[1]".toList " [2]".toList := by
  have hblank := Json.isBlank_nil
  have hwhole : Json.WholeText ['1'] := .digits rfl (by decide) nofun
  have hvalue : Json.ValueText ['1'] := .number (.unsigned (.intro hwhole .none .none))
  exact ⟨[], rfl, hblank, .list (.element (.first hblank) hvalue (.close hblank)),
    Json.endsAt_cons (by decide) rfl _⟩

/-- The second list is dropped: there is one document, and the text is not one value. -/
theorem documents_of_loadBy_lists :
    let s : InputSettings := { patterns := ["lists.json"] }
    ∃ ds, s.loadBy (refine none) listsTree = .ok ds ∧ ds.length = 1
      ∧ s.load listsTree = s.loadBy (refine none) listsTree
      ∧ listsTree.read "lists.json" = .ok "[1] [2]" ∧ ¬ Json.IsOneValue "[1] [2]".toList := by
  intro s
  have hok : (s.loadBy (refine none) listsTree).toBool = true := by decide +kernel
  have hread : listsTree.read "lists.json" = .ok "[1] [2]" := by rfl
  cases hds : s.loadBy (refine none) listsTree with
  | error e =>
      rw [hds] at hok
      exact nomatch hok
  | ok ds =>
      obtain ⟨files, hpaths, hfiles, hbare, hload⟩ := documents_of_loadBy s _ listsTree ds hds
      have hnames : ["lists.json"] = files.map (·.1) := Except.ok.inj hpaths
      obtain ⟨file, rfl, hfile⟩ := List.map_eq_singleton_iff.mp hnames.symm
      obtain ⟨htext, hsources⟩ := hfiles file List.mem_cons_self
      rw [hfile, hread] at htext
      obtain rfl : file = ("lists.json", "[1] [2]") := Prod.ext hfile (Except.ok.inj htext).symm
      obtain ⟨v, left, j, hstarts, hparse, -, hone⟩ := hsources _ List.mem_cons_self
      have hleft : left = " [2]".toList := hstarts.left_unique hparse startsWith_lists
      refine ⟨ds, rfl, ?_, hload.trans hds, rfl, mt hone.mp ?_⟩
      · exact (hbare rfl fun _ => rfl).length_eq.symm
      · rw [hleft]
        exact fun hblank => absurd (hblank '[' (by decide)) (by decide)

end InputSettings

end TypeOutline
