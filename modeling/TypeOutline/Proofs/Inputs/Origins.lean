import Mathlib.Data.List.Nodup
import Mathlib.Data.List.TakeWhile
import TypeOutline.Command.Run
import TypeOutline.Proofs.Inputs.Documents

/-!
# The origins of documents

The documents of a file are numbered if there are several. A document gets
the number of its line, counted without the blank ones, plus its place
among the documents of that line; so the numbers of a line with many
documents run into those of the lines below it.

`distinct_origins_iff` says when all origins differ, for distinct paths
without a number sign and for any filter: if no line has more documents
than there are numbers up to the next line that has one (`Spread`). That
is so if each file is one value, and if the filter never gives more than
one document for a value.
-/

namespace TypeOutline

namespace InputSettings

variable {s : InputSettings} {f : Json → Except Failure (List Json)} {t : FileTree}

/-- Of lines with so many documents none has more than there are numbers up to a later line that
has one. -/
def Spread (counts : List Nat) : Prop :=
  counts.zipIdx.Pairwise fun (m, i) (n, j) => n = 0 ∨ i + m ≤ j

instance (counts : List Nat) : Decidable (Spread counts) :=
  inferInstanceAs (Decidable (List.Pairwise _ _))

/-- Lines are spread if there is only one, and if no line has more than one document. -/
theorem spread_of_le_one {counts : List Nat} (h : counts.length ≤ 1 ∨ ∀ n ∈ counts, n ≤ 1) :
    Spread counts := by
  refine List.pairwise_iff_getElem.mpr fun i j hi hj hij => ?_
  simp only [List.getElem_zipIdx, Nat.zero_add]
  rw [List.length_zipIdx] at hi hj
  rcases h with h | h
  · omega
  · have hle := h counts[i] (List.getElem_mem hi)
    omega

/-! ## One file -/

/-- The origin of a numbered document. -/
def numberedOrigin (path : String) (n : Nat) : String := path ++ "#" ++ toString n

theorem numberedOrigin_injective (path : String) :
    Function.Injective (numberedOrigin path) := by
  intro m n h
  have hdigits := congrArg String.toList ((String.append_right_inj _).mp h)
  rw [Nat.toString_eq_repr, Nat.toString_eq_repr, Nat.toList_repr, Nat.toList_repr] at hdigits
  rw [← Nat.ofDigitChars_ten_toDigits (n := m), hdigits, Nat.ofDigitChars_ten_toDigits]

theorem origins_named_of_many {path : String} {many : Bool} {values : List Json} (index : Nat)
    (h : (many || values.length > 1) = true) :
    (named path many index values).map (·.origin) =
      (List.range' index values.length).map (numberedOrigin path) := by
  rw [named, if_pos h, List.map_map, ← List.zipIdx_map_snd, List.map_map]
  rfl

/-- The documents of one value have different origins. -/
theorem nodup_origins_named (path : String) (many : Bool) (index : Nat) (values : List Json) :
    ((named path many index values).map (·.origin)).Nodup := by
  by_cases h : (many || values.length > 1) = true
  · rw [origins_named_of_many index h]
    exact (List.nodup_range' 1).map (numberedOrigin_injective path)
  · rw [named, if_neg h]
    rw [Bool.or_eq_true, not_or, decide_eq_true_eq] at h
    match values with
    | [] => exact List.nodup_nil
    | [_] => exact List.nodup_singleton _
    | _ :: _ :: _ => exact absurd (Nat.succ_lt_succ (Nat.succ_pos _)) h.2

/-- The numbers of a line and those of a later one. -/
theorem disjoint_range'_iff {i j m n : Nat} (hij : i < j) :
    (List.range' i m).Disjoint (List.range' j n) ↔ n = 0 ∨ i + m ≤ j := by
  constructor
  · intro h
    by_contra hcontra
    have hi : j ∈ List.range' i m := List.mem_range'_1.mpr (by omega)
    exact h hi (List.mem_range'_1.mpr (by omega))
  · intro h k hk hk'
    rw [List.mem_range'_1] at hk hk'
    omega

/-- The documents of a file have different origins exactly if its lines are spread. -/
theorem nodup_origins_labelled_iff {path : String} {many : Bool} {outputs : List (List Json)}
    (h : many = true ∨ outputs.length ≤ 1) :
    ((labelled path many outputs).map (·.origin)).Nodup ↔ Spread (outputs.map List.length) := by
  have hparts : (labelled path many outputs).map (·.origin) =
      (outputs.zipIdx.map fun x => (named path many x.2 x.1).map (·.origin)).flatten := by
    rw [labelled, List.map_flatMap, List.flatMap_def]
  rw [hparts, List.nodup_flatten, Spread, List.zipIdx_map, and_iff_right, List.pairwise_map,
    List.pairwise_map, List.pairwise_iff_getElem, List.pairwise_iff_getElem]
  · refine forall₂_congr fun i j => forall₃_congr fun hi hj hij => ?_
    simp only [List.getElem_zipIdx, Nat.zero_add]
    rw [List.length_zipIdx] at hi hj
    rcases h with rfl | h
    · rw [origins_named_of_many i rfl, origins_named_of_many j rfl,
        List.Disjoint.map_iff (numberedOrigin_injective path), disjoint_range'_iff hij]
      rfl
    · omega
  · intro l hl
    obtain ⟨⟨vs, i⟩, -, rfl⟩ := List.mem_map.mp hl
    exact nodup_origins_named path many i vs

theorem perLine_or_length_le {path text : String} {outputs : List (List Json)}
    (h : s.outputsBy f path text = .ok outputs) : s.perLine = true ∨ outputs.length ≤ 1 := by
  cases hline : s.perLine with
  | true => exact .inl rfl
  | false => exact .inr (Nat.le_of_eq (length_of_outputsBy hline h))

/-! ## Several files -/

/-- An origin up to its first number sign. -/
def stem (origin : String) : List Char := origin.toList.takeWhile (· != '#')

theorem stem_eq_self {path : String} (h : '#' ∉ path.toList) : stem path = path.toList := by
  rw [stem, List.takeWhile_eq_self_iff]
  intro c hc
  exact bne_iff_ne.mpr fun hce => h (hce ▸ hc)

theorem stem_numberedOrigin {path : String} (h : '#' ∉ path.toList) (n : Nat) :
    stem (numberedOrigin path n) = path.toList := by
  have hall : ∀ c ∈ path.toList, (c != '#') = true := fun c hc =>
    bne_iff_ne.mpr fun hce => h (hce ▸ hc)
  rw [stem, numberedOrigin, String.toList_append, String.toList_append, List.append_assoc,
    List.takeWhile_append_of_pos hall]
  show path.toList ++ ('#' :: (toString n).toList).takeWhile _ = _
  rw [List.takeWhile_cons_of_neg (by decide), List.append_nil]

theorem stem_of_mem_named {path : String} {many : Bool} {index : Nat} {values : List Json}
    (h : '#' ∉ path.toList) : ∀ d ∈ named path many index values, stem d.origin = path.toList := by
  intro d hd
  rw [named] at hd
  split at hd
  · obtain ⟨⟨value, n⟩, -, rfl⟩ := List.mem_map.mp hd
    exact stem_numberedOrigin h n
  · obtain ⟨value, -, rfl⟩ := List.mem_map.mp hd
    exact stem_eq_self h

/-- All documents of a file show its path in front of the first number sign. -/
theorem stem_of_mem_loadFileBy {path : String} {ds : List Document} (h : '#' ∉ path.toList)
    (hds : s.loadFileBy f t path = .ok ds) : ∀ d ∈ ds, stem d.origin = path.toList := by
  obtain ⟨text, outputs, -, -, rfl⟩ := loadFileBy_eq_ok_iff.mp hds
  intro d hd
  obtain ⟨⟨vs, i⟩, -, hd⟩ := List.mem_flatMap.mp hd
  exact stem_of_mem_named h d hd

/-- The documents of several files have different origins if those of each file do. -/
theorem nodup_origins_flatten_iff {paths : List String} {documents : List (List Document)}
    (hload : List.Forall₂ (fun path ds => s.loadFileBy f t path = .ok ds) paths documents)
    (hdistinct : paths.Nodup) (hsign : ∀ path ∈ paths, '#' ∉ path.toList) :
    (documents.flatten.map (·.origin)).Nodup ↔
      ∀ path ∈ paths, ∀ ds, s.loadFileBy f t path = .ok ds → (ds.map (·.origin)).Nodup := by
  induction hload with
  | nil => exact iff_of_true List.nodup_nil fun path hpath => absurd hpath List.not_mem_nil
  | @cons path ds paths documents hpath hrest ih =>
    obtain ⟨hpathSign, hsign⟩ := List.forall_mem_cons.mp hsign
    obtain ⟨hnew, hdistinct⟩ := List.nodup_cons.mp hdistinct
    have hapart : (ds.map (·.origin)).Disjoint (documents.flatten.map (·.origin)) := by
      intro origin hmem hmem'
      obtain ⟨d, hd, rfl⟩ := List.mem_map.mp hmem
      obtain ⟨d', hd', horigin⟩ := List.mem_map.mp hmem'
      obtain ⟨ds', hds', hd'⟩ := List.mem_flatten.mp hd'
      obtain ⟨path', hpath', hload'⟩ := exists_mem_of_forall₂ hrest.flip ds' hds'
      have hstem := stem_of_mem_loadFileBy hpathSign hpath d hd
      have hstem' := stem_of_mem_loadFileBy (hsign path' hpath') hload' d' hd'
      rw [horigin, hstem] at hstem'
      exact hnew (String.toList_injective hstem' ▸ hpath')
    rw [List.flatten_cons, List.map_append, List.nodup_append', ih hdistinct hsign,
      List.forall_mem_cons, and_iff_left hapart]
    refine and_congr_left fun _ => ⟨fun h ds' hds' => ?_, fun h => h ds hpath⟩
    cases hpath.symm.trans hds'
    exact h

/-! ## The main result -/

theorem nodup_headers_iff (ds : List Document) :
    (ds.map Command.RenderTask.header).Nodup ↔ (ds.map (·.origin)).Nodup := by
  have hheader : ds.map Command.RenderTask.header =
      (ds.map (·.origin)).map fun origin => "==> " ++ origin ++ " <==" := by
    rw [List.map_map]
    rfl
  rw [hheader, List.nodup_map_iff]
  intro a b h
  exact (String.append_right_inj _).mp ((String.append_left_inj _).mp h)

/-- For distinct paths without a number sign and any filter, all documents have different origins,
and so different headers, exactly if no line of a file has more documents than there are numbers up
to a later line that has one. That is so without lines, and if no value becomes several documents.
-/
theorem distinct_origins_iff (s : InputSettings) (f : Json → Except Failure (List Json))
    (t : FileTree) (paths : List String) (ds : List Document)
    (hpaths : Glob.resolve t s.patterns = .ok paths) (hdistinct : paths.Nodup)
    (hsign : ∀ path ∈ paths, '#' ∉ path.toList) (hload : s.loadBy f t = .ok ds) :
    ((ds.map (·.origin)).Nodup ↔ ∀ path ∈ paths, ∀ text outputs,
        t.read path = .ok text → s.outputsBy f path text = .ok outputs →
          Spread (outputs.map List.length))
      ∧ (s.perLine = false ∨ (∀ j vs, f j = .ok vs → vs.length ≤ 1) →
        (ds.map (·.origin)).Nodup)
      ∧ ((ds.map Command.RenderTask.header).Nodup ↔ (ds.map (·.origin)).Nodup)
      ∧ s.load t = s.loadBy (refine s.filter) t := by
  obtain ⟨paths', documents, hpaths', hfiles, rfl⟩ := loadBy_eq_ok_iff.mp hload
  cases hpaths.symm.trans hpaths'
  have hiff := nodup_origins_flatten_iff hfiles hdistinct hsign
  have hspread : ((documents.flatten.map (·.origin)).Nodup ↔ ∀ path ∈ paths, ∀ text outputs,
      t.read path = .ok text → s.outputsBy f path text = .ok outputs →
        Spread (outputs.map List.length)) := by
    rw [hiff]
    refine forall₂_congr fun path _ => ⟨fun h text outputs htext houtputs => ?_, fun h ds hds => ?_⟩
    · have hds := loadFileBy_eq_ok_iff.mpr ⟨text, outputs, htext, houtputs, rfl⟩
      exact (nodup_origins_labelled_iff (perLine_or_length_le houtputs)).mp (h _ hds)
    · obtain ⟨text, outputs, htext, houtputs, rfl⟩ := loadFileBy_eq_ok_iff.mp hds
      exact (nodup_origins_labelled_iff (perLine_or_length_le houtputs)).mpr
        (h text outputs htext houtputs)
  refine ⟨hspread, fun h => hspread.mpr fun path _ text outputs _ houtputs => ?_,
    nodup_headers_iff _, load_eq_loadBy s t⟩
  rcases h with hline | hsingle
  · refine spread_of_le_one (.inl ?_)
    rw [List.length_map]
    exact Nat.le_of_eq (length_of_outputsBy hline houtputs)
  · refine spread_of_le_one (.inr fun n hn => ?_)
    obtain ⟨vs, hvs, rfl⟩ := List.mem_map.mp hn
    obtain ⟨j, hj⟩ := exists_of_mem_outputsBy houtputs vs hvs
    exact hsingle j vs hj

/-- A file of lists, one on each line. -/
def listLines (text : String) : FileTree := { entries := [("lists.json", .text text)] }

/-- Lists on lines, taken apart. -/
def takeApart : InputSettings :=
  { perLine := true, filter := some ".[]", patterns := ["lists.json"] }

/-- A list of two in front of one of one has two documents with the number of the second line; the
other way round all numbers differ. -/
theorem distinct_origins_iff_lists :
    (∃ ds, takeApart.load (listLines "[1,2]\n[3]\n") = .ok ds ∧ ¬ (ds.map (·.origin)).Nodup)
      ∧ ∃ ds, takeApart.load (listLines "[1]\n[2,3]\n") = .ok ds
        ∧ (ds.map (·.origin)).Nodup := by
  have hiff : ∀ text counts, (listLines text).read "lists.json" = .ok text →
      (takeApart.loadBy (refine takeApart.filter) (listLines text)).toBool = true →
      (takeApart.outputsBy (refine takeApart.filter) "lists.json" text).toOption.map
        (·.map List.length) = some counts →
      ∃ ds, takeApart.load (listLines text) = .ok ds
        ∧ ((ds.map (·.origin)).Nodup ↔ Spread counts) := by
    intro text counts hread hok hcounts
    cases hds : takeApart.loadBy (refine takeApart.filter) (listLines text) with
    | error e => rw [hds] at hok; exact nomatch hok
    | ok ds =>
      obtain ⟨hspread, -, -, hload⟩ := distinct_origins_iff takeApart (refine takeApart.filter)
        (listLines text) ["lists.json"] ds rfl (by decide) (by decide) hds
      cases houtputs : takeApart.outputsBy (refine takeApart.filter) "lists.json" text with
      | error e => rw [houtputs] at hcounts; exact nomatch hcounts
      | ok outputs =>
        rw [houtputs] at hcounts
        have hcounts : outputs.map List.length = counts := Option.some.inj hcounts
        refine ⟨ds, hload.trans hds, hspread.trans ⟨fun h => ?_, fun h => ?_⟩⟩
        · exact hcounts ▸ h _ List.mem_cons_self _ _ hread houtputs
        · intro path hpath text' outputs' htext' houtputs'
          obtain rfl := List.mem_singleton.mp hpath
          cases hread.symm.trans htext'
          cases houtputs.symm.trans houtputs'
          exact hcounts ▸ h
  obtain ⟨ds, hds, hdistinct⟩ := hiff "[1,2]\n[3]\n" [2, 1] (by rfl) (by decide +kernel)
    (by decide +kernel)
  obtain ⟨ds', hds', hdistinct'⟩ := hiff "[1]\n[2,3]\n" [1, 2] (by rfl) (by decide +kernel)
    (by decide +kernel)
  exact ⟨⟨ds, hds, mt hdistinct.mp (by decide)⟩, ds', hds', hdistinct'.mpr (by decide)⟩

end InputSettings

end TypeOutline
