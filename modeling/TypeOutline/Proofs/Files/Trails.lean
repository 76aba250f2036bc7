import TypeOutline.Files.Tree
import TypeOutline.Proofs.Inputs.Outcomes

/-!
# Where paths lead

A path is followed name by name, and each step looks at what stands at the
end of the trail so far and at what is refused there. Which names are on
the trail does not depend on either (`goOn`): they decide only whether the
next step can be made at all (`follow_eq_ok_iff`). So a path leads to one
place (`placeOf`) from one working directory, and what can be followed in
one tree can be followed in every other that has directories where that
has, and refuses nothing more (`trailAlong_of_keepsDirectories`).
-/

namespace TypeOutline

/-! ## Places -/

namespace Entry

theorem at?_cons (name : String) (place : Place) (e : Entry) :
    e.at? (name :: place) = (e.entries.lookup name).bind (at? place) := by
  rw [at?]

/-- What stands further down stands in what stands above it. -/
theorem at?_append (place below : Place) (e : Entry) :
    e.at? (place ++ below) = (e.at? place).bind (at? below) := by
  induction place generalizing e with
  | nil => rfl
  | cons name place ih =>
      rw [List.cons_append, at?_cons, at?_cons, Option.bind_assoc]
      exact congrArg _ (funext ih)

theorem at?_concat (place : Place) (name : String) (e : Entry) :
    e.at? (place ++ [name]) = (e.at? place).bind (·.entries.lookup name) := by
  rw [at?_append]
  refine congrArg _ (funext fun e => ?_)
  rw [at?_cons]
  exact Option.bind_fun_some _

end Entry

namespace FileTree

variable {t t' : FileTree} {way next : Trail} {names : List String} {name path : String}

/-! ## What stands on a trail -/

theorem standing_cons (t : FileTree) (name : String) (way : Trail) :
    t.standing (name :: way) = (t.standing way).bind (·.entries.lookup name) := by
  rw [standing, standing, List.reverse_cons, Entry.at?_concat]

/-- A directory stands at the end of a trail. -/
def HasDirectory (t : FileTree) (way : Trail) : Prop :=
  ∃ es, t.standing way = some (.directory es)

theorem hasDirectory_nil (t : FileTree) : t.HasDirectory [] := ⟨t.entries, rfl⟩

/-- What stands somewhere stands in a directory. -/
theorem hasDirectory_of_standing {e : Entry} (h : t.standing (name :: way) = some e) :
    t.HasDirectory way := by
  rw [standing_cons] at h
  obtain ⟨d, hd, hname⟩ := Option.bind_eq_some_iff.mp h
  cases d with
  | directory es => exact ⟨es, hd⟩
  | text s => cases hname
  | binary => cases hname

theorem HasDirectory.tail (h : t.HasDirectory way) : t.HasDirectory way.tail := by
  cases way with
  | nil => exact h
  | cons name way =>
      obtain ⟨es, hes⟩ := h
      exact hasDirectory_of_standing hes

theorem hasDirectory_of_suffix (h : t.HasDirectory way) {front : Trail}
    (hsuffix : front <:+ way) : t.HasDirectory front := by
  obtain ⟨below, rfl⟩ := hsuffix
  induction below with
  | nil => exact h
  | cons name below ih => exact ih h.tail

/-! ## Following names -/

theorem allow_eq_ok_iff {access : Access} : t.allow access way = .ok () ↔
    t.fault? access way = none := by
  rw [allow]
  cases t.fault? access way <;> simp

theorem allowName_eq_ok_iff : t.allowName way name = .ok () ↔
    name = "" ∨ t.fault? .enter way = none := by
  rw [allowName, ← allow_eq_ok_iff]
  split <;> simp [*]

/-- From a directory that may be entered every name that is not too long leads on. -/
theorem follow_eq_ok_iff : t.follow way name = .ok next ↔
    t.HasDirectory way ∧ (name = "" ∨ t.fault? .enter way = none)
      ∧ name.utf8ByteSize ≤ maxName ∧ next = goOn way name := by
  have hstep : (if maxName < name.utf8ByteSize then .error .nameTooLong
      else .ok (goOn way name) : Except FileFault Trail) = .ok next ↔
        name.utf8ByteSize ≤ maxName ∧ next = goOn way name := by
    rw [← Nat.not_lt]
    split <;> simp [*, eq_comm]
  rw [follow, HasDirectory]
  cases t.standing way with
  | none => simp
  | some e =>
      cases e with
      | text s => simp
      | binary => simp
      | directory es =>
          dsimp only
          rw [check_bind_eq_ok_iff, allowName_eq_ok_iff, hstep]
          exact ⟨fun h => ⟨⟨es, rfl⟩, h⟩, fun h => h.2⟩

theorem hasDirectory_tail_goOn (h : t.HasDirectory way) (name : String) :
    t.HasDirectory (goOn way name).tail := by
  rw [goOn]
  split
  · exact h.tail
  · split
    · exact h.tail.tail
    · exact h

/-- The second tree is followed from the same working directory, has a directory wherever the first
one has one, and refuses the same. -/
structure KeepsDirectories (t t' : FileTree) : Prop where
  here_eq : t'.here = t.here
  barriers_eq : t'.barriers = t.barriers
  hasDirectory : ∀ way, t.HasDirectory way → t'.HasDirectory way

theorem KeepsDirectories.fault?_eq (h : t.KeepsDirectories t') (access : Access) (way : Trail) :
    t'.fault? access way = t.fault? access way := by
  rw [fault?, fault?, h.barriers_eq]

theorem KeepsDirectories.start_eq (h : t.KeepsDirectories t') (path : String) :
    t'.start path = t.start path := by
  rw [start, start, h.here_eq]

theorem KeepsDirectories.follow (h : t.KeepsDirectories t') (hnext : t.follow way name = .ok next) :
    t'.follow way name = .ok next := by
  rw [follow_eq_ok_iff] at hnext ⊢
  rw [h.fault?_eq]
  exact ⟨h.hasDirectory way hnext.1, hnext.2⟩

/-- What can be followed leads along the next names, the last of which is looked for in
a directory. -/
theorem foldlM_follow (h : names.foldlM t.follow way = .ok next) :
    next = names.foldl goOn way ∧ (names ≠ [] → t.HasDirectory next.tail) := by
  induction names generalizing way with
  | nil => exact ⟨(Except.ok.inj h).symm, fun hne => absurd rfl hne⟩
  | cons name names ih =>
      rw [List.foldlM_cons] at h
      obtain ⟨step, hstep, h⟩ := exists_of_bind_eq_ok h
      obtain ⟨hdirectory, -, -, rfl⟩ := follow_eq_ok_iff.mp hstep
      obtain ⟨hway, htail⟩ := ih h
      refine ⟨hway, fun _ => ?_⟩
      cases names with
      | nil => exact hway ▸ hasDirectory_tail_goOn hdirectory name
      | cons _ _ => exact htail (List.cons_ne_nil _ _)

theorem KeepsDirectories.foldlM (h : t.KeepsDirectories t')
    (hnext : names.foldlM t.follow way = .ok next) : names.foldlM t'.follow way = .ok next := by
  induction names generalizing way with
  | nil => exact hnext
  | cons name names ih =>
      rw [List.foldlM_cons] at hnext ⊢
      obtain ⟨step, hstep, hnext⟩ := exists_of_bind_eq_ok hnext
      rw [h.follow hstep, ok_bind]
      exact ih hnext

/-! ## Following paths -/

/-- The trail along some names of a path, if it can be followed. -/
def namesAlong (t : FileTree) (path : String) (names : List String) : Trail :=
  names.foldl goOn (t.start path)

/-- The trail of a path, if it can be followed. -/
def wayOf (t : FileTree) (path : String) : Trail := t.namesAlong path (Path.pieces path)

/-- The place that a path leads to in every tree with this working directory in which it can be
followed. -/
def placeOf (t : FileTree) (path : String) : Place := (t.wayOf path).reverse

theorem KeepsDirectories.wayOf_eq (h : t.KeepsDirectories t') (path : String) :
    t'.wayOf path = t.wayOf path := by
  rw [wayOf, wayOf, namesAlong, namesAlong, h.start_eq]

/-- Nothing is wrong with a path as a text. -/
def IsPath (path : String) : Prop :=
  path.toList.contains '\x00' = false ∧ path ≠ "" ∧ path.utf8ByteSize ≤ maxPath

theorem trailAlong_eq_ok_iff : t.trailAlong path names = .ok way ↔
    IsPath path ∧ names.foldlM t.follow (t.start path) = .ok way := by
  rw [trailAlong, IsPath]
  by_cases hnul : path.toList.contains '\x00' = true
  · rw [if_pos hnul, hnul]
    exact ⟨fun h => (nomatch h), fun h => nomatch h.1.1⟩
  · rw [if_neg hnul]
    by_cases hempty : path = ""
    · rw [if_pos hempty]
      exact ⟨fun h => (nomatch h), fun h => absurd hempty h.1.2.1⟩
    · rw [if_neg hempty]
      by_cases hlong : maxPath < path.utf8ByteSize
      · rw [if_pos hlong]
        exact ⟨fun h => (nomatch h), fun h => absurd h.1.2.2 (Nat.not_le.mpr hlong)⟩
      · rw [if_neg hlong]
        exact ⟨fun h => ⟨⟨eq_false_of_ne_true hnul, hempty, Nat.not_lt.mp hlong⟩, h⟩,
          fun h => h.2⟩

theorem trailAlong_eq_ok (h : t.trailAlong path names = .ok way) :
    way = t.namesAlong path names ∧ (names ≠ [] → t.HasDirectory way.tail) :=
  foldlM_follow (trailAlong_eq_ok_iff.mp h).2

theorem KeepsDirectories.trailAlong (h : t.KeepsDirectories t')
    (hway : t.trailAlong path names = .ok way) : t'.trailAlong path names = .ok way := by
  rw [trailAlong_eq_ok_iff] at hway ⊢
  rw [h.start_eq]
  exact ⟨hway.1, h.foldlM hway.2⟩

theorem trailAlong_concat (t : FileTree) (path : String) (names : List String) (name : String) :
    t.trailAlong path (names ++ [name]) = t.trailAlong path names >>= (t.follow · name) := by
  unfold FileTree.trailAlong
  split
  · rfl
  · split
    · rfl
    · split
      · rfl
      · rw [List.foldlM_append]
        simp only [List.foldlM_cons, List.foldlM_nil, bind_pure]

theorem pieces_ne_nil (path : String) : Path.pieces path ≠ [] :=
  mt List.map_eq_nil_iff.mp (Text.pieces_ne_nil _ _)

theorem trailOf_eq_ok (h : t.trailOf path = .ok way) :
    way = t.wayOf path ∧ t.HasDirectory way.tail := by
  obtain ⟨hway, htail⟩ := trailAlong_eq_ok h
  exact ⟨hway, htail (pieces_ne_nil path)⟩

end FileTree

end TypeOutline
