import TypeOutline.Proofs.Files.Trails
import TypeOutline.Proofs.Text.Pieces

/-!
# What writing a file changes

To put an entry at a place of a tree leaves what stands at every other
place, but that directories are filled, and made where there was nothing
(`remains_putIn`). The trail of a path that can be written leads through
directories to where there is nothing or a file, so all other files are
kept, and every path that could be followed still can be. This holds of
one directory that is made, by induction of all that are made above a
file (`allRemains_makeDirectories`), and of the file
(`writesOnly_of_write`).
-/

namespace TypeOutline

namespace Entry

/-- What stands at a place before, and after directories are made and filled: files are the same. -/
inductive Remains : Option Entry → Option Entry → Prop
  | same (x : Option Entry) : Remains x x
  | made (es : List (String × Entry)) : Remains none (some (.directory es))
  | filled (es es' : List (String × Entry)) :
      Remains (some (.directory es)) (some (.directory es'))

theorem Remains.trans {x y z : Option Entry} (h : Remains x y) (h' : Remains y z) :
    Remains x z := by
  cases h with
  | same => exact h'
  | made es =>
      cases h' with
      | same => exact .made es
      | filled _ es' => exact .made es'
  | filled es es' =>
      cases h' with
      | same => exact .filled es es'
      | filled _ es'' => exact .filled es es''

def isFile (e : Entry) : Bool := !e.isDirectory

theorem Remains.filter_isFile {x y : Option Entry} (h : Remains x y) :
    y.filter isFile = x.filter isFile := by
  cases h <;> rfl

theorem Remains.exists_directory {es : List (String × Entry)} {y : Option Entry}
    (h : Remains (some (directory es)) y) : ∃ es', y = some (directory es') := by
  cases h with
  | same => exact ⟨es, rfl⟩
  | filled _ es' => exact ⟨es', rfl⟩

theorem Remains.eq_text {s : String} {y : Option Entry} (h : Remains (some (text s)) y) :
    y = some (text s) := by
  cases h
  rfl

/-! ## Putting an entry at a place -/

theorem at?_of_entries_nil {e : Entry} (he : e.entries = []) {place : Place} (h : place ≠ []) :
    e.at? place = none := by
  cases place with
  | nil => exact absurd rfl h
  | cons name place =>
      rw [at?_cons, he]
      rfl

/-- What is in a directory before something is put in it further down. -/
def inside (name : String) (es : List (String × Entry)) : List (String × Entry) :=
  ((es.lookup name).map entries).getD []

section PutIn

variable {e : Entry} {name n : String} {place q : Place} {es : List (String × Entry)}

theorem at?_putIn_singleton : (directory (putIn e [name] es)).at? (n :: q) =
    if n = name then e.at? q else (directory es).at? (n :: q) := by
  rw [putIn, at?_cons, entries, Dictionary.lookup_insertIn]
  split
  · rfl
  · rw [at?_cons, entries]

theorem at?_putIn_cons (h : place ≠ []) : (directory (putIn e (name :: place) es)).at? (n :: q) =
    if n = name then (directory (putIn e place (inside name es))).at? q
    else (directory es).at? (n :: q) := by
  obtain ⟨next, place, rfl⟩ := List.exists_cons_of_ne_nil h
  rw [putIn, at?_cons, entries, Dictionary.lookup_insertIn]
  · split
    · rfl
    · rw [at?_cons, entries]
  · exact h

theorem at?_putIn (e : Entry) (h : place ≠ []) (es : List (String × Entry)) :
    (directory (putIn e place es)).at? place = some e := by
  induction place generalizing es with
  | nil => exact absurd rfl h
  | cons name place ih =>
      by_cases hplace : place = []
      · rw [hplace, at?_putIn_singleton, if_pos rfl]
        rfl
      · rw [at?_putIn_cons hplace, if_pos rfl, ih hplace]

theorem at?_putIn_of_ne (h : n ≠ name) :
    (directory (putIn e (name :: place) es)).at? (n :: q) = (directory es).at? (n :: q) := by
  by_cases hplace : place = []
  · rw [hplace, at?_putIn_singleton, if_neg h]
  · rw [at?_putIn_cons hplace, if_neg h]

/-- What stands below a name where a directory is, or nothing. -/
theorem at?_inside (hname : ∀ d, es.lookup name = some d → ∃ es', d = directory es')
    (hq : q ≠ []) : (directory (inside name es)).at? q = (directory es).at? (name :: q) := by
  rw [at?_cons, entries, inside]
  cases hlookup : es.lookup name with
  | none => exact at?_of_entries_nil rfl hq
  | some d =>
      obtain ⟨es', rfl⟩ := hname d hlookup
      rfl

/-- Nothing stands below what nothing is in. -/
theorem at?_eq_none_of_singleton
    (hthere : ∀ d, (directory es).at? [name] = some d → d.entries = []) (hq : q ≠ []) :
    (directory es).at? (name :: q) = none := by
  rw [← List.singleton_append, at?_append, Option.bind_eq_none_iff]
  exact fun d hd => at?_of_entries_nil (hthere d hd) hq

/-- On the way down a directory is filled, or made where nothing was. -/
theorem remains_putIn_name (hplace : place ≠ [])
    (hname : ∀ d, es.lookup name = some d → ∃ es', d = directory es') :
    Remains ((directory es).at? [name]) ((directory (putIn e (name :: place) es)).at? [name]) := by
  rw [at?_putIn_cons hplace, if_pos rfl, at?_cons, entries]
  cases hlookup : es.lookup name with
  | none => exact .made _
  | some d =>
      obtain ⟨es', rfl⟩ := hname d hlookup
      exact .filled es' _

/-- An entry with nothing in it, put below directories alone where there is nothing that something
is in, leaves what stands at every other place. -/
theorem remains_putIn (he : e.entries = []) (hplace : place ≠ [])
    (habove : ∀ p, p <+: place → p ≠ place →
      ∀ d, (directory es).at? p = some d → ∃ es', d = directory es')
    (hthere : ∀ d, (directory es).at? place = some d → d.entries = []) (hq : q ≠ place) :
    Remains ((directory es).at? q) ((directory (putIn e place es)).at? q) := by
  induction place generalizing es q with
  | nil => exact absurd rfl hplace
  | cons name place ih =>
      rcases q with - | ⟨n, q⟩
      · exact .filled _ _
      by_cases hn : n = name
      · subst hn
        have hq : q ≠ place := fun h => hq (congrArg _ h)
        by_cases hplace : place = []
        · subst hplace
          rw [at?_putIn_singleton, if_pos rfl, at?_of_entries_nil he hq,
            at?_eq_none_of_singleton hthere hq]
          exact .same none
        · have hname : ∀ d, es.lookup n = some d → ∃ es', d = directory es' := fun d hd =>
            habove [n] ⟨place, rfl⟩ (fun h => hplace (List.cons.inj h).2.symm) d (by
              rw [at?_cons, entries, hd]
              rfl)
          -- what is put in goes to the directory of that name, or to an empty one
          by_cases hnil : q = []
          · subst hnil
            exact remains_putIn_name hplace hname
          · rw [at?_putIn_cons hplace, if_pos rfl, ← at?_inside hname hnil]
            refine ih hplace (fun p hp hne d hd => ?_) (fun d hd => ?_) hq
            · by_cases hpnil : p = []
              · subst hpnil
                exact ⟨_, (Option.some.inj hd).symm⟩
              · rw [at?_inside hname hpnil] at hd
                exact habove (n :: p) ((List.prefix_cons_inj n).mpr hp)
                  (fun h => hne (List.cons.inj h).2) d hd
            · rw [at?_inside hname hplace] at hd
              exact hthere d hd
      · rw [at?_putIn_of_ne hn]
        exact .same _

end PutIn

end Entry

namespace FileTree

open Entry (Remains)

variable {t t' t'' : FileTree} {way : Trail} {e : Entry} {path text : String}

/-- The file at a place. -/
def file? (t : FileTree) (place : Place) : Option Entry := (t.top.at? place).filter Entry.isFile

/-! ## Trees in which all remains -/

/-- What stands at every place is the same, but that directories are made and filled, and nothing
else is changed. -/
structure AllRemains (t t' : FileTree) : Prop where
  here_eq : t'.here = t.here
  barriers_eq : t'.barriers = t.barriers
  remains : ∀ place, Remains (t.top.at? place) (t'.top.at? place)

theorem AllRemains.refl (t : FileTree) : t.AllRemains t := ⟨rfl, rfl, fun _ => .same _⟩

theorem AllRemains.trans (h : t.AllRemains t') (h' : t'.AllRemains t'') : t.AllRemains t'' :=
  ⟨h'.here_eq.trans h.here_eq, h'.barriers_eq.trans h.barriers_eq,
    fun place => (h.remains place).trans (h'.remains place)⟩

/-- What remains where directories are keeps them. -/
theorem keepsDirectories_of_remains (hhere : t'.here = t.here)
    (hbarriers : t'.barriers = t.barriers) (h : ∀ way, t.HasDirectory way →
      Remains (t.top.at? way.reverse) (t'.top.at? way.reverse)) : t.KeepsDirectories t' := by
  refine ⟨hhere, hbarriers, fun way hway => ?_⟩
  have hremains := h way hway
  obtain ⟨es, hes⟩ := hway
  rw [show t.top.at? way.reverse = some (.directory es) from hes] at hremains
  exact hremains.exists_directory

theorem AllRemains.keepsDirectories (h : t.AllRemains t') : t.KeepsDirectories t' :=
  keepsDirectories_of_remains h.here_eq h.barriers_eq fun way _ => h.remains way.reverse

/-- An entry with nothing in it, put at the end of a trail where nothing is, or what nothing is in,
leaves what stands at every other place. -/
theorem remains_set (he : e.entries = []) (hway : way ≠ []) (habove : t.HasDirectory way.tail)
    (hthere : ∀ d, t.standing way = some d → d.entries = []) {q : Place} (hq : q ≠ way.reverse) :
    Remains (t.top.at? q) ((t.set way.reverse e).top.at? q) := by
  refine Entry.remains_putIn he (mt List.reverse_eq_nil_iff.mp hway) (fun p hp hne d hd => ?_)
    hthere hq
  have hsuffix : p.reverse <:+ way.tail := by
    obtain ⟨name, above, rfl⟩ := List.exists_cons_of_ne_nil hway
    have hsuffix : p.reverse <:+ name :: above := by
      rwa [← List.reverse_prefix, List.reverse_reverse]
    exact (List.suffix_cons_iff.mp hsuffix).resolve_left fun h => hne (by
      rw [← h, List.reverse_reverse])
  obtain ⟨es, hes⟩ := hasDirectory_of_suffix habove hsuffix
  rw [standing, List.reverse_reverse] at hes
  exact ⟨es, Option.some.inj (hd.symm.trans hes)⟩

theorem at?_set (e : Entry) (hway : way ≠ []) :
    (t.set way.reverse e).top.at? way.reverse = some e :=
  Entry.at?_putIn e (mt List.reverse_eq_nil_iff.mp hway) t.entries

/-! ## Directories that are made -/

theorem allRemains_makeDirectory (h : t.makeDirectory path = .ok t') : t.AllRemains t' := by
  rw [makeDirectory] at h
  obtain ⟨way, hfollowed, h⟩ := exists_of_bind_eq_ok h
  obtain ⟨-, habove⟩ := trailAlong_eq_ok hfollowed
  split at h
  · cases h
  · rename_i hnone
    obtain ⟨-, h⟩ := check_bind_eq_ok_iff.mp h
    obtain rfl := Except.ok.inj h
    have hnone : t.standing way = none := Option.not_isSome_iff_eq_none.mp hnone
    have hway : way ≠ [] := by
      rintro rfl
      cases hnone
    refine ⟨rfl, rfl, fun q => ?_⟩
    by_cases hq : q = way.reverse
    · subst hq
      rw [at?_set _ hway, show t.top.at? way.reverse = none from hnone]
      exact .made []
    · refine remains_set rfl hway (habove (pieces_ne_nil _)) (fun d hd => ?_) hq
      rw [hnone] at hd
      cases hd

theorem allRemains_makeDirectoriesWithin (fuel : Nat) {t t' : FileTree} {path : String}
    (h : t.makeDirectoriesWithin fuel path = .ok t') : t.AllRemains t' := by
  induction fuel generalizing t t' path with
  | zero => exact Except.ok.inj h ▸ .refl t
  | succ fuel ih =>
      rw [makeDirectoriesWithin] at h
      split at h
      · exact Except.ok.inj h ▸ .refl t
      · split at h
        · rename_i hmade
          exact Except.ok.inj h ▸ allRemains_makeDirectory hmade
        · obtain ⟨above, habove, h⟩ := exists_of_bind_eq_ok h
          have habove : t.AllRemains above := by
            cases hparent : Path.parent? path with
            | none =>
                rw [hparent] at habove
                cases habove
            | some parent =>
                rw [hparent] at habove
                exact ih habove
          split at h
          · rename_i hmade
            exact Except.ok.inj h ▸ habove.trans (allRemains_makeDirectory hmade)
          · split at h
            · exact Except.ok.inj h ▸ habove
            · cases h
        · split at h
          · exact Except.ok.inj h ▸ .refl t
          · cases h

theorem allRemains_makeDirectories (h : t.makeDirectories path = .ok t') : t.AllRemains t' :=
  allRemains_makeDirectoriesWithin _ h

/-! ## Reading -/

theorem look_eq_ok_iff : t.look path = .ok (way, e) ↔
    t.trailOf path = .ok way ∧ t.standing way = some e := by
  rw [look]
  cases t.trailOf path with
  | error fault => exact ⟨fun h => (nomatch h), fun h => nomatch h.1⟩
  | ok followed =>
      rw [ok_bind]
      cases hstanding : t.standing followed with
      | none =>
          refine ⟨fun h => (nomatch h), fun ⟨hway, hfound⟩ => ?_⟩
          obtain rfl := Except.ok.inj hway
          rw [hstanding] at hfound
          cases hfound
      | some d =>
          constructor
          · intro h
            obtain ⟨rfl, rfl⟩ := Prod.mk.inj (Except.ok.inj h)
            exact ⟨rfl, hstanding⟩
          · rintro ⟨hway, hfound⟩
            obtain rfl := Except.ok.inj hway
            rw [hstanding] at hfound
            rw [Option.some.inj hfound]

theorem read_eq_ok_iff : t.read path = .ok text ↔
    ∃ way, t.trailOf path = .ok way ∧ t.standing way = some (.text text)
      ∧ t.fault? .read way = none := by
  rw [read]
  constructor
  · intro h
    obtain ⟨⟨way, e⟩, hlook, h⟩ := exists_of_bind_eq_ok h
    obtain ⟨hallow, h⟩ := check_bind_eq_ok_iff.mp h
    obtain ⟨hway, hfound⟩ := look_eq_ok_iff.mp hlook
    cases e with
    | text s =>
        obtain rfl := Except.ok.inj h
        exact ⟨way, hway, hfound, allow_eq_ok_iff.mp hallow⟩
    | binary => cases h
    | directory es => cases h
  · rintro ⟨way, hway, hfound, hfault⟩
    rw [look_eq_ok_iff.mpr ⟨hway, hfound⟩, ok_bind]
    exact check_bind_eq_ok_iff.mpr ⟨allow_eq_ok_iff.mpr hfault, rfl⟩

/-- A path that can be followed can be read where directories are kept, if there is a text that may
be read. -/
theorem read_of_keepsDirectories (hfollowed : t.trailOf path = .ok way)
    (hkeeps : t.KeepsDirectories t') (hfault : t.fault? .read way = none)
    (hat : t'.standing way = some (.text text)) : t'.read path = .ok text := by
  refine read_eq_ok_iff.mpr ⟨way, hkeeps.trailAlong hfollowed, hat, ?_⟩
  rwa [hkeeps.fault?_eq]

/-- What could be read can be read where all remains. -/
theorem AllRemains.read_eq (h : t.AllRemains t') (hread : t.read path = .ok text) :
    t'.read path = .ok text := by
  obtain ⟨way, hfollowed, hfound, hfault⟩ := read_eq_ok_iff.mp hread
  have hremains := h.remains way.reverse
  rw [show t.top.at? way.reverse = some (.text text) from hfound] at hremains
  exact read_of_keepsDirectories hfollowed h.keepsDirectories hfault hremains.eq_text

/-! ## Writing -/

/-- The trees differ in the file at a path, which is the text in the second one, and otherwise in
directories alone. What could be read can be read, and so can the text unless that is refused. -/
structure WritesOnly (t t' : FileTree) (path text : String) : Prop where
  here_eq : t'.here = t.here
  barriers_eq : t'.barriers = t.barriers
  file?_placeOf : t'.file? (t.placeOf path) = some (.text text)
  file?_eq : ∀ place ≠ t.placeOf path, t'.file? place = t.file? place
  read_eq : t.fault? .read (t.wayOf path) = none → t'.read path = .ok text
  read_of_read : ∀ other s, t.read other = .ok s →
    t'.read other = .ok (if t.placeOf other = t.placeOf path then text else s)

theorem AllRemains.writesOnly (h : t.AllRemains t') (h' : t'.WritesOnly t'' path text) :
    t.WritesOnly t'' path text := by
  have hway : ∀ path, t'.wayOf path = t.wayOf path := h.keepsDirectories.wayOf_eq
  have hplace : ∀ path, t'.placeOf path = t.placeOf path :=
    fun path => congrArg List.reverse (hway path)
  refine ⟨h'.here_eq.trans h.here_eq, h'.barriers_eq.trans h.barriers_eq, ?_,
    fun place hne => ?_, fun hfault => h'.read_eq ?_, fun other s hread => ?_⟩
  · rw [← hplace]
    exact h'.file?_placeOf
  · rw [← hplace] at hne
    exact (h'.file?_eq place hne).trans (h.remains place).filter_isFile
  · rwa [h.keepsDirectories.fault?_eq, hway]
  · rw [← hplace, ← hplace]
    exact h'.read_of_read other s (h.read_eq hread)

/-- A path that does not end like that of a directory has no slash at its end. -/
theorem withoutSlash_eq_self (h : Path.namesDirectory path = false) :
    Path.withoutSlash path = path := by
  have hlast : path.toList.rdropWhile (· = '/') = path.toList := by
    rw [List.rdropWhile_eq_self_iff]
    intro hne hslash
    obtain ⟨cs, c, hcs⟩ := (List.eq_nil_or_concat' path.toList).resolve_left hne
    have hc : c = '/' := by
      simpa [hcs] using hslash
    rw [Path.namesDirectory, Path.pieces, hcs, hc, Text.pieces_concat, List.map_append,
      List.map_singleton, List.getLast?_concat] at h
    cases h
  have hshown : String.ofList (path.toList.reverse.dropWhile (· = '/')).reverse = path :=
    (congrArg String.ofList hlast).trans String.ofList_toList
  rw [Path.withoutSlash, hshown]
  exact ite_self _

theorem exists_last (h : Path.namesDirectory path = false) :
    ∃ front last, Path.pieces path = front ++ [last] ∧ last ≠ "" := by
  obtain ⟨front, last, hpieces⟩ :=
    (List.eq_nil_or_concat' (Path.pieces path)).resolve_left (pieces_ne_nil path)
  refine ⟨front, last, hpieces, ?_⟩
  rintro rfl
  rw [Path.namesDirectory, hpieces, List.getLast?_concat] at h
  cases h

/-- A text can be written where a path leads, whatever it is, if it can be followed to where no
directory is and nothing is refused. -/
theorem write_eq_ok_iff : t.write path text = .ok t' ↔
    Path.namesDirectory path = false ∧ ∃ way, t.trailOf path = .ok way
      ∧ t.allowWriting way = .ok () ∧ t' = t.set way.reverse (.text text) := by
  constructor
  · intro h
    rw [write] at h
    obtain ⟨above, habove, h⟩ := exists_of_bind_eq_ok h
    split at h
    · cases h
    · obtain ⟨-, h⟩ := check_bind_eq_ok_iff.mp h
      split at h
      · cases h
      · rename_i hname
        have hname := eq_false_of_ne_true hname
        obtain ⟨front, last, hpieces, -⟩ := exists_last hname
        obtain ⟨way, hway, h⟩ := exists_of_bind_eq_ok h
        obtain ⟨hallow, h⟩ := check_bind_eq_ok_iff.mp h
        rw [withoutSlash_eq_self hname, hpieces] at habove hway
        rw [List.dropLast_concat] at habove
        rw [List.getLast?_concat, Option.getD_some] at hway
        refine ⟨hname, way, ?_, hallow, (Except.ok.inj h).symm⟩
        rw [trailOf, hpieces, trailAlong_concat, habove, ok_bind, hway]
    · cases h
  · rintro ⟨hname, way, hfollowed, hallow, rfl⟩
    obtain ⟨front, last, hpieces, hlast⟩ := exists_last hname
    rw [trailOf, hpieces, trailAlong_concat] at hfollowed
    obtain ⟨above, habove, hway⟩ := exists_of_bind_eq_ok hfollowed
    obtain ⟨⟨es, hes⟩, hentered, -⟩ := follow_eq_ok_iff.mp hway
    have hentered := allow_eq_ok_iff.mpr (hentered.resolve_left hlast)
    rw [write, withoutSlash_eq_self hname, hpieces, List.dropLast_concat, List.getLast?_concat,
      habove, ok_bind, hes]
    dsimp only
    rw [hentered, ok_bind, hname, if_neg Bool.false_ne_true, Option.getD_some, hway, ok_bind,
      hallow, ok_bind]
    rfl

theorem not_hasDirectory_of_allowWriting (h : t.allowWriting way = .ok ()) :
    ¬ t.HasDirectory way := by
  rintro ⟨es, hes⟩
  rw [allowWriting, hes] at h
  cases h

/-- Whether a file can be written does not depend on the text. -/
theorem exists_write (h : t.write path text = .ok t') (other : String) :
    ∃ t'', t.write path other = .ok t'' := by
  obtain ⟨hname, way, hfollowed, hallow, -⟩ := write_eq_ok_iff.mp h
  exact ⟨_, write_eq_ok_iff.mpr ⟨hname, way, hfollowed, hallow, rfl⟩⟩

theorem writesOnly_of_write (h : t.write path text = .ok t') : t.WritesOnly t' path text := by
  obtain ⟨-, way, hfollowed, hallow, rfl⟩ := write_eq_ok_iff.mp h
  have hnone := not_hasDirectory_of_allowWriting hallow
  obtain ⟨rfl, habove⟩ := trailOf_eq_ok hfollowed
  have hway : t.wayOf path ≠ [] := fun h => hnone (h ▸ t.hasDirectory_nil)
  have hremains : ∀ place ≠ t.placeOf path, Remains (t.top.at? place)
      ((t.set (t.placeOf path) (.text text)).top.at? place) := by
    intro place hplace
    refine remains_set rfl hway habove (fun d hd => ?_) hplace
    cases d with
    | directory es => exact absurd ⟨es, hd⟩ hnone
    | text s => rfl
    | binary => rfl
  have hwritten : (t.set (t.placeOf path) (.text text)).top.at? (t.placeOf path) =
      some (.text text) := at?_set _ hway
  have hkeeps : t.KeepsDirectories (t.set (t.placeOf path) (.text text)) := by
    refine keepsDirectories_of_remains rfl rfl fun way hdirectory => hremains _ fun heq => ?_
    exact hnone (List.reverse_injective heq ▸ hdirectory)
  refine ⟨rfl, rfl, ?_, fun place hplace => (hremains place hplace).filter_isFile,
    fun hfault => read_of_keepsDirectories hfollowed hkeeps hfault hwritten,
    fun other s hread => ?_⟩
  · rw [file?]
    exact congrArg (Option.filter Entry.isFile) hwritten
  · obtain ⟨other', hother, hfound, hfault⟩ := read_eq_ok_iff.mp hread
    obtain ⟨rfl, -⟩ := trailOf_eq_ok hother
    refine read_of_keepsDirectories hother hkeeps hfault ?_
    split
    · rename_i heq
      exact (congrArg (Entry.at? · _) heq).trans hwritten
    · rename_i hne
      have hplace := hremains _ hne
      rw [show t.top.at? (t.placeOf other) = some (.text s) from hfound] at hplace
      exact hplace.eq_text

end FileTree

end TypeOutline
