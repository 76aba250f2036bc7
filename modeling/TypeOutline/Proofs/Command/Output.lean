import TypeOutline.Proofs.Command.Effects
import TypeOutline.Proofs.Command.Uses
import TypeOutline.Proofs.Files.Writing

/-!
# The output file

A render run prints its text, or writes it to a file. On a command line
the option for the file is one more use between those of other options.
None of them asks for the file or changes it (`ignoresOut_apply`), so a
line in which the option is put in asks for the same as before and for
the file (`parse_of_usesOf`).

Which documents there are and how they are shown does not depend on the
file, and all of them are read before anything is written
(`runBy_withOut`). So the file gets the text that would have been
printed, even if it is one of the inputs, and no other file changes
(`runBy_addsOut`).
-/

namespace TypeOutline.Command

/-! ## The option for the output file -/

/-- The option for the output file. -/
def outOption : CommandOption RenderTask :=
  { name := "out", short := some 'o', arity := .one
    apply := pathOf fun v r => { r with out := some v } }

theorem eq_outOption : ∀ o ∈ renderOptions, o.name = "out" → o = outOption := by
  intro o ho hname
  simp only [renderOptions, List.mem_cons, List.not_mem_nil, or_false] at ho
  rcases ho with rfl | rfl | rfl | rfl | rfl | rfl | rfl | rfl | rfl | rfl | rfl
  all_goals first | rfl | exact absurd hname (by decide)

theorem apply_outOption {words : List String} {r r' : RenderTask} :
    outOption.apply words r = some r' ↔
      ∃ file, file ≠ "" ∧ words = [file] ∧ r' = { r with out := some file } := by
  constructor
  · intro h
    rcases words with - | ⟨file, - | ⟨next, rest⟩⟩
    · cases h
    · have h : (if file = "" then none else some { r with out := some file }) = some r' := h
      split at h
      · cases h
      · rename_i hfile
        exact ⟨file, hfile, rfl, (Option.some.inj h).symm⟩
    · cases h
  · rintro ⟨file, hfile, rfl, rfl⟩
    exact if_neg hfile

/-- What an option does neither asks for the output file nor changes it. -/
def IgnoresOut (f : List String → RenderTask → Option RenderTask) : Prop :=
  ∀ words r out, f words { r with out } = (f words r).map ({ · with out })

theorem ignoresOut_valueOf {set : String → RenderTask → RenderTask}
    (h : ∀ v r out, set v { r with out } = { set v r with out }) : IgnoresOut (valueOf set)
  | [], _, _ => rfl
  | [v], r, out => congrArg some (h v r out)
  | _ :: _ :: _, _, _ => rfl

theorem ignoresOut_pathOf {set : String → RenderTask → RenderTask}
    (h : ∀ v r out, set v { r with out } = { set v r with out }) : IgnoresOut (pathOf set)
  | [], _, _ => rfl
  | [v], r, out => by
      rw [pathOf, pathOf]
      split
      · rfl
      · exact congrArg some (h v r out)
  | _ :: _ :: _, _, _ => rfl

theorem ignoresOut_flagOf {set : RenderTask → RenderTask}
    (h : ∀ r out, set { r with out } = { set r with out }) : IgnoresOut (flagOf set) :=
  fun _ r out => congrArg some (h r out)

theorem ignoresOut_apply (o : CommandOption RenderTask) (ho : o ∈ renderOptions)
    (hname : o.name ≠ "out") : IgnoresOut o.apply := by
  simp only [renderOptions, List.mem_cons, List.not_mem_nil, or_false] at ho
  rcases ho with rfl | rfl | rfl | rfl | rfl | rfl | rfl | rfl | rfl | rfl | rfl
  · exact ignoresOut_flagOf fun _ _ => rfl
  · exact ignoresOut_valueOf fun _ _ _ => rfl
  · exact ignoresOut_valueOf fun _ _ _ => rfl
  · exact fun _ _ _ => rfl
  · intro words r out
    dsimp only
    split
    · rw [Option.map_map]
      rfl
    · rfl
  · exact ignoresOut_flagOf fun _ _ => rfl
  · exact ignoresOut_valueOf fun _ _ _ => rfl
  · exact ignoresOut_pathOf fun _ _ _ => rfl
  · exact ignoresOut_flagOf fun _ _ => rfl
  · exact absurd rfl hname
  · exact ignoresOut_flagOf fun _ _ => rfl

/-! ## Uses of other options -/

/-- No use of the option for the output file is among these. -/
def WithoutOut (us : List (Use RenderTask)) : Prop :=
  ∀ u ∈ us, u.1 ∈ renderOptions ∧ u.1.name ≠ "out"

/-- One more use of the option for the output file has been made, and no other differs. -/
structure Marked (file : String) (p q : Progress RenderTask) : Prop where
  known_eq : q.known = { p.known with out := some file }
  used_eq : ∀ name ≠ "out", q.used.contains name = p.used.contains name

section Uses

variable {file : String} {p p' q : Progress RenderTask} {o : CommandOption RenderTask}
  {words : List String} {us us' : List (Use RenderTask)}

theorem Marked.use (h : Marked file p p') (ho : o ∈ renderOptions) (hname : o.name ≠ "out")
    (huse : p.use o words = .ok q) : ∃ q', p'.use o words = .ok q' ∧ Marked file q q' := by
  obtain ⟨hwords, hused, known, hknown, rfl⟩ := Progress.use_eq_ok_iff.mp huse
  refine ⟨{ known := { known with out := some file }, used := o.name :: p'.used },
    Progress.use_eq_ok_iff.mpr ⟨hwords, ?_, _, ?_, rfl⟩, rfl, fun name hne => ?_⟩
  · rwa [h.used_eq _ hname]
  · rw [h.known_eq, ignoresOut_apply o ho hname, hknown, Option.map_some]
  · rw [List.contains_cons, List.contains_cons, h.used_eq name hne]

theorem Marked.useAll (h : Marked file p p') (hus : WithoutOut us) (huse : p.useAll us = .ok q) :
    ∃ q', p'.useAll us = .ok q' ∧ Marked file q q' := by
  induction us generalizing p p' with
  | nil =>
      obtain rfl := Except.ok.inj huse
      exact ⟨_, rfl, h.known_eq, h.used_eq⟩
  | cons u us ih =>
      obtain ⟨⟨ho, hname⟩, hus⟩ := List.forall_mem_cons.mp hus
      obtain ⟨next, hnext, huse⟩ := exists_of_bind_eq_ok huse
      obtain ⟨next', hnext', hmarked⟩ := h.use ho hname hnext
      rw [Progress.useAll, hnext']
      exact ih hmarked hus huse

/-- Other options leave the output file and the uses of its option alone. -/
theorem of_useAll_withoutOut (hus : WithoutOut us) (huse : p.useAll us = .ok q) :
    q.known.out = p.known.out ∧ q.used.contains "out" = p.used.contains "out" := by
  induction us generalizing p with
  | nil =>
      obtain rfl := Except.ok.inj huse
      exact ⟨rfl, rfl⟩
  | cons u us ih =>
      obtain ⟨⟨ho, hname⟩, hus⟩ := List.forall_mem_cons.mp hus
      obtain ⟨next, hnext, huse⟩ := exists_of_bind_eq_ok huse
      obtain ⟨hout, hused⟩ := ih hus huse
      obtain ⟨-, -, known, hknown, rfl⟩ := Progress.use_eq_ok_iff.mp hnext
      rw [hout, hused]
      have hsame : u.1.apply u.2 p.known = (u.1.apply u.2 p.known).map
          ({ · with out := p.known.out }) :=
        ignoresOut_apply u.1 ho hname u.2 p.known p.known.out
      rw [hknown] at hsame
      have hkept := congrArg RenderTask.out (Option.some.inj hsame)
      refine ⟨hkept, ?_⟩
      rw [List.contains_cons, beq_eq_false_iff_ne.mpr (Ne.symm hname), Bool.false_or]

/-- The option for the output file makes one known. -/
theorem out_ne_none_of_use (huse : p.use outOption words = .ok q) : q.known.out ≠ none := by
  obtain ⟨-, -, known, hknown, rfl⟩ := Progress.use_eq_ok_iff.mp huse
  obtain ⟨file, -, -, rfl⟩ := apply_outOption.mp hknown
  exact Option.some_ne_none file

/-- If no output file is known in the end its option has not been used. -/
theorem withoutOut_of_useAll (hknown : ∀ u ∈ us, u.1 ∈ renderOptions)
    (huse : p.useAll us = .ok q) (hout : q.known.out = none) : WithoutOut us := by
  induction us generalizing p with
  | nil => exact fun _ hu => absurd hu List.not_mem_nil
  | cons u us ih =>
      obtain ⟨ho, hknown⟩ := List.forall_mem_cons.mp hknown
      obtain ⟨next, hnext, huse⟩ := exists_of_bind_eq_ok huse
      have hus := ih hknown huse
      refine List.forall_mem_cons.mpr ⟨⟨ho, fun hname => ?_⟩, hus⟩
      have hnone := (of_useAll_withoutOut hus huse).1.symm.trans hout
      rw [eq_outOption u.1 ho hname] at hnext
      exact out_ne_none_of_use hnext hnone

/-- One use of the option for the output file among others makes the file known, and changes nothing
else. -/
theorem useAll_insert (hus : WithoutOut (us ++ us')) (hfile : file ≠ "")
    (hused : p.used.contains "out" = false) (huse : p.useAll (us ++ us') = .ok q) :
    ∃ q', p.useAll (us ++ (outOption, [file]) :: us') = .ok q'
      ∧ q'.known = { q.known with out := some file } := by
  obtain ⟨hus, hus'⟩ := List.forall_mem_append.mp hus
  rw [Progress.useAll_append] at huse
  obtain ⟨between, hbetween, huse⟩ := exists_of_bind_eq_ok huse
  have hfresh := (of_useAll_withoutOut hus hbetween).2.trans hused
  have hout : between.use outOption [file] =
      .ok { known := { between.known with out := some file }, used := "out" :: between.used } := by
    refine Progress.use_eq_ok_iff.mpr ⟨rfl, ?_, _, apply_outOption.mpr ⟨file, hfile, rfl, rfl⟩, rfl⟩
    rw [show outOption.name = "out" from rfl, hfresh, Bool.false_and]
  -- from here on the two runs differ in the file alone, which no other option asks for
  have hmarked : Marked file between
      { known := { between.known with out := some file }, used := "out" :: between.used } := by
    refine ⟨rfl, fun name hne => ?_⟩
    rw [List.contains_cons, beq_eq_false_iff_ne.mpr hne, Bool.false_or]
  obtain ⟨q', hq', hmarked⟩ := hmarked.useAll hus' huse
  refine ⟨q', ?_, hmarked.known_eq⟩
  rw [Progress.useAll_append, hbetween, ok_bind, Progress.useAll, hout]
  exact hq'

end Uses

/-! ## Command lines with an output file -/

section Lines

variable {file : String} {words words' pre post given : List String} {r : RenderTask} {task : Task}

/-- The words of a use of the option for the output file. A file that begins like an option cannot
be a word of its own. -/
inductive OutWords (file : String) : List String → Prop
  | long : OutWords file ["--out=" ++ file]
  | short : OutWords file ["-o=" ++ file]
  | shortest : file ≠ "" → file.toList.head? ≠ some '=' → OutWords file ["-o" ++ file]
  | longWord : (∀ c cs, file.toList ≠ '-' :: c :: cs) → OutWords file ["--out", file]
  | shortWord : (∀ c cs, file.toList ≠ '-' :: c :: cs) → OutWords file ["-o", file]

/-- The second line is the first one with a use of the option for the output file put in. -/
inductive AddsOut (file : String) : List String → List String → Prop
  | intro (pre post : List String) {given : List String} :
      OutWords file given → AddsOut file (pre ++ post) (pre ++ (given ++ post))

theorem wordKind_long : wordKind renderOptions ("--out=" ++ file).toList =
    .option (some ([(outOption, [file])], none)) := by
  have hcut : splitLong ("out=" ++ file).toList = ("out", some file) := by
    rw [String.toList_append, splitLong,
      show "out=".toList ++ file.toList = "out".toList ++ '=' :: file.toList from rfl,
      Text.cut_append_cons (by decide)]
    dsimp only
    rw [Option.map_some, String.ofList_toList, String.ofList_toList]
  have hsaying : sayingOfLong renderOptions ("out=" ++ file).toList =
      some ([(outOption, [file])], none) := by
    rw [sayingOfLong, hcut]
    rfl
  rw [String.toList_append] at hsaying ⊢
  exact congrArg WordKind.option hsaying

theorem wordKind_short {attached : List Char} (h : attachedTo attached = some file) :
    wordKind renderOptions ('-' :: 'o' :: attached) =
      .option (some ([(outOption, [file])], none)) := by
  have hsaying : sayingOfLetters renderOptions ('o' :: attached) =
      sayingOf outOption (attachedTo attached) := rfl
  rw [wordKind_letters renderOptions (by decide), hsaying, h]
  rfl

theorem says_of_outWords (h : OutWords file given) :
    Says renderOptions (outOption, [file]) given := by
  cases h with
  | long => exact .attached wordKind_long
  | short =>
      refine .attached ?_
      rw [String.toList_append]
      exact wordKind_short (congrArg some String.ofList_toList)
  | shortest hne hhead =>
      refine .attached ?_
      rw [String.toList_append]
      have hattached : attachedTo file.toList = some (String.ofList file.toList) :=
        attachedTo_of_ne (mt String.toList_eq_nil_iff.mp hne)
          fun _ htext => hhead (congrArg List.head? htext)
      exact wordKind_short (hattached.trans (congrArg some String.ofList_toList))
  | longWord hplain => exact .separate rfl (wordKind_plain renderOptions hplain) (by decide)
  | shortWord hplain => exact .separate rfl (wordKind_plain renderOptions hplain) (by decide)

theorem parse_render_eq_ok_iff : parse ("render" :: words) = .ok task ↔
    ∃ us q, usesOf renderOptions none words = some us
      ∧ ({ known := {} } : Progress RenderTask).useAll us = .ok q
      ∧ q.known.inputs.patterns.isEmpty = false ∧ task = .render q.known := by
  have hparse : parse ("render" :: words) = parseRender words := rfl
  rw [hparse, parseRender]
  constructor
  · intro h
    obtain ⟨q, hq, h⟩ := exists_of_bind_eq_ok h
    obtain ⟨us, hus, huse⟩ := readWords_eq_ok_iff.mp hq
    split at h
    · cases h
    · rename_i hpatterns
      exact ⟨us, q, hus, huse, eq_false_of_ne_true hpatterns, (Except.ok.inj h).symm⟩
  · rintro ⟨us, q, hus, huse, hpatterns, rfl⟩
    rw [readWords_eq_ok_iff.mpr ⟨us, hus, huse⟩, ok_bind, hpatterns, if_neg Bool.false_ne_true]
    rfl

/-- A line that uses the option for the output file once more asks for the same with that file. -/
theorem parse_of_usesOf (us us' : List (Use RenderTask))
    (hparse : parse ("render" :: words) = .ok (.render r)) (hout : r.out = none)
    (hfile : file ≠ "") (hwords : usesOf renderOptions none words = some (us ++ us'))
    (hwords' : usesOf renderOptions none words' = some (us ++ (outOption, [file]) :: us')) :
    parse ("render" :: words') = .ok (.render { r with out := some file }) := by
  obtain ⟨all, q, hall, huse, hpatterns, hr⟩ := parse_render_eq_ok_iff.mp hparse
  obtain rfl := Option.some.inj (hall.symm.trans hwords)
  obtain rfl := Task.render.inj hr
  have hknown := mem_options_of_usesOf (fun u hu => absurd hu (Option.not_mem_none u)) hall
  have hothers := withoutOut_of_useAll hknown huse hout
  obtain ⟨q', huse', hq'⟩ := useAll_insert hothers hfile rfl huse
  refine parse_render_eq_ok_iff.mpr ⟨_, q', hwords', huse', ?_, congrArg Task.render hq'.symm⟩
  rw [hq']
  exact hpatterns

/-- Wherever the option is put in, it asks for the file and for nothing else, if the line is
accepted at all. -/
theorem eq_of_parse_addsOut (hparse : parse ("render" :: words) = .ok (.render r))
    (hout : r.out = none) (hfile : file ≠ "") (hadds : AddsOut file words words')
    (hparse' : parse ("render" :: words') = .ok task) :
    task = .render { r with out := some file } := by
  obtain ⟨pre, post, hgiven⟩ := hadds
  obtain ⟨all, q, hall, -, -, -⟩ := parse_render_eq_ok_iff.mp hparse'
  obtain ⟨us, us', rfl, hwords⟩ := usesOf_insert (says_of_outWords hgiven) hall
  have hadded := parse_of_usesOf us us' hparse hout hfile hwords hall
  exact Except.ok.inj (hparse'.symm.trans hadded)

/-- The option can be put in front of all other words. -/
theorem parse_append_outWords (hparse : parse ("render" :: words) = .ok (.render r))
    (hout : r.out = none) (hfile : file ≠ "") (hgiven : OutWords file given) :
    parse ("render" :: (given ++ words)) = .ok (.render { r with out := some file }) := by
  obtain ⟨us, q, hwords, -⟩ := parse_render_eq_ok_iff.mp hparse
  exact parse_of_usesOf [] us hparse hout hfile hwords
    (usesOf_append_of_eq_some (says_of_outWords hgiven) hwords)

/-- The option can be put behind all other words, unless two dashes stand there. -/
theorem parse_outWords_append (hparse : parse ("render" :: words) = .ok (.render r))
    (hout : r.out = none) (hfile : file ≠ "") (hgiven : OutWords file given)
    (hdashes : "--" ∉ words) :
    parse ("render" :: (words ++ given)) = .ok (.render { r with out := some file }) := by
  obtain ⟨us, q, hwords, -⟩ := parse_render_eq_ok_iff.mp hparse
  have hbehind : usesOf renderOptions none (words ++ (given ++ [])) =
      some (us ++ [(outOption, [file])]) :=
    usesOf_between (says_of_outWords hgiven) hdashes hwords rfl
  rw [List.append_nil] at hbehind
  rw [← List.append_nil us] at hwords
  exact parse_of_usesOf us [] hparse hout hfile hwords hbehind

end Lines

namespace RenderTask

variable {lang : Filter.Language} {r : RenderTask} {t t' : FileTree} {path text : String}
  {result : Result}

/-! ## Writing the file -/

/-- The tree with the directories above a file. -/
def withAbove (t : FileTree) (path : String) : Except Trouble FileTree :=
  match Path.parent? path with
  | none => .ok t
  | some above => (t.makeDirectories above).mapError (.creating above)

theorem writeOut_eq (t : FileTree) (path text : String) : writeOut t path text =
    withAbove t path >>= fun t => (t.write path text).mapError (.writing path) := by
  rw [writeOut, withAbove]
  cases Path.parent? path <;> rfl

theorem allRemains_withAbove (h : withAbove t path = .ok t') : t.AllRemains t' := by
  rw [withAbove] at h
  split at h
  · exact Except.ok.inj h ▸ .refl t
  · exact FileTree.allRemains_makeDirectories (eq_ok_of_mapError h)

theorem writesOnly_of_writeOut (h : writeOut t path text = .ok t') :
    t.WritesOnly t' path text := by
  rw [writeOut_eq] at h
  obtain ⟨above, habove, h⟩ := exists_of_bind_eq_ok h
  exact (allRemains_withAbove habove).writesOnly
    (FileTree.writesOnly_of_write (eq_ok_of_mapError h))

/-- Whether a file can be written does not depend on what is written. -/
theorem exists_writeOut (h : writeOut t path text = .ok t') (other : String) :
    ∃ t'', writeOut t path other = .ok t'' := by
  rw [writeOut_eq] at h ⊢
  obtain ⟨above, habove, h⟩ := exists_of_bind_eq_ok h
  obtain ⟨t'', hwrite⟩ := FileTree.exists_write (eq_ok_of_mapError h) other
  exact ⟨t'', by rw [habove, ok_bind, hwrite]; rfl⟩

theorem ne_empty_of_writeOut (h : writeOut t path text = .ok t') : path ≠ "" := by
  rw [writeOut_eq] at h
  obtain ⟨above, -, h⟩ := exists_of_bind_eq_ok h
  obtain ⟨-, way, hfollowed, -⟩ := FileTree.write_eq_ok_iff.mp (eq_ok_of_mapError h)
  exact (FileTree.trailAlong_eq_ok_iff.mp hfollowed).1.2.1

/-- A file can be made or written over: it is not a directory, the directories above it are there or
can be made, and nothing of that is refused. -/
def CanWrite (t : FileTree) (path : String) : Prop :=
  ∃ text t', writeOut t path text = .ok t'

/-! ## Runs with and without a file -/

theorem runBy_withOut (hout : r.out = none) (hidle : r.idle = false)
    (hrun : r.runBy lang t = .ok result) (file : String) :
    result.files = t ∧ { r with out := some file }.runBy lang t =
      (writeOut t file result.output).map ({ output := "", files := · }) := by
  have hidle' : ({ r with out := some file } : RenderTask).idle = false := hidle
  have hgather : ({ r with out := some file } : RenderTask).gather lang t = r.gather lang t := rfl
  rw [runBy_eq hidle] at hrun
  rw [runBy_eq hidle', hgather]
  cases hdocuments : r.gather lang t with
  | error e =>
      rw [hdocuments] at hrun
      cases hrun
  | ok gathered =>
      obtain ⟨g, ds⟩ := gathered
      rw [hdocuments] at hrun
      dsimp only at hrun
      split at hrun
      · cases hrun
      · rename_i hfault
        rw [hout] at hrun
        obtain rfl := Except.ok.inj hrun
        exact ⟨rfl, if_neg hfault⟩

/-- The steps of a run that succeeds. -/
theorem perform_of_runBy (hrun : r.runBy lang t = .ok result) (printed : String) :
    r.perform lang ⟨printed, t⟩ = (.ok (), ⟨printed ++ result.output, result.files⟩) := by
  have hends := r.endsAs_perform lang ⟨printed, t⟩
  rw [show r.runBy lang (World.mk printed t).files = .ok result from hrun] at hends
  exact hends

end RenderTask

/-! ## The main result -/

/-- Carry out a command line, with filters of some language. -/
def runBy (lang : Filter.Language) (args : List String) (t : FileTree) : Except Trouble Result := do
  match ← (parse args).mapError .refused with
  | .greet urlPath => (Task.greet urlPath).run t
  | .render r => r.runBy lang t

theorem run_eq_runBy (args : List String) (t : FileTree) :
    run args t = runBy Filter.builtIn args t := by
  rw [run, runBy]
  refine bind_congr fun task => ?_
  cases task with
  | greet urlPath => rfl
  | render r => exact r.run_eq_runBy t

theorem runBy_of_parse {lang : Filter.Language} {args : List String} {r : RenderTask}
    (h : parse args = .ok (.render r)) (t : FileTree) : runBy lang args t = r.runBy lang t := by
  rw [runBy, h]
  rfl

/-- If a render line without an output file prints a text, that line with an output file, wherever
it is put in, prints nothing, and leaves the file with this text and every other file as it was. The
file may be one of the inputs: they are all read before. The option is accepted in front of all
other words, and behind them if no two dashes stand alone. The steps of both runs, one that prints
line by line and one that writes the whole text, end in the same two ways. -/
theorem runBy_addsOut (lang : Filter.Language) (words : List String) (t : FileTree)
    (r : RenderTask) (result : Result) (file : String)
    (hparse : parse ("render" :: words) = .ok (.render r)) (hout : r.out = none)
    (hidle : r.idle = false) (hrun : runBy lang ("render" :: words) t = .ok result)
    (hfile : RenderTask.CanWrite t file) :
    result.files = t ∧ ∃ t', t.WritesOnly t' file result.output
      ∧ (∀ words', AddsOut file words words' → ∀ task, parse ("render" :: words') = .ok task →
        runBy lang ("render" :: words') t = .ok { output := "", files := t' })
      ∧ (∀ given, OutWords file given →
        runBy lang ("render" :: (given ++ words)) t = .ok { output := "", files := t' }
          ∧ ("--" ∉ words →
            runBy lang ("render" :: (words ++ given)) t = .ok { output := "", files := t' }))
      ∧ (∀ printed, r.perform lang ⟨printed, t⟩ = (.ok (), ⟨printed ++ result.output, t⟩)
        ∧ { r with out := some file }.perform lang ⟨printed, t⟩ = (.ok (), ⟨printed, t'⟩))
      ∧ ∀ args, run args t = runBy Filter.builtIn args t := by
  rw [runBy_of_parse hparse] at hrun
  obtain ⟨text, written, hwritten⟩ := hfile
  have hne := RenderTask.ne_empty_of_writeOut hwritten
  obtain ⟨t', ht'⟩ := RenderTask.exists_writeOut hwritten result.output
  obtain ⟨hfiles, hrun'⟩ := RenderTask.runBy_withOut hout hidle hrun file
  rw [ht'] at hrun'
  have hrun' : { r with out := some file }.runBy lang t = .ok { output := "", files := t' } := hrun'
  refine ⟨hfiles, t', RenderTask.writesOnly_of_writeOut ht', fun words' hadds task hparse' => ?_,
    fun given hgiven => ⟨?_, fun hdashes => ?_⟩, fun printed => ⟨?_, ?_⟩, fun args =>
      run_eq_runBy args t⟩
  · obtain rfl := eq_of_parse_addsOut hparse hout hne hadds hparse'
    exact (runBy_of_parse hparse' t).trans hrun'
  · exact (runBy_of_parse (parse_append_outWords hparse hout hne hgiven) t).trans hrun'
  · exact (runBy_of_parse (parse_outWords_append hparse hout hne hgiven hdashes) t).trans hrun'
  · rw [RenderTask.perform_of_runBy hrun, hfiles]
  · rw [RenderTask.perform_of_runBy hrun', String.append_empty]

/-- A working directory with an empty object in a directory, and a file beside that. -/
def nested : FileTree :=
  { entries := [("w", .directory [("in", .directory [("a.json", .text "\x7b\x7d")]),
      ("kept.txt", .text "kept")])]
    here := ["w"] }

/-- The file twice, by a pattern from the top and by its path. -/
def twice : RenderTask := { inputs := { patterns := ["/w/in/*.json", "in/a.json"] } }

def emptyAt (origin : String) : Document := { origin, value := .object [] }

def isEmptyObject : Json → Bool
  | .object [] => true
  | _ => false

theorem eq_of_isEmptyObject {j : Json} (h : isEmptyObject j = true) : j = .object [] := by
  unfold isEmptyObject at h
  split at h
  · rfl
  · cases h

theorem load_twice :
    twice.inputs.load nested = .ok [emptyAt "/w/in/a.json", emptyAt "in/a.json"] := by
  have hresolve : Glob.resolve nested ["/w/in/*.json", "in/a.json"] =
      .ok ["/w/in/a.json", "in/a.json"] := by
    decide +kernel
  have hempty : (Json.parse "\x7b\x7d").toOption.any isEmptyObject = true := by decide +kernel
  obtain ⟨j, hj, hempty⟩ := (Option.any_eq_true _ _).mp hempty
  have hjson : Json.parse "\x7b\x7d" = .ok (.object []) :=
    eq_of_isEmptyObject hempty ▸ toOption_eq_some_iff.mp hj
  have hdocument : ∀ path, nested.read path = .ok "\x7b\x7d" →
      twice.inputs.loadFile nested path = .ok [emptyAt path] := by
    intro path hread
    rw [InputSettings.loadFile, hread]
    show twice.inputs.documentsOf path "\x7b\x7d" = _
    rw [InputSettings.documentsOf, Json.parseFrom, hjson]
    rfl
  rw [InputSettings.load, show twice.inputs.patterns = ["/w/in/*.json", "in/a.json"] from rfl,
    hresolve, ok_bind, List.mapM_cons, List.mapM_cons, hdocument "/w/in/a.json" rfl,
    hdocument "in/a.json" rfl]
  rfl

/-- What the two documents are shown as. -/
def twiceEmpty : String :=
  "==> /w/in/a.json <==\nRoot.!\x7b\x7d! ERROR:empty map not supported\n"
    ++ "==> in/a.json <==\nRoot.!\x7b\x7d! ERROR:empty map not supported\n"

theorem run_twice : run ["render", "--input", "/w/in/*.json", "in/a.json"] nested =
    .ok { output := twiceEmpty, files := nested } := by
  have hparse : parse ["render", "--input", "/w/in/*.json", "in/a.json"] =
      .ok (.render twice) := by
    decide +kernel
  have hgather : twice.gather Filter.builtIn nested =
      .ok ({}, [emptyAt "/w/in/a.json", emptyAt "in/a.json"]) := by
    rw [RenderTask.gather, ← InputSettings.refine_eq_refineBy, ← InputSettings.load_eq_loadBy,
      load_twice]
    rfl
  have hfault : ∀ path, twice.linesFault {} (emptyAt path) = false := by
    intro path
    rw [RenderTask.linesFault, emptyAt, deriveDocument, Json.toValue, Json.toEntries]
    decide +kernel
  have hlines : ∀ path, twice.linesOf {} (emptyAt path) =
      ["Root.!\x7b\x7d! ERROR:empty map not supported"] := by
    intro path
    rw [RenderTask.linesOf, emptyAt, deriveDocument, Json.toValue, Json.toEntries]
    decide +kernel
  have htext : twice.textFor {} [emptyAt "/w/in/a.json", emptyAt "in/a.json"] = twiceEmpty := by
    rw [RenderTask.textFor, List.map_cons, List.map_singleton, hlines, hlines]
    rfl
  rw [run_of_parse hparse, RenderTask.run_eq_runBy, RenderTask.runBy_eq rfl, hgather]
  dsimp only
  rw [List.any_cons, List.any_cons, hfault, hfault, htext]
  rfl

/-- The output goes to one of the inputs, which a pattern finds from the top, and the file beside it
is kept. -/
theorem runBy_addsOut_twice : ∃ t',
    run ["render", "--input", "/w/in/*.json", "in/a.json", "--out", "in/a.json"] nested =
        .ok { output := "", files := t' }
      ∧ t'.read "in/a.json" = .ok twiceEmpty ∧ t'.read "kept.txt" = .ok "kept" := by
  have hparse : parse ["render", "--input", "/w/in/*.json", "in/a.json"] =
      .ok (.render twice) := by
    decide +kernel
  have hfile : RenderTask.CanWrite nested "in/a.json" := ⟨"", _, rfl⟩
  obtain ⟨-, t', hwrites, -, hplaced, -, hrun⟩ := runBy_addsOut Filter.builtIn
    ["--input", "/w/in/*.json", "in/a.json"] nested twice _ "in/a.json" hparse rfl rfl
    ((run_eq_runBy _ nested).symm.trans run_twice) hfile
  have hgiven : OutWords "in/a.json" ["--out", "in/a.json"] :=
    .longWord fun _ _ hchars => absurd (List.cons.inj hchars).1 (by decide)
  have hbehind := (hplaced _ hgiven).2 (by decide)
  refine ⟨t', (hrun _).trans hbehind, hwrites.read_eq rfl, ?_⟩
  exact (hwrites.read_of_read "kept.txt" "kept" rfl).trans (congrArg _ (if_neg (by decide)))

end TypeOutline.Command
