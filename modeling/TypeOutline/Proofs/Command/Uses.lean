import TypeOutline.Command.Line
import TypeOutline.Proofs.Inputs.Outcomes

/-!
# The options that a command line uses

Which words belong to which option does not depend on what is known so
far: a command line is cut into uses of options (`usesOf`), and reading it
is to make these uses one after the other (`toOption_readWords`). So words
that use one more option, put in anywhere between the words of the others,
put in one more use (`usesOf_insert`).
-/

namespace TypeOutline.Command

variable {σ : Type}

/-- A use of an option, with all its words. -/
abbrev Use (σ : Type) := CommandOption σ × List String

/-- What is said about options by a word: the uses that it completes, besides that of the option
that waits before it, and the option that waits after it. -/
abbrev Saying (σ : Type) := List (Use σ) × Option (Use σ)

theorem toOption_eq_some_iff {ε α : Type} {x : Except ε α} {a : α} :
    x.toOption = some a ↔ x = .ok a := by
  cases x with
  | error e => exact ⟨fun h => absurd h (Option.some_ne_none a).symm, fun h => by cases h⟩
  | ok b =>
      exact ⟨fun h => congrArg _ (Option.some.inj h), fun h => congrArg _ (Except.ok.inj h)⟩

theorem toOption_bind {ε α β : Type} (x : Except ε α) (f : α → Except ε β) :
    (x >>= f).toOption = x.toOption.bind fun a => (f a).toOption := by
  cases x <;> rfl

namespace Progress

variable {p q : Progress σ} {o : CommandOption σ} {us : List (Use σ)} {m : Saying σ}

/-- Make some uses, one after the other, and wait for nothing. -/
def useAll (p : Progress σ) : List (Use σ) → Except Refusal (Progress σ)
  | [] => .ok { p with waiting := none }
  | u :: us => do (← p.use u.1 u.2).useAll us

/-- Complete the option that waits, make some uses, and wait for another option. -/
def advance (p : Progress σ) (m : Saying σ) : Except Refusal (Progress σ) := do
  return { ← p.useAll (p.waiting.toList ++ m.1) with waiting := m.2 }

/-- What a use needs, and what it does. -/
theorem use_eq_ok_iff {words : List String} : p.use o words = .ok q ↔
    (decide (o.arity ≠ .flag) && words.isEmpty) = false
      ∧ (p.used.contains o.name && !o.repeatable) = false
      ∧ ∃ known, o.apply words p.known = some known ∧ q = { known, used := o.name :: p.used } := by
  rw [use]
  constructor
  · intro h
    split at h
    · cases h
    · rename_i hwords
      split at h
      · cases h
      · rename_i hused
        cases happly : o.apply words p.known with
        | none =>
            rw [happly] at h
            cases h
        | some known =>
            rw [happly] at h
            exact ⟨eq_false_of_ne_true hwords, eq_false_of_ne_true hused, known, rfl,
              (Except.ok.inj h).symm⟩
  · rintro ⟨hwords, hused, known, hknown, rfl⟩
    rw [hwords, hused, hknown, if_neg Bool.false_ne_true, if_neg Bool.false_ne_true]

theorem waiting_of_use {words : List String} (h : p.use o words = .ok q) : q.waiting = none := by
  obtain ⟨-, -, known, -, rfl⟩ := use_eq_ok_iff.mp h
  rfl

theorem waiting_of_useAll (h : p.useAll us = .ok q) : q.waiting = none := by
  induction us generalizing p with
  | nil => exact Except.ok.inj h ▸ rfl
  | cons u us ih =>
      obtain ⟨next, -, h⟩ := exists_of_bind_eq_ok h
      exact ih h

/-- Uses do not ask which option waits. -/
theorem useAll_of_waiting (p : Progress σ) (waiting : Option (Use σ)) (us : List (Use σ)) :
    { p with waiting }.useAll us = p.useAll us := by
  cases us <;> rfl

theorem useAll_append (p : Progress σ) (us us' : List (Use σ)) :
    p.useAll (us ++ us') = p.useAll us >>= (·.useAll us') := by
  induction us generalizing p with
  | nil => exact (useAll_of_waiting p none us').symm
  | cons u us ih =>
      rw [List.cons_append, useAll, useAll, bind_assoc]
      exact bind_congr fun next => ih next

theorem useAll_singleton (p : Progress σ) (u : Use σ) : p.useAll [u] = p.use u.1 u.2 := by
  rw [useAll]
  cases huse : p.use u.1 u.2 with
  | error e => rfl
  | ok q =>
      obtain ⟨known, used, waiting⟩ := q
      obtain rfl : waiting = none := waiting_of_use huse
      rfl

theorem settle_eq (p : Progress σ) : p.settle = p.useAll p.waiting.toList := by
  rw [settle]
  cases hwaiting : p.waiting with
  | none =>
      obtain ⟨known, used, waiting⟩ := p
      obtain rfl : waiting = none := hwaiting
      rfl
  | some u => exact (useAll_singleton p u).symm

theorem waiting_of_advance (h : p.advance m = .ok q) : q.waiting = m.2 := by
  obtain ⟨next, -, h⟩ := exists_of_bind_eq_ok h
  exact Except.ok.inj h ▸ rfl

theorem settle_bind_use (p : Progress σ) (o : CommandOption σ) (words : List String) :
    (p.settle >>= (·.use o words)) = p.advance ([(o, words)], none) := by
  have hall : (p.settle >>= (·.use o words)) = p.useAll (p.waiting.toList ++ [(o, words)]) := by
    rw [useAll_append, settle_eq]
    exact bind_congr fun next => (useAll_singleton next (o, words)).symm
  rw [hall, advance]
  cases huse : p.useAll (p.waiting.toList ++ [(o, words)]) with
  | error e => rfl
  | ok q =>
      obtain ⟨known, used, waiting⟩ := q
      obtain rfl : waiting = none := waiting_of_useAll huse
      rfl

theorem settle_bind_wait (p : Progress σ) (waiting : Option (Use σ)) :
    (p.settle >>= fun q => .ok { q with waiting }) = p.advance ([], waiting) := by
  rw [advance, List.append_nil, settle_eq]
  rfl

theorem advance_bind_advance (p : Progress σ) (us : List (Use σ)) (m : Saying σ) :
    (p.advance (us, none) >>= (·.advance m)) = p.advance (us ++ m.1, m.2) := by
  rw [advance, advance, ← List.append_assoc, p.useAll_append (p.waiting.toList ++ us), bind_assoc,
    bind_assoc]
  refine bind_congr fun next => ?_
  show ({ next with waiting := none } : Progress σ).advance m = _
  rw [advance, useAll_of_waiting]
  rfl

/-- The uses after an advance are made after those before it. -/
theorem advance_bind_useAll (p : Progress σ) (m : Saying σ) (us : List (Use σ)) :
    (p.advance m >>= (·.useAll us)) = p.useAll (p.waiting.toList ++ m.1 ++ us) := by
  rw [useAll_append, advance, bind_assoc]
  refine bind_congr fun next => ?_
  exact useAll_of_waiting next m.2 us

end Progress

/-! ## What words say -/

/-- What a known option says, with the text attached to it. -/
def sayingOf (o : CommandOption σ) (attached : Option String) : Option (Saying σ) :=
  match o.arity, attached with
  | .flag, some _ => none
  | .flag, none => some ([(o, [])], none)
  | _, some text => some ([(o, [text])], none)
  | _, none => some ([], some (o, []))

section

variable (options : List (CommandOption σ))

/-- The text attached to the letter of an option. -/
def attachedTo : List Char → Option String
  | [] => none
  | '=' :: text => some (String.ofList text)
  | text => some (String.ofList text)

theorem attachedTo_of_ne {cs : List Char} (hnil : cs ≠ []) (heq : ∀ text, cs ≠ '=' :: text) :
    attachedTo cs = some (String.ofList cs) := by
  unfold attachedTo
  split
  · exact absurd rfl hnil
  · exact absurd rfl (heq _)
  · rfl

/-- What the letters after a single dash say. -/
def sayingOfLetters : List Char → Option (Saying σ)
  | [] => some ([], none)
  | c :: cs =>
    if c = 'h' then none
    else (options.find? (·.short == some c)).bind fun o =>
      if o.arity = .flag then (sayingOfLetters cs).map fun m => ((o, []) :: m.1, m.2)
      else sayingOf o (attachedTo cs)

/-- What a word with two dashes says. -/
def sayingOfLong (cs : List Char) : Option (Saying σ) :=
  let (name, attached) := splitLong cs
  if name = "help" then none
  else (options.find? (·.name == name)).bind (sayingOf · attached)

/-- What a word is. -/
inductive WordKind (σ : Type) where
  /-- Two dashes that stand alone. -/
  | dashes
  /-- Options, or a word that begins like one and says nothing. -/
  | option (m? : Option (Saying σ))
  | plain

def wordKind : List Char → WordKind σ
  | '-' :: c :: cs =>
    if c = '-' then if cs.isEmpty then .dashes else .option (sayingOfLong options cs)
    else .option (sayingOfLetters options (c :: cs))
  | _ => .plain

theorem wordKind_letters {c : Char} (h : c ≠ '-') (cs : List Char) :
    wordKind options ('-' :: c :: cs) = .option (sayingOfLetters options (c :: cs)) :=
  if_neg h

theorem wordKind_plain {cs : List Char} (h : ∀ c ds, cs ≠ '-' :: c :: ds) :
    wordKind options cs = .plain := by
  unfold wordKind
  split
  · exact absurd rfl (h _ _)
  · rfl

/-- The uses of options that words consist of, after the option that waits for words. -/
def usesOf (waiting : Option (Use σ)) : List String → Option (List (Use σ))
  | [] => some waiting.toList
  | word :: words =>
    match wordKind options word.toList with
    | .dashes => if words.isEmpty then some waiting.toList else none
    | .option m? => m?.bind fun m => (usesOf m.2 words).map (waiting.toList ++ m.1 ++ ·)
    | .plain => waiting.bind fun u =>
      if u.1.arity = .many || u.2.isEmpty then usesOf (some (u.1, u.2 ++ [word])) words else none

end

section

variable {options : List (CommandOption σ)} {p q : Progress σ}

theorem toOption_meet (p : Progress σ) (o : CommandOption σ) (attached : Option String) :
    (p.meet o attached).toOption = (sayingOf o attached).bind fun m => (p.advance m).toOption := by
  unfold Progress.meet sayingOf
  cases o.arity with
  | flag =>
      cases attached with
      | none => exact congrArg _ (p.settle_bind_use o [])
      | some text => rfl
  | one | many =>
      cases attached with
      | none => exact congrArg _ (p.settle_bind_wait (some (o, [])))
      | some text => exact congrArg _ (p.settle_bind_use o [text])

theorem toOption_help (p : Progress σ) : p.help.toOption = none := by
  rw [Progress.help, toOption_bind]
  cases p.settle <;> rfl

theorem toOption_readLong (p : Progress σ) (cs : List Char) :
    (readLong options p cs).toOption =
      (sayingOfLong options cs).bind fun m => (p.advance m).toOption := by
  rw [readLong, sayingOfLong]
  dsimp only
  split
  · split
    · rfl
    · exact toOption_help p
  · cases options.find? _ with
    | none => rfl
    | some o => exact toOption_meet p o _

theorem meet_of_flag {o : CommandOption σ} (h : o.arity = .flag) (p : Progress σ) :
    p.meet o none = p.advance ([(o, [])], none) := by
  rw [← p.settle_bind_use, Progress.meet.eq_def, h]

theorem toOption_readLetters (cs : List Char) : ∀ p : Progress σ, cs ≠ [] ∨ p.waiting = none →
    (readLetters options p cs).toOption =
      (sayingOfLetters options cs).bind fun m => (p.advance m).toOption := by
  induction cs with
  | nil =>
      intro p hp
      obtain ⟨known, used, waiting⟩ := p
      obtain rfl : waiting = none := hp.resolve_left fun h => h rfl
      rfl
  | cons c cs ih =>
      intro p _
      rw [readLetters, sayingOfLetters]
      split
      · exact toOption_help p
      · cases options.find? _ with
        | none => rfl
        | some o =>
            dsimp only [Option.bind_some]
            split
            · rename_i hflag
              -- a flag is used at once, and the letters behind it are read from there
              rw [toOption_bind, meet_of_flag hflag, Option.bind_map]
              have hsplit : ∀ m : Saying σ, p.advance ((o, []) :: m.1, m.2) =
                  p.advance ([(o, [])], none) >>= (·.advance m) :=
                fun m => (p.advance_bind_advance [(o, [])] m).symm
              simp only [Function.comp_def, hsplit, toOption_bind]
              cases hadvance : p.advance ([(o, [])], none) with
              | error e => cases sayingOfLetters options cs <;> rfl
              | ok next =>
                  exact ih next (.inr (Progress.waiting_of_advance hadvance))
            · rw [← toOption_meet]
              split
              · rfl
              · rfl
              · rename_i hnil heq
                rw [attachedTo_of_ne hnil heq]

/-- Words are read by what the first one is. -/
theorem readWords_cons (p : Progress σ) (word : String) (words : List String) :
    (readWords options p (word :: words)).toOption = match wordKind options word.toList with
      | .dashes => if words.isEmpty then p.settle.toOption else none
      | .option m? => (m?.bind fun m => (p.advance m).toOption).bind fun q =>
        (readWords options q words).toOption
      | .plain => p.waiting.bind fun u =>
        if u.1.arity = .many || u.2.isEmpty then
          (readWords options { p with waiting := some (u.1, u.2 ++ [word]) } words).toOption
        else none := by
  rw [readWords]
  generalize word.toList = cs
  split
  · generalize words.isEmpty = last
    cases last <;> rfl
  · rename_i cs hcs
    obtain ⟨d, ds, rfl⟩ := List.exists_cons_of_ne_nil hcs
    rw [toOption_bind, toOption_readLong]
    rfl
  · rename_i c cs hdash hdashes
    rw [wordKind_letters options hdashes, toOption_bind,
      toOption_readLetters _ p (.inl (List.cons_ne_nil _ _))]
  · rename_i hdash
    rw [wordKind_plain options hdash, Progress.takes]
    dsimp only
    cases p.waiting with
    | none => rfl
    | some u =>
        rw [Option.any_some, Option.bind_some]
        dsimp only
        split <;> rfl

theorem toOption_readWords (words : List String) : ∀ p : Progress σ,
    (readWords options p words).toOption =
      (usesOf options p.waiting words).bind fun us => (p.useAll us).toOption := by
  induction words with
  | nil =>
      intro p
      rw [readWords, usesOf, Option.bind_some, p.settle_eq]
  | cons word words ih =>
      intro p
      rw [readWords_cons, usesOf]
      cases wordKind options word.toList with
      | dashes =>
          dsimp only
          split
          · rw [Option.bind_some, p.settle_eq]
          · rfl
      | option m? =>
          cases m? with
          | none => rfl
          | some m =>
              dsimp only [Option.bind_some]
              rw [Option.bind_map]
              simp only [Function.comp_def, ← p.advance_bind_useAll, toOption_bind]
              cases hadvance : p.advance m with
              | error e => cases usesOf options m.2 words <;> rfl
              | ok next =>
                  rw [← Progress.waiting_of_advance hadvance]
                  exact ih next
      | plain =>
          dsimp only
          cases p.waiting with
          | none => rfl
          | some u =>
              dsimp only [Option.bind_some]
              split
              · rw [ih]
                simp only [Progress.useAll_of_waiting]
              · rfl

/-- To read words is to find out which options they use, and to use these. -/
theorem readWords_eq_ok_iff {words : List String} : readWords options p words = .ok q ↔
    ∃ us, usesOf options p.waiting words = some us ∧ p.useAll us = .ok q := by
  simp only [← toOption_eq_some_iff, toOption_readWords, Option.bind_eq_some_iff]

/-! ## The options that are used -/

/-- All options that are spoken of are known. -/
def IsKnown (options : List (CommandOption σ)) (m : Saying σ) : Prop :=
  (∀ u ∈ m.1, u.1 ∈ options) ∧ ∀ u ∈ m.2, u.1 ∈ options

theorem isKnown_sayingOf {o : CommandOption σ} {attached : Option String} {m : Saying σ}
    (ho : o ∈ options) (h : sayingOf o attached = some m) : IsKnown options m := by
  unfold sayingOf at h
  split at h
  · cases h
  · obtain rfl := Option.some.inj h
    exact ⟨fun u hu => List.mem_singleton.mp hu ▸ ho, fun u hu => absurd hu (Option.not_mem_none _)⟩
  · obtain rfl := Option.some.inj h
    exact ⟨fun u hu => List.mem_singleton.mp hu ▸ ho, fun u hu => absurd hu (Option.not_mem_none _)⟩
  · obtain rfl := Option.some.inj h
    exact ⟨fun u hu => absurd hu List.not_mem_nil, fun u hu => Option.mem_some_iff.mp hu ▸ ho⟩

theorem isKnown_sayingOfLong {cs : List Char} {m : Saying σ}
    (h : sayingOfLong options cs = some m) : IsKnown options m := by
  rw [sayingOfLong] at h
  dsimp only at h
  split at h
  · cases h
  · obtain ⟨o, ho, h⟩ := Option.bind_eq_some_iff.mp h
    exact isKnown_sayingOf (List.mem_of_find?_eq_some ho) h

theorem isKnown_sayingOfLetters {cs : List Char} {m : Saying σ}
    (h : sayingOfLetters options cs = some m) : IsKnown options m := by
  induction cs generalizing m with
  | nil =>
      obtain rfl := Option.some.inj h
      exact ⟨fun u hu => absurd hu List.not_mem_nil, fun u hu => absurd hu (Option.not_mem_none _)⟩
  | cons c cs ih =>
      rw [sayingOfLetters] at h
      split at h
      · cases h
      · obtain ⟨o, ho, h⟩ := Option.bind_eq_some_iff.mp h
        have hmem := List.mem_of_find?_eq_some ho
        split at h
        · obtain ⟨rest, hrest, rfl⟩ := Option.map_eq_some_iff.mp h
          exact ⟨List.forall_mem_cons.mpr ⟨hmem, (ih hrest).1⟩, (ih hrest).2⟩
        · exact isKnown_sayingOf hmem h

theorem isKnown_of_wordKind {cs : List Char} {m : Saying σ}
    (h : wordKind options cs = .option (some m)) : IsKnown options m := by
  unfold wordKind at h
  split at h
  · split at h
    · split at h
      · cases h
      · exact isKnown_sayingOfLong (WordKind.option.inj h)
    · exact isKnown_sayingOfLetters (WordKind.option.inj h)
  · cases h

theorem mem_options_of_usesOf {waiting : Option (Use σ)} {words : List String} {us : List (Use σ)}
    (hwaiting : ∀ u ∈ waiting, u.1 ∈ options) (h : usesOf options waiting words = some us) :
    ∀ u ∈ us, u.1 ∈ options := by
  induction words generalizing waiting us with
  | nil =>
      obtain rfl := Option.some.inj h
      exact fun u hu => hwaiting u (Option.mem_toList.mp hu)
  | cons word words ih =>
      rw [usesOf] at h
      split at h
      · split at h
        · obtain rfl := Option.some.inj h
          exact fun u hu => hwaiting u (Option.mem_toList.mp hu)
        · cases h
      · rename_i m? hkind
        obtain ⟨m, rfl, h⟩ := Option.bind_eq_some_iff.mp h
        obtain ⟨rest, hrest, rfl⟩ := Option.map_eq_some_iff.mp h
        obtain ⟨hdone, hnext⟩ := isKnown_of_wordKind hkind
        intro u hu
        rcases List.mem_append.mp hu with hu | hu
        · rcases List.mem_append.mp hu with hu | hu
          · exact hwaiting u (Option.mem_toList.mp hu)
          · exact hdone u hu
        · exact ih hnext hrest u hu
      · obtain ⟨w, rfl, htaken⟩ := Option.bind_eq_some_iff.mp h
        split at htaken
        · refine ih (fun u hu => ?_) htaken
          obtain rfl := Option.mem_some_iff.mp hu
          exact hwaiting w rfl
        · cases htaken

/-! ## One more use -/

variable {waiting : Option (Use σ)} {us us' : List (Use σ)} {words pre post given : List String}
  {u : Use σ} {o : CommandOption σ}

/-- Words that do not go on with the option that waits complete it. -/
theorem usesOf_eq_map (h : ∀ word ∈ words.head?, wordKind options word.toList ≠ .plain) :
    usesOf options waiting words = (usesOf options none words).map (waiting.toList ++ ·) := by
  cases words with
  | nil =>
      rw [usesOf, usesOf, Option.map_some, Option.toList_none, List.append_nil]
  | cons word words =>
      rw [usesOf, usesOf]
      cases hkind : wordKind options word.toList with
      | dashes =>
          dsimp only
          split
          · rw [Option.map_some, Option.toList_none, List.append_nil]
          · rfl
      | option m? =>
          dsimp only
          rw [Option.map_bind]
          refine congrArg _ (funext fun m => ?_)
          rw [Function.comp_apply, Option.map_map]
          refine congrArg (Option.map · _) (funext fun rest => ?_)
          rw [Function.comp_apply, Option.toList_none, List.nil_append, List.append_assoc]
      | plain => exact absurd hkind (h word rfl)

theorem usesOf_of_none (h : usesOf options none words = some us) :
    usesOf options waiting words = some (waiting.toList ++ us) := by
  rw [usesOf_eq_map, h, Option.map_some]
  cases words with
  | nil => exact fun _ hword => absurd hword (Option.not_mem_none _)
  | cons word words =>
      intro w hw hkind
      obtain rfl := Option.some.inj hw
      rw [usesOf, hkind] at h
      cases h

/-- An option that has its one word is completed by what follows. -/
theorem usesOf_of_full {text : String} (harity : o.arity ≠ .many)
    (h : usesOf options (some (o, [text])) words = some us) :
    ∃ rest, usesOf options none words = some rest ∧ us = (o, [text]) :: rest := by
  rw [usesOf_eq_map] at h
  · obtain ⟨rest, hrest, rfl⟩ := Option.map_eq_some_iff.mp h
    exact ⟨rest, hrest, rfl⟩
  · cases words with
    | nil => exact fun _ hword => absurd hword (Option.not_mem_none _)
    | cons word words =>
        intro w hw hkind
        obtain rfl := Option.some.inj hw
        rw [usesOf, hkind] at h
        dsimp only [Option.bind_some] at h
        rw [decide_eq_false harity] at h
        cases h

/-- The words are a use of an option, wherever they stand between the words of others. -/
inductive Says (options : List (CommandOption σ)) : Use σ → List String → Prop
  /-- The text is attached to the option. -/
  | attached {u : Use σ} {word : String} :
      wordKind options word.toList = .option (some ([u], none)) → Says options u [word]
  /-- The text is the next word. -/
  | separate {o : CommandOption σ} {word text : String} :
      wordKind options word.toList = .option (some ([], some (o, []))) →
      wordKind options text.toList = .plain → o.arity ≠ .many →
      Says options (o, [text]) [word, text]

theorem exists_of_usesOf_append (hgiven : Says options u given)
    (h : usesOf options waiting (given ++ post) = some us) :
    ∃ rest, usesOf options none post = some rest ∧ us = waiting.toList ++ u :: rest := by
  cases hgiven with
  | attached hkind =>
      rw [List.singleton_append, usesOf, hkind] at h
      obtain ⟨rest, hrest, rfl⟩ := Option.map_eq_some_iff.mp h
      exact ⟨rest, hrest, by rw [List.append_assoc, List.singleton_append]⟩
  | separate hkind htext harity =>
      rw [List.cons_append, List.singleton_append, usesOf, hkind] at h
      obtain ⟨rest, hrest, rfl⟩ := Option.map_eq_some_iff.mp h
      rw [usesOf, htext] at hrest
      dsimp only [Option.bind_some] at hrest
      rw [List.isEmpty_nil, Bool.or_true, if_pos rfl] at hrest
      obtain ⟨rest, hpost, rfl⟩ := usesOf_of_full harity hrest
      exact ⟨rest, hpost, by rw [List.append_nil]⟩

/-- Words that are one more use put it between the uses of the others. -/
theorem usesOf_insert (hgiven : Says options u given)
    (h : usesOf options waiting (pre ++ (given ++ post)) = some us) :
    ∃ us₁ us₂, us = us₁ ++ u :: us₂ ∧ usesOf options waiting (pre ++ post) = some (us₁ ++ us₂) := by
  -- the words in front are read as before: what comes later does not change what a word is
  induction pre generalizing waiting us with
  | nil =>
      obtain ⟨rest, hrest, rfl⟩ := exists_of_usesOf_append hgiven h
      exact ⟨waiting.toList, rest, rfl, usesOf_of_none hrest⟩
  | cons word pre ih =>
      rw [List.cons_append, usesOf] at h ⊢
      cases hkind : wordKind options word.toList with
      | dashes =>
          rw [hkind] at h
          dsimp only at h
          split at h
          · rename_i hempty
            cases hgiven <;> simp at hempty
          · cases h
      | option m? =>
          rw [hkind] at h
          dsimp only at h ⊢
          obtain ⟨m, rfl, h⟩ := Option.bind_eq_some_iff.mp h
          obtain ⟨rest, hrest, rfl⟩ := Option.map_eq_some_iff.mp h
          obtain ⟨us₁, us₂, rfl, hothers⟩ := ih hrest
          refine ⟨waiting.toList ++ m.1 ++ us₁, us₂, by rw [List.append_assoc _ us₁], ?_⟩
          rw [Option.bind_some, hothers, Option.map_some, List.append_assoc _ us₁]
      | plain =>
          rw [hkind] at h
          dsimp only at h ⊢
          obtain ⟨w, rfl, htaken⟩ := Option.bind_eq_some_iff.mp h
          split at htaken
          · rename_i htakes
            rw [Option.bind_some, if_pos htakes]
            exact ih htaken
          · cases htaken

theorem usesOf_append_of_eq_some (hgiven : Says options u given)
    (h : usesOf options none post = some us) :
    usesOf options waiting (given ++ post) = some (waiting.toList ++ u :: us) := by
  cases hgiven with
  | attached hkind =>
      rw [List.singleton_append, usesOf, hkind]
      dsimp only [Option.bind_some]
      rw [h, Option.map_some, List.append_assoc, List.singleton_append]
  | separate hkind htext harity =>
      rw [List.cons_append, List.singleton_append, usesOf, hkind]
      dsimp only [Option.bind_some]
      rw [usesOf, htext]
      dsimp only [Option.bind_some]
      rw [List.isEmpty_nil, Bool.or_true, if_pos rfl, usesOf_of_none h, Option.map_some,
        List.append_nil]
      rfl

theorem eq_of_wordKind_dashes {cs : List Char} (h : wordKind options cs = .dashes) :
    cs = ['-', '-'] := by
  unfold wordKind at h
  split at h
  · split at h
    · rename_i hdash
      split at h
      · rename_i hempty
        rw [hdash, List.isEmpty_iff.mp hempty]
      · cases h
    · cases h
  · cases h

/-- One more use can be said behind any line without two dashes that stand alone, if what follows is
a line of its own. -/
theorem usesOf_between (hgiven : Says options u given) (hdashes : "--" ∉ pre)
    (hpre : usesOf options waiting pre = some us) (hpost : usesOf options none post = some us') :
    usesOf options waiting (pre ++ (given ++ post)) = some (us ++ u :: us') := by
  induction pre generalizing waiting us with
  | nil =>
      obtain rfl := Option.some.inj hpre
      rw [List.nil_append]
      exact usesOf_append_of_eq_some hgiven hpost
  | cons word pre ih =>
      have hrestDashes : "--" ∉ pre := fun h => hdashes (List.mem_cons_of_mem word h)
      rw [List.cons_append, usesOf]
      rw [usesOf] at hpre
      cases hkind : wordKind options word.toList with
      | dashes =>
          have hword : word = "--" := String.toList_injective (eq_of_wordKind_dashes hkind)
          exact absurd (hword ▸ List.mem_cons_self) hdashes
      | option m? =>
          rw [hkind] at hpre
          dsimp only at hpre ⊢
          obtain ⟨m, rfl, hpre⟩ := Option.bind_eq_some_iff.mp hpre
          obtain ⟨rest, hrest, rfl⟩ := Option.map_eq_some_iff.mp hpre
          rw [Option.bind_some, ih hrestDashes hrest, Option.map_some,
            List.append_assoc _ rest]
      | plain =>
          rw [hkind] at hpre
          dsimp only at hpre ⊢
          obtain ⟨w, rfl, htaken⟩ := Option.bind_eq_some_iff.mp hpre
          split at htaken
          · rename_i htakes
            rw [Option.bind_some, if_pos htakes]
            exact ih hrestDashes htaken
          · cases htaken

end

end TypeOutline.Command
