import Mathlib.Data.List.Forall2
import TypeOutline.Proofs.Tags.Pairs
import TypeOutline.Proofs.Text.Pieces

/-!
# Tags that are written and read

A tag whose parts are trimmed and hold no separator can be written, and is
read back however it is written (`entries_parseAll_of_tagText`). Reading
undoes the writing layer by layer: the pairs of a text, the escapes of a
body, its pieces between commas, and the equals sign of an option.
-/

namespace TypeOutline.Tag

open Text

variable {option : String × String} {options : List (String × String)} {tag : Tag}
variable {tags : List (String × Tag)} {body text rest : List Char}

/-! ## Ways to write -/

/-- A text of an option: its key, if it has no value, or both parts. -/
inductive OptionText : String × String → List Char → Prop
  | bare (key : String) : OptionText (key, "") key.toList
  | valued (key value : String) : OptionText (key, value) (key.toList ++ '=' :: value.toList)

/-- A body that says a tag. A dash alone leaves a member out, so the name that
is a dash stands before a comma, be there an option or not. -/
inductive BodyText : Tag → List Char → Prop
  | ignore : BodyText { ignore := true } ['-']
  | dash : BodyText { name := "-" } ['-', ',']
  | named {name : String} {options : List (String × String)} {texts : List (List Char)}
      (hdash : name = "-" → options ≠ []) (htexts : List.Forall₂ OptionText options texts) :
      BodyText { name, options } ([','].intercalate (name.toList :: texts))

/-- A body as it stands between quotes, with a backslash before each quote and
each backslash. -/
def escape (body : List Char) : List Char :=
  body.flatMap fun c => if c = '"' ∨ c = '\\' then ['\\', c] else [c]

/-- A text of tags under the names of their dialects. -/
inductive TagText : List (String × Tag) → List Char → Prop
  | nil : TagText [] []
  | cons (spaces : Nat) {dialect : String} {tag : Tag} {tags : List (String × Tag)}
      {body text : List Char} (hbody : BodyText tag body) (htext : TagText tags text) :
      TagText ((dialect, tag) :: tags) (pairText spaces dialect.toList (escape body) ++ text)

/-! ## What can be written -/

/-- The options that reading can find: white space around a part, a comma, an
equals sign in the key, or no text at all would be lost. -/
structure IsWritableOption (option : String × String) : Prop where
  trim_key : trim option.1.toList = option.1.toList
  trim_value : trim option.2.toList = option.2.toList
  comma_key : ',' ∉ option.1.toList
  comma_value : ',' ∉ option.2.toList
  equals_key : '=' ∉ option.1.toList
  not_blank : option.1 ≠ "" ∨ option.2 ≠ ""

/-- The tags that reading can find: one that leaves the member out and says no
more, or a name with options. -/
inductive IsWritable : Tag → Prop
  | ignore : IsWritable { ignore := true }
  | named {name : String} {options : List (String × String)}
      (htrim : trim name.toList = name.toList) (hcomma : ',' ∉ name.toList)
      (hoptions : ∀ option ∈ options, IsWritableOption option) : IsWritable { name, options }

theorem exists_optionTexts : (options : List (String × String)) →
    ∃ texts, List.Forall₂ OptionText options texts
  | [] => ⟨[], .nil⟩
  | (key, value) :: options =>
    let ⟨texts, htexts⟩ := exists_optionTexts options
    ⟨_ :: texts, .cons (.valued key value) htexts⟩

theorem IsWritable.exists_bodyText (h : IsWritable tag) : ∃ body, BodyText tag body := by
  cases h with
  | ignore => exact ⟨_, .ignore⟩
  | @named name options =>
      obtain ⟨texts, htexts⟩ := exists_optionTexts options
      by_cases hdash : name = "-" → options ≠ []
      · exact ⟨_, .named hdash htexts⟩
      · obtain ⟨rfl, hnil⟩ := Classical.not_imp.mp hdash
        obtain rfl := not_not.mp hnil
        exact ⟨_, .dash⟩

theorem exists_tagText (h : ∀ e ∈ tags, e.2.IsWritable) : ∃ text, TagText tags text := by
  induction tags with
  | nil => exact ⟨[], .nil⟩
  | cons e tags ih =>
      obtain ⟨body, hbody⟩ := (h e List.mem_cons_self).exists_bodyText
      obtain ⟨text, htext⟩ := ih fun e he => h e (List.mem_cons_of_mem _ he)
      exact ⟨_, .cons 1 hbody htext⟩

/-! ## Escapes -/

theorem isQuotable_escape (body : List Char) : IsQuotable (escape body) := by
  induction body with
  | nil => exact .nil
  | cons c body ih =>
      rw [escape, List.flatMap_cons]
      split
      · rename_i hc
        refine .escaped ?_ ih
        rintro rfl
        exact absurd hc (by decide)
      · rename_i hc
        obtain ⟨hquote, hback⟩ := not_or.mp hc
        exact .plain hquote hback ih

/-- A line feed or a tab needs no escape, so no escape is read as one. -/
theorem unescape_escape (body : List Char) : unescape (escape body) = body := by
  induction body with
  | nil => rfl
  | cons c body ih =>
      rw [escape, List.flatMap_cons]
      split
      · rename_i hc
        rcases hc with rfl | rfl
        · exact congrArg ('"' :: ·) ih
        · exact congrArg ('\\' :: ·) ih
      · rename_i hc
        obtain ⟨-, hback⟩ := not_or.mp hc
        rw [List.singleton_append, unescape]
        · exact congrArg (c :: ·) ih
        all_goals intros; contradiction

/-! ## Bodies -/

theorem OptionText.trim_and_comma (hoption : IsWritableOption option) (h : OptionText option text) :
    trim text = text ∧ ',' ∉ text := by
  cases h with
  | bare key => exact ⟨hoption.trim_key, hoption.comma_key⟩
  | valued key value =>
      refine ⟨trim_append_cons (by decide) hoption.trim_key hoption.trim_value, ?_⟩
      simpa using ⟨hoption.comma_key, hoption.comma_value⟩

theorem optionOf?_of_optionText (hoption : IsWritableOption option) (h : OptionText option text) :
    optionOf? text = some option := by
  obtain ⟨htrim, -⟩ := h.trim_and_comma hoption
  cases h with
  | bare key =>
      have hkey : key ≠ "" := hoption.not_blank.resolve_right (· rfl)
      have hne : key.toList.isEmpty = false := by simpa using hkey
      simp only [optionOf?, htrim, hne, cut_of_not_mem hoption.equals_key, Option.getD_none,
        String.ofList_toList]
      rfl
  | valued key value =>
      have hne : (key.toList ++ '=' :: value.toList).isEmpty = false := by simp
      simp only [optionOf?, htrim, hne, cut_append_cons hoption.equals_key, Option.getD_some,
        hoption.trim_key, hoption.trim_value, String.ofList_toList]
      rfl

theorem filterMap_optionOf? {texts : List (List Char)}
    (hoptions : ∀ option ∈ options, IsWritableOption option)
    (h : List.Forall₂ OptionText options texts) :
    texts.filterMap optionOf? = options ∧ ∀ text ∈ texts, trim text = text ∧ ',' ∉ text := by
  induction h with
  | nil => exact ⟨rfl, fun _ => nofun⟩
  | cons htext _ ih =>
      obtain ⟨hoption, hrest⟩ := List.forall_mem_cons.mp hoptions
      obtain ⟨hread, hparts⟩ := ih hrest
      refine ⟨?_, List.forall_mem_cons.mpr ⟨htext.trim_and_comma hoption, hparts⟩⟩
      rw [List.filterMap_cons_some (optionOf?_of_optionText hoption htext), hread]

/-- Reading undoes writing between the quotes. -/
theorem ofBody_of_bodyText (htag : IsWritable tag) (h : BodyText tag body) : ofBody body = tag := by
  cases h with
  | ignore => rfl
  | dash => rfl
  | @named name options texts hdash htexts =>
      cases htag with
      | named htrim hcomma hoptions =>
          obtain ⟨hread, hparts⟩ := filterMap_optionOf? hoptions htexts
          have hpieces : pieces ',' ([','].intercalate (name.toList :: texts)) =
              name.toList :: texts :=
            pieces_intercalate (List.forall_mem_cons.mpr ⟨hcomma, fun l hl => (hparts l hl).2⟩)
              (List.cons_ne_nil _ _)
          have hbody : [','].intercalate (name.toList :: texts) ≠ ['-'] := by
            intro he
            rw [he] at hpieces
            obtain ⟨hname, rfl⟩ := List.cons.inj hpieces
            exact hdash (String.toList_inj.mp hname.symm) hread.symm
          have hends : trim ([','].intercalate (name.toList :: texts)) =
              [','].intercalate (name.toList :: texts) :=
            trim_intercalate (by decide)
              (List.forall_mem_cons.mpr ⟨htrim, fun l hl => (hparts l hl).1⟩)
          rw [ofBody, hends, if_neg hbody]
          cases texts with
          | nil =>
              rw [List.intercalate_singleton, cut_of_not_mem hcomma]
              simp only [htrim, String.ofList_toList, ← hread, List.filterMap_nil]
          | cons text texts =>
              have hoptionPieces : pieces ',' ([','].intercalate (text :: texts)) = text :: texts :=
                pieces_intercalate (fun l hl => (hparts l hl).2) (List.cons_ne_nil _ _)
              rw [List.intercalate_cons_cons, List.append_assoc, List.singleton_append,
                cut_append_cons hcomma]
              simp only [htrim, String.ofList_toList, hoptionPieces, hread]

/-! ## Texts -/

theorem pairs_of_tagText (htags : ∀ e ∈ tags, IsDialect e.1.toList ∧ e.2.IsWritable)
    (htext : TagText tags text) (hrest : ¬StartsWithPair rest) : pairs (text ++ rest) = tags := by
  induction htext with
  | nil => exact pairs_of_not_startsWithPair hrest
  | @cons spaces dialect tag tags body text hbody _ ih =>
      obtain ⟨hdialect, htag⟩ := htags (dialect, tag) List.mem_cons_self
      rw [List.append_assoc, pairs_append hdialect (isQuotable_escape body), unescape_escape,
        ofBody_of_bodyText htag hbody, String.ofList_toList,
        ih fun e he => htags e (List.mem_cons_of_mem _ he)]

/-- Tags that say something, under distinct names, can be written, and are read
back in their order from each of their texts, whatever follows it that does
not start with a pair. -/
theorem entries_parseAll_of_tagText (hnames : (tags.map (·.1)).Nodup)
    (htags : ∀ e ∈ tags, IsDialect e.1.toList ∧ e.2.isEmpty = false ∧ e.2.IsWritable) :
    (∃ text, TagText tags text) ∧ ∀ text rest, TagText tags text → ¬StartsWithPair rest →
      (parseAll (String.ofList (text ++ rest))).entries = tags := by
  refine ⟨exists_tagText fun e he => (htags e he).2.2, fun text rest htext hrest => ?_⟩
  have hpairs : pairs (text ++ rest) = tags :=
    pairs_of_tagText (fun e he => ⟨(htags e he).1, (htags e he).2.2⟩) htext hrest
  have hsay : tags.filter (!·.2.isEmpty) = tags :=
    List.filter_eq_self.mpr fun e he => by rw [(htags e he).2.1, Bool.not_false]
  rw [parseAll, String.toList_ofList, hpairs, hsay, Dictionary.entries_ofList hnames]

/-- A name with a quote and two options, a member that is left out, and a name that is a dash. -/
theorem entries_parseAll_of_tagText_dash :
    (parseAll "json:\"a\\\"b,min=1,omit\"  yaml:\"-\"db:\"-,\" x y:\"z\"").entries =
      [("json", { name := "a\"b", options := [("min", "1"), ("omit", "")] }),
        ("yaml", { ignore := true }), ("db", { name := "-" })] := by
  have hjson : IsWritable { name := "a\"b", options := [("min", "1"), ("omit", "")] } := by
    refine .named (by decide +kernel) (by decide +kernel) fun option hoption => ?_
    simp only [List.mem_cons, List.not_mem_nil, or_false] at hoption
    rcases hoption with rfl | rfl
    all_goals constructor <;> decide +kernel
  have htags : ∀ e ∈ ([("json", { name := "a\"b", options := [("min", "1"), ("omit", "")] }),
      ("yaml", { ignore := true }), ("db", { name := "-" })] : List (String × Tag)),
      IsDialect e.1.toList ∧ e.2.isEmpty = false ∧ e.2.IsWritable := by
    intro e he
    simp only [List.mem_cons, List.not_mem_nil, or_false] at he
    rcases he with rfl | rfl | rfl
    · exact ⟨⟨by decide +kernel, List.all_eq_true.mp (by decide +kernel)⟩, by decide +kernel, hjson⟩
    · exact ⟨⟨by decide +kernel, List.all_eq_true.mp (by decide +kernel)⟩, by decide +kernel,
        .ignore⟩
    · exact ⟨⟨by decide +kernel, List.all_eq_true.mp (by decide +kernel)⟩, by decide +kernel,
        .named (by decide +kernel) (by decide +kernel) nofun⟩
  have hrest : ¬StartsWithPair " x y:\"z\"".toList := pair?_eq_none_iff.mp (by decide +kernel)
  have h := (entries_parseAll_of_tagText (by decide +kernel) htags).2 _ _
    (.cons 0 (.named (fun _ => List.cons_ne_nil _ _) (.cons (.valued _ _) (.cons (.bare _) .nil)))
      (.cons 2 .ignore (.cons 0 .dash .nil))) hrest
  refine Eq.trans (congrArg (fun raw => (parseAll raw).entries) ?_) h
  decide +kernel

end TypeOutline.Tag
