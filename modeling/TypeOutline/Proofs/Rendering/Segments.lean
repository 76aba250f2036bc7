import Mathlib.Data.List.Infix
import TypeOutline.Proofs.Derivation.DocumentTrees
import TypeOutline.Proofs.Rendering.Quoting
import TypeOutline.Proofs.Rendering.Ways

/-!
# Reading the lines of documents back

The line of a node of a document says on its way down of each node the
name, the type and whether it failed (`segment_inj`), and of the last one
what went wrong. The types of documents can be told by how they end
(`documentTypes_inj`): the name before one may imitate what comes after
it, but what follows the last colon or dot that a type can follow is the
type. In the same way a text that ends like a message is one: no type that
follows a colon or a dot, and no closing quote, ends a message or holds
one at its end (`endings_ne`).
-/

namespace TypeOutline

/-- What the line of a node of a document says of the node. -/
def Attributes.summary (a : Attributes) : String × String × Option Defect :=
  (a.name, a.typeLabel, a.defect)

/-! ## Types -/

theorem documentTypes_inj : ∀ p ∈ documentTypes, ∀ q ∈ documentTypes,
    p.2.toList <:+ q.2.toList → p = q := by decide +kernel

/-- No type ends like a mark, a dot or a quote. -/
theorem getLast?_of_documentTypes : ∀ p ∈ documentTypes,
    p.2.toList.getLast?.any (fun c => c != '!' && c != '.' && c != '"') = true := by decide

/-- A text that ends with a type ends with one only, before which the same stands. -/
theorem type_inj {p q : String × String} (hp : p ∈ documentTypes) (hq : q ∈ documentTypes)
    {xs ys : List Char} (h : xs ++ p.2.toList = ys ++ q.2.toList) : p = q ∧ xs = ys := by
  have hpq : p = q := by
    rcases List.suffix_or_suffix_of_suffix ⟨xs, rfl⟩ ⟨ys, h.symm⟩ with hs | hs
    · exact documentTypes_inj p hp q hq hs
    · exact (documentTypes_inj q hq p hp hs).symm
  refine ⟨hpq, ?_⟩
  rw [hpq] at h
  exact List.append_cancel_right h

/-! ## Segments -/

namespace Simple

variable {o : RenderOptions} {a b : Attributes}

/-- What stands before the type in a segment. -/
def prefixOf (name : String) : List Char := if name = "" then [] else name.toList ++ [':']

theorem prefixOf_inj {name name' : String} (h : prefixOf name = prefixOf name') : name = name' := by
  unfold prefixOf at h
  split at h
  · split at h
    · rename_i hn hn'
      rw [hn, hn']
    · exact absurd h.symm (List.append_ne_nil_of_right_ne_nil _ (List.cons_ne_nil _ _))
  · split at h
    · exact absurd h (List.append_ne_nil_of_right_ne_nil _ (List.cons_ne_nil _ _))
    · exact String.toList_inj.mp (List.append_cancel_right h)

/-- The segment of a node of a document, without the marks of a failure. -/
def body (a : Attributes) : List Char := prefixOf a.name ++ a.pathType.toList

theorem toList_segment (o : RenderOptions) (ha : a.IsPlain) : (segment o a).toList =
    if a.defect.isSome then '!' :: body a ++ ['!'] else body a := by
  have hbody : (segmentOf a.name a.pathType "").toList = body a := by
    rw [segmentOf, body, prefixOf]
    split <;> simp
  have href : shownRef o a "" = "" := ite_self _
  rw [segment, ha.typeRef_eq, href, markDefect]
  split
  · rw [String.toList_append, String.toList_append, hbody]
    rfl
  · exact hbody

theorem exists_last_body (ha : a.IsPlain) :
    ∃ c, (body a).getLast? = some c ∧ c ≠ '!' ∧ c ≠ '.' ∧ c ≠ '"' := by
  obtain ⟨c, hc, hne⟩ := (Option.any_eq_true _ _).mp (getLast?_of_documentTypes _ ha.type_mem)
  rw [Bool.and_eq_true, Bool.and_eq_true, bne_iff_ne, bne_iff_ne, bne_iff_ne, and_assoc] at hne
  have hc : a.pathType.toList.getLast? = some c := hc
  refine ⟨c, ?_, hne⟩
  rw [body, List.getLast?_append, hc]
  rfl

theorem wellEnded_segment (o : RenderOptions) (ha : a.IsPlain) :
    WellEnded (segment o a).toList := by
  rw [toList_segment o ha]
  split
  · exact ⟨'!', List.getLast?_concat, by decide, by decide⟩
  · obtain ⟨c, hc, -, hdot, hquote⟩ := exists_last_body ha
    exact ⟨c, hc, hdot, hquote⟩

/-- A segment tells the name, the type, and whether the node failed. -/
theorem segment_inj {o o' : RenderOptions} (ha : a.IsPlain) (hb : b.IsPlain)
    (h : (segment o a).toList = (segment o' b).toList) :
    a.name = b.name ∧ a.typeLabel = b.typeLabel ∧ a.defect.isSome = b.defect.isSome := by
  have hmarked : ∀ {a b : Attributes}, a.IsPlain → '!' :: body b ++ ['!'] ≠ body a := by
    intro a b ha h
    obtain ⟨c, hc, hmark, -⟩ := exists_last_body ha
    rw [← h, List.getLast?_concat] at hc
    exact hmark (Option.some.inj hc).symm
  have hboth : a.defect.isSome = b.defect.isSome ∧ body a = body b := by
    rw [toList_segment o ha, toList_segment o' hb] at h
    cases hda : a.defect.isSome <;> cases hdb : b.defect.isSome <;> rw [hda, hdb] at h
    · exact ⟨rfl, h⟩
    · exact absurd h.symm (hmarked ha)
    · exact absurd h (hmarked hb)
    · exact ⟨rfl, (List.cons.inj (List.append_cancel_right h)).2⟩
  obtain ⟨htype, hprefix⟩ := type_inj ha.type_mem hb.type_mem hboth.2
  exact ⟨prefixOf_inj hprefix, congrArg (·.1) htype, hboth.1⟩

end Simple

/-! ## Messages -/

/-- What follows the path in a line. -/
def errorText (defect : Option Defect) : List Char :=
  defect.elim [] fun d => (" ERROR:" ++ d.message).toList

/-- How the path of a node that did not fail can end. -/
def endings : List (List Char) :=
  ['"'] :: documentTypes.flatMap fun p => ['.' :: p.2.toList, ':' :: p.2.toList]

theorem endings_ne : ∀ e ∈ endings, ∀ d ∈ Defect.all,
    ¬ e <:+ errorText (some d) ∧ ¬ errorText (some d) <:+ e := by decide +kernel

theorem errorText_inj : ∀ d ∈ Defect.all, ∀ d' ∈ Defect.all,
    errorText (some d) <:+ errorText (some d') → d = d' := by decide +kernel

theorem mem_all (d : Defect) : d ∈ Defect.all := by cases d <;> decide

/-- A text that ends with a message ends with one only, before which the same stands, and a path of
a node that did not fail does not end so. -/
theorem append_errorText_inj {xs ys : List Char} {defect defect' : Option Defect}
    (hxs : defect = none → ∃ e ∈ endings, e <:+ xs) (hys : defect' = none → ∃ e ∈ endings, e <:+ ys)
    (h : xs ++ errorText defect = ys ++ errorText defect') : defect = defect' ∧ xs = ys := by
  have hends : ∀ {xs ys : List Char} {d : Defect}, (∃ e ∈ endings, e <:+ xs) →
      xs ≠ ys ++ errorText (some d) := by
    rintro xs ys d ⟨e, he, hxs⟩ rfl
    obtain ⟨h₁, h₂⟩ := endings_ne e he d (mem_all d)
    rcases List.suffix_or_suffix_of_suffix hxs (List.suffix_append ys _) with hs | hs
    · exact h₁ hs
    · exact h₂ hs
  have hdefect : defect = defect' := by
    cases defect with
    | none =>
        cases defect' with
        | none => rfl
        | some d' => exact absurd ((List.append_nil xs).symm.trans h) (hends (hxs rfl))
    | some d =>
        cases defect' with
        | none => exact absurd ((List.append_nil ys).symm.trans h.symm) (hends (hys rfl))
        | some d' =>
            rcases List.suffix_or_suffix_of_suffix ⟨xs, rfl⟩ ⟨ys, h.symm⟩ with hs | hs
            · rw [errorText_inj d (mem_all d) d' (mem_all d') hs]
            · rw [errorText_inj d' (mem_all d') d (mem_all d) hs]
  refine ⟨hdefect, ?_⟩
  rw [hdefect] at h
  exact List.append_cancel_right h

/-! ## Lines -/

namespace Simple

variable {o o' : RenderOptions} {way way' : List Attributes}

/-- The line of the node at the end of a way in a document, without the name of the top. -/
def wayText (o : RenderOptions) (way : List Attributes) : List Char :=
  joined (way.map fun a => (segment o a).toList) ++ errorText (way.getLast?.bind (·.defect))

theorem exists_ending (o : RenderOptions) {a : Attributes} (ha : a.IsPlain)
    (hdefect : a.defect = none) :
    ∃ e ∈ endings, e <:+ '.' :: quotedSegment (segment o a).toList := by
  have htype : ∀ c, c = '.' ∨ c = ':' → c :: a.pathType.toList ∈ endings := by
    intro c hc
    refine List.mem_cons_of_mem _ (List.mem_flatMap.mpr ⟨_, ha.type_mem, ?_⟩)
    rcases hc with rfl | rfl
    · exact List.mem_cons_self
    · exact List.mem_cons_of_mem _ List.mem_cons_self
  rw [toList_segment o ha, hdefect, Option.isSome_none, if_neg Bool.false_ne_true, quotedSegment]
  split
  · exact ⟨['"'], List.mem_cons_self,
      List.suffix_append ('.' :: '"' :: (body a).flatMap Text.shown) _⟩
  · rw [body, prefixOf]
    split
    · exact ⟨_, htype '.' (.inl rfl), List.suffix_rfl⟩
    · refine ⟨_, htype ':' (.inr rfl), '.' :: a.name.toList, ?_⟩
      rw [List.append_assoc]
      rfl

theorem exists_ending_of_way (o : RenderOptions) (hway : ∀ a ∈ way, a.IsPlain) (hne : way ≠ [])
    (hdefect : way.getLast?.bind (·.defect) = none) :
    ∃ e ∈ endings, e <:+ joined (way.map fun a => (segment o a).toList) := by
  obtain ⟨init, a, rfl⟩ := (List.eq_nil_or_concat' way).resolve_left hne
  rw [List.getLast?_concat] at hdefect
  obtain ⟨e, he, hsuffix⟩ := exists_ending o (hway a List.mem_concat_self) hdefect
  refine ⟨e, he, hsuffix.trans ?_⟩
  rw [List.map_append, List.map_singleton, joined, List.flatMap_append, List.flatMap_singleton]
  exact List.suffix_append _ _

/-- A line tells how far down its node is, and what is said of the node. -/
theorem wayText_inj (hway : ∀ a ∈ way, a.IsPlain) (hway' : ∀ a ∈ way', a.IsPlain) (hne : way ≠ [])
    (hne' : way' ≠ []) (h : wayText o way = wayText o' way') : way.length = way'.length
      ∧ way.getLast?.map Attributes.summary = way'.getLast?.map Attributes.summary := by
  obtain ⟨hdefect, hpath⟩ := append_errorText_inj (exists_ending_of_way o hway hne)
    (exists_ending_of_way o' hway' hne') h
  have hsegments : (way.map fun a => (segment o a).toList) =
      way'.map fun a => (segment o' a).toList := by
    refine joined_inj (fun w hw => ?_) (fun w hw => ?_) hpath
    · obtain ⟨a, ha, rfl⟩ := List.mem_map.mp hw
      exact wellEnded_segment o (hway a ha)
    · obtain ⟨a, ha, rfl⟩ := List.mem_map.mp hw
      exact wellEnded_segment o' (hway' a ha)
  refine ⟨by simpa using congrArg List.length hsegments, ?_⟩
  obtain ⟨init, a, rfl⟩ := (List.eq_nil_or_concat' way).resolve_left hne
  obtain ⟨init', a', rfl⟩ := (List.eq_nil_or_concat' way').resolve_left hne'
  rw [List.map_append, List.map_append] at hsegments
  obtain ⟨hname, htype, -⟩ := segment_inj (hway a List.mem_concat_self)
    (hway' a' List.mem_concat_self) (List.singleton_inj.mp (List.append_inj' hsegments rfl).2)
  rw [List.getLast?_concat, List.getLast?_concat] at hdefect ⊢
  have hdefect : a.defect = a'.defect := hdefect
  rw [Option.map_some, Option.map_some, Attributes.summary, Attributes.summary, hname, htype,
    hdefect]

theorem toList_pathTail (segments : List String) (defect : Option Defect) :
    (pathTail (segments.map quoteSegment) defect).toList =
      joined (segments.map String.toList) ++ errorText defect := by
  have hpath : (String.join ((segments.map quoteSegment).map ("." ++ ·))).toList =
      joined (segments.map String.toList) := by
    induction segments with
    | nil => rfl
    | cons segment segments ih =>
        rw [List.map_cons, List.map_cons, String.join_cons, String.toList_append, ih,
          String.toList_append, toList_quoteSegment, List.map_cons, joined_cons]
        rfl
  rw [pathTail, String.toList_append, hpath]
  cases defect <;> rfl

end Simple

end TypeOutline
