import TypeOutline.Proofs.Derivation.Depth

/-!
# The way down to a position

What is known at a position of the levels above it: the names above are
those that they declare, each once (`mem_above_iff`, `nodup_declared`),
the position is at the top as long as all of them are wrappers
(`top_iff`), and no position starts out with a closed cycle
(`attrs_defect_ne`). So a level closes a cycle exactly if it declares what
a level above it declares (`defect_head_eq_cyclical`). Every level that
an outline lists as finished was entered at a position on some way down
(`exists_enters_of_mem_finished`).
-/

namespace TypeOutline

variable {types : Types} {start p q : Site} {path : List Layer} {l : Layer}

/-! ## Rulings -/

theorem ruling_eq_cycle {top : Bool} {above : Finset String} {n : String} :
    l.ruling top above = .cycle n ↔ l.isUnsupported = false ∧ l.isMisplaced top = false
      ∧ l.declares? = some n ∧ n ∈ above := by
  unfold Layer.ruling
  cases l.isUnsupported with
  | true => simp
  | false =>
      cases l.isMisplaced top with
      | true => simp
      | false =>
          cases l.declares? with
          | none => simp
          | some m =>
              simp only [Bool.false_eq_true, if_false, true_and, Option.some.injEq]
              by_cases hm : m ∈ above
              · rw [if_pos hm, Ruling.cycle.injEq]
                exact ⟨fun h => ⟨h, h ▸ hm⟩, fun h => h.1⟩
              · rw [if_neg hm]
                refine ⟨fun h => (nomatch h), ?_⟩
                rintro ⟨rfl, hn⟩
                exact absurd hn hm

theorem defect_head_eq_cyclical {a : Attributes} {kind : Kind} {ruling : Ruling}
    (ha : a.defect ≠ some .cyclicalReference) :
    (a.head kind ruling).defect = some .cyclicalReference ↔ ∃ n, ruling = .cycle n := by
  cases ruling with
  | unsupported => exact ⟨fun h => (nomatch h), fun ⟨_, h⟩ => (nomatch h)⟩
  | misplaced => exact ⟨fun h => (nomatch h), fun ⟨_, h⟩ => (nomatch h)⟩
  | cycle name => exact ⟨fun _ => ⟨name, rfl⟩, fun _ => rfl⟩
  | enters name =>
      rw [defect_head_enters]
      exact ⟨fun h => absurd h ha, fun ⟨_, h⟩ => nomatch h⟩

/-! ## Along the way -/

/-- The names above a position are those that the levels above it declare. -/
theorem mem_above_iff (h : Reaches types start path p) (n : String) :
    n ∈ p.above ↔ n ∈ start.above ∨ ∃ m ∈ path, m.declares? = some n := by
  induction h with
  | start => simp
  | @member path p q l _ hl hq ih =>
      obtain ⟨-, habove, -⟩ := mem_members hl hq
      rw [habove]
      cases hname : l.declares? with
      | none =>
          rw [declaredBelow, ih]
          simp [hname]
      | some m =>
          rw [declaredBelow, Finset.mem_insert, ih]
          simp only [List.mem_cons, exists_eq_or_imp, hname, Option.some.injEq]
          constructor
          · rintro (rfl | hn | hn)
            · exact .inr (.inl rfl)
            · exact .inl hn
            · exact .inr (.inr hn)
          · rintro (hn | rfl | hn)
            · exact .inr (.inl hn)
            · exact .inl rfl
            · exact .inr (.inr hn)

/-- A position is at the top if the start is and all levels above are wrappers. -/
theorem top_iff (h : Reaches types start path p) :
    p.top = true ↔ start.top = true ∧ ∀ m ∈ path, m.isWrapper = true := by
  induction h with
  | start => simp
  | @member path p q l _ hl hq ih =>
      obtain ⟨-, -, htop, -⟩ := mem_members hl hq
      rw [htop, Bool.and_eq_true, ih, List.forall_mem_cons]
      exact ⟨fun ⟨⟨hs, hpath⟩, hwrap⟩ => ⟨hs, hwrap, hpath⟩,
        fun ⟨hs, hwrap, hpath⟩ => ⟨⟨hs, hpath⟩, hwrap⟩⟩

/-- No position starts out with a closed cycle. -/
theorem attrs_defect_ne (h : Reaches types start path p)
    (hstart : start.attrs.defect ≠ some .cyclicalReference) :
    p.attrs.defect ≠ some .cyclicalReference := by
  induction h with
  | start => exact hstart
  | member _ hl hq ih =>
      obtain ⟨-, -, -, hdefect, -⟩ := mem_members hl hq
      exact hdefect ih

/-- No two levels above a position declare one name. -/
theorem nodup_declared (h : Reaches types start path p) :
    (path.filterMap Layer.declares?).Nodup := by
  induction h with
  | start => exact List.nodup_nil
  | @member path p q l hp hl hq ih =>
      obtain ⟨-, -, -, -, hfresh⟩ := mem_members hl hq
      cases hname : l.declares? with
      | none =>
          rw [List.filterMap_cons_none hname]
          exact ih
      | some n =>
          rw [List.filterMap_cons_some hname]
          refine List.nodup_cons.mpr ⟨fun hmem => hfresh n hname ?_, ih⟩
          obtain ⟨m, hm, hmn⟩ := List.mem_filterMap.mp hmem
          exact (mem_above_iff hp n).mpr (.inr ⟨m, hm, hmn⟩)

/-! ## Finished levels -/

/-- The level at the position is entered, and `content` comes of its members. -/
structure Site.Enters (types : Types) (p : Site) (depth : Nat) (l : Layer) (name : Option String)
    (content : Outline) : Prop where
  layer_eq : p.value.layer? types = some l
  ruling_eq : l.ruling p.top p.above = .enters name
  outline_eq : (l.shape.content (p.attrs.head l.shape.kind (.enters name))).outline
    (outline types depth) p.top (declaredBelow p.above name) = some content

/-- A finished level was entered at its position on some way down. -/
theorem exists_enters_of_mem_finished {depth : Nat} : ∀ {path : List Layer} {p : Site}
    {o : Outline}, Reaches types start path p → outline types depth p = some o →
      ∀ f ∈ o.finished, ∃ path d name content, Reaches types start path f.site
        ∧ f.site.Enters types d f.level name content ∧ f.tree = content.tree := by
  induction depth with
  | zero => exact fun _ h => nomatch h
  | succ depth ih =>
      intro path p o hp h f hf
      obtain ⟨l, hl, ⟨hr, rfl⟩ | ⟨name, content, hr, ho, rfl⟩⟩ := outline_succ_cases h
      · exact absurd hf List.not_mem_nil
      · have hmembers := members_of_enters hl hr
        rcases List.mem_append.mp hf with hf | hf
        · cases gives_outline ho with
          | leaf b _ _ ho' =>
              subst ho'
              exact absurd hf List.not_mem_nil
          | same b v hcontent _ ho' =>
              refine ih (hp.member hl ?_) ho' f hf
              rw [hmembers, hcontent]
              exact List.mem_singleton_self _
          | each os _ _ _ _ _ hfinished hos =>
              rw [hfinished] at hf
              obtain ⟨o', ho', hf⟩ := List.mem_flatMap.mp hf
              obtain ⟨q, hmem, -, hq⟩ := hos o' ho'
              exact ih (hp.member hl (hmembers ▸ hmem)) hq f hf
        · obtain rfl := List.mem_singleton.mp hf
          exact ⟨path, depth, name, content, hp, ⟨hl, hr, ho⟩, rfl⟩

end TypeOutline
