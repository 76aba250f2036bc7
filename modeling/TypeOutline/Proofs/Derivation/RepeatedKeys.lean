import TypeOutline.Proofs.Derivation.DocumentTrees

/-!
# Entries of one name

The entries of a map are visited in the order of their capitalized keys,
and an entry that has the name of an earlier one gets a defect before its
value is looked at (`repeated_iff`). What is met there may then write a
defect of its own over it: a level of an unsupported kind, a level that
closes a cycle, or an empty slot, at once or at the end of a chain of
slots (`Overwrites`). Every other level leaves the defect alone, so an
entry keeps it exactly if its value does not write over it
(`defect_eq_duplicateMapKey_iff`). The text of the defect stays in any
case (`error_of_outline`).
-/

namespace TypeOutline

open Schema (Member members markRepeated)

variable {types : Types}

/-! ## The order of the entries -/

/-- Where names are in order, the members that are marked are those with an earlier one of their
name. -/
theorem repeated_iff : ∀ {ms : List Member} {before : Option String},
    (ms.map (·.name)).Pairwise (· ≤ ·) → (∀ b, before = some b → ∀ n ∈ ms.map (·.name), b ≤ n) →
      ∀ {i : Nat} {m : Member}, (markRepeated before ms)[i]? = some m →
        (m.repeated = true ↔
          before = some m.name ∨ ∃ j < i, (ms.map (·.name))[j]? = some m.name)
  | [], _, _, _, _, _, hm => by
      rw [markRepeated, List.getElem?_nil] at hm
      cases hm
  | n :: ms, before, _, _, 0, m, hm => by
      obtain rfl := Option.some.inj hm
      simp
  | n :: ms, before, hsorted, hbefore, i + 1, m, hm => by
      rw [List.map_cons] at hsorted hbefore ⊢
      obtain ⟨hfirst, hsorted⟩ := List.pairwise_cons.mp hsorted
      have hrest := repeated_iff hsorted (fun b hb => Option.some.inj hb ▸ hfirst) hm
      have hname : m.name ∈ ms.map (·.name) := by
        rw [← map_name_markRepeated ms (some n.name)]
        exact List.mem_map_of_mem (List.mem_of_getElem? hm)
      rw [hrest]
      constructor
      · rintro (heq | ⟨j, hj, hjm⟩)
        · exact .inr ⟨0, Nat.succ_pos i, heq⟩
        · exact .inr ⟨j + 1, Nat.succ_lt_succ hj, hjm⟩
      · rintro (heq | ⟨j, hj, hjm⟩)
        · -- the member before is between two of one name
          have hle := hbefore m.name heq n.name List.mem_cons_self
          exact .inl (congrArg some (String.le_antisymm (hfirst _ hname) hle))
        · cases j with
          | zero => exact .inl hjm
          | succ j => exact .inr ⟨j, Nat.lt_of_succ_lt_succ hj, hjm⟩

theorem repeated_iff_exists {ms : List Member} (hsorted : (ms.map (·.name)).Pairwise (· ≤ ·))
    {i : Nat} {m : Member} (hm : (markRepeated none ms)[i]? = some m) :
    m.repeated = true ↔ ∃ j < i, (ms.map (·.name))[j]? = some m.name := by
  have hfirst : ∀ b, none = some b → ∀ n ∈ ms.map (·.name), b ≤ n :=
    fun b hb => absurd hb.symm (Option.some_ne_none b)
  rw [repeated_iff hsorted hfirst hm, or_iff_right (Option.some_ne_none _).symm]

theorem repeated_iff_of_members {entries : List (String × Value)} {i : Nat} {m : Member}
    (hm : (members entries)[i]? = some m) :
    m.repeated = true ↔ ∃ j < i, ((members entries).map (·.name))[j]? = some m.name := by
  have hsorted := pairwise_name_members entries
  rw [members, map_name_markRepeated] at hsorted ⊢
  exact repeated_iff_exists hsorted hm

/-- The members are the entries under their capitalized keys, in the order of these and then of
the keys. -/
structure IsVisitOrder (entries : List (String × Value)) (ms : List Member) : Prop where
  perm : (ms.map fun m => (m.key, m.value)).Perm entries
  name_eq : ∀ m ∈ ms, m.name = Text.capitalize m.key
  ordered : ms.Pairwise fun m m' => m.name < m'.name ∨ m.name = m'.name ∧ m.key ≤ m'.key

theorem isVisitOrder_members (entries : List (String × Value)) :
    IsVisitOrder entries (members entries) where
  perm := by
    rw [members, map_markRepeated (by exact fun _ _ => rfl)]
    have hkeys : (entries.map fun e => ({ name := Text.capitalize e.1, key := e.1, value := e.2 } :
        Member)).map (fun m => (m.key, m.value)) = entries := by
      rw [List.map_map]
      exact List.map_id entries
    conv_rhs => rw [← hkeys]
    exact (List.mergeSort_perm _ _).map _
  name_eq m hm := by
    have hnames : (m.name, m.key) ∈ (members entries).map fun m => (m.name, m.key) :=
      List.mem_map_of_mem hm
    rw [members, map_markRepeated (by exact fun _ _ => rfl)] at hnames
    obtain ⟨m', hm', heq⟩ := List.mem_map.mp hnames
    obtain ⟨e, -, rfl⟩ := List.mem_map.mp (List.mem_mergeSort.mp hm')
    obtain ⟨hname, hkey⟩ := Prod.mk.inj heq
    rw [← hname, ← hkey]
  ordered := by
    have hpairs : ((members entries).map fun m => (m.name, m.key)).Pairwise
        fun x y => x.1 < y.1 ∨ x.1 = y.1 ∧ x.2 ≤ y.2 := by
      rw [members, map_markRepeated (by exact fun _ _ => rfl), List.pairwise_map]
      exact (List.pairwise_mergeSort Member.le_trans Member.le_total _).imp
        fun h => Member.le_iff.mp h
    exact List.pairwise_map.mp hpairs

/-! ## Values that write over a defect -/

/-- The value writes a defect on its node below the names `above`, whatever stands there: its level
is of an unsupported kind, closes a cycle, or is an empty slot, or it is a slot with content that
does so. -/
inductive Overwrites (types : Types) : Finset String → Value → Prop
  | unsupported {above : Finset String} {v : Value} {l : Layer} (hl : v.layer? types = some l)
      (hkind : l.isUnsupported = true) : Overwrites types above v
  | cycle {above : Finset String} {v : Value} {l : Layer} {n : String}
      (hl : v.layer? types = some l) (hname : l.declares? = some n) (hn : n ∈ above) :
      Overwrites types above v
  | emptySlot {above : Finset String} {v : Value} {typeName : Option String}
      (hl : v.layer? types = some ⟨typeName, .slot none⟩) : Overwrites types above v
  | slot {above : Finset String} {v w : Value} {l : Layer} (hl : v.layer? types = some l)
      (hshape : l.shape = .slot (some w))
      (hw : Overwrites types (declaredBelow above l.declares?) w) : Overwrites types above v

section Overwrites

variable {above : Finset String} {v w : Value} {l : Layer} {name : Option String}

theorem overwrites_of_refused (hl : v.layer? types = some l)
    (hr : ∀ name, l.ruling false above ≠ .enters name) : Overwrites types above v := by
  cases hruling : l.ruling false above with
  | unsupported => exact .unsupported hl (isUnsupported_of_ruling hruling)
  | misplaced => exact absurd (isMisplaced_of_ruling hruling).2 Bool.false_ne_true
  | cycle n =>
      obtain ⟨-, -, hname, hn⟩ := ruling_eq_cycle.mp hruling
      exact .cycle hl hname hn
  | enters name => exact absurd hruling (hr name)

/-- A level that is entered writes over a defect only as a slot. -/
theorem overwrites_iff_of_enters (hl : v.layer? types = some l)
    (hr : l.ruling false above = .enters name) : Overwrites types above v ↔
      l.shape = .slot none
        ∨ ∃ w, l.shape = .slot (some w) ∧ Overwrites types (declaredBelow above name) w := by
  obtain ⟨hname, hfresh⟩ := declares?_of_enters hr
  constructor
  · intro h
    cases h with
    | unsupported hl' hkind =>
        obtain rfl := Option.some.inj (hl.symm.trans hl')
        exact absurd ((isUnsupported_of_enters hr).symm.trans hkind) Bool.false_ne_true
    | @cycle _ _ _ n hl' hn hmem =>
        obtain rfl := Option.some.inj (hl.symm.trans hl')
        exact absurd hmem (hfresh n (hname.symm.trans hn))
    | emptySlot hl' =>
        obtain rfl := Option.some.inj (hl.symm.trans hl')
        exact .inl rfl
    | @slot _ _ w _ hl' hshape hw =>
        obtain rfl := Option.some.inj (hl.symm.trans hl')
        exact .inr ⟨w, hshape, hname ▸ hw⟩
  · obtain ⟨typeName, shape⟩ := l
    rintro (rfl | ⟨w, rfl, hw⟩)
    · exact .emptySlot hl
    · exact .slot hl rfl (hname ▸ hw)

end Overwrites

/-! ## What a level does to a node that has failed -/

section Failed

variable {a : Attributes} {shape : Shape Value}

theorem error_modifyNative (a : Attributes) {f : Override → Override}
    (hf : ∀ b, (f b).error = b.error) : (a.modifyNative f).native.error = a.native.error := by
  rw [Attributes.native_modifyNative, hf]

theorem error_head (a : Attributes) (kind : Kind) (ruling : Ruling) :
    (a.head kind ruling).native.error = a.native.error := by
  have hclassify : (a.classify kind).native.error = a.native.error :=
    error_modifyNative _ (by exact fun _ => rfl)
  have htyped : (a.typed kind).native.error = a.native.error :=
    (error_modifyNative _ (by exact fun _ => rfl)).trans hclassify
  have hdeclare (n : String) : ((a.typed kind).declare n).native.error = a.native.error :=
    (error_modifyNative _ (by exact fun _ => rfl)).trans htyped
  cases ruling with
  | unsupported => exact hclassify
  | misplaced => exact hclassify
  | cycle n => exact hdeclare n
  | enters name =>
      cases name with
      | none => exact htyped
      | some n => exact hdeclare n

/-- A level that is no slot leaves a node that has failed as it is, and its members alone. -/
theorem content_of_failed (ha : a.defect.isSome = true) (hslot : ∀ target, shape ≠ .slot target) :
    ∃ b, shape.content a = .leaf b ∧ b.defect = a.defect
      ∧ b.native.error = a.native.error := by
  cases shape with
  | scalar kind =>
      refine ⟨_, rfl, ?_⟩
      rw [Attributes.settleScalar]
      split
      · exact ⟨rfl, error_modifyNative _ (by exact fun _ => rfl)⟩
      · exact ⟨rfl, rfl⟩
  | list fixed elements zero =>
      exact ⟨_, if_pos ha, rfl, error_modifyNative _ (by exact fun _ => rfl)⟩
  | record fields => exact ⟨a, if_pos ha, rfl, rfl⟩
  | map key keyType entries => exact ⟨a, if_pos ha, rfl, rfl⟩
  | slot target => exact absurd rfl (hslot target)
  | pointer target zero =>
      exact ⟨_, if_pos ha, rfl, error_modifyNative _ (by exact fun _ => rfl)⟩
  | nil => exact ⟨a, rfl, rfl, rfl⟩

/-- The content of a level on a node that has failed. -/
theorem content_cases_of_failed (shape : Shape Value) (ha : a.defect.isSome = true) :
    (shape = .slot none ∧ ∃ b, shape.content a = .leaf b ∧ b.defect = some .nilInterface
        ∧ b.native.error = a.native.error)
      ∨ (∃ w, shape = .slot (some w) ∧ shape.content a = .same { a with nullable := true } w)
      ∨ (∀ target, shape ≠ .slot target) ∧ ∃ b, shape.content a = .leaf b ∧ b.defect = a.defect
        ∧ b.native.error = a.native.error := by
  by_cases h : ∃ target, shape = .slot target
  · obtain ⟨_ | w, rfl⟩ := h
    · exact .inl ⟨rfl, _, rfl, rfl, rfl⟩
    · exact .inr (.inl ⟨w, rfl, rfl⟩)
  · have hslot := not_exists.mp h
    exact .inr (.inr ⟨hslot, content_of_failed ha hslot⟩)

end Failed

/-! ## The node of a value -/

section Node

variable {q : Site} {o : Outline}

theorem ne_of_defect {a : Attributes} {d : Defect} (ha : a.defect = some d)
    (hd : d ≠ .duplicateMapKey) : a.defect ≠ some .duplicateMapKey := by
  rw [ha]
  exact fun h => hd (Option.some.inj h)

/-- No level writes the defect of a repeated key, -/
theorem obeys_ne_duplicateMapKey {a : Attributes} (shape : Shape Value) (ha : a.defect = none) :
    (shape.content a).Obeys fun b _ => b.defect ≠ some .duplicateMapKey := by
  have hd : ¬ a.defect.isSome = true := by rw [ha]; exact Bool.false_ne_true
  have hnone : a.defect ≠ some .duplicateMapKey := by rw [ha]; exact (Option.some_ne_none _).symm
  cases shape with
  | scalar kind =>
      rw [Shape.content, Attributes.settleScalar]
      split
      · exact hnone
      · exact hnone
  | list fixed elements zero =>
      dsimp only [Shape.content]
      rw [Attributes.defect_modifyOptions, if_neg hd]
      split
      · exact hnone
      · exact ⟨hnone, fun _ => ne_of_defect rfl (by decide)⟩
  | record fields =>
      dsimp only [Shape.content]
      rw [if_neg hd]
      repeat' split
      · exact ne_of_defect rfl (by decide)
      · exact ne_of_defect rfl (by decide)
      · exact hnone
  | map key keyType entries =>
      rw [Shape.content, if_neg hd]
      repeat' split
      · exact ne_of_defect rfl (by decide)
      · exact ne_of_defect rfl (by decide)
      · exact hnone
  | slot target =>
      cases target with
      | none => exact ne_of_defect rfl (by decide)
      | some w => trivial
  | pointer target zero =>
      dsimp only [Shape.content]
      rw [Attributes.defect_modifyOptions, if_neg hd]
      trivial
  | nil => exact hnone

theorem defect_head_ne (a : Attributes) {l : Layer} {top : Bool} {above : Finset String}
    (hr : ∀ name, l.ruling top above ≠ .enters name) :
    (a.head l.shape.kind (l.ruling top above)).defect ≠ some .duplicateMapKey := by
  cases hruling : l.ruling top above with
  | enters name => exact absurd hruling (hr name)
  | _ => exact ne_of_defect rfl (by decide)

/-- so a value does not either. -/
theorem defect_ne_duplicateMapKey (depth : Nat) : ∀ {q : Site} {o : Outline},
    outline types depth q = some o → q.attrs.defect = none →
      o.tree.label.defect ≠ some .duplicateMapKey := by
  induction depth with
  | zero => exact fun ho => nomatch ho
  | succ depth ih =>
      intro q o ho ha
      obtain ⟨l, -, ⟨hr, rfl⟩ | ⟨name, content, -, hcontent, rfl⟩⟩ := outline_succ_cases ho
      · exact defect_head_ne _ hr
      · have hhead := (defect_head_enters q.attrs l.shape.kind name).trans ha
        have hobeys := obeys_ne_duplicateMapKey l.shape hhead
        have hsame : ∀ b v, l.shape.content (q.attrs.head l.shape.kind (.enters name)) =
            .same b v → ∃ _ : Nat, content.tree.label.defect ≠ some .duplicateMapKey := by
          intro b v hc
          have hfits := content_fits (q.attrs.head l.shape.kind (.enters name)) l.shape
          rw [hc] at hcontent hfits
          obtain ⟨-, -, -, hdefect, -⟩ := hfits
          exact ⟨0, ih hcontent (hdefect.trans hhead)⟩
        obtain ⟨-, hlabel⟩ := hobeys.exists_label hcontent hsame
        exact hlabel

/-- A node keeps the defect of a repeated key if its value does not write over it. -/
theorem defect_eq_duplicateMapKey_iff (depth : Nat) : ∀ {q : Site} {o : Outline},
    outline types depth q = some o → q.top = false →
      q.attrs.defect = some .duplicateMapKey →
        (o.tree.label.defect = some .duplicateMapKey ↔ ¬ Overwrites types q.above q.value) := by
  induction depth with
  | zero => exact fun ho => nomatch ho
  | succ depth ih =>
      intro q o ho htop ha
      obtain ⟨l, hl, ⟨hr, rfl⟩ | ⟨name, content, hr, hcontent, rfl⟩⟩ := outline_succ_cases ho
      · have hoverwrites : Overwrites types q.above q.value :=
          overwrites_of_refused hl (htop ▸ hr)
        exact iff_of_false (defect_head_ne _ hr) (not_not_intro hoverwrites)
      · rw [overwrites_iff_of_enters hl (htop ▸ hr)]
        show content.tree.label.defect = _ ↔ _
        have hhead := (defect_head_enters q.attrs l.shape.kind name).trans ha
        have hfailed : (q.attrs.head l.shape.kind (.enters name)).defect.isSome = true := by
          rw [hhead]
          rfl
        rcases content_cases_of_failed l.shape hfailed with
          ⟨hshape, b, hc, hdefect, -⟩ | ⟨w, hshape, hc⟩ | ⟨hslot, b, hc, hdefect, -⟩
        · rw [hc] at hcontent
          obtain rfl := Option.some.inj hcontent
          have hnil : b.defect ≠ some .duplicateMapKey := ne_of_defect hdefect (by decide)
          exact iff_of_false hnil (not_not_intro (.inl hshape))
        · rw [hc] at hcontent
          rw [ih hcontent htop hhead, hshape]
          simp
        · rw [hc] at hcontent
          obtain rfl := Option.some.inj hcontent
          refine iff_of_true (hdefect.trans hhead) ?_
          rintro (hshape | ⟨w, hshape, -⟩)
          · exact hslot _ hshape
          · exact hslot _ hshape

/-- The text of a defect stays on a node that has failed. -/
theorem error_of_outline (depth : Nat) : ∀ {q : Site} {o : Outline},
    outline types depth q = some o → q.attrs.defect.isSome = true →
      o.tree.label.native.error = q.attrs.native.error := by
  induction depth with
  | zero => exact fun ho => nomatch ho
  | succ depth ih =>
      intro q o ho ha
      obtain ⟨l, hl, ⟨-, rfl⟩ | ⟨name, content, -, hcontent, rfl⟩⟩ := outline_succ_cases ho
      · exact error_head _ _ _
      · show content.tree.label.native.error = _
        have herror := error_head q.attrs l.shape.kind (.enters name)
        have hfailed : (q.attrs.head l.shape.kind (.enters name)).defect.isSome = true := by
          rw [defect_head_enters]
          exact ha
        rcases content_cases_of_failed l.shape hfailed with
          ⟨-, b, hc, -, hb⟩ | ⟨w, -, hc⟩ | ⟨-, b, hc, -, hb⟩
        · rw [hc] at hcontent
          obtain rfl := Option.some.inj hcontent
          exact hb.trans herror
        · rw [hc] at hcontent
          exact (ih hcontent hfailed).trans herror
        · rw [hc] at hcontent
          obtain rfl := Option.some.inj hcontent
          exact hb.trans herror

end Node

/-! ## The main result -/

/-- The text of the defect of a repeated key. -/
def repeatedKeyText (m : Member) : String :=
  "duplicate map key " ++ Text.quoted m.name ++ " (" ++ Text.quoted m.key ++ ")"

theorem error_attributes {m : Member} (h : m.repeated = true) :
    m.attributes.native.error = repeatedKeyText m := by
  unfold Member.attributes
  dsimp only
  rw [if_pos h, Attributes.native_modifyNative]
  rfl

/-- One of the members before has the same name. -/
def Repeats (ms : List Member) (i : Nat) (m : Member) : Prop :=
  ∃ j < i, ∃ m', ms[j]? = some m' ∧ m'.name = m.name

theorem repeated_iff_repeats {entries : List (String × Value)} {i : Nat} {m : Member}
    (hm : (members entries)[i]? = some m) :
    m.repeated = true ↔ Repeats (members entries) i m := by
  rw [repeated_iff_of_members hm]
  simp only [Repeats, List.getElem?_map, Option.map_eq_some_iff]

section Main

variable {p : Site} {typeName name : Option String} {keyType : String}
  {entries : List (String × Value)} {o : Outline}

theorem exists_children_of_map
    (hl : p.value.layer? types = some ⟨typeName, .map .string keyType entries⟩)
    (hr : Layer.ruling ⟨typeName, .map .string keyType entries⟩ p.top p.above = .enters name)
    (ha : p.attrs.defect = none) (hne : entries ≠ []) (ho : Outlines types p o) :
    ∃ depth os, (members entries).mapM (fun m => outline types depth
        ⟨m.attributes, false, declaredBelow p.above name, m.value⟩) = some os
      ∧ o.tree = .node (p.attrs.head .map (.enters name)) (os.map (·.tree)) := by
  obtain ⟨depth, ho⟩ := ho
  cases depth with
  | zero => cases ho
  | succ depth =>
      have hsome : ¬ entries.isEmpty = true := fun h => hne (List.isEmpty_iff.mp h)
      rw [outline_of_enters hl hr, Shape.content, defect_head_enters, ha, if_neg (by decide),
        if_neg (not_not_intro rfl), if_neg hsome] at ho
      obtain ⟨content, hcontent, rfl⟩ := Option.map_eq_some_iff.mp ho
      obtain ⟨os, hos, hcontent⟩ := Option.bind_eq_some_iff.mp hcontent
      obtain rfl := Option.some.inj hcontent
      rw [List.mapM_map] at hos
      exact ⟨depth, os, hos, rfl⟩

/-- The entries of a map, on a node that has neither failed before nor is refused, get a node each,
in the order of their capitalized keys. The node of an entry that has the name of an earlier one
keeps the defect of a repeated key exactly if its value does not write over it. No other node has
that defect, and its text is on all nodes that should have it. -/
theorem repeated_key_defect_iff
    (hl : p.value.layer? types = some ⟨typeName, .map .string keyType entries⟩)
    (hr : Layer.ruling ⟨typeName, .map .string keyType entries⟩ p.top p.above = .enters name)
    (ha : p.attrs.defect = none) (hne : entries ≠ []) (ho : Outlines types p o) :
    p.Leaves types o.tree ∧ o.tree.label.defect = none
      ∧ IsVisitOrder entries (members entries)
      ∧ o.tree.children.length = (members entries).length
      ∧ ∀ i m, (members entries)[i]? = some m → ∃ c, o.tree.children[i]? = some c
        ∧ (c.label.defect = some .duplicateMapKey ↔
          Repeats (members entries) i m
            ∧ ¬ Overwrites types (declaredBelow p.above name) m.value)
        ∧ (Repeats (members entries) i m → c.label.native.error = repeatedKeyText m) := by
  obtain ⟨depth, os, hos, htree⟩ := exists_children_of_map hl hr ha hne ho
  refine ⟨ho.leaves, ?_, isVisitOrder_members entries, ?_, fun i m hm => ?_⟩
  · rw [htree]
    exact (defect_head_enters ..).trans ha
  · rw [htree]
    exact (List.length_map _).trans (length_eq_of_mapM hos)
  · obtain ⟨q, hq, hmq⟩ := getElem?_of_mapM hos hm
    refine ⟨q.tree, ?_, ?_, fun h => ?_⟩
    · rw [htree]
      exact (List.getElem?_map ..).trans (congrArg _ hq)
    · rw [← repeated_iff_repeats hm]
      have hattributes := defect_attributes m
      cases hrepeated : m.repeated with
      | true =>
          rw [hrepeated] at hattributes
          rw [defect_eq_duplicateMapKey_iff depth hmq rfl hattributes]
          simp
      | false =>
          rw [hrepeated] at hattributes
          exact iff_of_false (defect_ne_duplicateMapKey depth hmq hattributes)
            fun h => Bool.false_ne_true h.1
    · rw [← repeated_iff_repeats hm] at h
      have hfailed : m.attributes.defect.isSome = true := by
        rw [defect_attributes, h]
        rfl
      exact (error_of_outline depth hmq hfailed).trans (error_attributes h)

/-- A map with two keys of one name, the second of them for an empty slot. -/
def numberAndNull : Site where
  attrs := { name := "" }
  top := true
  above := ∅
  value := .ofShape (.map .string "String" [("Key", .ofShape (.scalar .i64)), ("key", .emptySlot)])

/-- The node of the second key has the text of the defect without the defect. -/
theorem repeated_key_defect_iff_null : ∃ o c, Outlines {} numberAndNull o
    ∧ numberAndNull.Leaves {} o.tree ∧ o.tree.children[1]? = some c
    ∧ c.label.defect ≠ some .duplicateMapKey
    ∧ c.label.native.error = "duplicate map key \"Key\" (\"key\")" := by
  have hwritten : numberAndNull.value.IsWritten := by
    intro w hw
    simp [numberAndNull, Value.ofShape, Value.emptySlot, Value.subvalues,
      Value.subvaluesEntries] at hw
    rcases hw with rfl | rfl | rfl <;> exact ⟨_, _, rfl⟩
  obtain ⟨o, ho⟩ : ∃ o, Outlines {} numberAndNull o := exists_outlines_of_isWritten hwritten
  have hmembers : members [("Key", .ofShape (.scalar .i64)), ("key", .emptySlot)] =
      [⟨"Key", "Key", .ofShape (.scalar .i64), false⟩, ⟨"Key", "key", .emptySlot, true⟩] := by
    have hkey : Text.capitalize "Key" = "Key" := by decide +kernel
    have hkey' : Text.capitalize "key" = "Key" := by decide +kernel
    rw [members_of_pairwise (by decide +kernel)]
    simp [hkey, hkey', markRepeated]
  obtain ⟨hleaves, -, -, -, hchildren⟩ := @repeated_key_defect_iff {} numberAndNull none none
    _ _ _ rfl rfl rfl (by decide) ho
  obtain ⟨c, hc, hdefect, herror⟩ := hchildren 1 ⟨"Key", "key", .emptySlot, true⟩
    (by rw [hmembers]; rfl)
  have hrepeats : Repeats (members [("Key", .ofShape (.scalar .i64)), ("key", .emptySlot)]) 1
      ⟨"Key", "key", .emptySlot, true⟩ := by
    rw [hmembers]
    exact ⟨0, Nat.one_pos, _, rfl, rfl⟩
  refine ⟨o, c, ho, hleaves, hc, fun h => ?_, (herror hrepeats).trans (by decide +kernel)⟩
  exact (hdefect.mp h).2 (.emptySlot rfl)

end Main

end TypeOutline
