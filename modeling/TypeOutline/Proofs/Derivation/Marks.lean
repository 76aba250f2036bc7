import TypeOutline.Proofs.Derivation.Relabelling

/-!
# What wrappers leave on a node

A wrapper writes on the node of its content: the kind of the wrapper,
that a null may take the place of the content, and whether an optional
was empty. A level that is met there later writes over most of it. What
stays are marks in the native block and the note of the null
(`Attributes.unmarked`). Nothing that is written on a node later depends
on them (`SameBelow.head`, `Same.mixedKinds` and the others), and neither
does a registry (`unnoticed_same`).

Two sorts of marks are told apart by a flag. An optional that is empty
and one that is not differ in one option alone. A value without a wrapper
and one with it differ in the type of the native block and in the note of
the null as well.
-/

namespace TypeOutline

/-! ## Options that are left out -/

namespace Dictionary

variable {α : Type}

theorem erase_insert_self (d : Dictionary α) (key : String) (value : α) :
    (d.insert key value).erase key = d.erase key := by
  refine eq_of_entries_eq ?_
  change (insertIn key value d.entries).filter (·.1 ≠ key) = d.entries.filter (·.1 ≠ key)
  induction d.entries with
  | nil => simp [insertIn]
  | cons e es ih =>
      rw [insertIn]
      by_cases h : e.1 = key
      · simp [h]
      · rw [if_neg h, List.filter_cons, List.filter_cons, ih]

theorem erase_insert_of_ne (d : Dictionary α) {key other : String} (h : other ≠ key) (value : α) :
    (d.insert other value).erase key = (d.erase key).insert other value := by
  refine eq_of_entries_eq ?_
  change (insertIn other value d.entries).filter (·.1 ≠ key) =
    insertIn other value (d.entries.filter (·.1 ≠ key))
  induction d.entries with
  | nil => simp [insertIn, h]
  | cons e es ih =>
      rw [insertIn]
      by_cases he : e.1 = other
      · have hkey : e.1 ≠ key := he ▸ h
        simp [he, h, insertIn]
      · rw [if_neg he, List.filter_cons, List.filter_cons, ih]
        split
        · rw [insertIn, if_neg he]
        · rfl

theorem erase_erase (d : Dictionary α) (key other : String) :
    (d.erase key).erase other = (d.erase other).erase key := by
  refine eq_of_entries_eq ?_
  change (d.entries.filter _).filter _ = (d.entries.filter _).filter _
  rw [List.filter_filter, List.filter_filter]
  exact List.filter_congr fun e _ => Bool.and_comm ..

theorem erase_erase_self (d : Dictionary α) (key : String) :
    (d.erase key).erase key = d.erase key := by
  refine eq_of_entries_eq ?_
  change (d.entries.filter _).filter _ = d.entries.filter _
  rw [List.filter_filter]
  exact List.filter_congr fun e _ => Bool.and_self _

end Dictionary

namespace OptionSet

/-- The option of an optional that says whether it was empty. -/
def emptiness : String := "is_nil"

variable (o : OptionSet)

theorem delete_delete : (o.delete emptiness).delete emptiness = o.delete emptiness :=
  congrArg OptionSet.mk (o.entries.erase_erase_self emptiness)

theorem delete_setBool (value : Bool) :
    (o.setBool emptiness value).delete emptiness = o.delete emptiness :=
  congrArg OptionSet.mk (o.entries.erase_insert_self emptiness _)

/-- Other options are written as if the option were not there. -/
theorem delete_set {key : String} (h : key ≠ emptiness) (value : String) :
    (o.set key value).delete emptiness = (o.delete emptiness).set key value := by
  unfold set
  split
  · rfl
  · split
    · exact congrArg OptionSet.mk (o.entries.erase_erase key emptiness)
    · exact congrArg OptionSet.mk (o.entries.erase_insert_of_ne h value)

end OptionSet

/-- The block without what a wrapper may have left there: whether an optional was empty and, if
`wrapped`, a type. -/
def Override.unmarked (wrapped : Bool) (b : Override) : Override :=
  { b with
    type := if wrapped then "" else b.type
    options := b.options.delete OptionSet.emptiness }

namespace Attributes

/-- The node without what a wrapper may have left there: whether an optional was empty and, if
`wrapped`, the type of the native block and whether a null may take the place of the value. -/
def unmarked (wrapped : Bool) (a : Attributes) : Attributes :=
  { a with nullable := !wrapped && a.nullable }.modifyNative (·.unmarked wrapped)

/-- The nodes differ at most in what a wrapper may leave there. -/
def Same (wrapped : Bool) (a b : Attributes) : Prop := a.unmarked wrapped = b.unmarked wrapped

variable {wrapped : Bool} {a b : Attributes}

theorem modifyNative_eq (a : Attributes) (f : Override → Override) : a.modifyNative f =
    { a with overrides := a.overrides.insert nativeDialect (f a.native) } := rfl

theorem unmarked_eq (wrapped : Bool) (a : Attributes) : a.unmarked wrapped =
    { a with
      nullable := !wrapped && a.nullable
      overrides := a.overrides.insert nativeDialect (a.native.unmarked wrapped) } := rfl

theorem native_unmarked (wrapped : Bool) (a : Attributes) :
    (a.unmarked wrapped).native = a.native.unmarked wrapped :=
  native_modifyNative _ _

/-- What is written in the native block, if the marks there do not matter. -/
theorem unmarked_modifyNative {f : Override → Override}
    (hf : ∀ c, (f (c.unmarked wrapped)).unmarked wrapped = (f c).unmarked wrapped)
    (a : Attributes) : (a.modifyNative f).unmarked wrapped =
      (a.unmarked wrapped).modifyNative fun c => (f c).unmarked wrapped := by
  have hnative : (a.modifyNative f).native = f a.native := native_modifyNative a f
  rw [unmarked_eq, hnative, modifyNative_eq _ fun c => (f c).unmarked wrapped, native_unmarked, hf,
    unmarked_eq, modifyNative_eq]
  simp only [Dictionary.insert_insert]

theorem Same.modifyNative (h : a.Same wrapped b) {f : Override → Override}
    (hf : ∀ c, (f (c.unmarked wrapped)).unmarked wrapped = (f c).unmarked wrapped) :
    (a.modifyNative f).Same wrapped (b.modifyNative f) := by
  rw [Same, unmarked_modifyNative hf, unmarked_modifyNative hf, h]

/-- What is said outside the native block. -/
theorem Same.map (h : a.Same wrapped b) {f : Attributes → Attributes}
    (hf : ∀ c, (f c).unmarked wrapped = f (c.unmarked wrapped)) : (f a).Same wrapped (f b) := by
  rw [Same, hf, hf, h]

theorem Same.modifyOptions (h : a.Same wrapped b) {f : OptionSet → OptionSet}
    (hf : ∀ o, (f (o.delete OptionSet.emptiness)).delete OptionSet.emptiness =
      (f o).delete OptionSet.emptiness) : (a.modifyOptions f).Same wrapped (b.modifyOptions f) :=
  h.modifyNative fun c => by
    cases wrapped <;> simp only [Override.unmarked, hf] <;> rfl

/-! ## What is written on a node -/

section Written

theorem Same.defect_eq (h : a.Same wrapped b) : a.defect = b.defect := congrArg (·.defect) h

theorem Same.fail (h : a.Same wrapped b) (d : Defect) : (a.fail d).Same wrapped (b.fail d) :=
  h.map (f := (·.fail d)) fun _ => rfl

theorem Same.set (h : a.Same wrapped b) {key : String} (hkey : key ≠ OptionSet.emptiness)
    (value : String) :
    (a.modifyOptions (·.set key value)).Same wrapped (b.modifyOptions (·.set key value)) :=
  h.modifyOptions fun o => by
    rw [OptionSet.delete_set _ hkey, OptionSet.delete_set _ hkey, OptionSet.delete_delete]

theorem Same.setBool (h : a.Same wrapped b) (value : Bool) :
    (a.modifyOptions (·.setBool OptionSet.emptiness value)).Same wrapped
      (b.modifyOptions (·.setBool OptionSet.emptiness value)) :=
  h.modifyOptions fun o => by
    rw [OptionSet.delete_setBool, OptionSet.delete_setBool, OptionSet.delete_delete]

theorem Same.classify (h : a.Same wrapped b) (kind : Kind) :
    (a.classify kind).Same wrapped (b.classify kind) :=
  (h.map (f := fun c => { c with generic := .ofKind kind, invalidKind := none }) fun _ => rfl).set
    (by decide) kind.name

theorem Same.declare (h : a.Same wrapped b) (name : String) :
    (a.declare name).Same wrapped (b.declare name) :=
  (h.map (f := fun c => { c with typeRef := name }) fun _ => rfl).modifyNative fun c => by
    have hkey : "type_name" ≠ OptionSet.emptiness := by decide
    cases wrapped <;>
      simp only [Override.unmarked, OptionSet.delete_set _ hkey, OptionSet.delete_delete] <;> rfl

theorem Same.nullable (h : a.Same wrapped b) :
    Same wrapped { a with nullable := true } { b with nullable := true } := by
  have hnull := congrArg (fun c : Attributes => { c with nullable := !wrapped && true }) h
  exact hnull

theorem Same.settleScalar (h : a.Same wrapped b) (kind : Kind) :
    (a.settleScalar kind).Same wrapped (b.settleScalar kind) := by
  unfold Attributes.settleScalar
  split
  · exact (h.map (f := fun c => { c with typeRef := "" }) fun _ => rfl).modifyNative fun c => by
      cases wrapped <;> simp only [Override.unmarked, OptionSet.delete_delete] <;> rfl
  · exact h

theorem Same.badKeys (h : a.Same wrapped b) (keyType : String) :
    (Schema.badKeys keyType a).Same wrapped (Schema.badKeys keyType b) :=
  (h.fail _).modifyNative fun c => by
    cases wrapped <;> simp only [Override.unmarked, OptionSet.delete_delete] <;> rfl

theorem Same.mixedKinds (h : a.Same wrapped b) (kinds : Dictionary Nat) :
    (Schema.mixedKinds kinds a).Same wrapped (Schema.mixedKinds kinds b) :=
  (h.fail _).modifyNative fun c => by
    cases wrapped <;> simp only [Override.unmarked, OptionSet.delete_delete] <;> rfl

theorem Same.typeLabel_eq (h : a.Same wrapped b) : a.typeLabel = b.typeLabel :=
  congrArg (·.typeLabel) h

end Written

/-! ## Before a level is met -/

/-- The nodes are the same as soon as a kind is written there. -/
def SameBelow (wrapped : Bool) (a b : Attributes) : Prop :=
  a.defect = b.defect ∧ ∀ kind, (a.classify kind).Same wrapped (b.classify kind)

theorem Same.below (h : a.Same wrapped b) : a.SameBelow wrapped b := ⟨h.defect_eq, h.classify⟩

theorem SameBelow.trans {c : Attributes} (h : a.SameBelow wrapped b) (h' : b.SameBelow wrapped c) :
    a.SameBelow wrapped c :=
  ⟨h.1.trans h'.1, fun kind => (h.2 kind).trans (h'.2 kind)⟩

/-- The head of a level is the same then. -/
theorem SameBelow.head (h : a.SameBelow wrapped b) (kind : Kind) (ruling : Ruling) :
    (a.head kind ruling).Same wrapped (b.head kind ruling) := by
  have hclassify := h.2 kind
  have htyped : (a.typed kind).Same wrapped (b.typed kind) := hclassify.modifyNative fun c => by
    cases wrapped <;> simp only [Override.unmarked, OptionSet.delete_delete]
  cases ruling with
  | unsupported =>
      exact (hclassify.fail _).map (f := fun c => { c with invalidKind := some kind.name })
        fun _ => rfl
  | misplaced => exact hclassify.fail _
  | cycle name => exact (htyped.declare name).fail _
  | enters name =>
      cases name with
      | none => exact htyped
      | some name => exact htyped.declare name

end Attributes

end TypeOutline
