import TypeOutline.Proofs.Derivation.Depth

/-!
# Definitions

The registry as a plain list of trees. The first finished node of a named
type that does not close a cycle is defined: its tree is taken over, cut
down to references (`record`). A definition needs no other definition to
be made first: when a level is finished, the types of all nodes below it
are in the registry already, unless they only close a cycle
(`settled_of_outline`).
-/

namespace TypeOutline

/-! ## Cutting down to references -/

namespace Rose

mutual

/-- A node of a named type is cut down to a reference, without members and
without a defect. One that closes a cycle has no members to lose. -/
def cut : Rose Attributes → Rose Attributes
  | .node a ts =>
      if a.isReference then .node { a with defect := none } (if a.isCyclical then ts else [])
      else .node a (cutAll ts)

def cutAll : List (Rose Attributes) → List (Rose Attributes)
  | [] => []
  | t :: ts => t.cut :: cutAll ts

end

/-- The definition made of a tree. -/
def definition : Rose Attributes → Rose Attributes
  | .node a ts => .node a.definition (cutAll ts)

@[simp] theorem label_definition (t : Rose Attributes) :
    t.definition.label = t.label.definition := by
  cases t
  rfl

end Rose

/-- The named type that a finished node defines. -/
def Attributes.defines? (a : Attributes) : Option String :=
  if a.isReference && !a.isCyclical then some a.native.typeRef else none

/-- The registry has a definition under the name. -/
def Defined (R : List (Rose Attributes)) (name : String) : Prop :=
  ∃ t ∈ R, t.label.name = name

instance (R : List (Rose Attributes)) (name : String) : Decidable (Defined R name) :=
  inferInstanceAs (Decidable (∃ t ∈ R, t.label.name = name))

/-- The registry after a level is finished. -/
def record (R : List (Rose Attributes)) (t : Rose Attributes) : List (Rose Attributes) :=
  match t.label.defines? with
  | none => R
  | some name => if Defined R name then R else R ++ [t.definition]

/-- The registry after all that an outline finished. -/
def recordAll (R : List (Rose Attributes)) (fs : List Finished) : List (Rose Attributes) :=
  fs.foldl (fun R f => record R f.tree) R

variable {R : List (Rose Attributes)}

theorem defines?_eq_some {a : Attributes} {n : String} :
    a.defines? = some n ↔ a.isReference = true ∧ a.isCyclical = false ∧ a.native.typeRef = n := by
  unfold Attributes.defines?
  cases a.isReference <;> cases a.isCyclical <;> simp

theorem defines?_ne_empty {a : Attributes} {n : String} (h : a.defines? = some n) : n ≠ "" := by
  obtain ⟨href, -, rfl⟩ := defines?_eq_some.mp h
  exact bne_iff_ne.mp href

/-- A definition has the name of the type that it defines. -/
theorem name_definition {t : Rose Attributes} {n : String} (h : t.label.defines? = some n) :
    t.definition.label.name = n := by
  rw [Rose.label_definition]
  exact (defines?_eq_some.mp h).2.2

/-! ## What is in the registry -/

theorem Defined.record {n : String} (h : Defined R n) (t : Rose Attributes) :
    Defined (record R t) n := by
  obtain ⟨d, hd, hn⟩ := h
  unfold TypeOutline.record
  split
  · exact ⟨d, hd, hn⟩
  · split
    · exact ⟨d, hd, hn⟩
    · exact ⟨d, List.mem_append_left _ hd, hn⟩

theorem Defined.recordAll {n : String} (h : Defined R n) (fs : List Finished) :
    Defined (recordAll R fs) n := by
  induction fs generalizing R with
  | nil => exact h
  | cons f fs ih => exact ih (h.record f.tree)

/-- A finished node has its type defined. -/
theorem defined_record {t : Rose Attributes} {n : String} (h : t.label.defines? = some n) :
    Defined (record R t) n := by
  simp only [record, h]
  split
  · rename_i hd
    exact hd
  · exact ⟨t.definition, List.mem_append_right _ (List.mem_singleton_self _), name_definition h⟩

theorem recordAll_append (R : List (Rose Attributes)) (fs gs : List Finished) :
    recordAll R (fs ++ gs) = recordAll (recordAll R fs) gs :=
  List.foldl_append

theorem recordAll_singleton (R : List (Rose Attributes)) (f : Finished) :
    recordAll R [f] = record R f.tree := rfl

/-! ## A level is finished after its members -/

/-- The type of a node is in the registry, unless it only closes a cycle. -/
def Settled (R : List (Rose Attributes)) (a : Attributes) : Prop :=
  ∀ n, a.defines? = some n → Defined R n

theorem Settled.recordAll {a : Attributes} (h : Settled R a) (fs : List Finished) :
    Settled (recordAll R fs) a :=
  fun n hn => (h n hn).recordAll fs

theorem settled_of_typeRef_eq {a : Attributes} (h : a.native.typeRef = "") : Settled R a := by
  intro n hn
  obtain ⟨href, -, -⟩ := defines?_eq_some.mp hn
  rw [Attributes.isReference, h] at href
  cases href

/-- A tree leaves the registry with the types of all its nodes. -/
def Outline.Settles (o : Outline) : Prop :=
  ∀ R, ∀ a ∈ o.tree.preorder, Settled (recordAll R o.finished) a

theorem settles_all : ∀ {os : List Outline}, (∀ o ∈ os, o.Settles) → ∀ R,
    ∀ a ∈ Rose.preorderAll (os.map (·.tree)), Settled (recordAll R (os.flatMap (·.finished))) a
  | [], _, _, _, ha => absurd ha List.not_mem_nil
  | o :: os, h, R, a, ha => by
      rw [List.map_cons, Rose.preorderAll] at ha
      rw [List.flatMap_cons, recordAll_append]
      rcases List.mem_append.mp ha with ha | ha
      · exact (h o List.mem_cons_self R a ha).recordAll _
      · exact settles_all (fun o' ho' => h o' (List.mem_cons_of_mem o ho')) _ a ha

/-! ## The types of all nodes below a finished level -/

theorem settled_head_of_refused {a : Attributes} {kind : Kind} {ruling : Ruling}
    (ha : a.native.typeRef = "") (h : ∀ name, ruling ≠ .enters name) :
    Settled R (a.head kind ruling) := by
  have hclassify : (a.classify kind).native.typeRef = "" :=
    (Attributes.keepsType_classify a kind).typeRef_eq.trans ha
  cases ruling with
  | unsupported => exact settled_of_typeRef_eq hclassify
  | misplaced => exact settled_of_typeRef_eq hclassify
  | cycle name =>
      intro n hn
      obtain ⟨-, hcyc, -⟩ := defines?_eq_some.mp hn
      cases hcyc
  | enters name => exact absurd rfl (h name)

/-- The registry after an outline has the types of all nodes below the top,
and of the top if no level was there before. -/
def SettlesBelow (derive : Site → Option Outline) : Prop :=
  ∀ {p : Site} {o : Outline}, derive p = some o → ∀ R,
    (∀ a ∈ Rose.preorderAll o.tree.children, Settled (recordAll R o.finished) a)
      ∧ (p.attrs.native.typeRef = "" → Settled (recordAll R o.finished) o.tree.label)

theorem SettlesBelow.settles {derive : Site → Option Outline} (h : SettlesBelow derive)
    {p : Site} {o : Outline} (hp : derive p = some o) (hattrs : p.attrs.native.typeRef = "") :
    o.Settles := by
  intro R a ha
  obtain ⟨hbelow, hlabel⟩ := h hp R
  generalize o.tree = t at ha hbelow hlabel
  obtain ⟨b, ts⟩ := t
  rcases List.mem_cons.mp ha with rfl | ha
  · exact hlabel hattrs
  · exact hbelow a ha

theorem SettlesBelow.content {derive : Site → Option Outline} (h : SettlesBelow derive)
    {a : Attributes} {shape : Shape Value} {top : Bool} {above : Finset String} {o : Outline}
    (ho : (shape.content a).outline derive top above = some o) (R : List (Rose Attributes)) :
    ∀ b ∈ Rose.preorderAll o.tree.children, Settled (recordAll R o.finished) b := by
  intro b hb
  cases gives_outline ho with
  | leaf a' _ _ ho' =>
      subst ho'
      exact absurd hb List.not_mem_nil
  | same a' v _ _ ho' => exact (h ho' R).1 b hb
  | each os _ _ _ _ htrees hfinished hos =>
      rw [hfinished]
      refine settles_all (fun o' ho' => ?_) R b ?_
      · obtain ⟨q, -, hblank, hq⟩ := hos o' ho'
        exact h.settles hq hblank.typeRef_eq
      · obtain ⟨t, ht, hbt⟩ := Rose.mem_preorderAll.mp hb
        exact Rose.mem_preorderAll.mpr ⟨t, List.mem_map.mpr (htrees t ht), hbt⟩

/-- Below the node of a finished level every named type is in the
registry. The node itself may only lack its own if the level was not
entered and another level on the same node named it. -/
theorem settled_of_outline (types : Types) (depth : Nat) :
    SettlesBelow (outline types depth) := by
  induction depth with
  | zero => exact fun h => nomatch h
  | succ depth ih =>
      intro p o h R
      obtain ⟨l, hl, ⟨hr, rfl⟩ | ⟨name, o, hr, ho, rfl⟩⟩ := outline_succ_cases h
      case inl =>
        exact ⟨fun a ha => absurd ha List.not_mem_nil,
          fun hattrs => settled_head_of_refused hattrs hr⟩
      case inr =>
        show (∀ a ∈ Rose.preorderAll o.tree.children,
            Settled (recordAll R (o.finished ++ [⟨p, l, o.tree⟩])) a)
          ∧ (_ → Settled (recordAll R (o.finished ++ [⟨p, l, o.tree⟩])) o.tree.label)
        rw [recordAll_append, recordAll_singleton]
        exact ⟨fun a ha => (ih.content ho R a ha).recordAll [⟨p, l, o.tree⟩],
          fun _ n hn => defined_record hn⟩

end TypeOutline
