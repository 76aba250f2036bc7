import TypeOutline.Proofs.Derivation.DocumentTrees
import TypeOutline.Proofs.Rendering.Renderer
import TypeOutline.Proofs.Rendering.Retagged
import TypeOutline.Proofs.Rendering.TreeLines
import TypeOutline.Schema.Dump

/-!
# What a dump tells

The dump of a schema leaves out what is empty and the blocks of the tops,
writes an unsupported kind into the type, and the options of a block as
texts. The renderings read the attributes themselves. From the members of
the dump of one node all that can be seen of the node is found again
(`alike_of_dump`): its blocks but for their options and, as only nodes
that are invalid keep an unsupported kind, its generic type and that kind.
So by recursion over the trees schemas with one dump look alike
(`Rose.sight_eq_of_dump`), and have the same lines in every dialect.
-/

namespace TypeOutline

open Relation (TransGen)

/-! ## JSON values but for the order of members -/

namespace Json

mutual

/-- The values are equal but for the order of members: each member of one object has a like one in
the other, which has no other keys. -/
def like : Json → Json → Bool
  | null, null => true
  | bool a, bool b => a == b
  | number a, number b => a == b
  | string a, string b => a == b
  | array as, array bs => likeAll as bs
  | object ms, object ns => likeMembers ms ns && ns.all fun e => (ms.lookup e.1).isSome
  | _, _ => false

def likeAll : List Json → List Json → Bool
  | [], [] => true
  | a :: as, b :: bs => like a b && likeAll as bs
  | _, _ => false

/-- Each member has a like one under its key in the other list. -/
def likeMembers : List (String × Json) → List (String × Json) → Bool
  | [], _ => true
  | (k, a) :: ms, ns =>
      (match ns.lookup k with
        | some b => like a b
        | none => false) && likeMembers ms ns

end

/-- The values are equal but for the order of members. -/
def Like (a b : Json) : Prop := a.like b = true

theorem Like.string_eq {s t : String} (h : (string s).Like (string t)) : s = t := by
  rwa [Like, like, beq_iff_eq] at h

theorem forall₂_of_likeAll : ∀ {as bs : List Json}, likeAll as bs = true → List.Forall₂ Like as bs
  | [], [], _ => .nil
  | a :: as, b :: bs, h => by
      rw [likeAll, Bool.and_eq_true] at h
      exact .cons h.1 (forall₂_of_likeAll h.2)
  | [], _ :: _, h => absurd h Bool.false_ne_true
  | _ :: _, [], h => absurd h Bool.false_ne_true

theorem Like.items {as bs : List Json} (h : (array as).Like (array bs)) :
    List.Forall₂ Like as bs := by
  rw [Like, like] at h
  exact forall₂_of_likeAll h

theorem exists_like_of_lookup : ∀ {ms ns : List (String × Json)} {k : String} {a : Json},
    likeMembers ms ns = true → ms.lookup k = some a → ∃ b, ns.lookup k = some b ∧ a.Like b
  | (l, c) :: ms, ns, k, a, h, ha => by
      rw [likeMembers, Bool.and_eq_true] at h
      rw [List.lookup_cons] at ha
      split at ha
      · rename_i hkl
        obtain rfl := Option.some.inj ha
        rw [eq_of_beq hkl]
        obtain ⟨h, -⟩ := h
        split at h
        · rename_i b hb
          exact ⟨b, hb, h⟩
        · exact absurd h Bool.false_ne_true
      · exact exists_like_of_lookup h.2 ha

/-- Like objects have like members under each key. -/
theorem Like.lookup {ms ns : List (String × Json)} (h : (object ms).Like (object ns))
    (k : String) : Option.Rel Like (ms.lookup k) (ns.lookup k) := by
  rw [Like, like, Bool.and_eq_true, List.all_eq_true] at h
  cases ha : ms.lookup k with
  | some a =>
      obtain ⟨b, hb, hab⟩ := exists_like_of_lookup h.1 ha
      rw [hb]
      exact .some hab
  | none =>
      have hb : ns.lookup k = none := by
        rw [List.lookup_eq_none_iff]
        intro e he
        rw [bne_iff_ne]
        rintro rfl
        have hsome := h.2 e he
        rw [ha] at hsome
        exact absurd hsome Bool.false_ne_true
      rw [hb]
      exact .none

/-! ### Members that may be left out -/

/-- A member, unless it is left out. -/
def member (key : String) (value? : Option Json) : List (String × Json) :=
  value?.elim [] fun value => [(key, value)]

theorem lookup_member (key : String) (value? : Option Json) (k : String) :
    (member key value?).lookup k = if k = key then value? else none := by
  cases value? with
  | none => exact (ite_self _).symm
  | some value =>
      rw [member, Option.elim_some, List.lookup_cons]
      by_cases hk : k = key
      · rw [if_pos hk, hk, beq_self_eq_true]
      · rw [if_neg hk, beq_eq_false_iff_ne.mpr hk]
        rfl

/-- A text, left out if it is empty. -/
def text? (s : String) : Option Json := if s = "" then none else some (string s)

/-- A list, left out if it is empty. -/
def list? (items : List Json) : Option Json := if items.isEmpty then none else some (array items)

/-- A flag, left out if it is not set. -/
def flag? (b : Bool) : Option Json := if b then some (bool true) else none

theorem textMember_eq (key s : String) : textMember key s = member key (text? s) := by
  unfold textMember text?
  split <;> rfl

theorem listMember_eq (key : String) (items : List Json) :
    listMember key items = member key (list? items) := by
  unfold listMember list?
  split <;> rfl

theorem eq_of_rel_text? {s t : String} (h : Option.Rel Like (text? s) (text? t)) : s = t := by
  unfold text? at h
  split at h
  · split at h
    · rename_i hs ht
      rw [hs, ht]
    · cases h
  · split at h
    · cases h
    · cases h with
      | some h => exact h.string_eq

theorem forall₂_of_rel_list? {as bs : List Json} (h : Option.Rel Like (list? as) (list? bs)) :
    List.Forall₂ Like as bs := by
  unfold list? at h
  split at h
  · split at h
    · rename_i ha hb
      rw [List.isEmpty_iff.mp ha, List.isEmpty_iff.mp hb]
      exact .nil
    · cases h
  · split at h
    · cases h
    · cases h with
      | some h => exact h.items

theorem eq_of_rel_flag? {a b : Bool} (h : Option.Rel Like (flag? a) (flag? b)) : a = b := by
  cases a <;> cases b
  · rfl
  · cases h
  · cases h
  · rfl

theorem eq_of_forall₂_string {ss ts : List String}
    (h : List.Forall₂ Like (ss.map string) (ts.map string)) : ss = ts := by
  rw [List.forall₂_map_left_iff, List.forall₂_map_right_iff] at h
  exact List.forall₂_eq_eq_eq ▸ h.imp fun _ _ => Like.string_eq

end Json

open Json

/-! ## Blocks -/

theorem Inclusion.eq_of_name_eq {i j : Inclusion} (h : i.name = j.name) : i = j := by
  revert h
  cases i <;> cases j <;> decide

namespace Override

/-- The block without its options. -/
def bare (b : Override) : Override := { b with options := {} }

theorem dump_eq (b : Override) : b.dump = .object (member "dialect" (some (.string b.dialect))
    ++ member "name" (text? b.name)
    ++ member "type" (text? b.type)
    ++ member "type_ref" (text? b.typeRef)
    ++ member "include" (some (.string b.inclusion.name))
    ++ member "options" (list? (b.options.toSortedList.map .string))
    ++ member "error" (text? b.error)) := by
  rw [dump, textMember_eq, textMember_eq, textMember_eq, textMember_eq, listMember_eq]
  rfl

/-- The dump of a block tells all of it but its options, and of these the texts. -/
theorem eq_of_dump {b c : Override} (h : b.dump.Like c.dump) :
    b.bare = c.bare ∧ b.options.toSortedList = c.options.toSortedList := by
  rw [dump_eq, dump_eq] at h
  have hlookup := h.lookup
  simp only [List.lookup_append, lookup_member] at hlookup
  have hdialect : b.dialect = c.dialect := Like.string_eq (by simpa using hlookup "dialect")
  have hname : b.name = c.name := eq_of_rel_text? (by simpa using hlookup "name")
  have htype : b.type = c.type := eq_of_rel_text? (by simpa using hlookup "type")
  have href : b.typeRef = c.typeRef := eq_of_rel_text? (by simpa using hlookup "type_ref")
  have hinclusion : b.inclusion = c.inclusion :=
    Inclusion.eq_of_name_eq (Like.string_eq (by simpa using hlookup "include"))
  have hoptions : b.options.toSortedList = c.options.toSortedList :=
    eq_of_forall₂_string (forall₂_of_rel_list? (by simpa using hlookup "options"))
  have herror : b.error = c.error := eq_of_rel_text? (by simpa using hlookup "error")
  refine ⟨?_, hoptions⟩
  rw [bare, bare, hdialect, hname, htype, href, hinclusion, herror]

end Override

/-! ## Nodes -/

namespace Attributes

variable {a b : Attributes}

/-- The blocks of a node, left out if there are none or the node is a top. -/
def blocks? (a : Attributes) : Option Json :=
  if a.isRoot || a.overrides.isEmpty then none
  else some (.object (a.overrides.entries.map fun e => (e.1, e.2.dump)))

/-- The blocks of both nodes in a dialect are the same but for their options. -/
theorem block_eq_of_blocks? (ha : a.isRoot = false) (hb : b.isRoot = false)
    (h : Option.Rel Like a.blocks? b.blocks?) (dialect : String) :
    (a.block dialect).bare = (b.block dialect).bare := by
  rw [blocks?, blocks?, ha, hb, Bool.false_or, Bool.false_or] at h
  split at h
  · split at h
    · rename_i ha hb
      rw [block, block, override?, override?, Dictionary.find?, Dictionary.find?,
        List.isEmpty_iff.mp ha, List.isEmpty_iff.mp hb]
    · cases h
  · split at h
    · cases h
    · cases h with
      | some h =>
          have hdialect := h.lookup dialect
          rw [Dictionary.lookup_map_snd, Dictionary.lookup_map_snd] at hdialect
          rw [block, block, override?, override?, Dictionary.find?, Dictionary.find?]
          generalize a.overrides.entries.lookup dialect = x at hdialect ⊢
          generalize b.overrides.entries.lookup dialect = y at hdialect ⊢
          cases x with
          | none =>
              cases y with
              | none => rfl
              | some c => cases hdialect
          | some c =>
              cases y with
              | none => cases hdialect
              | some c' =>
                  cases hdialect with
                  | some h => exact (Override.eq_of_dump h).1

/-- Only a node that is invalid keeps an unsupported kind. -/
def KeepsKindIfInvalid (a : Attributes) : Prop := a.generic ≠ .invalid → a.invalidKind = none

theorem slug_eq_iff {g g' : Generic} : g.slug = g'.slug ↔ g = g' :=
  ⟨fun h => Option.some.inj (by rw [← Generic.ofSlug?_slug g, h, Generic.ofSlug?_slug]), congrArg _⟩

theorem category_name_eq_iff {g : Generic} :
    g.category.name = Category.invalid.name ↔ g = .invalid := by
  cases g <;> decide

theorem typeLabel_of_invalid (h : a.generic = .invalid) :
    a.typeLabel = a.invalidKind.elim "invalid" ("invalid:" ++ ·) := by
  rw [typeLabel, h]
  cases a.invalidKind <;> rfl

theorem typeLabel_of_valid (ha : a.KeepsKindIfInvalid) (h : a.generic ≠ .invalid) :
    a.typeLabel = a.generic.slug := by
  rw [typeLabel, ha h]

theorem invalidLabel_injective {kind kind' : Option String}
    (h : kind.elim "invalid" ("invalid:" ++ ·) = kind'.elim "invalid" ("invalid:" ++ ·)) :
    kind = kind' := by
  have hlength : ∀ k : String, "invalid" ≠ "invalid:" ++ k := by
    intro k hk
    have hk := congrArg String.length hk
    rw [String.length_append] at hk
    have hshort : "invalid".length < "invalid:".length := by decide
    omega
  cases kind with
  | none =>
      cases kind' with
      | none => rfl
      | some k => exact absurd h (hlength k)
  | some k =>
      cases kind' with
      | none => exact absurd h.symm (hlength k)
      | some k' => exact congrArg some ((String.append_right_inj _).mp h)

/-- The generic type and the unsupported kind are found in the label of the type. -/
theorem eq_of_typeLabel_eq (ha : a.KeepsKindIfInvalid) (hb : b.KeepsKindIfInvalid)
    (hcategory : a.category.name = b.category.name) (hlabel : a.typeLabel = b.typeLabel) :
    a.generic = b.generic ∧ a.invalidKind = b.invalidKind := by
  have hiff : a.generic = .invalid ↔ b.generic = .invalid := by
    rw [← category_name_eq_iff, ← category_name_eq_iff]
    exact Eq.congr_left hcategory
  by_cases hinvalid : a.generic = .invalid
  · have hinvalid' := hiff.mp hinvalid
    rw [typeLabel_of_invalid hinvalid, typeLabel_of_invalid hinvalid'] at hlabel
    exact ⟨hinvalid.trans hinvalid'.symm, invalidLabel_injective hlabel⟩
  · have hinvalid' := mt hiff.mpr hinvalid
    rw [typeLabel_of_valid ha hinvalid, typeLabel_of_valid hb hinvalid'] at hlabel
    exact ⟨slug_eq_iff.mp hlabel, by rw [ha hinvalid, hb hinvalid']⟩

theorem eq_of_rel_message {d d' : Option Defect}
    (h : Option.Rel Like (d.map (.string ·.message)) (d'.map (.string ·.message))) : d = d' := by
  cases d with
  | none =>
      cases d' with
      | none => rfl
      | some d' => cases h
  | some d =>
      cases d' with
      | none => cases h
      | some d' =>
          cases h with
          | some h => rw [← Defect.ofMessage?_message, h.string_eq, Defect.ofMessage?_message]

theorem dumpOwn_eq (a : Attributes) : a.dumpOwn = member "name" (text? a.name)
    ++ (member "type" (some (.string a.typeLabel))
      ++ member "type_category" (some (.string a.category.name)))
    ++ member "type_ref" (text? a.typeRef)
    ++ member "nullable" (flag? a.nullable)
    ++ member "error" (a.defect.map (.string ·.message))
    ++ member "native" a.blocks? := by
  have hnullable : (if a.nullable = true then [("nullable", Json.bool true)] else []) =
      member "nullable" (flag? a.nullable) := by
    unfold flag?
    split <;> rfl
  have hdefect : (a.defect.elim [] fun d => [("error", Json.string d.message)]) =
      member "error" (a.defect.map (.string ·.message)) := by
    cases a.defect <;> rfl
  have hblocks : a.dumpOverrides = member "native" a.blocks? := by
    unfold dumpOverrides blocks?
    split <;> rfl
  rw [dumpOwn, textMember_eq, textMember_eq, hnullable, hdefect, hblocks]
  rfl

variable {as bs : List Json} (h : (object (a.dumpOwn ++ listMember "children" as)).Like
  (object (b.dumpOwn ++ listMember "children" bs)))

include h

theorem forall₂_children_of_dump : List.Forall₂ Like as bs := by
  rw [dumpOwn_eq, dumpOwn_eq, listMember_eq, listMember_eq] at h
  have hchildren := h.lookup "children"
  simp only [List.lookup_append, lookup_member] at hchildren
  exact forall₂_of_rel_list? (by simpa using hchildren)

/-- The members of a node in a dump tell all that can be seen of the node. -/
theorem alike_of_dump (ds : List String) (ha : a.isRoot = false) (hb : b.isRoot = false)
    (hkind : a.KeepsKindIfInvalid) (hkind' : b.KeepsKindIfInvalid) : a.Alike ds b := by
  rw [dumpOwn_eq, dumpOwn_eq, listMember_eq, listMember_eq] at h
  have hlookup := h.lookup
  simp only [List.lookup_append, lookup_member] at hlookup
  have hcategory : a.category.name = b.category.name :=
    Like.string_eq (by simpa using hlookup "type_category")
  have hlabel : a.typeLabel = b.typeLabel := Like.string_eq (by simpa using hlookup "type")
  obtain ⟨hgeneric, hinvalid⟩ := eq_of_typeLabel_eq hkind hkind' hcategory hlabel
  have hblocks : ∀ d, (a.block d).bare = (b.block d).bare :=
    block_eq_of_blocks? ha hb (by simpa using hlookup "native")
  have htype := congrArg Override.type (hblocks nativeDialect)
  have href := congrArg Override.typeRef (hblocks nativeDialect)
  exact
    { name_eq := eq_of_rel_text? (by simpa using hlookup "name")
      nullable_eq := eq_of_rel_flag? (by simpa using hlookup "nullable")
      generic_eq := hgeneric
      invalidKind_eq := hinvalid
      typeRef_eq := eq_of_rel_text? (by simpa using hlookup "type_ref")
      defect_eq := eq_of_rel_message (by simpa using hlookup "error")
      nativeType_eq := htype
      nativeRef_eq := href
      said_eq := fun d _ _ => congrArg (fun b : Override => { b with error := "" }) (hblocks d) }

end Attributes

/-! ## Trees -/

/-- What a dump needs to tell all that can be seen of the node. -/
structure Attributes.IsTold (a : Attributes) : Prop where
  notRoot : a.isRoot = false
  keepsKind : a.KeepsKindIfInvalid

namespace Rose

open Schema (dumpTree dumpTrees)

mutual

/-- Trees with one dump look alike. -/
theorem sight_eq_of_dump (ds : List String) : (t u : Rose Attributes) →
    (∀ a ∈ t.preorder, a.IsTold) → (∀ a ∈ u.preorder, a.IsTold) → (dumpTree t).Like (dumpTree u) →
      t.map (Attributes.sight ds) = u.map (Attributes.sight ds)
  | .node a ts, .node b us, ht, hu, h => by
      have ha := ht a List.mem_cons_self
      have hb := hu b List.mem_cons_self
      have halike := Attributes.alike_of_dump h ds ha.notRoot hb.notRoot ha.keepsKind hb.keepsKind
      rw [map, map, Attributes.alike_iff.mp halike]
      refine congrArg _ (sightAll_eq_of_dump ds ts us ?_ ?_ (Attributes.forall₂_children_of_dump h))
      · exact fun c hc => ht c (List.mem_cons_of_mem a hc)
      · exact fun c hc => hu c (List.mem_cons_of_mem b hc)

theorem sightAll_eq_of_dump (ds : List String) : (ts us : List (Rose Attributes)) →
    (∀ a ∈ preorderAll ts, a.IsTold) → (∀ a ∈ preorderAll us, a.IsTold) →
      List.Forall₂ Like (dumpTrees ts) (dumpTrees us) →
        mapAll (Attributes.sight ds) ts = mapAll (Attributes.sight ds) us
  | [], [], _, _, _ => rfl
  | t :: ts, u :: us, ht, hu, h => by
      cases h with
      | cons h hs =>
          rw [mapAll, mapAll, sight_eq_of_dump ds t u
              (fun a ha => ht a (List.mem_append_left _ ha))
              (fun a ha => hu a (List.mem_append_left _ ha)) h,
            sightAll_eq_of_dump ds ts us (fun a ha => ht a (List.mem_append_right _ ha))
              (fun a ha => hu a (List.mem_append_right _ ha)) hs]
  | [], _ :: _, _, _, h => by cases h
  | _ :: _, [], _, _, h => by cases h

end

end Rose

/-! ## Derived schemas -/

/-- In a derivation only what is invalid gets an unsupported kind. -/
theorem kept_keepsKindIfInvalid : Kept (fun a _ => a.KeepsKindIfInvalid) fun _ => True where
  refused {a l top above} _ _ _ := by
    cases hr : l.ruling top above with
    | unsupported =>
        have hcategory : (Generic.ofKind l.shape.kind).category = .invalid :=
          eq_of_beq (isUnsupported_of_ruling hr)
        exact fun h => absurd (Attributes.category_name_eq_iff.mp (congrArg _ hcategory)) h
    | misplaced => exact fun _ => rfl
    | cycle name => exact fun _ => rfl
    | enters name => cases name <;> exact fun _ => rfl
  entered {a l name} _ _ _ := by
    by_cases hslot : l.shape = .slot none
    · rw [hslot]
      exact fun h => absurd rfl h
    · refine (Content.obeys_of_kept (f := Attributes.invalidKind) (fun _ _ _ _ => rfl) _
        hslot).imp fun b _ hb _ => ?_
      rw [hb]
      cases name <;> rfl

section Derived

variable {types types' : Types} {v v' : Value} {s s' : Schema} {out : Outline} {top : NodeId}
  {t : Rose Attributes} {a : Attributes}

theorem isTold_of_mem_tree (hs : derive? types v = some s) (htop : s.IsTop top)
    (ht : t ∈ (s.tree top).children) (ha : a ∈ t.preorder) : a.IsTold := by
  have hlinked := linked_of_derive? hs
  obtain ⟨out, houtlines, ho⟩ := exists_outlines_of_derive? hs
  obtain ⟨k, hk, rfl⟩ : ∃ k, TransGen s.Owns top k ∧ s.attrs k = a := by
    obtain ⟨r, hr⟩ : ∃ r, s.subtree? top = some r := by
      obtain ⟨r, q, hr, hq⟩ := hlinked.exists_trees
      rcases htop with rfl | rfl
      · exact ⟨r, hr⟩
      · exact ⟨q, hq⟩
    rw [Schema.tree_eq_node hr, Rose.children, List.mem_map] at ht
    obtain ⟨c, hc, rfl⟩ := ht
    obtain ⟨q, hq⟩ := Schema.exists_subtree?_of_reaches hr (.single hc)
    obtain ⟨k, hk, hattrs⟩ := (Schema.mem_preorder_tree hq).mp ha
    exact ⟨k, .head' hc hk, hattrs⟩
  have hbelow := transGen_of_isTop htop hk
  refine ⟨isRoot_of_below_tops hlinked ho houtlines hbelow, ?_⟩
  have hevery := every_outlines kept_keepsKindIfInvalid houtlines fun _ _ _ _ => trivial
  have hshown : ∀ a, out.Shows a → a.KeepsKindIfInvalid := fun a ha =>
    (hevery.exists_of_shows ha).elim fun _ h => h
  exact forall_below_tops hlinked ho houtlines hshown (fun _ h => h) (fun _ h => h) hbelow

/-- Tops with one dump, of which all below is told, look alike. -/
theorem Rose.sight_eq_of_top {t u : Rose Attributes} (ds : List String) (hlabel : t.label = u.label)
    (ht : ∀ c ∈ t.children, ∀ a ∈ c.preorder, a.IsTold)
    (hu : ∀ c ∈ u.children, ∀ a ∈ c.preorder, a.IsTold)
    (h : (Schema.dumpTree t).Like (Schema.dumpTree u)) :
    t.map (Attributes.sight ds) = u.map (Attributes.sight ds) := by
  obtain ⟨a, ts⟩ := t
  obtain ⟨b, us⟩ := u
  obtain rfl : a = b := hlabel
  rw [map, map]
  refine congrArg _ (sightAll_eq_of_dump ds ts us (fun a ha => ?_) (fun a ha => ?_)
    (Attributes.forall₂_children_of_dump h))
  · obtain ⟨c, hc, ha⟩ := mem_preorderAll.mp ha
    exact ht c hc a ha
  · obtain ⟨c, hc, ha⟩ := mem_preorderAll.mp ha
    exact hu c hc a ha

/-- Derived schemas with one dump look alike, whatever blocks are read. -/
theorem Schema.alike_of_dump (ds : List String) (hs : derive? types v = some s)
    (hs' : derive? types' v' = some s') (h : s.dump.Like s'.dump) : Schema.Alike ds s s' := by
  obtain ⟨out, -, ho⟩ := exists_outlines_of_derive? hs
  obtain ⟨out', -, ho'⟩ := exists_outlines_of_derive? hs'
  have hroot := Option.rel_some_some.mp (h.lookup rootName)
  have hrefs := Option.rel_some_some.mp (h.lookup typeRefsName)
  refine ⟨Rose.sight_eq_of_top ds ?_ ?_ ?_ hroot, Rose.sight_eq_of_top ds ?_ ?_ ?_ hrefs⟩
  · rw [Schema.label_tree, Schema.label_tree, ho.attrs_root, ho'.attrs_root]
  · exact fun c hc a => isTold_of_mem_tree hs (.inl rfl) hc
  · exact fun c hc a => isTold_of_mem_tree hs' (.inl rfl) hc
  · rw [Schema.label_tree, Schema.label_tree, ho.attrs_typeRefs, ho'.attrs_typeRefs]
  · exact fun c hc a => isTold_of_mem_tree hs (.inr rfl) hc
  · exact fun c hc a => isTold_of_mem_tree hs' (.inr rfl) hc

/-- The lines of trees that look alike can be made for both or for neither. -/
theorem Dialect.topFault_eq_of_sight {t u : Rose Attributes} (d : Dialect) (o : RenderOptions)
    (url : Option String)
    (h : t.map (Attributes.sight [jsonDialect]) = u.map (Attributes.sight [jsonDialect])) :
    d.topFault o url t = d.topFault o url u := by
  have hchildren : t.children.isEmpty = u.children.isEmpty := by
    rw [← isEmpty_children_map, h, isEmpty_children_map]
  have hfault : d.treeFault o url t = d.treeFault o url u := by
    cases d with
    | openApi =>
        have hjson := List.mem_singleton_self jsonDialect
        rw [treeFault, treeFault, ← OpenApi.treeBlock_sight hjson, ← Rose.ordered_sight, h,
          Rose.ordered_sight, OpenApi.treeBlock_sight hjson]
    | _ => rfl
  rw [topFault, topFault, hchildren, hfault]

/-- Derived schemas whose dumps are equal but for the order of members have the same lines in every
dialect and both modes, and the lines of one can be made exactly if those of the other can. A
renderer at work gives the same result for both. -/
theorem lines_eq_of_dump (hs : derive? types v = some s) (hs' : derive? types' v' = some s')
    (h : s.dump.Like s'.dump) : (∀ d o url, s.lines d o url = s'.lines d o url
        ∧ s.linesFault d o url = s'.linesFault d o url)
      ∧ ∀ r : OpenApi.Renderer, r.render? s = r.render? s' := by
  have halike := Schema.alike_of_dump [jsonDialect] hs hs' h
  have hall : ∀ d o url, s.lines d o url = s'.lines d o url
      ∧ s.linesFault d o url = s'.linesFault d o url := by
    intro d o url
    refine ⟨lines_eq_of_alike (List.mem_singleton_self _) hs hs' halike d o url, ?_⟩
    rw [((linked_of_derive? hs).lines_eq d o url).2, ((linked_of_derive? hs').lines_eq d o url).2,
      Dialect.linesFaultOf, Dialect.linesFaultOf, d.topFault_eq_of_sight o url halike.root_eq,
      d.topFault_eq_of_sight o url halike.typeRefs_eq]
  refine ⟨hall, fun r => ?_⟩
  obtain ⟨hlines, hfault⟩ := hall .openApi r.options r.url
  rw [r.render?_eq, r.render?_eq, hlines, hfault]

end Derived

/-- Tags in another order give the same blocks in another order, and the same lines. -/
theorem lines_eq_of_dump_swapped : ∃ s s',
    derive? {} (tagged "json:\"id\" yaml:\"k\"") = some s
      ∧ derive? {} (tagged "yaml:\"k\" json:\"id\"") = some s'
      ∧ s.dump.same s'.dump = false ∧ s.dump.Like s'.dump
      ∧ s.lines .openApi {} (some "/ids") = s'.lines .openApi {} (some "/ids") := by
  have hdumps : ((derive? {} (tagged "json:\"id\" yaml:\"k\"")).bind fun s =>
      (derive? {} (tagged "yaml:\"k\" json:\"id\"")).map fun s' =>
        (s.dump.same s'.dump, s.dump.like s'.dump)) = some (false, true) := by decide +kernel
  obtain ⟨s, hs, hdumps⟩ := Option.bind_eq_some_iff.mp hdumps
  obtain ⟨s', hs', hdumps⟩ := Option.map_eq_some_iff.mp hdumps
  obtain ⟨hsame, hlike⟩ := Prod.mk.inj hdumps
  obtain ⟨hlines, -⟩ := lines_eq_of_dump hs hs' hlike
  exact ⟨s, s', hs, hs', hsame, hlike, (hlines .openApi {} (some "/ids")).1⟩

end TypeOutline
