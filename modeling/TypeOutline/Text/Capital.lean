import TypeOutline.Text.CaseTable

/-!
# Capitalized names

A name is capitalized by writing its first character in upper case, in the full Unicode mapping: the
upper case of `ß` is `SS`, that of `ǆ` is `Ǆ`, and a character without one stays as it is.
-/

namespace TypeOutline.Text

/-- The upper case of a character, as a sequence. -/
def upperCase (c : Char) : List Char :=
  let n := c.toNat
  if n < 0x80 then [if 'a' ≤ c && c ≤ 'z' then Char.ofNat (n - 32) else c]
  else match upperSequences.lookup n with
    | some ns => ns.map Char.ofNat
    | none => match upperRuns.find? (·.covers n) with
      | some r => [Char.ofNat ((n : Int) + r.shift).toNat]
      | none => [c]

/-- The name with its first character in upper case. -/
def capitalize (name : String) : String :=
  match name.toList with
  | [] => ""
  | c :: rest => String.ofList (upperCase c ++ rest)

theorem upperCase_ne_nil (c : Char) : upperCase c ≠ [] := by
  have hsequences : ∀ e ∈ upperSequences, e.2 ≠ [] := by decide
  unfold upperCase
  dsimp only
  split
  · exact List.cons_ne_nil _ _
  · split
    · rename_i ns hns
      obtain ⟨es, es', he, -⟩ := List.lookup_eq_some_iff.mp hns
      have hmem : (c.toNat, ns) ∈ upperSequences := he ▸ List.mem_append_right _ List.mem_cons_self
      exact fun hnil => hsequences _ hmem (List.map_eq_nil_iff.mp hnil)
    · split <;> exact List.cons_ne_nil _ _

@[simp] theorem capitalize_empty : capitalize "" = "" := by
  decide +kernel

/-- Only the empty name is capitalized to the empty name. -/
theorem capitalize_ne_empty {name : String} (h : name ≠ "") : capitalize name ≠ "" := by
  rw [capitalize, ne_eq, ← String.toList_eq_nil_iff]
  split
  · rename_i hnil
    exact absurd (String.toList_eq_nil_iff.mp hnil) h
  · rw [String.toList_ofList]
    exact fun hnil => upperCase_ne_nil _ (List.append_eq_nil_iff.mp hnil).1

end TypeOutline.Text
