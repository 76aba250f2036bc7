import TypeOutline.Text.Capital

/-!
# What capitalizing leaves alone

The upper case of a character is made of letters. So a character below the
letters, such as a line feed or a dot, stands in the capitalized name
exactly if it stands in the name (`mem_capitalize_iff`).
-/

namespace TypeOutline.Text

variable {c d : Char}

/-- A character by its number, or the null character if there is none. -/
theorem toNat_ofNat_cases (n : Nat) : (Char.ofNat n).toNat = n ∨ (Char.ofNat n).toNat = 0 := by
  by_cases h : n.isValidChar
  · rw [Char.ofNat, dif_pos h]
    exact .inl rfl
  · rw [Char.ofNat, dif_neg h]
    exact .inr rfl

theorem le_of_mem_upperSequences : ∀ e ∈ upperSequences, ∀ n ∈ e.2, 0x41 ≤ n := by decide

theorem le_of_mem_upperRuns : ∀ r ∈ upperRuns, 0x41 ≤ r.first + r.shift := by
  decide +kernel

/-- The upper case is the character itself, or letters. -/
theorem toNat_of_mem_upperCase (h : d ∈ upperCase c) :
    d = c ∨ d.toNat = 0 ∨ 0x41 ≤ d.toNat := by
  unfold upperCase at h
  dsimp only at h
  split at h
  · rw [List.mem_singleton] at h
    split at h
    · rename_i hletter
      rw [Bool.and_eq_true, decide_eq_true_eq, decide_eq_true_eq] at hletter
      have hlow : 97 ≤ c.toNat := hletter.1
      rcases toNat_ofNat_cases (c.toNat - 32) with hd | hd <;> rw [← h] at hd <;> omega
    · exact .inl h
  · split at h
    · rename_i ns hns
      obtain ⟨es, es', he, -⟩ := List.lookup_eq_some_iff.mp hns
      have hmem : (c.toNat, ns) ∈ upperSequences := he ▸ List.mem_append_right _ List.mem_cons_self
      obtain ⟨n, hn, rfl⟩ := List.mem_map.mp h
      have hle := le_of_mem_upperSequences _ hmem n hn
      rcases toNat_ofNat_cases n with hd | hd <;> omega
    · split at h
      · rename_i r hr
        have hle := le_of_mem_upperRuns r (List.mem_of_find?_eq_some hr)
        have hcovers := List.find?_some hr
        simp only [CaseRun.covers, Bool.and_eq_true, decide_eq_true_eq] at hcovers
        rw [List.mem_singleton] at h
        rcases toNat_ofNat_cases ((c.toNat : Int) + r.shift).toNat with hd | hd <;>
          rw [← h] at hd <;> omega
      · exact .inl (List.mem_singleton.mp h)

/-- What stands below the letters is the upper case of itself alone. -/
theorem mem_upperCase_iff (hpos : 0 < d.toNat) (hlt : d.toNat < 0x41) :
    d ∈ upperCase c ↔ d = c := by
  constructor
  · intro h
    rcases toNat_of_mem_upperCase h with h | h | h
    · exact h
    · omega
    · omega
  · rintro rfl
    have hletter : ¬ ('a' ≤ d && d ≤ 'z') = true := by
      rw [Bool.and_eq_true, decide_eq_true_eq, decide_eq_true_eq]
      rintro ⟨hlow, -⟩
      have hlow : 97 ≤ d.toNat := hlow
      omega
    unfold upperCase
    dsimp only
    rw [if_pos (Nat.lt_trans hlt (by decide)), if_neg hletter]
    exact List.mem_singleton_self d

theorem mem_capitalize_iff (hpos : 0 < d.toNat) (hlt : d.toNat < 0x41) (name : String) :
    d ∈ (capitalize name).toList ↔ d ∈ name.toList := by
  rw [capitalize]
  split
  · rename_i hnil
    rw [hnil]
    rfl
  · rename_i c rest hname
    rw [hname, String.toList_ofList, List.mem_append, mem_upperCase_iff hpos hlt, List.mem_cons]

end TypeOutline.Text
