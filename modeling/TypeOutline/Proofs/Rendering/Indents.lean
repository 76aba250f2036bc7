import TypeOutline.Proofs.Rendering.Renderer

/-!
# The indents of blocks

A block moves as a whole with the indent at which it starts, as long as no
top stands inside of it (`treeBlock_shift`). Indents wrap around, so in a
text the move is seen as a margin only where they do not (`text_shift`).
They do not where the lines can be made: a block goes to the right by one
step at a time (`rests_treeBlock`), so a line whose indent wraps around
stands below one that is too wide (`indent_lt_of_not_tooWide`). How far to
the right it goes is bounded by the height of its tree (`treeBlock_le`).
-/

namespace TypeOutline

namespace OpenApi

variable {o : RenderOptions} {url : Option String}

/-! ## Blocks at other indents -/

/-- The line further to the right. -/
def Line.shift (k : UInt64) (l : Line) : Line := { l with indent := k + l.indent }

theorem nameLines_shift (name : String) (k i : UInt64) :
    nameLines name (k + i) = (nameLines name i).map (Line.shift k) := by
  unfold nameLines
  split <;> rfl

theorem defectLines_shift (defect : Option Defect) (k i : UInt64) :
    defectLines defect (k + i) = (defectLines defect i).map (Line.shift k) := by
  cases defect <;> rfl

theorem openNode_shift (a : Attributes) (k i : UInt64) :
    openNode o url a (k + i) =
      ((openNode o url a i).1.map (Line.shift k), k + (openNode o url a i).2) := by
  simp only [openNode_eq, List.map_append, List.map_map, ← nameLines_shift, ← defectLines_shift,
    UInt64.add_assoc]
  rfl

/-- No node of the tree is the top of another. -/
def Topless (t : Rose Attributes) : Prop := ∀ a ∈ t.preorder, a.isRoot = false

def ToplessAll (ts : List (Rose Attributes)) : Prop := ∀ a ∈ Rose.preorderAll ts, a.isRoot = false

theorem topless_node {a : Attributes} {ts : List (Rose Attributes)} :
    Topless (.node a ts) ↔ a.isRoot = false ∧ ToplessAll ts :=
  List.forall_mem_cons

theorem toplessAll_cons {t : Rose Attributes} {ts : List (Rose Attributes)} :
    ToplessAll (t :: ts) ↔ Topless t ∧ ToplessAll ts :=
  List.forall_mem_append

/-- The block of a node that is no top. -/
theorem treeBlock_node {a : Attributes} (ha : a.isRoot = false) (ts : List (Rose Attributes))
    (k : UInt64) : treeBlock o url k (.node a ts) =
      if hidden a then []
      else (openNode o url a k).1
        ++ if Schema.expands o a then treeBlocks o url (openNode o url a k).2 ts else [] := by
  simp only [treeBlock, ha, Bool.false_eq_true, if_false]

mutual

/-- The block of a tree moves as a whole. -/
theorem treeBlock_shift (k i : UInt64) : (t : Rose Attributes) → Topless t →
    treeBlock o url (k + i) t = (treeBlock o url i t).map (Line.shift k)
  | .node a ts, h => by
      obtain ⟨ha, hts⟩ := topless_node.mp h
      rw [treeBlock_node ha, treeBlock_node ha, openNode_shift]
      split
      · rfl
      · rw [List.map_append]
        split
        · rw [treeBlocks_shift k _ ts hts]
        · rfl

theorem treeBlocks_shift (k i : UInt64) : (ts : List (Rose Attributes)) → ToplessAll ts →
    treeBlocks o url (k + i) ts = (treeBlocks o url i ts).map (Line.shift k)
  | [], _ => rfl
  | t :: ts, h => by
      obtain ⟨ht, hts⟩ := toplessAll_cons.mp h
      rw [treeBlocks, treeBlocks, treeBlock_shift k i t ht, treeBlocks_shift k i ts hts,
        List.map_append]

end

/-! ## Steps of one -/

/-- The indent is that of the block's start, or one more than that of some line. -/
def Rests (k : UInt64) (ls : List Line) (n : UInt64) : Prop :=
  n = k ∨ ∃ l ∈ ls, l.indent + 1 = n

theorem Rests.mono {k n : UInt64} {ls ls' : List Line} (h : Rests k ls n) (hls : ls ⊆ ls') :
    Rests k ls' n := by
  rcases h with h | ⟨l, hl, h⟩
  · exact .inl h
  · exact .inr ⟨l, hls hl, h⟩

/-- Where a block rests another may start. -/
theorem Rests.trans {k m n : UInt64} {ls ls' : List Line} (h : Rests k ls m)
    (h' : Rests m ls' n) : Rests k (ls ++ ls') n := by
  rcases h' with rfl | ⟨l, hl, h'⟩
  · exact h.mono (List.subset_append_left ..)
  · exact .inr ⟨l, List.mem_append_right _ hl, h'⟩

theorem exists_mem_typeLines (a : Attributes) : ∃ content, content ∈ (typeLines a).1 := by
  unfold typeLines
  split <;> exact ⟨_, List.mem_cons_self⟩

theorem typeLines_step (a : Attributes) :
    (typeLines a).2 = 0 ∨ (typeLines a).2 = 1 := by
  unfold typeLines
  split <;> simp

theorem exists_mem_bodyLines (a : Attributes) : ∃ content, content ∈ (bodyLines o url a).1 := by
  unfold bodyLines
  split
  · exact exists_mem_typeLines a
  · exact ⟨_, List.mem_cons_self⟩

theorem bodyLines_step (a : Attributes) :
    (bodyLines o url a).2 = 0 ∨ (bodyLines o url a).2 = 1 := by
  unfold bodyLines
  split
  · exact typeLines_step a
  · exact .inl rfl

/-- The lines that open a node go to the right by one step at a time, and so do those below. -/
theorem rests_openNode (a : Attributes) (k : UInt64) :
    (∀ l ∈ (openNode o url a k).1, Rests k (openNode o url a k).1 l.indent)
      ∧ Rests k (openNode o url a k).1 (openNode o url a k).2 := by
  have htype : Rests k (openNode o url a k).1 (k + nameStep (a.view jsonDialect).name) := by
    rw [openNode_eq]
    by_cases hname : (a.view jsonDialect).name = ""
    · rw [nameStep, if_pos hname, UInt64.add_zero]
      exact .inl rfl
    · rw [nameStep, if_neg hname, nameLines, if_neg hname]
      exact .inr ⟨_, List.mem_append_left _ (List.mem_append_left _ List.mem_cons_self), rfl⟩
  have hinner : Rests k (openNode o url a k).1 (openNode o url a k).2 := by
    rw [openNode_eq] at htype ⊢
    rcases @bodyLines_step o url a with hstep | hstep
    · rw [hstep, UInt64.add_zero]
      rw [hstep, UInt64.add_zero] at htype
      exact htype
    · rw [hstep]
      obtain ⟨content, hcontent⟩ := @exists_mem_bodyLines o url a
      exact .inr ⟨_, List.mem_append_left _ (List.mem_append_right _
        (List.mem_map_of_mem hcontent)), rfl⟩
  refine ⟨fun l hl => ?_, hinner⟩
  rw [openNode_eq, List.mem_append, List.mem_append] at hl
  rcases hl with (hl | hl) | hl
  · unfold nameLines at hl
    split at hl
    · exact absurd hl List.not_mem_nil
    · rw [List.mem_singleton.mp hl]
      exact .inl rfl
  · obtain ⟨content, -, rfl⟩ := List.mem_map.mp hl
    exact htype
  · obtain ⟨d, rfl⟩ := mem_defectLines hl
    rw [openNode_eq] at hinner ⊢
    exact hinner

mutual

/-- The lines of a tree go to the right by one step at a time. -/
theorem rests_treeBlock (k : UInt64) : (t : Rose Attributes) → Topless t →
    ∀ l ∈ treeBlock o url k t, Rests k (treeBlock o url k t) l.indent
  | .node a ts, h, l, hl => by
      obtain ⟨ha, hts⟩ := topless_node.mp h
      obtain ⟨hopening, hinner⟩ := @rests_openNode o url a k
      rw [treeBlock_node ha] at hl ⊢
      split at hl
      · exact absurd hl List.not_mem_nil
      · rename_i hvisible
        rw [if_neg hvisible]
        rcases List.mem_append.mp hl with hl | hl
        · exact (hopening l hl).mono (List.subset_append_left ..)
        · split at hl
          · rename_i hexpands
            rw [if_pos hexpands]
            exact hinner.trans (rests_treeBlocks _ ts hts l hl)
          · exact absurd hl List.not_mem_nil

theorem rests_treeBlocks (k : UInt64) : (ts : List (Rose Attributes)) → ToplessAll ts →
    ∀ l ∈ treeBlocks o url k ts, Rests k (treeBlocks o url k ts) l.indent
  | [], _, l, hl => absurd hl List.not_mem_nil
  | t :: ts, h, l, hl => by
      obtain ⟨ht, hts⟩ := toplessAll_cons.mp h
      rcases List.mem_append.mp hl with hl | hl
      · exact (rests_treeBlock k t ht l hl).mono (List.subset_append_left ..)
      · exact (rests_treeBlocks k ts hts l hl).mono (List.subset_append_right ..)

end

/-- Between the start and a line there is a line at every indent. -/
theorem exists_indent_eq {ls : List Line} (h : ∀ l ∈ ls, Rests 0 ls l.indent) {l : Line}
    (hl : l ∈ ls) {j : Nat} (hj : j ≤ l.indent.toNat) : ∃ l' ∈ ls, l'.indent.toNat = j := by
  generalize hn : l.indent.toNat = n at hj
  induction n generalizing l with
  | zero => exact ⟨l, hl, by omega⟩
  | succ n ih =>
      by_cases hlast : j = n + 1
      · exact ⟨l, hl, by omega⟩
      · rcases h l hl with hzero | ⟨l', hl', hstep⟩
        · rw [hzero] at hn
          cases hn
        · have hlt := l'.indent.toNat_lt
          rw [← hstep, UInt64.toNat_add] at hn
          have hn' : l'.indent.toNat = n := by
            simp at hn
            omega
          exact ih hl' hn' (by omega)

theorem tooWide_eq_false_iff {l : Line} :
    l.tooWide = false ↔ l.indent.toNat < 0x4000000000000000 := by
  rw [Line.tooWide, decide_eq_false_iff_not, ge_iff_le, UInt64.le_iff_toNat_le, Nat.not_le]
  rfl

/-- Lines that can be made have indents that did not wrap around. -/
theorem indent_lt_of_not_tooWide {ls : List Line} {k : UInt64}
    (h : ∀ l ∈ ls, Rests 0 ls l.indent)
    (hwide : ∀ l ∈ ls, (l.shift k).tooWide = false) {l : Line} (hl : l ∈ ls) :
    k.toNat + l.indent.toNat < 0x4000000000000000 := by
  have hmod : ∀ l ∈ ls, (k.toNat + l.indent.toNat) % 18446744073709551616 < 0x4000000000000000 := by
    intro l hl
    have hlt := tooWide_eq_false_iff.mp (hwide l hl)
    rwa [Line.shift, UInt64.toNat_add] at hlt
  have hbelow : ∀ j, j ≤ l.indent.toNat → k.toNat + j < 0x4000000000000000 := by
    intro j
    induction j with
    | zero =>
        intro _
        obtain ⟨l', hl', hzero⟩ := exists_indent_eq h hl (Nat.zero_le _)
        have hlt := hmod l' hl'
        have hk := k.toNat_lt
        omega
    | succ j ih =>
        -- one step further than an indent that is not too wide does not wrap around
        intro hj
        obtain ⟨l', hl', hindent⟩ := exists_indent_eq h hl hj
        have hlt := hmod l' hl'
        have hprev := ih (by omega)
        omega
  exact hbelow _ (Nat.le_refl _)

/-! ## How far blocks reach -/

theorem toNat_add_le (m n : UInt64) : (m + n).toNat ≤ m.toNat + n.toNat := by
  rw [UInt64.toNat_add]
  exact Nat.mod_le _ _

theorem toNat_nameStep_le (name : String) : (nameStep name).toNat ≤ 1 := by
  unfold nameStep
  split <;> decide

theorem openNode_le (a : Attributes) (k : UInt64) :
    (∀ l ∈ (openNode o url a k).1, l.indent.toNat ≤ k.toNat + 2)
      ∧ (openNode o url a k).2.toNat ≤ k.toNat + 2 := by
  have hname := toNat_nameStep_le (a.view jsonDialect).name
  have hstep : (bodyLines o url a).2.toNat ≤ 1 := by
    rcases @bodyLines_step o url a with h | h <;> rw [h] <;> decide
  have htype := toNat_add_le k (nameStep (a.view jsonDialect).name)
  have hinner := toNat_add_le (k + nameStep (a.view jsonDialect).name) (bodyLines o url a).2
  rw [openNode_eq]
  refine ⟨fun l hl => ?_, by dsimp only; omega⟩
  rw [List.mem_append, List.mem_append] at hl
  rcases hl with (hl | hl) | hl
  · unfold nameLines at hl
    split at hl
    · exact absurd hl List.not_mem_nil
    · rw [List.mem_singleton.mp hl]
      exact Nat.le_add_right ..
  · obtain ⟨content, -, rfl⟩ := List.mem_map.mp hl
    dsimp only
    omega
  · obtain ⟨d, rfl⟩ := mem_defectLines hl
    dsimp only
    omega

mutual

/-- A block goes to the right by two steps for each level of its tree at most. -/
theorem treeBlock_le (k : UInt64) : (t : Rose Attributes) → Topless t →
    ∀ l ∈ treeBlock o url k t, l.indent.toNat ≤ k.toNat + 2 * t.height
  | .node a ts, h, l, hl => by
      obtain ⟨ha, hts⟩ := topless_node.mp h
      obtain ⟨hopening, hinner⟩ := @openNode_le o url a k
      rw [treeBlock_node ha] at hl
      rw [Rose.height]
      split at hl
      · exact absurd hl List.not_mem_nil
      · rcases List.mem_append.mp hl with hl | hl
        · have hle := hopening l hl
          omega
        · split at hl
          · have hle := treeBlocks_le _ ts hts l hl
            omega
          · exact absurd hl List.not_mem_nil

theorem treeBlocks_le (k : UInt64) : (ts : List (Rose Attributes)) → ToplessAll ts →
    ∀ l ∈ treeBlocks o url k ts, l.indent.toNat ≤ k.toNat + 2 * Rose.heightAll ts
  | [], _, l, hl => absurd hl List.not_mem_nil
  | t :: ts, h, l, hl => by
      obtain ⟨ht, hts⟩ := toplessAll_cons.mp h
      rw [Rose.heightAll]
      rcases List.mem_append.mp hl with hl | hl
      · have hle := treeBlock_le k t ht l hl
        omega
      · have hle := treeBlocks_le k ts hts l hl
        omega

end

/-! ## Margins -/

/-- The text before a line at an indent. -/
def margin (k : UInt64) : String := "".pushn ' ' (2 * k.toNat)

theorem toList_pushn (s : String) (c : Char) (n : Nat) :
    (s.pushn c n).toList = s.toList ++ List.replicate n c := by
  induction n with
  | zero => simp [String.pushn, Nat.repeat]
  | succ n ih =>
      have hstep : s.pushn c (n + 1) = (s.pushn c n).push c := rfl
      rw [hstep, String.toList_push, ih, List.append_assoc, List.replicate_succ']

theorem text_eq (l : Line) : l.text = margin l.indent ++ l.content := rfl

/-- Where indents do not wrap around, a line is moved by a margin. -/
theorem text_shift {k : UInt64} {l : Line} (h : k.toNat + l.indent.toNat < 0x4000000000000000) :
    (l.shift k).text = margin k ++ l.text := by
  have hadd : (k + l.indent).toNat = k.toNat + l.indent.toNat := by
    rw [UInt64.toNat_add]
    omega
  rw [text_eq, text_eq, ← String.toList_inj]
  simp only [Line.shift, margin, String.toList_append, toList_pushn, hadd, Nat.mul_add,
    List.replicate_add, List.append_assoc, String.toList_empty, List.nil_append]

/-! ## The start of a block -/

/-- A node opens with a line at the start of its block. -/
theorem exists_openNode_eq_cons (o : RenderOptions) (url : Option String) (a : Attributes)
    (k : UInt64) : ∃ l ls, (openNode o url a k).1 = l :: ls ∧ l.indent = k := by
  rw [openNode_eq]
  by_cases hname : (a.view jsonDialect).name = ""
  · obtain ⟨content, hcontent⟩ := @exists_mem_bodyLines o url a
    obtain ⟨first, rest, hbody⟩ := List.exists_cons_of_ne_nil (List.ne_nil_of_mem hcontent)
    rw [nameLines, if_pos hname, nameStep, if_pos hname, hbody]
    exact ⟨_, _, rfl, UInt64.add_zero k⟩
  · rw [nameLines, if_neg hname]
    exact ⟨_, _, rfl, rfl⟩

theorem indent_of_head? {a : Attributes} (ha : a.isRoot = false) {ts : List (Rose Attributes)}
    {k : UInt64} {l : Line} (h : (treeBlock o url k (.node a ts)).head? = some l) :
    l.indent = k := by
  obtain ⟨first, rest, hopening, hindent⟩ := exists_openNode_eq_cons o url a k
  rw [treeBlock_node ha] at h
  split at h
  · cases h
  · rw [hopening] at h
    exact Option.some.inj h ▸ hindent

end OpenApi

end TypeOutline
