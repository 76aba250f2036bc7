import TypeOutline.Proofs.Derivation.Faithful
import Mathlib.Data.Fintype.Card
import Mathlib.Data.Set.Finite.List

/-!
# Derivation ends on guarded recursion

A value may unfold without end through the values that stand for absent
ones. Its derivation ends all the same if every cycle of the unfolding
passes through a level that declares a name, or that is of an unsupported
kind and therefore never entered. A declared name can be entered once on
a way down, and between two of them the unfolding has no cycle. So the
measure is the number of names not yet above, and then the unfolding
itself, which is well-founded on the finitely many values there are.
-/

namespace TypeOutline

open Relation

/-! ## Unfolding -/

/-- The second value is a member of the level that the first one shows. -/
def Value.Unfolds (types : Types) (v w : Value) : Prop :=
  ∃ l, v.layer? types = some l ∧ w ∈ l.shape.members

/-- The level cannot be entered twice on one way down. -/
def Layer.isGuarded (l : Layer) : Bool := l.declares?.isSome || l.isUnsupported

/-- A step of the unfolding through a level that may be entered any number of times. -/
def Value.UnfoldsFreely (types : Types) (v w : Value) : Prop :=
  ∃ l, v.layer? types = some l ∧ l.isGuarded = false ∧ w ∈ l.shape.members

/-- Every value that the value unfolds into shows a level. -/
def Value.ShowsLevels (types : Types) (v : Value) : Prop :=
  ∀ w, ReflTransGen (Value.Unfolds types) v w → ∃ l, w.layer? types = some l

/-- Every cycle that the value unfolds into passes through a guarded level. -/
def Value.IsGuarded (types : Types) (v : Value) : Prop :=
  ∀ w, ReflTransGen (Value.Unfolds types) v w → ¬ TransGen (Value.UnfoldsFreely types) w w

variable {types : Types} {v : Value}

theorem mem_written_of_unfolds {w : Value} (h : ReflTransGen (Value.Unfolds types) v w) :
    w ∈ Value.written types v := by
  induction h with
  | refl => exact Value.mem_written_self types v
  | tail _ hstep ih =>
      obtain ⟨l, hl, hw⟩ := hstep
      exact Value.mem_written_of_mem_parts ih hl (l.shape.members_subset_parts hw)

/-! ## The measure -/

/-- The values that a value unfolds into. -/
def Value.Reached (types : Types) (v : Value) : Type :=
  { w : Value // ReflTransGen (Value.Unfolds types) v w }

instance (types : Types) (v : Value) : Finite (Value.Reached types v) :=
  Set.Finite.subset (List.finite_toSet (Value.written types v))
    fun _ h => mem_written_of_unfolds h

/-- Free unfolding comes to an end if there is no cycle in it. -/
theorem wellFounded_of_isGuarded (h : v.IsGuarded types) :
    WellFounded fun w u : Value.Reached types v => Value.UnfoldsFreely types u.1 w.1 := by
  let r : Value.Reached types v → Value.Reached types v → Prop :=
    TransGen fun w u => Value.UnfoldsFreely types u.1 w.1
  have hvalue : ∀ {w u}, r w u → TransGen (Value.UnfoldsFreely types) u.1 w.1 := by
    intro w u hr
    induction hr with
    | single hstep => exact .single hstep
    | tail _ hstep ih => exact .head hstep ih
  have hirrefl : Std.Irrefl r := ⟨fun w hw => h w.1 w.2 (hvalue hw)⟩
  have htrans : IsTrans _ r := ⟨fun _ _ _ => TransGen.trans⟩
  have hwf := Finite.wellFounded_of_trans_of_irrefl r
  exact Subrelation.wf (fun hstep => (TransGen.single hstep : r _ _)) hwf

/-- Every position that is reached has an outline. The outer induction is
on the names that are not yet above, the inner one on the free unfolding. -/
theorem exists_outlines_of_isGuarded (hlevels : v.ShowsLevels types) (h : v.IsGuarded types)
    (free : Nat) : ∀ (w : Value.Reached types v) {p : Site}, p.value = w.1 → p.Within types v →
      (Value.written types v).length = p.above.card + free → ∃ o, Outlines types p o := by
  induction free using Nat.strongRecOn with
  | ind free ih =>
      intro w
      induction w using (wellFounded_of_isGuarded h).induction with
      | _ w ihw =>
          intro p hvalue hwithin hfree
          obtain ⟨l, hl⟩ := hlevels w.1 w.2
          rw [← hvalue] at hl
          refine exists_outlines hl fun q hq => ?_
          obtain ⟨hmem, habove, -, -, hfresh⟩ := mem_members hl hq
          have hqwithin := hwithin.member hq
          have hstep : ReflTransGen (Value.Unfolds types) v q.value :=
            w.2.tail ⟨l, hvalue ▸ hl, hmem⟩
          cases hname : l.declares? with
          | some n =>
              have hcard : q.above.card = p.above.card + 1 := by
                rw [habove, hname, declaredBelow, Finset.card_insert_of_notMem (hfresh n hname)]
              have hle := hqwithin.card_above_le
              exact ih (free - 1) (by omega) ⟨q.value, hstep⟩ rfl hqwithin (by omega)
          | none =>
              have hsame : q.above = p.above := by rw [habove, hname, declaredBelow]
              have hunsupported : l.isUnsupported = false := by
                obtain ⟨name, hr⟩ := exists_enters_of_mem_members hl hq
                by_contra hcon
                rw [Layer.ruling, if_pos (by simpa using hcon)] at hr
                cases hr
              have hfreely : Value.UnfoldsFreely types w.1 q.value := by
                refine ⟨l, hvalue ▸ hl, ?_, hmem⟩
                rw [Layer.isGuarded, hname, hunsupported]
                rfl
              exact ihw ⟨q.value, hstep⟩ hfreely rfl hqwithin (by rw [hsame]; exact hfree)

/-! ## The main result -/

/-- A value whose cycles all pass through a guarded level is derived, with
all copying, cutting down and renumbering. No name is declared by two
levels on one way down whose members are derived. -/
theorem derive?_isSome_of_isGuarded (e : Engine) (types : Types) (v : Value)
    (hlevels : v.ShowsLevels types) (hguarded : v.IsGuarded types) :
    (e.derive? types v).1.isSome = true
      ∧ ∀ path p l name, Reaches types (.start v) path p → p.value.layer? types = some l →
        l.ruling p.top p.above = .enters name →
          ((l :: path).filterMap Layer.declares?).Nodup := by
  refine ⟨?_, fun path p l name hpath hl hr => ?_⟩
  · obtain ⟨o, ho⟩ := exists_outlines_of_isGuarded hlevels hguarded
      (Value.written types v).length ⟨v, .refl⟩ (p := .start v) rfl
      (Site.within_start types v) (by simp [Site.start])
    obtain ⟨s, hs, -⟩ := derive?_of_outlines ho
    exact Option.isSome_iff_exists.mpr ⟨s, hs⟩
  · obtain ⟨hname, hfresh⟩ := declares?_of_enters hr
    have hpathNodup := nodup_declared hpath
    cases name with
    | none =>
        rw [List.filterMap_cons_none hname]
        exact hpathNodup
    | some n =>
        rw [List.filterMap_cons_some hname]
        refine List.nodup_cons.mpr ⟨fun hmem => hfresh n rfl ?_, hpathNodup⟩
        obtain ⟨m, hm, hmn⟩ := List.mem_filterMap.mp hmem
        exact (mem_above_iff hpath n).mpr (.inr ⟨m, hm, hmn⟩)

/-- The place of the next node in a chain. -/
def chainNext : Value := .ofShape (.pointer none chain)

theorem mem_of_unfolds_chain {w : Value}
    (h : ReflTransGen (Value.Unfolds chainTypes) chain w) : w = chain ∨ w = chainNext := by
  induction h with
  | refl => exact .inl rfl
  | tail _ hstep ih =>
      obtain ⟨l, hl, hw⟩ := hstep
      rcases ih with rfl | rfl
      · cases hl
        exact .inr (List.mem_singleton.mp hw)
      · cases hl
        exact .inl (List.mem_singleton.mp hw)

theorem not_unfoldsFreely_chain (w : Value) : ¬ Value.UnfoldsFreely chainTypes chain w := by
  rintro ⟨l, hl, hfree, -⟩
  cases hl
  exact absurd hfree (by decide)

theorem derive?_isSome_of_isGuarded_chain :
    chain.ShowsLevels chainTypes ∧ chain.IsGuarded chainTypes
      ∧ (({} : Engine).derive? chainTypes chain).1.isSome = true := by
  have hlevels : chain.ShowsLevels chainTypes := by
    intro w hw
    rcases mem_of_unfolds_chain hw with rfl | rfl
    · exact ⟨_, rfl⟩
    · exact ⟨_, rfl⟩
  have hguarded : chain.IsGuarded chainTypes := by
    intro w hw hcycle
    obtain ⟨u, hfree, hback⟩ := TransGen.head'_iff.mp hcycle
    rcases mem_of_unfolds_chain hw with rfl | rfl
    · exact not_unfoldsFreely_chain u hfree
    · obtain ⟨l, hl, -, hu⟩ := hfree
      cases hl
      obtain rfl : u = chain := List.mem_singleton.mp hu
      rcases ReflTransGen.cases_head hback with heq | ⟨u', hfree', -⟩
      · exact absurd heq (by simp [chain, chainNext, Value.ofShape])
      · exact not_unfoldsFreely_chain u' hfree'
  exact ⟨hlevels, hguarded,
    (derive?_isSome_of_isGuarded {} chainTypes chain hlevels hguarded).1⟩

end TypeOutline
