import Mathlib.Data.List.Basic
import TypeOutline.Render.Walk

/-!
# Reading quoted segments back

The path of a line is a list of segments, each after a dot, and a segment
is quoted only if it holds a dot itself. A segment that is not quoted may
hold quotes, so where a quoted one ends can be told from what it ends in
alone: no segment ends in a dot or a quote.

Characters are quoted by a prefix code (`shown_append_inj`), in which a dot
stands for nothing but a dot and a quote stands at the start of no
character. So of two readings of one text that differ in whether its first
segment is quoted, the one that does not quote it reads on beyond each dot
of the quoted one, and finds the closing quote at the end of one of its
segments (`quoted_ne_unquoted`).
-/

namespace TypeOutline

/-- A text ends where a mark that it does not hold comes first. -/
theorem append_inj_of_head {α : Type} {x : α} {u u' r r' : List α} (hu : x ∉ u) (hu' : x ∉ u')
    (hr : ∀ c ∈ r.head?, c = x) (hr' : ∀ c ∈ r'.head?, c = x) (h : u ++ r = u' ++ r') :
    u = u' ∧ r = r' := by
  induction u generalizing u' with
  | nil =>
      cases u' with
      | nil => exact ⟨rfl, h⟩
      | cons c u' =>
          have h : r = c :: (u' ++ r') := h
          rw [h] at hr
          exact absurd (hr c rfl ▸ List.mem_cons_self) hu'
  | cons c u ih =>
      cases u' with
      | nil =>
          have h : c :: (u ++ r) = r' := h
          rw [← h] at hr'
          exact absurd (hr' c rfl ▸ List.mem_cons_self) hu
      | cons c' u' =>
          obtain ⟨rfl, hrest⟩ := List.cons.inj h
          obtain ⟨rfl, hr⟩ := ih (fun hx => hu (List.mem_cons_of_mem c hx))
            (fun hx => hu' (List.mem_cons_of_mem c hx)) hrest
          exact ⟨rfl, hr⟩

namespace Text

/-! ## Numbers in base sixteen -/

theorem hexDigits_of_lt {n : Nat} (h : n < 16) : hexDigits n = [n.digitChar] :=
  Nat.toDigits_of_lt_base h

theorem hexDigits_of_le {n : Nat} (h : 16 ≤ n) :
    hexDigits n = hexDigits (n / 16) ++ [(n % 16).digitChar] :=
  Nat.toDigits_of_base_le (by decide) h

theorem digitChar_inj : ∀ m < 16, ∀ n < 16, m.digitChar = n.digitChar → m = n := by decide +kernel

theorem hexDigits_inj {m n : Nat} (h : hexDigits m = hexDigits n) : m = n := by
  have hone : ∀ {m n : Nat}, m < 16 → 16 ≤ n → hexDigits m ≠ hexDigits n := by
    intro m n hm hn h
    rw [hexDigits_of_lt hm, hexDigits_of_le hn] at h
    have hlength := congrArg List.length h
    rw [List.length_append, List.length_singleton, List.length_singleton] at hlength
    have hpos : 0 < (hexDigits (n / 16)).length := List.length_pos_of_ne_nil Nat.toDigits_ne_nil
    omega
  induction m using Nat.strongRecOn generalizing n with
  | _ m ih =>
      rcases Nat.lt_or_ge m 16 with hm | hm
      · rcases Nat.lt_or_ge n 16 with hn | hn
        · rw [hexDigits_of_lt hm, hexDigits_of_lt hn] at h
          exact digitChar_inj m hm n hn (List.singleton_inj.mp h)
        · exact absurd h (hone hm hn)
      · rcases Nat.lt_or_ge n 16 with hn | hn
        · exact absurd h.symm (hone hn hm)
        · rw [hexDigits_of_le hm, hexDigits_of_le hn] at h
          obtain ⟨hdiv, hmod⟩ := List.append_inj' h rfl
          have hdiv := ih (m / 16) (Nat.div_lt_self (by omega) (by decide)) hdiv
          have hmod := digitChar_inj _ (Nat.mod_lt m (by decide)) _ (Nat.mod_lt n (by decide))
            (List.singleton_inj.mp hmod)
          omega

theorem exists_digit_of_mem {n : Nat} {c : Char} (h : c ∈ hexDigits n) :
    ∃ d < 16, c = Nat.digitChar d := by
  induction n using Nat.strongRecOn with
  | _ n ih =>
      rcases Nat.lt_or_ge n 16 with hn | hn
      · rw [hexDigits_of_lt hn] at h
        exact ⟨n, hn, List.mem_singleton.mp h⟩
      · rw [hexDigits_of_le hn] at h
        rcases List.mem_append.mp h with h | h
        · exact ih (n / 16) (Nat.div_lt_self (by omega) (by decide)) h
        · exact ⟨n % 16, Nat.mod_lt n (by decide), List.mem_singleton.mp h⟩

theorem digitChar_ne : ∀ d < 16, Nat.digitChar d ≠ '.' ∧ Nat.digitChar d ≠ '\x7d' := by decide

/-! ## Characters between quotes -/

/-- The characters that are written behind a backslash, and how. -/
def escapes : List (Char × Char) :=
  [('\x00', '0'), ('\t', 't'), ('\r', 'r'), ('\n', 'n'), ('"', '"'), ('\\', '\\')]

theorem escapes_inj : ∀ e ∈ escapes, ∀ f ∈ escapes, e.2 = f.2 → e.1 = f.1 := by decide

theorem escapes_ne : ∀ e ∈ escapes, e.1 ≠ '.' ∧ e.2 ≠ 'u' ∧ e.2 ≠ '.' := by decide

/-- The ways in which a character is shown. -/
inductive IsShown (c : Char) : List Char → Prop
  | plain : c ≠ '\\' → c ≠ '"' → IsShown c [c]
  | escaped {d : Char} : (c, d) ∈ escapes → IsShown c ['\\', d]
  | numbered : c ≠ '.' → IsShown c (numbered c)

theorem isShown_shown (c : Char) : IsShown c (shown c) := by
  rw [shown]
  split
  · rename_i h
    exact .escaped (by rw [h]; decide)
  split
  · rename_i h
    exact .escaped (by rw [h]; decide)
  split
  · rename_i h
    exact .escaped (by rw [h]; decide)
  split
  · rename_i h
    exact .escaped (by rw [h]; decide)
  split
  · rename_i h
    exact .escaped (by rw [h]; decide)
  split
  · rename_i h
    exact .escaped (by rw [h]; decide)
  rename_i hquote hslash
  have hdot : ¬ (0x20 ≤ c.toNat && c.toNat < 0x7F) = true → c ≠ '.' := by
    rintro h rfl
    exact h (by decide)
  split
  · exact .plain hslash hquote
  · rename_i hseen
    split
    · exact .numbered (hdot hseen)
    · split
      · exact .numbered (hdot hseen)
      · exact .plain hslash hquote

/-- Characters are shown by a prefix code. -/
theorem shown_append_inj {c c' : Char} {r r' : List Char} (h : shown c ++ r = shown c' ++ r') :
    c = c' ∧ r = r' := by
  have hc := isShown_shown c
  have hc' := isShown_shown c'
  generalize shown c = x at h hc
  generalize shown c' = x' at h hc'
  cases hc with
  | plain hslash _ =>
      cases hc' with
      | plain _ _ => exact List.cons.inj h
      | escaped _ => exact absurd (List.cons.inj h).1 hslash
      | numbered _ => exact absurd (List.cons.inj h).1 hslash
  | escaped he =>
      cases hc' with
      | plain hslash _ => exact absurd (List.cons.inj h).1.symm hslash
      | escaped hf =>
          obtain ⟨hd, hr⟩ := List.cons.inj (List.cons.inj h).2
          exact ⟨escapes_inj _ he _ hf hd, hr⟩
      | numbered _ => exact absurd (List.cons.inj (List.cons.inj h).2).1 (escapes_ne _ he).2.1
  | numbered _ =>
      cases hc' with
      | plain hslash _ => exact absurd (List.cons.inj h).1.symm hslash
      | escaped hf =>
          exact absurd (List.cons.inj (List.cons.inj h).2).1.symm (escapes_ne _ hf).2.1
      | numbered _ =>
          have h : hexDigits c.toNat ++ '\x7d' :: r = hexDigits c'.toNat ++ '\x7d' :: r' := by
            simpa [numbered] using h
          have hfree : ∀ n, '\x7d' ∉ hexDigits n := by
            intro n hn
            obtain ⟨d, hd, hc⟩ := exists_digit_of_mem hn
            exact (digitChar_ne d hd).2 hc.symm
          have hhead : ∀ r : List Char, ∀ x ∈ ('\x7d' :: r).head?, x = '\x7d' :=
            fun r x hx => (Option.some.inj hx).symm
          obtain ⟨hdigits, hr⟩ := append_inj_of_head (hfree _) (hfree _) (hhead r) (hhead r') h
          exact ⟨Char.toNat_inj.mp (hexDigits_inj hdigits), (List.cons.inj hr).2⟩

/-- A dot stands for a dot alone. -/
theorem dot_mem_shown {c : Char} : '.' ∈ shown c ↔ c = '.' := by
  constructor
  · intro hdot
    have hc := isShown_shown c
    generalize shown c = x at hdot hc
    cases hc with
    | plain _ _ => exact (List.mem_singleton.mp hdot).symm
    | @escaped d he =>
        rcases List.mem_pair.mp hdot with h | h
        · exact absurd h (by decide)
        · exact absurd h.symm (escapes_ne _ he).2.2
    | numbered _ =>
        have hdigit : '.' ∈ hexDigits c.toNat := by simpa [numbered] using hdot
        obtain ⟨d, hd, hc⟩ := exists_digit_of_mem hdigit
        exact absurd hc.symm (digitChar_ne d hd).1
  · rintro rfl
    decide

/-- No character starts with a quote. -/
theorem exists_shown_eq_cons (c : Char) : ∃ d ds, shown c = d :: ds ∧ d ≠ '"' := by
  have hc := isShown_shown c
  generalize shown c = x at hc ⊢
  cases hc with
  | plain _ hquote => exact ⟨c, [], rfl, hquote⟩
  | @escaped d _ => exact ⟨'\\', [d], rfl, by decide⟩
  | numbered _ => exact ⟨'\\', _, rfl, by decide⟩

theorem shown_dot : shown '.' = ['.'] := by decide

theorem dot_mem_flatMap_shown {w : List Char} : '.' ∈ w.flatMap shown ↔ '.' ∈ w := by
  rw [List.mem_flatMap]
  constructor
  · rintro ⟨c, hc, hdot⟩
    exact dot_mem_shown.mp hdot ▸ hc
  · intro hdot
    exact ⟨'.', hdot, dot_mem_shown.mpr rfl⟩

/-- A quoted text ends at its closing quote. -/
theorem flatMap_shown_append_inj {w w' r r' : List Char}
    (h : w.flatMap shown ++ '"' :: r = w'.flatMap shown ++ '"' :: r') : w = w' ∧ r = r' := by
  induction w generalizing w' with
  | nil =>
      cases w' with
      | nil => exact ⟨rfl, (List.cons.inj h).2⟩
      | cons c w' =>
          obtain ⟨d, ds, hshown, hquote⟩ := exists_shown_eq_cons c
          rw [List.flatMap_cons, hshown] at h
          exact absurd (List.cons.inj h).1.symm hquote
  | cons c w ih =>
      cases w' with
      | nil =>
          obtain ⟨d, ds, hshown, hquote⟩ := exists_shown_eq_cons c
          rw [List.flatMap_cons, hshown] at h
          exact absurd (List.cons.inj h).1 hquote
      | cons c' w' =>
          rw [List.flatMap_cons, List.flatMap_cons, List.append_assoc, List.append_assoc] at h
          obtain ⟨rfl, hrest⟩ := shown_append_inj h
          obtain ⟨rfl, hr⟩ := ih hrest
          exact ⟨rfl, hr⟩

end Text

/-! ## Segments -/

open Text (shown)

/-- A segment as it stands in a path. -/
def quotedSegment (w : List Char) : List Char :=
  if '.' ∈ w then '"' :: w.flatMap shown ++ ['"'] else w

theorem toList_quoteSegment (segment : String) :
    (quoteSegment segment).toList = quotedSegment segment.toList := by
  rw [quoteSegment, quotedSegment]
  simp only [List.contains_iff_mem]
  split
  · rw [Text.quoted, String.toList_ofList]
  · rfl

/-- Segments, each after a dot. -/
def joined (ws : List (List Char)) : List Char := ws.flatMap fun w => '.' :: quotedSegment w

/-- The segment is not empty, and ends neither in a dot nor in a quote. -/
def WellEnded (w : List Char) : Prop := ∃ c, w.getLast? = some c ∧ c ≠ '.' ∧ c ≠ '"'

theorem joined_cons (w : List Char) (ws : List (List Char)) :
    joined (w :: ws) = '.' :: (quotedSegment w ++ joined ws) := by
  rw [joined, List.flatMap_cons, List.cons_append]
  rfl

/-- Where a segment ends, a dot follows, if anything does. -/
theorem head?_joined (ws : List (List Char)) : ∀ c ∈ (joined ws).head?, c = '.' := by
  cases ws with
  | nil => exact fun _ hc => nomatch hc
  | cons w ws =>
      rw [joined_cons]
      exact fun _ hc => (Option.some.inj hc).symm

/-- Where the rest of a quoted segment reads as a segment that is not quoted, a dot of the quoted
one follows. -/
theorem exists_rest_of_reading {r t w u : List Char} (hr : ∀ c ∈ r.head?, c = '.')
    (ht : ∀ c ∈ t.head?, c = '.') (hw : w.getLast? ≠ some '.') (hu : WellEnded u) (hdot : '.' ∉ u)
    (h : w.flatMap shown ++ '"' :: r = u ++ t) :
    ∃ v, v ≠ [] ∧ v.getLast? ≠ some '.' ∧ t = '.' :: (v.flatMap shown ++ '"' :: r) := by
  by_cases hmem : '.' ∈ w
  · obtain ⟨w₁, w₂, rfl, hw₁⟩ := List.eq_append_cons_of_mem hmem
    rw [List.flatMap_append, List.flatMap_cons, Text.shown_dot, List.append_assoc,
      List.append_assoc] at h
    have hhead : ∀ c ∈ (['.'] ++ (w₂.flatMap shown ++ '"' :: r)).head?, c = '.' :=
      fun c hc => (Option.some.inj hc).symm
    obtain ⟨-, hrest⟩ :=
      append_inj_of_head (mt Text.dot_mem_flatMap_shown.mp hw₁) hdot hhead ht h
    refine ⟨w₂, ?_, ?_, hrest.symm⟩
    · rintro rfl
      exact hw (by rw [List.getLast?_append, List.getLast?_singleton]; rfl)
    · intro hlast
      refine hw ?_
      rw [List.getLast?_append, List.getLast?_cons, hlast]
      rfl
  · -- the closing quote would be the end of the segment that is not quoted
    obtain ⟨c, hc, -, hquote⟩ := hu
    have hfree : '.' ∉ w.flatMap shown ++ ['"'] := by
      intro hin
      rcases List.mem_append.mp hin with hin | hin
      · exact hmem (Text.dot_mem_flatMap_shown.mp hin)
      · exact absurd (List.mem_singleton.mp hin) (by decide)
    have h : (w.flatMap shown ++ ['"']) ++ r = u ++ t := by rw [← h]; simp
    obtain ⟨rfl, -⟩ := append_inj_of_head hfree hdot hr ht h
    rw [List.getLast?_concat] at hc
    exact absurd (Option.some.inj hc).symm hquote

/-- What is read as a quoted segment, or the rest of one, cannot be read as a segment that is not
quoted, and what follows it. -/
theorem quoted_ne_unquoted {r : List Char} (hr : ∀ c ∈ r.head?, c = '.')
    {ws : List (List Char)} (hws : ∀ w ∈ ws, WellEnded w) {w u : List Char}
    (hw : w.getLast? ≠ some '.') (hu : WellEnded u) (hdot : '.' ∉ u) :
    w.flatMap shown ++ '"' :: r ≠ u ++ joined ws := by
  induction ws generalizing w u with
  | nil =>
      intro h
      obtain ⟨v, -, -, hv⟩ := exists_rest_of_reading hr (head?_joined []) hw hu hdot h
      cases hv
  | cons s ws ih =>
      intro h
      obtain ⟨v, hne, hlast, hv⟩ := exists_rest_of_reading hr (head?_joined (s :: ws)) hw hu hdot h
      rw [joined_cons] at hv
      have hv := (List.cons.inj hv).2
      by_cases hs : '.' ∈ s
      · obtain ⟨c, v, rfl⟩ := List.exists_cons_of_ne_nil hne
        obtain ⟨d, ds, hshown, hquote⟩ := Text.exists_shown_eq_cons c
        rw [quotedSegment, if_pos hs, List.flatMap_cons, hshown] at hv
        exact absurd (List.cons.inj hv).1.symm hquote
      · rw [quotedSegment, if_neg hs] at hv
        exact ih (fun w hw => hws w (List.mem_cons_of_mem s hw)) hlast
          (hws s List.mem_cons_self) hs hv.symm

/-- A path that starts with a quoted segment starts with no other one. -/
theorem quoted_append_ne {ws ws' : List (List Char)} (hws' : ∀ w ∈ ws', WellEnded w)
    {w w' : List Char} (hw : w.getLast? ≠ some '.') (hw' : WellEnded w') (hdot : '.' ∉ w') :
    '"' :: w.flatMap shown ++ ['"'] ++ joined ws ≠ w' ++ joined ws' := by
  intro h
  obtain ⟨c, hc, hcdot, hquote⟩ := hw'
  cases w' with
  | nil => cases hc
  | cons d u =>
      rw [List.append_assoc] at h
      obtain ⟨rfl, hrest⟩ := List.cons.inj h
      cases u with
      | nil => exact hquote (Option.some.inj hc).symm
      | cons d u =>
          refine quoted_ne_unquoted (head?_joined ws) hws' hw ⟨c, ?_, hcdot, hquote⟩
            (fun hin => hdot (List.mem_cons_of_mem _ hin)) hrest
          rw [← hc, List.getLast?_cons_cons]

/-- A path can be read in one way only. -/
theorem joined_inj {ws ws' : List (List Char)} (hws : ∀ w ∈ ws, WellEnded w)
    (hws' : ∀ w ∈ ws', WellEnded w) (h : joined ws = joined ws') : ws = ws' := by
  have hlast : ∀ {w}, WellEnded w → w.getLast? ≠ some '.' := by
    rintro w ⟨c, hc, hdot, -⟩ heq
    exact hdot (Option.some.inj (hc.symm.trans heq))
  induction ws generalizing ws' with
  | nil =>
      cases ws' with
      | nil => rfl
      | cons w' ws' =>
          rw [joined_cons] at h
          cases h
  | cons w ws ih =>
      cases ws' with
      | nil =>
          rw [joined_cons] at h
          cases h
      | cons w' ws' =>
          obtain ⟨hw, hws⟩ := List.forall_mem_cons.mp hws
          obtain ⟨hw', hws'⟩ := List.forall_mem_cons.mp hws'
          rw [joined_cons, joined_cons] at h
          have h := (List.cons.inj h).2
          have hboth : w = w' ∧ joined ws = joined ws' := by
            rw [quotedSegment, quotedSegment] at h
            split at h
            · split at h
              · rw [List.append_assoc, List.append_assoc] at h
                exact Text.flatMap_shown_append_inj (List.cons.inj h).2
              · rename_i hdot
                exact absurd h (quoted_append_ne hws' (hlast hw) hw' hdot)
            · split at h
              · rename_i hdot _
                exact absurd h.symm (quoted_append_ne hws (hlast hw') hw hdot)
              · rename_i hdot hdot'
                exact append_inj_of_head hdot hdot' (head?_joined ws) (head?_joined ws') h
          rw [hboth.1, ih hws hws' hboth.2]

end TypeOutline
