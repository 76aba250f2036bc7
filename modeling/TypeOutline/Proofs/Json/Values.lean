import TypeOutline.Proofs.Json.Numbers
import TypeOutline.Proofs.Json.Strings

/-!
# What the reader of values takes

The readers of elements and members are followed round by round, for any
reader of values that takes values (`took_readElements`,
`took_readMembers`), and the reader of values is followed down by its depth
(`took_readValueWithin`).
-/

namespace TypeOutline.Json

variable {c c' : Cursor} {first : Bool}

/-- A reader that takes a value, and ends where the value does. -/
def TakesValues (value : Reader Json) : Prop := ∀ {c c' : Cursor} {j : Json},
  value c = .ok (j, c') → ∃ space v, c.rest = space ++ (v ++ c'.rest) ∧ IsBlank space
    ∧ ValueText v ∧ EndsAt v c'.rest

theorem eq_of_readBelow {α : Type} {step : Step} {r : Reader α} {a : α}
    (h : readBelow step r c = .ok (a, c')) : r c = .ok (a, c') :=
  eq_ok_of_mapError h

theorem took_nextElement?_false (h : nextElement? first c = .ok (false, c')) :
    ∃ space rest, c.rest = space ++ ']' :: rest ∧ IsBlank space ∧ c'.rest = ']' :: rest := by
  obtain ⟨space, hspace, hc, -⟩ := c.exists_skipSpace
  rw [nextElement?] at h
  dsimp only at h
  split at h
  · exact nomatch h
  · rename_i rest hrest
    cases h
    exact ⟨space, rest, by rw [hc, hrest], hspace, hrest⟩
  · split at h
    · exact nomatch (Prod.mk.inj (Except.ok.inj h)).1
    · split at h
      · split at h
        · exact nomatch h
        · exact nomatch h
        · exact nomatch (Prod.mk.inj (Except.ok.inj h)).1
      · exact nomatch h

theorem took_nextElement?_true (h : nextElement? first c = .ok (true, c')) :
    ∃ sep, c.rest = sep ++ c'.rest ∧ SeparatorText first sep := by
  obtain ⟨space, hspace, hc, -⟩ := c.exists_skipSpace
  rw [nextElement?] at h
  dsimp only at h
  split at h
  · exact nomatch h
  · exact nomatch (Prod.mk.inj (Except.ok.inj h)).1
  · rename_i x rest _ hrest
    split at h
    · rename_i hfirst
      cases h
      exact ⟨space, hc, hfirst ▸ .first hspace⟩
    · rename_i hfirst
      obtain rfl := Bool.eq_false_iff.mpr hfirst
      split at h
      · rename_i hcomma
        obtain ⟨space', hspace', hc', -⟩ := c.skipSpace.next.exists_skipSpace
        rw [Cursor.rest_next_of_eq hrest] at hc'
        split at h
        · exact nomatch h
        · exact nomatch h
        · cases h
          refine ⟨_, ?_, .next hspace hspace'⟩
          rw [hc, hrest, hcomma, hc', List.append_assoc, List.cons_append]
      · exact nomatch h

theorem took_readElements {value : Reader Json} (hvalue : TakesValues value) :
    ∀ {fuel : Nat} {read : List Json} {c : Cursor} {js : List Json},
      readElements value fuel read c = .ok (js, c') →
        ∃ text, c.rest = text ++ c'.rest ∧ ElementsText read.isEmpty text
  | 0, _, _, _, h => nomatch h
  | fuel + 1, read, c, js, h => by
      rw [readElements] at h
      obtain ⟨⟨more, c₁⟩, hnext, h⟩ := exists_of_bind_eq_ok h
      cases more with
      | false =>
          obtain ⟨space, rest, hc, hspace, hc₁⟩ := took_nextElement?_false hnext
          cases h
          refine ⟨space ++ [']'], ?_, .close hspace⟩
          rw [hc, Cursor.rest_next, hc₁, List.append_assoc]
          rfl
      | true =>
          obtain ⟨⟨j, c₂⟩, hj, h⟩ := exists_of_bind_eq_ok h
          obtain ⟨sep, hc, hsep⟩ := took_nextElement?_true hnext
          obtain ⟨space, v, hc₁, hspace, hv, -⟩ := hvalue (eq_of_readBelow hj)
          obtain ⟨text, hc₂, htext⟩ := took_readElements hvalue h
          refine ⟨_, ?_, .element (hsep.append hspace) hv htext⟩
          simp only [hc, hc₁, hc₂, List.append_assoc]

theorem took_nextMember?_false (h : nextMember? first c = .ok (false, c')) :
    ∃ space rest, c.rest = space ++ '\x7d' :: rest ∧ IsBlank space ∧ c'.rest = '\x7d' :: rest := by
  obtain ⟨space, hspace, hc, -⟩ := c.exists_skipSpace
  rw [nextMember?] at h
  dsimp only at h
  split at h
  · exact nomatch h
  · rename_i rest hrest
    cases h
    exact ⟨space, rest, by rw [hc, hrest], hspace, hrest⟩
  · split at h
    · split at h
      · exact nomatch (Prod.mk.inj (Except.ok.inj h)).1
      · exact nomatch h
    · split at h
      · split at h
        · exact nomatch h
        · exact nomatch (Prod.mk.inj (Except.ok.inj h)).1
        · exact nomatch h
        · exact nomatch h
      · exact nomatch h

theorem took_nextMember?_true (h : nextMember? first c = .ok (true, c')) : ∃ sep rest,
    c.rest = sep ++ '"' :: rest ∧ SeparatorText first sep ∧ c'.rest = '"' :: rest := by
  obtain ⟨space, hspace, hc, -⟩ := c.exists_skipSpace
  rw [nextMember?] at h
  dsimp only at h
  split at h
  · exact nomatch h
  · exact nomatch (Prod.mk.inj (Except.ok.inj h)).1
  · rename_i x rest _ hrest
    split at h
    · rename_i hfirst
      split at h
      · rename_i hquote
        cases h
        exact ⟨space, rest, by rw [hc, hrest, hquote], hfirst ▸ .first hspace, hquote ▸ hrest⟩
      · exact nomatch h
    · rename_i hfirst
      obtain rfl := Bool.eq_false_iff.mpr hfirst
      split at h
      · rename_i hcomma
        obtain ⟨space', hspace', hc', -⟩ := c.skipSpace.next.exists_skipSpace
        rw [Cursor.rest_next_of_eq hrest] at hc'
        split at h
        · exact nomatch h
        · rename_i rest' hrest'
          cases h
          refine ⟨_, rest', ?_, .next hspace hspace', hrest'⟩
          rw [hc, hrest, hcomma, hc', hrest', List.append_assoc, List.cons_append]
        · exact nomatch h
        · exact nomatch h
      · exact nomatch h

theorem took_readKey?_none (h : readKey? first c = .ok (none, c')) :
    ∃ space rest, c.rest = space ++ '\x7d' :: rest ∧ IsBlank space ∧ c'.rest = '\x7d' :: rest := by
  obtain ⟨⟨more, c₁⟩, hnext, h⟩ := exists_of_bind_eq_ok (eq_of_readBelow h)
  cases more with
  | false =>
      cases h
      exact took_nextMember?_false hnext
  | true =>
      obtain ⟨⟨key, c₂⟩, -, h⟩ := exists_of_bind_eq_ok h
      exact nomatch (Prod.mk.inj (Except.ok.inj h)).1

theorem took_readKey?_some {name : String} (h : readKey? first c = .ok (some name, c')) :
    ∃ sep key, c.rest = sep ++ '"' :: (key ++ c'.rest) ∧ SeparatorText first sep
      ∧ StringText key := by
  obtain ⟨⟨more, c₁⟩, hnext, h⟩ := exists_of_bind_eq_ok (eq_of_readBelow h)
  cases more with
  | false => exact nomatch (Prod.mk.inj (Except.ok.inj h)).1
  | true =>
      obtain ⟨⟨name', c₂⟩, hstring, h⟩ := exists_of_bind_eq_ok h
      cases h
      obtain ⟨sep, rest, hc, hsep, hc₁⟩ := took_nextMember?_true hnext
      obtain ⟨key, hkey, htext⟩ := took_readStringFrom hstring
      rw [Cursor.rest_next_of_eq hc₁] at hkey
      exact ⟨sep, key, hkey ▸ hc, hsep, htext⟩

theorem took_readColon (h : readColon c = .ok ((), c')) :
    ∃ space, IsBlank space ∧ c.rest = space ++ ':' :: c'.rest := by
  obtain ⟨space, hspace, hc, -⟩ := c.exists_skipSpace
  rw [readColon] at h
  split at h
  · rename_i rest hrest
    cases h
    exact ⟨space, hspace, by rw [hc, Cursor.rest_next_of_eq hrest, hrest]⟩
  · exact nomatch h
  · exact nomatch h

theorem took_readMembers {value : Reader Json} (hvalue : TakesValues value) :
    ∀ {fuel : Nat} {first : Bool} {read : Dictionary Json} {c : Cursor} {es : List (String × Json)},
      readMembers value fuel first read c = .ok (es, c') →
        ∃ text, c.rest = text ++ c'.rest ∧ MembersText first text
  | 0, _, _, _, _, h => nomatch h
  | fuel + 1, first, read, c, es, h => by
      rw [readMembers] at h
      obtain ⟨⟨name?, c₁⟩, hname, h⟩ := exists_of_bind_eq_ok h
      cases name? with
      | none =>
          obtain ⟨space, rest, hc, hspace, hc₁⟩ := took_readKey?_none hname
          cases h
          refine ⟨space ++ ['\x7d'], ?_, .close hspace⟩
          rw [hc, Cursor.rest_next, hc₁, List.append_assoc]
          rfl
      | some name =>
          obtain ⟨⟨⟨⟩, c₂⟩, hcolon, h⟩ := exists_of_bind_eq_ok h
          obtain ⟨⟨j, c₃⟩, hj, h⟩ := exists_of_bind_eq_ok h
          obtain ⟨sep, key, hc, hsep, hkey⟩ := took_readKey?_some hname
          obtain ⟨space, hspace, hc₁⟩ := took_readColon hcolon
          obtain ⟨space', v, hc₂, hspace', hv, -⟩ := hvalue (eq_of_readBelow hj)
          obtain ⟨text, hc₃, htext⟩ := took_readMembers hvalue h
          refine ⟨_, ?_, .member hsep hkey hspace hspace' hv htext⟩
          simp only [hc, hc₁, hc₂, hc₃, List.append_assoc, List.cons_append]

/-- What the reader of values takes, by the first character of the value. -/
theorem took_readValueWithin : ∀ depth, TakesValues (readValueWithin depth)
  | depth, c, c', j, h => by
      obtain ⟨space, hspace, hc, -⟩ := c.exists_skipSpace
      suffices hv : ∃ v, c.skipSpace.rest = v ++ c'.rest ∧ ValueText v ∧ EndsAt v c'.rest by
        obtain ⟨v, hrest, hv⟩ := hv
        exact ⟨space, v, by rw [hc, hrest], hspace, hv⟩
      rw [readValueWithin.eq_def] at h
      dsimp only at h
      split at h
      · exact nomatch h
      · rename_i rest hrest
        obtain ⟨⟨⟨⟩, c₁⟩, hread, h⟩ := exists_of_bind_eq_ok h
        cases h
        have htook := Cursor.rest_eq_of_next hrest (took_readWord hread)
        exact ⟨_, htook, .nullWord, endsAt_cons (by decide) rfl _⟩
      · rename_i rest hrest
        obtain ⟨⟨⟨⟩, c₁⟩, hread, h⟩ := exists_of_bind_eq_ok h
        cases h
        have htook := Cursor.rest_eq_of_next hrest (took_readWord hread)
        exact ⟨_, htook, .trueWord, endsAt_cons (by decide) rfl _⟩
      · rename_i rest hrest
        obtain ⟨⟨⟨⟩, c₁⟩, hread, h⟩ := exists_of_bind_eq_ok h
        cases h
        have htook := Cursor.rest_eq_of_next hrest (took_readWord hread)
        exact ⟨_, htook, .falseWord, endsAt_cons (by decide) rfl _⟩
      · rename_i rest hrest
        obtain ⟨⟨s, c₁⟩, hread, h⟩ := exists_of_bind_eq_ok h
        cases h
        obtain ⟨text, htook, htext⟩ := took_readStringFrom hread
        exact ⟨_, Cursor.rest_eq_of_next hrest htook, .string htext, endsAt_cons (by decide) rfl _⟩
      · rename_i rest hrest
        obtain ⟨⟨n, c₁⟩, hread, h⟩ := exists_of_bind_eq_ok h
        cases h
        obtain ⟨v, htook, hv, hends⟩ := took_readNumber hread
        exact ⟨_, Cursor.rest_eq_of_next hrest htook, .number (.negative hv), fun _ d hd =>
          mt takesOn_negative.mp (hends d hd)⟩
      · rename_i rest hrest
        cases depth with
        | zero => exact nomatch h
        | succ depth =>
            obtain ⟨⟨items, c₁⟩, hread, h⟩ := exists_of_bind_eq_ok h
            cases h
            obtain ⟨text, htook, htext⟩ := took_readElements (took_readValueWithin depth) hread
            exact ⟨_, Cursor.rest_eq_of_next hrest htook, .list htext,
              endsAt_cons (by decide) rfl _⟩
      · rename_i rest hrest
        cases depth with
        | zero => exact nomatch h
        | succ depth =>
            obtain ⟨⟨members, c₁⟩, hread, h⟩ := exists_of_bind_eq_ok h
            cases h
            obtain ⟨text, htook, htext⟩ := took_readMembers (took_readValueWithin depth) hread
            exact ⟨_, Cursor.rest_eq_of_next hrest htook, .object htext,
              endsAt_cons (by decide) rfl _⟩
      · split at h
        · obtain ⟨⟨n, c₁⟩, hread, h⟩ := exists_of_bind_eq_ok h
          cases h
          obtain ⟨v, htook, hv, hends⟩ := took_readNumber hread
          exact ⟨v, htook, .number (.unsigned hv), fun _ => hends⟩
        · exact nomatch h

end TypeOutline.Json
