import Mathlib.Data.List.Forall2

/-!
# Steps that may fail

A step that may fail is compared with the list of all that is wrong,
whether a run gets that far or not: it fails with the first of them, and
it succeeds if there is none (`Reports`). Doing one step after another
puts the lists one behind the other (`Reports.bind`, `Reports.mapM`).
-/

namespace TypeOutline

variable {ε ε' α β : Type}

/-- All steps succeed exactly if each does. -/
theorem mapM_eq_ok_iff {f : α → Except ε β} {xs : List α} {ys : List β} :
    xs.mapM f = .ok ys ↔ List.Forall₂ (fun x y => f x = .ok y) xs ys := by
  induction xs generalizing ys with
  | nil => cases ys <;> simp [pure, Except.pure]
  | cons x xs ih =>
    rw [List.mapM_cons]
    cases hx : f x with
    | error e => cases ys <;> simp [bind, Except.bind, hx]
    | ok y =>
      cases hxs : xs.mapM f with
      | error e => cases ys <;> simp [bind, Except.bind, hx, ← ih, hxs]
      | ok ys' => cases ys <;> simp [bind, Except.bind, pure, Except.pure, hx, ← ih, hxs]

theorem ok_bind (a : α) (f : α → Except ε β) : (Except.ok a >>= f) = f a := rfl

theorem exists_of_bind_eq_ok {x : Except ε α} {f : α → Except ε β} {b : β}
    (h : (x >>= f) = .ok b) : ∃ a, x = .ok a ∧ f a = .ok b := by
  cases x with
  | error e => exact nomatch h
  | ok a => exact ⟨a, rfl, h⟩

/-- A step behind a check. -/
theorem check_bind_eq_ok_iff {x : Except ε Unit} {y : Except ε β} {b : β} :
    (x >>= fun _ => y) = .ok b ↔ x = .ok () ∧ y = .ok b := by
  cases x with
  | error e => exact ⟨fun h => (nomatch h), fun h => nomatch h.1⟩
  | ok _ => exact ⟨fun h => ⟨rfl, h⟩, fun h => h.2⟩

theorem eq_ok_of_mapError {g : ε → ε'} {x : Except ε α} {a : α} (h : x.mapError g = .ok a) :
    x = .ok a := by
  cases x with
  | error e => exact nomatch h
  | ok b => exact congrArg Except.ok (Except.ok.inj h)

theorem mapError_bind (g : ε → ε') (x : Except ε α) (f : α → Except ε β) :
    (x >>= f).mapError g = x.mapError g >>= fun a => (f a).mapError g := by
  cases x <;> rfl

theorem mapError_mapM (g : ε → ε') (f : α → Except ε β) (xs : List α) :
    (xs.mapM f).mapError g = xs.mapM fun a => (f a).mapError g := by
  induction xs with
  | nil => rfl
  | cons x xs ih =>
    rw [List.mapM_cons, List.mapM_cons, mapError_bind, ← ih]
    refine bind_congr fun b => ?_
    cases xs.mapM f <;> rfl

/-- A step fails with the first of the things that are wrong, and succeeds if there are none. -/
def Reports : Except ε α → List ε → Prop
  | .error e, wrong => wrong.head? = some e
  | .ok _, wrong => wrong = []

namespace Reports

variable {x : Except ε α} {wrong : List ε} {e : ε}

theorem ok (a : α) : Reports (.ok a : Except ε α) [] := rfl

theorem error (e : ε) : Reports (.error e : Except ε α) [e] := rfl

theorem eq_error_iff (h : Reports x wrong) : x = .error e ↔ wrong.head? = some e := by
  cases x with
  | error e' => rw [Except.error.injEq, show wrong.head? = some e' from h, Option.some.injEq]
  | ok a => simp [show wrong = [] from h]

theorem eq_nil_iff (h : Reports x wrong) : wrong = [] ↔ ∃ a, x = .ok a := by
  cases x with
  | error e =>
    have hhead : wrong.head? = some e := h
    refine ⟨fun hnil => ?_, fun ⟨a, ha⟩ => nomatch ha⟩
    rw [hnil] at hhead
    exact nomatch hhead
  | ok a => exact ⟨fun _ => ⟨a, rfl⟩, fun _ => h⟩

/-- What is wrong with a second step counts only if the first succeeds. -/
theorem bind {f : α → Except ε β} {more : List ε} (h : Reports x wrong)
    (hf : ∀ a, x = .ok a → Reports (f a) more) : Reports (x >>= f) (wrong ++ more) := by
  cases x with
  | error e =>
    show (wrong ++ more).head? = some e
    rw [List.head?_append, show wrong.head? = some e from h]
    rfl
  | ok a =>
    rw [show wrong = [] from h]
    exact hf a rfl

theorem map (f : α → β) (h : Reports x wrong) : Reports (x.map f) wrong := by
  cases x <;> exact h

theorem mapError (f : ε → ε') (h : Reports x wrong) :
    Reports (x.mapError f) (wrong.map f) := by
  cases x with
  | error e =>
    show (wrong.map f).head? = some (f e)
    rw [List.head?_map, show wrong.head? = some e from h]
    rfl
  | ok a =>
    rw [show wrong = [] from h]
    rfl

theorem mapM {f : α → Except ε β} {g : α → List ε} : ∀ {xs : List α},
    (∀ a ∈ xs, Reports (f a) (g a)) → Reports (xs.mapM f) (xs.flatMap g)
  | [], _ => rfl
  | a :: xs, h => by
      rw [List.mapM_cons, List.flatMap_cons]
      refine (h a List.mem_cons_self).bind fun b _ => ?_
      have hxs := mapM fun a' ha' => h a' (List.mem_cons_of_mem a ha')
      exact hxs.map (b :: ·)

end Reports

end TypeOutline
