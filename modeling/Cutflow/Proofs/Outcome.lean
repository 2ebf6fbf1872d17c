import Cutflow.Outcome
import Mathlib

/-!
# What follows from success

Inversion of the two ways in which steps that can fail are put in sequence: `Except`, in which
texts are read and functions are built, and `Outcome`, in which functions are evaluated.

## What is proved

* `Outcome.result_mapM_eq_ok`, `calls_mapM_of_ok`: a step on each element of a list succeeds if every
  one of them does, and then the calls of all are made.
* `Outcome.mapM_of_error`: else it ends with the first element whose step fails.
-/

namespace Cutflow

section Except

variable {ε α β : Type}

theorem bind_eq_ok {x : Except ε α} {f : α → Except ε β} {b : β} :
    (x >>= f) = .ok b ↔ ∃ a, x = .ok a ∧ f a = .ok b := by
  cases x <;> simp [bind, Except.bind]

theorem pure_eq_ok {a b : α} : (pure a : Except ε α) = .ok b ↔ a = b := Except.ok.injEq a b ▸ .rfl

theorem mapError_eq_ok {ε' : Type} {x : Except ε α} {f : ε → ε'} {a : α} :
    x.mapError f = .ok a ↔ x = .ok a := by
  cases x <;> simp [Except.mapError]

theorem mapM_eq_ok {f : α → Except ε β} {l : List α} {ys : List β} :
    l.mapM f = .ok ys ↔ List.Forall₂ (fun a y => f a = .ok y) l ys := by
  induction l generalizing ys with
  | nil => rw [List.mapM_nil, List.forall₂_nil_left_iff, pure_eq_ok, eq_comm]
  | cons a l ih =>
    simp only [List.mapM_cons, bind_eq_ok, pure_eq_ok, List.forall₂_cons_left_iff, ih]
    constructor
    · rintro ⟨y, hy, zs, hzs, rfl⟩
      exact ⟨y, zs, hy, hzs, rfl⟩
    · rintro ⟨y, zs, hy, hzs, rfl⟩
      exact ⟨y, hy, zs, hzs, rfl⟩

end Except

namespace Outcome

variable {α β : Type}

@[simp] theorem result_pure (a : α) : (pure a : Outcome α).result = .ok a := rfl

theorem result_bind (a : Outcome α) (f : α → Outcome β) :
    (a >>= f).result = a.result >>= fun x => (f x).result := by
  obtain ⟨calls, _ | x⟩ := a <;> rfl

theorem result_bind_eq_ok {a : Outcome α} {f : α → Outcome β} {b : β} :
    (a >>= f).result = .ok b ↔ ∃ x, a.result = .ok x ∧ (f x).result = .ok b := by
  rw [result_bind, bind_eq_ok]

theorem bind_of_ok {a : Outcome α} {x : α} (h : a.result = .ok x) (f : α → Outcome β) :
    a >>= f = ⟨a.calls ++ (f x).calls, (f x).result⟩ := by
  obtain ⟨calls, result⟩ := a
  cases h
  rfl

theorem bind_of_error {a : Outcome α} {e : Error} (h : a.result = .error e) (f : α → Outcome β) :
    a >>= f = ⟨a.calls, .error e⟩ := by
  obtain ⟨calls, result⟩ := a
  cases h
  rfl

theorem bind_pure_eq (a : Outcome α) (f : α → β) :
    (a >>= fun x => pure (f x)) = ⟨a.calls, a.result.map f⟩ := by
  obtain ⟨calls, _ | x⟩ := a
  · rfl
  · exact ext (List.append_nil calls) rfl

/-! ### A step on each element of a list -/

variable {f : α → Outcome β} {l : List α} {ys : List β}

theorem result_mapM_eq_ok :
    (l.mapM f).result = .ok ys ↔ List.Forall₂ (fun a y => (f a).result = .ok y) l ys := by
  induction l generalizing ys with
  | nil =>
    rw [List.mapM_nil, List.forall₂_nil_left_iff, result_pure]
    exact ⟨fun h => (Except.ok.inj h).symm, fun h => h ▸ rfl⟩
  | cons a l ih =>
    simp only [List.mapM_cons, result_bind_eq_ok, List.forall₂_cons_left_iff, ih]
    constructor
    · rintro ⟨y, hy, zs, hzs, ⟨⟩⟩
      exact ⟨y, zs, hy, hzs, rfl⟩
    · rintro ⟨y, zs, hy, hzs, rfl⟩
      exact ⟨y, hy, zs, hzs, rfl⟩

theorem calls_mapM_of_ok (h : List.Forall₂ (fun a y => (f a).result = .ok y) l ys) :
    (l.mapM f).calls = l.flatMap fun a => (f a).calls := by
  induction h with
  | nil => rfl
  | cons hy hys ih =>
    rw [List.mapM_cons, bind_of_ok hy, bind_of_ok (result_mapM_eq_ok.mpr hys), ih]
    simp [pure_def]

/-- The first step that fails is the last one made. -/
theorem mapM_of_error {e : Error} (h : (l.mapM f).result = .error e) :
    ∃ first a rest, l = first ++ a :: rest ∧ (∀ b ∈ first, ∃ y, (f b).result = .ok y) ∧
      (f a).result = .error e ∧ (l.mapM f).calls = (first ++ [a]).flatMap fun b => (f b).calls := by
  induction l with
  | nil => cases h
  | cons a l ih =>
    rw [List.mapM_cons] at h ⊢
    cases ha : (f a).result with
    | error e' =>
      rw [bind_of_error ha] at h ⊢
      cases h
      exact ⟨[], a, l, rfl, by simp, ha, by simp⟩
    | ok y =>
      rw [bind_of_ok ha] at h ⊢
      cases hl : (l.mapM f).result with
      | ok ys =>
        rw [bind_of_ok hl] at h
        cases h
      | error e' =>
        rw [bind_of_error hl] at h ⊢
        cases h
        obtain ⟨first, b, rest, rfl, hfirst, hb, hcalls⟩ := ih hl
        refine ⟨a :: first, b, rest, rfl, List.forall_mem_cons.mpr ⟨⟨y, ha⟩, hfirst⟩, hb, ?_⟩
        rw [hcalls, List.cons_append, List.flatMap_cons]

/-- What is made of each result can be made of all of them afterwards. -/
theorem mapM_bind_pure {γ : Type} (f : α → Outcome β) (g : β → γ) (l : List α) :
    (l.mapM fun a => f a >>= fun y => pure (g y)) = l.mapM f >>= fun ys => pure (ys.map g) := by
  induction l with
  | nil => rfl
  | cons a l ih => simp only [List.mapM_cons, ih, bind_assoc, pure_bind, List.map_cons]

theorem exists_ok_of_mem (h : List.Forall₂ (fun a y => (f a).result = .ok y) l ys) {a : α}
    (ha : a ∈ l) : ∃ y, (f a).result = .ok y := by
  induction h with
  | nil => cases ha
  | cons hy _ ih =>
    rcases List.mem_cons.mp ha with rfl | ha
    · exact ⟨_, hy⟩
    · exact ih ha

theorem forall₂_or_exists_error (f : α → Outcome β) (l : List α) :
    (∃ ys, List.Forall₂ (fun a y => (f a).result = .ok y) l ys) ∨
      ∃ a ∈ l, ∃ e, (f a).result = .error e := by
  cases hl : (l.mapM f).result with
  | ok ys => exact .inl ⟨ys, result_mapM_eq_ok.mp hl⟩
  | error e =>
    obtain ⟨first, a, rest, rfl, -, ha, -⟩ := mapM_of_error hl
    exact .inr ⟨a, List.mem_append_right _ List.mem_cons_self, e, ha⟩

end Outcome

end Cutflow
