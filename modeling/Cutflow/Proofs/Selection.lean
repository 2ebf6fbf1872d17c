import Cutflow.Proofs.Batch
import Cutflow.Proofs.Entrywise

/-!
# Selections and conjunctions

Two ways of saying that an event has to pass several cuts have nothing in common in how they work. The
loop over a list of cuts stops at a number that is false, puts the lists aside and looks for an index at
which all of them are true. The conjunction of the cuts is one function that hands values on, shortens
lists or gives an empty one. What they agree on are the objects of the event that each cut admits: a
number admits all or none of them, a list those at which it is true.

## What is proved

* `Connective.exists_isTrueAt_connect`, `Func.admits_foldl_and`: a conjunction admits the objects that each
  of its operands admits.
* `Selection.passes_eq_ok`: the loop over the cuts decides whether they all admit one object.
* `Batch.countPassing_conjunction`: a list of cuts and their conjunction let the same number of events
  pass.
* `Batch.countPassing_rearranged`: it does not matter in which order cuts are applied, or how often, and
  with one more of them no more events pass.
-/

namespace Cutflow

open Number

/-! ### Objects that a cut admits -/

/-- Whether a value is true for object `i` of an event: a number is true or false for all of them, and a
list is false where it has no entry. -/
def Value.isTrueAt (i : Nat) (v : Value) : Bool := (v.at? i).any isTrue

/-- A cut admits object `i` of the event: it has a value there, and this is true for the object. -/
def Func.Admits (f : Func) (r : Record) (i : Nat) : Prop :=
  ∃ v, (f.eval r).result = .ok v ∧ v.isTrueAt i = true

namespace Connective

variable {i : Nat}

theorem isTrueAt_combine_and (x y : Value) :
    (Value.combine Connective.and.onNumbers x y).isTrueAt i = (x.isTrueAt i && y.isTrueAt i) := by
  have hn : ∀ a b, isTrue (Connective.and.onNumbers a b) = (isTrue a && isTrue b) := fun a b =>
    isTrue_ofTruth _
  rw [Value.isTrueAt, Value.isTrueAt, Value.isTrueAt, Value.at?_combine]
  cases x.at? i <;> cases y.at? i <;> simp [hn]

theorem isTrueAt_vector_of_forall {xs : List Float} (h : ∀ x ∈ xs, isTrue x = false) :
    (Value.vector xs).isTrueAt i = false := by
  rw [Value.isTrueAt, Value.at?, Option.any_eq_false]
  intro x hx
  rw [h x (List.mem_of_getElem? hx)]

/-- A conjunction is settled by its left operand, which is true for no object, or it combines both, or
it hands on the right operand of a true number. -/
theorem connect_and_cases (i : Nat) (s : Shape) (right : Outcome Value) (x : Value) :
    (∃ z, Connective.and.connect s right x = pure z ∧ x.isTrueAt i = false ∧ z.isTrueAt i = false) ∨
      (Connective.and.connect s right x = right >>= fun y => pure (.combine Connective.and.onNumbers x y)) ∨
      (Connective.and.connect s right x = right ∧ x.isTrueAt i = true) := by
  cases x with
  | scalar a =>
    cases ha : isTrue a with
    | false =>
      have hd : Connective.and.decides a = true := by rw [decides_and, ha, Bool.not_false]
      left
      cases s with
      | scalar => exact ⟨.scalar (ofTruth false), by simp only [connect, hd, deciding], ha, isTrue_ofTruth false⟩
      | vector => exact ⟨.vector [], by simp only [connect, hd], ha, rfl⟩
    | true =>
      have hd : Connective.and.decides a = false := by rw [decides_and, ha, Bool.not_true]
      right
      cases s with
      | scalar =>
        left
        simp only [connect, hd]
        refine congrArg (right >>= ·) (funext fun y => ?_)
        cases y <;> rfl
      | vector => exact .inr ⟨by simp only [connect, hd], ha⟩
  | vector xs =>
    rw [connect]
    split
    next hall =>
      refine .inl ⟨_, rfl, isTrueAt_vector_of_forall fun x hx => ?_, isTrueAt_vector_of_forall ?_⟩
      · have hd := List.all_eq_true.mp hall.2 x hx
        rwa [decides_and, Bool.not_eq_true'] at hd
      · intro x hx
        obtain ⟨-, -, rfl⟩ := List.mem_map.mp hx
        exact isTrue_ofTruth false
    next => exact .inr (.inl rfl)

/-- **A conjunction is true for the objects that both operands are true for**, whether or not the right
operand is evaluated. -/
theorem exists_isTrueAt_connect (s : Shape) (right : Outcome Value) (x : Value) :
    (∃ z, (Connective.and.connect s right x).result = .ok z ∧ z.isTrueAt i = true) ↔
      x.isTrueAt i = true ∧ ∃ y, right.result = .ok y ∧ y.isTrueAt i = true := by
  rcases connect_and_cases i s right x with ⟨z, hc, hx, hz⟩ | hc | ⟨hc, hx⟩
  · simp [hc, hx, hz]
  · simp only [hc, Outcome.result_bind_eq_ok, Outcome.result_pure, Except.ok.injEq]
    constructor
    · rintro ⟨z, ⟨y, hy, rfl⟩, hz⟩
      rw [isTrueAt_combine_and, Bool.and_eq_true] at hz
      exact ⟨hz.1, y, hy, hz.2⟩
    · rintro ⟨hx, y, hy, hyi⟩
      exact ⟨_, ⟨y, hy, rfl⟩, by rw [isTrueAt_combine_and, hx, hyi, Bool.and_self]⟩
  · simp [hc, hx]

end Connective

namespace Func

variable {f g : Func} {r : Record} {i : Nat}

theorem admits_and : (binary (.connective .and) f g).Admits r i ↔ f.Admits r i ∧ g.Admits r i := by
  have hc := fun x => Connective.exists_isTrueAt_connect (i := i) g.shape (g.eval r) x
  simp only [Admits, eval_connective, Outcome.result_bind_eq_ok]
  constructor
  · rintro ⟨z, ⟨x, hx, hz⟩, hi⟩
    obtain ⟨hxi, hy⟩ := (hc x).mp ⟨z, hz, hi⟩
    exact ⟨⟨x, hx, hxi⟩, hy⟩
  · rintro ⟨⟨x, hx, hxi⟩, hy⟩
    obtain ⟨z, hz, hi⟩ := (hc x).mpr ⟨hxi, hy⟩
    exact ⟨z, ⟨x, hx, hz⟩, hi⟩

theorem admits_foldl_and {gs : List Func} :
    (gs.foldl (binary (.connective .and)) f).Admits r i ↔ ∀ g ∈ f :: gs, g.Admits r i := by
  induction gs generalizing f with
  | nil => simp
  | cons g gs ih =>
    rw [List.foldl_cons, ih, List.forall_mem_cons, List.forall_mem_cons, List.forall_mem_cons, admits_and, and_assoc]

/-- Where a cut has a value, this says which objects it admits. -/
theorem admits_iff {v : Value} (hv : (f.eval r).result = .ok v) : f.Admits r i ↔ v.isTrueAt i = true := by
  rw [Admits]
  constructor
  · rintro ⟨w, hw, hi⟩
    cases hv.symm.trans hw
    exact hi
  · exact fun hi => ⟨v, hv, hi⟩

end Func

/-! ### Events that pass -/

namespace Selection

variable {r : Record} {b : Bool}

/-- The event has an object that every cut admits. -/
def Passes (cuts : List Func) (r : Record) : Prop := ∃ i, ∀ cut ∈ cuts, cut.Admits r i

theorem allRowsAnyTrue_iff {rows : List (List Float)} (h : rows ≠ []) :
    allRowsAnyTrue rows = true ↔ ∃ i, ∀ row ∈ rows, (Value.vector row).isTrueAt i = true := by
  obtain ⟨first, rest, rfl⟩ := List.exists_cons_of_ne_nil h
  rw [allRowsAnyTrue]
  simp only [List.any_eq_true, List.mem_range, List.all_eq_true]
  constructor
  · rintro ⟨i, -, hi⟩
    exact ⟨i, hi⟩
  · rintro ⟨i, hi⟩
    refine ⟨i, ?_, hi⟩
    -- an index at which the first row is true lies within it
    obtain ⟨x, hx, -⟩ := (Option.any_eq_true _ _).mp (hi first List.mem_cons_self)
    exact (List.getElem?_eq_some_iff.mp hx).1

/-- The rows are the values of vector cuts met before. -/
theorem applyCuts_eq_ok {rows : List (List Float)} {cuts : List Func}
    (h : (applyCuts r rows cuts).result = .ok b) :
    b = true ↔ ∃ i, (∀ row ∈ rows, (Value.vector row).isTrueAt i = true) ∧
      ∀ cut ∈ cuts, cut.Admits r i := by
  induction cuts generalizing rows with
  | nil =>
    cases h
    cases rows with
    | nil => simp
    | cons row rows =>
      simp [allRowsAnyTrue_iff]
  | cons cut cuts ih =>
    rw [applyCuts] at h
    split at h
    next run hrun =>
      obtain ⟨x, hx, h⟩ := Outcome.result_bind_eq_ok.mp h
      have hcut : (cut.eval r).result = .ok (.scalar x) := by
        rw [Func.eval_eq, hrun]
        exact Outcome.result_bind_eq_ok.mpr ⟨x, hx, rfl⟩
      have hi : ∀ i, cut.Admits r i ↔ isTrue x = true := fun i => Func.admits_iff hcut
      split at h
      next htrue => simp only [ih h, List.forall_mem_cons, hi, htrue, true_and]
      next hfalse =>
        cases h
        simp only [List.forall_mem_cons, hi, hfalse, false_and, and_false, exists_false, Bool.false_eq_true]
    next run hrun =>
      obtain ⟨xs, hxs, h⟩ := Outcome.result_bind_eq_ok.mp h
      have hcut : (cut.eval r).result = .ok (.vector xs) := by
        rw [Func.eval_eq, hrun]
        exact Outcome.result_bind_eq_ok.mpr ⟨xs, hxs, rfl⟩
      rw [ih h]
      refine exists_congr fun i => ?_
      rw [List.forall_mem_append, List.forall_mem_singleton, List.forall_mem_cons, Func.admits_iff hcut,
        and_assoc]

/-- **Cuts look for one object**: what the loop over the cuts comes to is whether they share an object. -/
theorem passes_eq_ok {cuts : List Func} (h : (passes cuts r).result = .ok b) :
    b = true ↔ Passes cuts r := by
  rw [applyCuts_eq_ok h, Passes]
  simp

/-- An object that many cuts admit is admitted by the few. -/
theorem Passes.of_subset {cuts cuts' : List Func} (hs : cuts ⊆ cuts') (h : Passes cuts' r) : Passes cuts r := by
  obtain ⟨i, hi⟩ := h
  exact ⟨i, fun cut hcut => hi cut (hs hcut)⟩

theorem passes_foldl_and {cut : Func} {cuts : List Func} :
    Passes [cuts.foldl (Func.binary (.connective .and)) cut] r ↔ Passes (cut :: cuts) r := by
  simp only [Passes, List.forall_mem_singleton, Func.admits_foldl_and]

end Selection

namespace Batch

variable {pool : Pool} {threading threading' : Threading} {records : List Record} {m n : Nat}

open Classical in
theorem count_passed {cuts : List Func} {passed : List Bool}
    (h : List.Forall₂ (fun r b => (Selection.passes cuts r).result = .ok b) records passed) :
    passed.count true = records.countP fun r => Selection.Passes cuts r := by
  induction h with
  | nil => rfl
  | cons hb _ ih =>
    rw [List.count_cons, List.countP_cons, ih]
    simp [← Selection.passes_eq_ok hb]

open Classical in
/-- A count is the number of events with an object that every cut admits. -/
theorem countPassing_eq_ok (hp : pool.Lawful) {cuts : List Func}
    (h : (countPassing pool threading cuts records).result = .ok n) :
    n = records.countP fun r => Selection.Passes cuts r := by
  obtain ⟨passed, hpassed, hn⟩ := Outcome.result_bind_eq_ok.mp h
  cases hn
  exact count_passed (forall₂_of_run_ok hp hpassed)

/-- **A list of cuts means the same as one conjunction**: where events can be counted with either, the
counts are equal, of whatever shapes the cuts are. -/
theorem countPassing_conjunction (hp : pool.Lawful) {cut : Func} {cuts : List Func}
    (hm : (countPassing pool threading (cut :: cuts) records).result = .ok m)
    (hn : (countPassing pool threading' [cuts.foldl (Func.binary (.connective .and)) cut]
      records).result = .ok n) : m = n := by
  classical
  rw [countPassing_eq_ok hp hm, countPassing_eq_ok hp hn]
  refine List.countP_congr fun r _ => ?_
  rw [decide_eq_true_iff, decide_eq_true_iff, Selection.passes_foldl_and]

/-- A number between two lists of different lengths; of three events the second is stopped by the number,
and the third has no object at which both lists are true. -/
theorem countPassing_conjunction_ragged :
    let v := Func.ofVariable "v" .vector
    let x := Func.ofVariable "x" .scalar
    let w := Func.ofVariable "w" .vector
    let event (vs : List Float) (a : Float) (ws : List Float) : Record :=
      ((Record.empty.insert "v" (.vector vs)).insert "x" (.scalar a)).insert "w" (.vector ws)
    let records := [event [0, 2, 1] 1 [1, 1], event [1] 0 [1], event [1] 1 [0, 1]]
    let conjunction := Func.binary (.connective .and) (Func.binary (.connective .and) v x) w
    Pool.backwards.Lawful ∧
      (countPassing .backwards {} [v, x, w] records).result = .ok 1 ∧
      ∃ n, (countPassing .backwards {} [conjunction] records).result = .ok n ∧ 1 = n := by
  intro v x w event records conjunction
  have hm : (countPassing .backwards {} [v, x, w] records).result = .ok 1 := rfl
  obtain ⟨n, hn⟩ : ∃ n, (countPassing .backwards {} [conjunction] records).result = .ok n := ⟨_, rfl⟩
  exact ⟨Pool.lawful_backwards, hm, n, hn, countPassing_conjunction Pool.lawful_backwards hm hn⟩

/-! ### Order of the cuts -/

theorem countPassing_le_of_subset (hp : pool.Lawful) {cuts cuts' : List Func} (hs : cuts ⊆ cuts')
    (hm : (countPassing pool threading cuts records).result = .ok m)
    (hn : (countPassing pool threading' cuts' records).result = .ok n) : n ≤ m := by
  classical
  rw [countPassing_eq_ok hp hm, countPassing_eq_ok hp hn]
  refine List.countP_mono_left fun r _ => ?_
  rw [decide_eq_true_iff, decide_eq_true_iff]
  exact Selection.Passes.of_subset hs

/-- **The order of the cuts does not matter**: where events can be counted with two lists that hold the same
cuts, in whatever order and however often, the counts are equal, although the lists stop at different cuts.
With a cut put in anywhere, no more events pass. -/
theorem countPassing_rearranged (hp : pool.Lawful) (threading threading' : Threading) (records : List Record) :
    (∀ {cuts cuts' : List Func} {m n : Nat}, (∀ cut, cut ∈ cuts' ↔ cut ∈ cuts) →
      (countPassing pool threading cuts records).result = .ok m →
      (countPassing pool threading' cuts' records).result = .ok n → m = n) ∧
    ∀ (before after : List Func) (cut : Func) {m n : Nat},
      (countPassing pool threading (before ++ after) records).result = .ok m →
      (countPassing pool threading' (before ++ cut :: after) records).result = .ok n → n ≤ m := by
  constructor
  · intro cuts cuts' m n hc hm hn
    have hle : m ≤ n := countPassing_le_of_subset hp (fun cut h => (hc cut).mp h) hn hm
    have hge : n ≤ m := countPassing_le_of_subset hp (fun cut h => (hc cut).mpr h) hm hn
    exact Nat.le_antisymm hle hge
  · intro before after cut m n hm hn
    have hs : before ++ after ⊆ before ++ cut :: after :=
      ((List.sublist_cons_self cut after).append_left before).subset
    exact countPassing_le_of_subset hp hs hm hn

/-- A leaf is called once if a number that is false for the second event comes before it, and three times if
the leaf comes first and last. The cut that is put in cannot be applied to the second event. -/
theorem countPassing_rearranged_calls :
    let x := Func.ofVariable "x" .scalar
    let v := Func.ofEvaluator "v" (Func.leafEvaluator "v" (.vector [0, 1]) none)
    let w := Func.ofVariable "w" .vector
    let records := [(Record.empty.insert "x" (.scalar 1)).insert "w" (.vector [1]),
      Record.empty.insert "x" (.scalar 0)]
    Pool.backwards.Lawful ∧ (∀ cut, cut ∈ [v, x, v] ↔ cut ∈ [x, v]) ∧
      countPassing .backwards {} [x, v] records = ⟨["v"], .ok 1⟩ ∧
      (∃ n, countPassing .backwards {} [v, x, v] records = ⟨["v", "v", "v"], .ok n⟩ ∧ 1 = n) ∧
      ∃ n, countPassing .backwards {} [x, w, v] records = ⟨["v"], .ok n⟩ ∧ n ≤ 1 := by
  intro x v w records
  have hc : ∀ cut, cut ∈ [v, x, v] ↔ cut ∈ [x, v] := by
    intro cut
    simp only [List.mem_cons, List.not_mem_nil, or_false]
    tauto
  obtain ⟨hsame, hless⟩ := countPassing_rearranged Pool.lawful_backwards {} {} records
  have hm : countPassing .backwards {} [x, v] records = ⟨["v"], .ok 1⟩ := rfl
  obtain ⟨n, hn⟩ : ∃ n, countPassing .backwards {} [v, x, v] records = ⟨["v", "v", "v"], .ok n⟩ := ⟨_, rfl⟩
  obtain ⟨k, hk⟩ : ∃ n, countPassing .backwards {} [x, w, v] records = ⟨["v"], .ok n⟩ := ⟨_, rfl⟩
  refine ⟨Pool.lawful_backwards, hc, hm, ⟨n, hn, ?_⟩, k, hk, ?_⟩
  · exact hsame hc (congrArg Outcome.result hm) (congrArg Outcome.result hn)
  · exact hless [x] [v] w (congrArg Outcome.result hm) (congrArg Outcome.result hk)

end Batch

end Cutflow
