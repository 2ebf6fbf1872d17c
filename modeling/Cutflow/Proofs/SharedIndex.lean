import Cutflow.Proofs.SingleCut

/-!
# An index that rows share

Whether some index is true in all of many rows is found by trying the indices of the first row; in every
other row one that is out of range counts as false. So it looks as if the first row were special and the
lengths mattered. Neither is so: the first row only says how far there is anything to try.

## What is proved

* `allRowsAnyTrue_congr`: rows that are all true at the same indices come to the same.
* `allRowsAnyTrue_meet`, `eval_foldl_and`: two rows may be replaced by their entrywise conjunction, and so
  all of them by the value of the conjunction of the functions that gave them.
* `allRowsAnyTrue_shared`: an index is found if there is one, in whatever order the rows come, however often
  and whatever they hold where the shortest of them has ended.
-/

namespace Cutflow.Selection

open Number

/-- Two rows entry by entry, over the length of the shorter one: `1` where both are true, else `0`. -/
def meet (xs ys : List Float) : List Float := List.zipWith Connective.and.onNumbers xs ys

/-- The length of the shortest row. -/
def shortest (rows : List (List Float)) : Nat := (rows.map List.length).min?.getD 0

/-- Rows of one length with the same entries before index `n`. -/
def AgreeBelow (n : Nat) (xs ys : List Float) : Prop :=
  xs.length = ys.length ∧ ∀ i, i < n → xs[i]? = ys[i]?

variable {i n : Nat} {xs ys : List Float} {rows rows' : List (List Float)}

theorem isTrueAt_vector : (Value.vector xs).isTrueAt i = true ↔ ∃ h : i < xs.length, isTrue xs[i] = true := by
  rw [Value.isTrueAt, Value.at?, Option.any_eq_true]
  constructor
  · rintro ⟨x, hx, htrue⟩
    obtain ⟨h, rfl⟩ := List.getElem?_eq_some_iff.mp hx
    exact ⟨h, htrue⟩
  · rintro ⟨h, htrue⟩
    exact ⟨xs[i], List.getElem?_eq_getElem h, htrue⟩

/-- It only matters at which indices all rows are true. -/
theorem allRowsAnyTrue_congr (hn : rows = [] ↔ rows' = [])
    (h : ∀ i, (∀ row ∈ rows, (Value.vector row).isTrueAt i = true) ↔
      ∀ row ∈ rows', (Value.vector row).isTrueAt i = true) :
    allRowsAnyTrue rows = allRowsAnyTrue rows' := by
  by_cases hr : rows = []
  · rw [hr, hn.mp hr]
  · rw [Bool.eq_iff_iff, allRowsAnyTrue_iff hr, allRowsAnyTrue_iff (mt hn.mpr hr)]
    exact exists_congr h

/-! ### Conjunction of rows -/

theorem allRowsAnyTrue_meet (xs ys : List Float) (rows : List (List Float)) :
    allRowsAnyTrue (xs :: ys :: rows) = allRowsAnyTrue (meet xs ys :: rows) := by
  have hmeet (i : Nat) : (Value.vector (meet xs ys)).isTrueAt i =
      ((Value.vector xs).isTrueAt i && (Value.vector ys).isTrueAt i) :=
    Connective.isTrueAt_combine_and (.vector xs) (.vector ys)
  refine allRowsAnyTrue_congr (by simp) fun i => ?_
  simp only [List.forall_mem_cons, hmeet, Bool.and_eq_true, and_assoc]

theorem allRowsAnyTrue_foldl_meet (xs : List Float) (rows : List (List Float)) :
    allRowsAnyTrue (xs :: rows) = anyTrue (rows.foldl meet xs) := by
  induction rows generalizing xs with
  | nil => exact allRowsAnyTrue_singleton xs
  | cons ys rows ih => rw [allRowsAnyTrue_meet, ih, List.foldl_cons]

theorem eval_and {f g : Func} {r : Record} (hf : (f.eval r).result = .ok (.vector xs))
    (hg : (g.eval r).result = .ok (.vector ys)) :
    ((Func.binary (.connective .and) f g).eval r).result = .ok (.vector (meet xs ys)) := by
  have hs : g.shape = .vector := (Func.shape_eq_of_eval hg).symm
  rw [Func.eval_connective, Outcome.result_bind_eq_ok]
  refine ⟨_, hf, ?_⟩
  rw [Connective.connect, if_neg (by simp [hs]), Outcome.result_bind_eq_ok]
  exact ⟨_, hg, rfl⟩

/-- The conjunction of functions that give rows gives the conjunction of the rows. -/
theorem eval_foldl_and {r : Record} {f : Func} {fs : List Func}
    (hf : (f.eval r).result = .ok (.vector xs))
    (hfs : List.Forall₂ (fun f row => (f.eval r).result = .ok (.vector row)) fs rows) :
    ((fs.foldl (Func.binary (.connective .and)) f).eval r).result = .ok (.vector (rows.foldl meet xs)) := by
  induction hfs generalizing f xs with
  | nil => exact hf
  | cons hg _ ih => exact ih (eval_and hf hg)

/-! ### Where the shortest row has ended -/

theorem AgreeBelow.isTrueAt (h : AgreeBelow n xs ys) (hi : i < n) :
    (Value.vector xs).isTrueAt i = (Value.vector ys).isTrueAt i :=
  congrArg (Option.any Number.isTrue) (h.2 i hi)

theorem shortest_mem (h : rows ≠ []) : ∃ row ∈ rows, row.length = shortest rows := by
  have hne : rows.map List.length ≠ [] := mt List.map_eq_nil_iff.mp h
  obtain ⟨n, hn⟩ := Option.isSome_iff_exists.mp (List.isSome_min?_of_ne_nil hne)
  obtain ⟨row, hrow, hlen⟩ := List.mem_map.mp (List.min?_mem hn)
  exact ⟨row, hrow, by rw [shortest, hn, hlen]; rfl⟩

theorem lt_shortest (hn : rows ≠ []) (h : ∀ row ∈ rows, (Value.vector row).isTrueAt i = true) :
    i < shortest rows := by
  obtain ⟨row, hrow, hlen⟩ := shortest_mem hn
  obtain ⟨hi, -⟩ := isTrueAt_vector.mp (h row hrow)
  rwa [hlen] at hi

theorem forall_isTrueAt_congr (h : List.Forall₂ (AgreeBelow n) rows rows') (hi : i < n) :
    (∀ row ∈ rows, (Value.vector row).isTrueAt i = true) ↔
      ∀ row ∈ rows', (Value.vector row).isTrueAt i = true := by
  induction h with
  | nil => simp
  | cons hrow _ ih => rw [List.forall_mem_cons, List.forall_mem_cons, hrow.isTrueAt hi, ih]

theorem shortest_eq_of_agreeBelow (h : List.Forall₂ (AgreeBelow n) rows rows') :
    shortest rows = shortest rows' := by
  have hlen : rows.map List.length = rows'.map List.length := by
    induction h with
    | nil => rfl
    | cons hrow _ ih => rw [List.map_cons, List.map_cons, hrow.1, ih]
  rw [shortest, shortest, hlen]

theorem allRowsAnyTrue_of_agreeBelow (h : List.Forall₂ (AgreeBelow (shortest rows)) rows rows') :
    allRowsAnyTrue rows = allRowsAnyTrue rows' := by
  have hnil : rows = [] ↔ rows' = [] := by
    rw [← List.length_eq_zero_iff, h.length_eq, List.length_eq_zero_iff]
  by_cases hn : rows = []
  · rw [hn, hnil.mp hn]
  · refine allRowsAnyTrue_congr hnil fun i => ⟨fun hi => ?_, fun hi => ?_⟩
    · exact (forall_isTrueAt_congr h (lt_shortest hn hi)).mp hi
    · have hlt := lt_shortest (mt hnil.mpr hn) hi
      rw [← shortest_eq_of_agreeBelow h] at hlt
      exact (forall_isTrueAt_congr h hlt).mpr hi

/-- **An index that is true in all rows is found if there is one.** For one row or more, this is to say that
the conjunction of the rows, which is what the conjunction of the functions that give them gives, has a true
entry. The order of the rows does not matter, nor how often one of them comes, nor what their entries are
from the length of the shortest row on. -/
theorem allRowsAnyTrue_shared (rows : List (List Float)) :
    (allRowsAnyTrue rows = true ↔
      rows ≠ [] ∧ ∃ i, ∀ row ∈ rows, ∃ h : i < row.length, isTrue row[i] = true) ∧
    (∀ first rest, rows = first :: rest → allRowsAnyTrue rows = anyTrue (rest.foldl meet first) ∧
      ∀ (r : Record) (f : Func) (fs : List Func),
        List.Forall₂ (fun f row => (f.eval r).result = .ok (.vector row)) (f :: fs) rows →
        ((fs.foldl (Func.binary (.connective .and)) f).eval r).result =
          .ok (.vector (rest.foldl meet first))) ∧
    (∀ rows', rows'.Perm rows → allRowsAnyTrue rows' = allRowsAnyTrue rows) ∧
    (∀ rows', (∀ row, row ∈ rows' ↔ row ∈ rows) → allRowsAnyTrue rows' = allRowsAnyTrue rows) ∧
    ∀ rows', List.Forall₂ (AgreeBelow (shortest rows)) rows rows' →
      allRowsAnyTrue rows' = allRowsAnyTrue rows := by
  have hsame (rows' : List (List Float)) (hmem : ∀ row, row ∈ rows' ↔ row ∈ rows) :
      allRowsAnyTrue rows' = allRowsAnyTrue rows := by
    refine allRowsAnyTrue_congr ?_ fun i => forall_congr' fun row => imp_congr_left (hmem row)
    simp only [List.eq_nil_iff_forall_not_mem, hmem]
  refine ⟨?_, ?_, fun rows' h => hsame rows' fun row => h.mem_iff, hsame,
    fun rows' h => (allRowsAnyTrue_of_agreeBelow h).symm⟩
  · by_cases hn : rows = []
    · simp [hn, allRowsAnyTrue]
    · simp only [allRowsAnyTrue_iff hn, ne_eq, hn, not_false_eq_true, true_and, isTrueAt_vector]
  · rintro first rest rfl
    refine ⟨allRowsAnyTrue_foldl_meet first rest, fun r f fs h => ?_⟩
    obtain ⟨hf, hfs⟩ := List.forall₂_cons.mp h
    exact eval_foldl_and hf hfs

/-- Index 2 is out of range of the second row, index 1 is true in both. The rows in the other order, one of
them twice, and with another entry where the second row has ended. -/
theorem allRowsAnyTrue_shared_ragged :
    let v := Func.ofVariable "v" .vector
    let w := Func.ofVariable "w" .vector
    let r := (Record.empty.insert "v" (.vector [1, 2, 3])).insert "w" (.vector [0, 1])
    allRowsAnyTrue [[1, 2, 3], [0, 1]] = true ∧ anyTrue (meet [1, 2, 3] [0, 1]) = true ∧
      ((Func.binary (.connective .and) v w).eval r).result = .ok (.vector (meet [1, 2, 3] [0, 1])) ∧
      allRowsAnyTrue [[0, 1], [1, 2, 3]] = true ∧ allRowsAnyTrue [[0, 1], [1, 2, 3], [0, 1]] = true ∧
      allRowsAnyTrue [[1, 2, 0], [0, 1]] = true := by
  intro v w r
  obtain ⟨hiff, hfold, hperm, hmem, hagree⟩ := allRowsAnyTrue_shared [[1, 2, 3], [0, 1]]
  have htrue : allRowsAnyTrue [[1, 2, 3], [0, 1]] = true := by
    refine hiff.mpr ⟨by simp, 1, ?_⟩
    rw [List.forall_mem_cons, List.forall_mem_singleton]
    exact ⟨⟨by decide, by decide⟩, by decide, by decide⟩
  obtain ⟨hany, heval⟩ := hfold [1, 2, 3] [[0, 1]] rfl
  have hends : List.Forall₂ (AgreeBelow 2) [[1, 2, 3], [0, 1]] [[1, 2, 0], [0, 1]] := by
    refine .cons ⟨rfl, fun i hi => ?_⟩ (.cons ⟨rfl, fun _ _ => rfl⟩ .nil)
    interval_cases i <;> rfl
  refine ⟨htrue, hany ▸ htrue, heval r v [w] (.cons rfl (.cons rfl .nil)), ?_, ?_, ?_⟩
  · exact (hperm _ (.swap _ _ _)).trans htrue
  · exact (hmem _ fun row => by simp only [List.mem_cons, List.not_mem_nil, or_false]; tauto).trans htrue
  · exact (hagree _ hends).trans htrue

end Cutflow.Selection
