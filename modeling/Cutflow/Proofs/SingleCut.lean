import Cutflow.Proofs.CommandLine

/-!
# Selecting with one cut

Applying a list of cuts and evaluating a function are two ways through a list of records. The first keeps
the lists that vector cuts give and looks for an index that they share; the second just collects what the
function gives. With one cut there is nothing to share: an event passes if the value of the cut, be it a
number or a list, is true. So the first way can be had from the second, by counting these values.

## What is proved

* `Selection.passes_singleton`: one cut is applied by evaluating it.
* `Batch.countPassing_singleton_scalar`, `countPassing_singleton_vector`: in sequence, counting with one cut
  is evaluating it on all records and counting the values that are true, with the same error if this fails,
  and the same calls.
* `CommandLine.Input.selects_singleton_iff`: one cut can be applied to an input if it can be evaluated on it.
* `CommandLine.select_agrees_with_eval`: `select` with one cut succeeds if `eval` does, and prints how many of
  the values that `eval` prints are true.
-/

namespace Cutflow

open Number

/-- Whether a value lets its event pass: a number that is true, or a list that holds one. -/
def Value.passes : Value → Bool
  | .scalar x => isTrue x
  | .vector xs => Selection.anyTrue xs

namespace Selection

/-- One row has to share its true entries with none. -/
theorem allRowsAnyTrue_singleton (xs : List Float) : allRowsAnyTrue [xs] = anyTrue xs := by
  rw [Bool.eq_iff_iff, allRowsAnyTrue_iff (List.cons_ne_nil xs []), anyTrue, List.any_eq_true]
  simp only [List.forall_mem_singleton, Value.isTrueAt, Value.at?, Option.any_eq_true]
  constructor
  · rintro ⟨i, x, hx, htrue⟩
    exact ⟨x, List.mem_of_getElem? hx, htrue⟩
  · rintro ⟨x, hx, htrue⟩
    obtain ⟨i, hi⟩ := List.mem_iff_getElem?.mp hx
    exact ⟨i, x, hi, htrue⟩

theorem passes_scalar {cut : Func} (hc : cut.shape = .scalar) (r : Record) :
    passes [cut] r = cut.evalScalar r >>= fun x => pure (isTrue x) := by
  obtain ⟨name, run | run⟩ := cut
  · show (run r >>= fun x => if isTrue x then pure true else pure false) = run r >>= fun x => pure (isTrue x)
    refine congrArg (run r >>= ·) (funext fun x => ?_)
    cases isTrue x <;> rfl
  · cases hc

theorem passes_vector {cut : Func} (hc : cut.shape = .vector) (r : Record) :
    passes [cut] r = cut.evalVector r >>= fun xs => pure (anyTrue xs) := by
  obtain ⟨name, run | run⟩ := cut
  · cases hc
  · show (run r >>= fun xs => pure (allRowsAnyTrue [xs])) = run r >>= fun xs => pure (anyTrue xs)
    simp only [allRowsAnyTrue_singleton]

/-- One cut is applied by evaluating it. -/
theorem passes_singleton (cut : Func) (r : Record) :
    passes [cut] r = cut.eval r >>= fun v => pure v.passes := by
  cases hc : cut.shape with
  | scalar =>
    rw [passes_scalar hc, Func.eval, hc, Func.evalAs, bind_assoc]
    rfl
  | vector =>
    rw [passes_vector hc, Func.eval, hc, Func.evalAs, bind_assoc]
    rfl

end Selection

namespace Batch

variable {pool : Pool} {threading : Threading} {α : Type} {records : List Record}

/-- A sequential batch does without the pool. -/
theorem run_sequential (ht : threading.parallel = false) (f : Record → Outcome α) (records : List Record) :
    run pool threading f records = records.mapM f := by
  rw [run, if_pos (by rw [ht, Bool.not_false])]

theorem countPassing_of_passes (ht : threading.parallel = false) {cuts : List Func} {f : Record → Outcome α}
    {g : α → Bool} (h : ∀ r, Selection.passes cuts r = f r >>= fun x => pure (g x)) :
    countPassing pool threading cuts records =
      run pool threading f records >>= fun xs => pure (xs.countP g) := by
  simp only [countPassing, run_sequential ht, funext h, Outcome.mapM_bind_pure, bind_assoc, Outcome.pure_bind,
    List.count, List.countP_map]
  simp [Function.comp_def]

theorem countPassing_singleton_scalar (ht : threading.parallel = false) {f : Func} (hf : f.shape = .scalar) :
    countPassing pool threading [f] records =
      evalScalar pool threading f records >>= fun xs => pure (xs.countP isTrue) := by
  rw [evalScalar, hf]
  exact countPassing_of_passes ht (Selection.passes_scalar hf)

theorem countPassing_singleton_vector (ht : threading.parallel = false) {f : Func} (hf : f.shape = .vector) :
    countPassing pool threading [f] records =
      evalVector pool threading f records >>= fun xss => pure (xss.countP Selection.anyTrue) := by
  rw [evalVector, hf]
  exact countPassing_of_passes ht (Selection.passes_vector hf)

end Batch

namespace CommandLine

variable {pool : Pool} {files : String → File} {input : Input} {expr : String}

open Classical in
/-- One cut can be applied to all records if it has a value on each, and those pass whose value does. -/
theorem selects_of_forall₂ {f : Func} {records : List Record} {values : List Value}
    (h : List.Forall₂ (fun r v => (f.eval r).result = .ok v) records values) :
    (∀ r ∈ records, ∃ b, (Selection.passes [f] r).result = .ok b) ∧
      values.countP Value.passes = records.countP fun r => Selection.Passes [f] r := by
  induction h with
  | nil => simp
  | @cons r v records values hv _ ih =>
    have hb : (Selection.passes [f] r).result = .ok v.passes := by
      rw [Selection.passes_singleton]
      exact Outcome.result_bind_eq_ok.mpr ⟨v, hv, rfl⟩
    refine ⟨List.forall_mem_cons.mpr ⟨⟨_, hb⟩, ih.1⟩, ?_⟩
    rw [List.countP_cons, List.countP_cons, ih.2]
    simp only [Selection.passes_eq_ok hb, decide_eq_true_eq]

theorem Input.selects_singleton_iff {n : Nat} : input.Selects pool files [expr] n ↔
    ∃ values, input.Evaluates pool files expr values ∧ n = values.countP Value.passes := by
  constructor
  · rintro ⟨records, schema, cuts, hin, hcuts, hall, rfl⟩
    obtain ⟨f, hf, rfl⟩ : ∃ f, (Compiler.ofSchema schema).compile expr = .ok f ∧ cuts = [f] := by
      obtain ⟨f, fs, hf, hfs, rfl⟩ := List.forall₂_cons_left_iff.mp hcuts
      exact ⟨f, hf, by rw [List.forall₂_nil_left_iff.mp hfs]⟩
    obtain ⟨values, hvalues⟩ : ∃ values, List.Forall₂ (fun r v => (f.eval r).result = .ok v) records values := by
      refine (Outcome.forall₂_or_exists_error f.eval records).resolve_right ?_
      rintro ⟨r, hr, e, he⟩
      obtain ⟨b, hb⟩ := hall r hr
      rw [Selection.passes_singleton] at hb
      obtain ⟨v, hv, -⟩ := Outcome.result_bind_eq_ok.mp hb
      cases he.symm.trans hv
    exact ⟨values, ⟨records, schema, f, hin, hf, hvalues⟩, (selects_of_forall₂ hvalues).2.symm⟩
  · rintro ⟨values, ⟨records, schema, f, hin, hf, hvalues⟩, rfl⟩
    obtain ⟨hall, hn⟩ := selects_of_forall₂ hvalues
    exact ⟨records, schema, [f], hin, .cons hf .nil, hall, hn⟩

/-- Both commands succeed where the expression has values, and what they print comes from these. -/
theorem Input.Evaluates.run (h : input.threading.parallel = true → pool.Lawful) {values : List Value}
    (hv : input.Evaluates pool files expr values) :
    ((run pool files (.eval expr input)).exit = 0 ∧
        (run pool files (.eval expr input)).stdout = unlines (values.map Value.toJson)) ∧
      (run pool files (.select [expr] input)).exit = 0 ∧
        (run pool files (.select [expr] input)).stdout = toString (values.countP Value.passes) ++ "\n" := by
  have heval : Prints pool files (.eval expr input) (unlines (values.map Value.toJson)) :=
    (prints_eval h).mpr ⟨values, hv, rfl⟩
  have hselect : Prints pool files (.select [expr] input) (toString (values.countP Value.passes) ++ "\n") :=
    (prints_select h).mpr ⟨_, Input.selects_singleton_iff.mpr ⟨values, hv, rfl⟩, rfl⟩
  exact ⟨heval.run, hselect.run⟩

/-- Elsewhere neither succeeds. -/
theorem run_of_not_evaluates (h : input.threading.parallel = true → pool.Lawful)
    (hv : ¬∃ values, input.Evaluates pool files expr values) :
    (run pool files (.eval expr input)).exit = 1 ∧ (run pool files (.select [expr] input)).exit = 1 := by
  refine ⟨(run_of_not_prints fun out hout => hv ?_).1, (run_of_not_prints fun out hout => hv ?_).1⟩
  · obtain ⟨values, hvalues, -⟩ := (prints_eval h).mp hout
    exact ⟨values, hvalues⟩
  · obtain ⟨n, hn, -⟩ := (prints_select h).mp hout
    obtain ⟨values, hvalues, -⟩ := Input.selects_singleton_iff.mp hn
    exact ⟨values, hvalues⟩

/-- **Selecting with one cut agrees with evaluating it.** In sequence, counting the records that pass a
function is evaluating it on all of them and counting the numbers that are not zero, NaN among these, or
the lists that hold such a number: it succeeds on the same records, and fails with the same error. So a run
of `select` with one cut and a run of `eval` end with the same status, and if they succeed, as many events
are selected as have a true value. -/
theorem select_agrees_with_eval :
    (∀ (pool : Pool) (threading : Threading) (f : Func) (records : List Record), threading.parallel = false →
      (f.shape = .scalar → Batch.countPassing pool threading [f] records = do
        let xs ← Batch.evalScalar pool threading f records
        return xs.countP fun x => x != 0) ∧
      (f.shape = .vector → Batch.countPassing pool threading [f] records = do
        let xss ← Batch.evalVector pool threading f records
        return xss.countP Selection.anyTrue)) ∧
    ∀ (pool : Pool) (files : String → File) (expr : String) (input : Input),
      (input.threading.parallel = true → pool.Lawful) →
      let evaluated := run pool files (.eval expr input)
      let selected := run pool files (.select [expr] input)
      selected.exit = evaluated.exit ∧
        (∀ values, input.Evaluates pool files expr values → evaluated.exit = 0 ∧
          evaluated.stdout = unlines (values.map Value.toJson) ∧
          selected.stdout = toString (values.countP Value.passes) ++ "\n") ∧
        ((¬∃ values, input.Evaluates pool files expr values) → evaluated.exit = 1) := by
  constructor
  · intro pool threading f records ht
    exact ⟨Batch.countPassing_singleton_scalar ht, Batch.countPassing_singleton_vector ht⟩
  · intro pool files expr input h evaluated selected
    refine ⟨?_, fun values hv => ?_, fun hv => (run_of_not_evaluates h hv).1⟩
    · by_cases hv : ∃ values, input.Evaluates pool files expr values
      · obtain ⟨values, hv⟩ := hv
        obtain ⟨heval, hselect⟩ := hv.run h
        exact hselect.1.trans heval.1.symm
      · obtain ⟨heval, hselect⟩ := run_of_not_evaluates h hv
        exact hselect.trans heval.symm
    · obtain ⟨heval, hselect⟩ := hv.run h
      exact ⟨heval.1, heval.2, hselect.2⟩

/-- Of three quotients NaN and a half are true, and minus zero is false; of three lists one holds a number
that is not zero. -/
theorem select_agrees_with_eval_quotients :
    let files (path : String) : File :=
      if path = "events" then
        .content "\x7b\"x\":0,\"y\":0\x7d\n\x7b\"x\":0,\"y\":-1\x7d\n\x7b\"x\":1,\"y\":2\x7d".toUTF8
      else .missing
    let input : Input := { events := "events", threading := { parallel := true } }
    let evaluated := run .backwards files (.eval "x / y" input)
    let selected := run .backwards files (.select ["x / y"] input)
    let event (x y : Float) : Record := (Record.empty.insert "x" (.scalar x)).insert "y" (.scalar y)
    let f := (Func.binary (.pointwise .div) (.ofVariable "x" .scalar) (.ofVariable "y" .scalar)).rename "x / y"
    let records := [event 0 0, event 0 (-1), event 1 2]
    let v := Func.ofVariable "v" .vector
    let lists := [[], [0, -0], [0, 2]].map fun xs => Record.empty.insert "v" (.vector xs)
    Pool.backwards.Lawful ∧
      evaluated.exit = 0 ∧ evaluated.stdout = "null\n-0.0\n0.5\n" ∧ selected.exit = 0 ∧ selected.stdout = "2\n" ∧
      Batch.countPassing .inOrder {} [f] records = ⟨[], .ok 2⟩ ∧
      Batch.countPassing .inOrder {} [v] lists = ⟨[], .ok 1⟩ := by
  intro files input evaluated selected event f records v lists
  obtain ⟨hbatch, hrun⟩ := select_agrees_with_eval
  have hparse : Expr.parse "x / y" = .ok (.binary (.pointwise .div) (.ident "x") (.ident "y")) := by cbv
  have hcompile : (Compiler.ofSchema (.infer (event 0 0))).compile "x / y" = .ok f := by
    rw [Compiler.compile, hparse]
    rfl
  have hprovides : input.Provides .backwards files records (.infer (event 0 0)) := by
    refine ⟨⟨"\x7b\"x\":0,\"y\":0\x7d\n\x7b\"x\":0,\"y\":-1\x7d\n\x7b\"x\":1,\"y\":2\x7d", ?_, ?_⟩, rfl,
      fun _ => ⟨(Option.some_ne_none 0).symm, rfl⟩⟩
    · decide +kernel
    · refine List.Forall₂.cons ?_ (.cons ?_ (.cons ?_ .nil)) <;> decide +kernel
  have hvalues : input.Evaluates .backwards files "x / y" [.scalar (0 / 0), .scalar (0 / -1), .scalar (1 / 2)] :=
    ⟨records, _, f, hprovides, hcompile, .cons rfl (.cons rfl (.cons rfl .nil))⟩
  obtain ⟨hexit, hall, -⟩ := hrun .backwards files "x / y" input fun _ => Pool.lawful_backwards
  obtain ⟨h0, hout, hcount⟩ := hall _ hvalues
  refine ⟨Pool.lawful_backwards, h0, hout.trans ?_, hexit.trans h0, hcount.trans ?_, ?_, ?_⟩
  · decide +kernel
  · decide +kernel
  · rw [(hbatch .inOrder {} f records rfl).1 rfl]
    rfl
  · rw [(hbatch .inOrder {} v lists rfl).2 rfl]
    rfl

end CommandLine

end Cutflow
