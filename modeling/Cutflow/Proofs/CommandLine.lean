import Cutflow.CommandLine
import Cutflow.Proofs.Json.Line
import Cutflow.Proofs.Selection

/-!
# What a run prints

A run prints all it has to say or nothing. What `eval` and `select` print is told here from the content
of the files alone: the records on the lines of the event file, the function of each expression and its
value on each record. Threads do not change it; but where the system refuses the threads that a run asks
for, the run fails.

## What is proved

* `Batch.run_eq_ok`: a batch succeeds if every record does, and there are threads to run it on.
* `prints_eval`, `prints_select`: when a command succeeds, and with which output.
* `run_of_not_runs`: a run without the threads it asks for fails.
* `run_all_or_nothing`: what a run leaves behind, and that threads do not show in it.
-/

namespace Cutflow

variable {pool : Pool} {threading : Threading}

/-! ### Batches -/

/-- Whether there are threads for a batch, as far as any are asked for. -/
def Pool.Runs (pool : Pool) (threading : Threading) : Prop :=
  threading.parallel = true → threading.threads ≠ some 0 ∧ pool.Builds threading.threads

theorem Pool.runs_of_sequential (ht : threading.parallel = false) : pool.Runs threading := by
  rw [Pool.Runs, ht]
  nofun

namespace Batch

variable {α : Type} {f : Record → Outcome α} {records : List Record}

theorem runs_of_run_ok {xs : List α} (hx : (run pool threading f records).result = .ok xs) :
    pool.Runs threading := by
  intro hp
  rw [run, if_neg (by simp [hp])] at hx
  obtain ⟨_, hstart, -⟩ := Outcome.result_bind_eq_ok.mp hx
  exact Pool.start_eq_ok.mp hstart

theorem run_eq_ok (h : threading.parallel = true → pool.Lawful) {xs : List α} :
    (run pool threading f records).result = .ok xs ↔
      pool.Runs threading ∧ List.Forall₂ (fun r x => (f r).result = .ok x) records xs := by
  cases hp : threading.parallel with
  | false =>
    rw [run, if_pos (by simp [hp]), Outcome.result_mapM_eq_ok, and_iff_right (Pool.runs_of_sequential hp)]
  | true =>
    constructor
    · exact fun hx => ⟨runs_of_run_ok hx, forall₂_of_run_ok (h hp) hx⟩
    · rintro ⟨ht, hx⟩
      obtain ⟨hthreads, hbuilds⟩ := ht hp
      have hseq := Outcome.result_mapM_eq_ok.mpr hx
      have hpar := ((run_agrees (h hp) hthreads hbuilds f records).ok_iff xs).mpr hseq
      rwa [← hp] at hpar

open Classical in
theorem countPassing_eq_ok_iff (h : threading.parallel = true → pool.Lawful) {cuts : List Func} {n : Nat} :
    (countPassing pool threading cuts records).result = .ok n ↔ pool.Runs threading ∧
      (∀ r ∈ records, ∃ b, (Selection.passes cuts r).result = .ok b) ∧
      n = records.countP fun r => Selection.Passes cuts r := by
  constructor
  · intro hn
    obtain ⟨passed, hp, hn⟩ := Outcome.result_bind_eq_ok.mp hn
    cases hn
    obtain ⟨ht, hp⟩ := (run_eq_ok h).mp hp
    exact ⟨ht, fun r hr => Outcome.exists_ok_of_mem hp hr, count_passed hp⟩
  · rintro ⟨ht, hall, rfl⟩
    rcases Outcome.forall₂_or_exists_error (Selection.passes cuts) records with ⟨passed, hp⟩ | ⟨r, hr, e, he⟩
    · rw [← count_passed hp]
      exact Outcome.result_bind_eq_ok.mpr ⟨passed, (run_eq_ok h).mpr ⟨ht, hp⟩, rfl⟩
    · obtain ⟨b, hb⟩ := hall r hr
      cases he.symm.trans hb

end Batch

namespace CommandLine

/-! ### The input -/

variable {files : String → File} {input : Input} {records : List Record} {schema : Schema} {expr : String}
  {texts : List String}

/-- The event file at the path holds these records, one on each line that is not blank. -/
def Holds (files : String → File) (path : String) (records : List Record) : Prop :=
  ∃ text, readText files path = .ok text ∧ List.Forall₂ (fun line r => Record.ofJson line = .ok r)
    ((Text.lines text.toList).filter fun line => !Text.isBlankLine line) records

/-- The input provides these records and this schema, and there are threads to evaluate on. -/
structure Input.Provides (input : Input) (pool : Pool) (files : String → File) (events : List Record)
    (schema : Schema) : Prop where
  holds : Holds files input.events events
  loads : loadSchema files input.schema events = .ok schema
  runs : pool.Runs input.threading

/-- The expression has these values on the records of the input. -/
def Input.Evaluates (input : Input) (pool : Pool) (files : String → File) (expr : String) (values : List Value) :
    Prop :=
  ∃ records schema f, input.Provides pool files records schema ∧ (Compiler.ofSchema schema).compile expr = .ok f ∧
    List.Forall₂ (fun r v => (f.eval r).result = .ok v) records values

open Classical in
/-- The cuts can be applied to all records of the input, and so many of these pass them. -/
def Input.Selects (input : Input) (pool : Pool) (files : String → File) (texts : List String) (n : Nat) : Prop :=
  ∃ records schema cuts, input.Provides pool files records schema ∧
    List.Forall₂ (fun text cut => (Compiler.ofSchema schema).compile text = .ok cut) texts cuts ∧
    (∀ r ∈ records, ∃ b, (Selection.passes cuts r).result = .ok b) ∧
    n = records.countP fun r => Selection.Passes cuts r

/-- The same input, evaluated on a pool of threads or not. -/
def Input.onPool (input : Input) (parallel : Bool) : Input :=
  { input with threading := { input.threading with parallel } }

theorem readEvents_eq_ok {path : String} : readEvents files path = .ok records ↔ Holds files path records := by
  simp only [readEvents, bind_eq_ok, mapError_eq_ok, Holds, Record.parseLines, Record.ofLines_eq_ok]

/-! ### Commands -/

/-- The command succeeds, and writes this to standard output. -/
def Prints (pool : Pool) (files : String → File) (command : Command) (out : String) : Prop :=
  ∃ err, execute pool files command = .ok (out, err)

variable {command command' : Command} {out : String}

theorem Prints.run (h : Prints pool files command out) :
    (run pool files command).exit = 0 ∧ (run pool files command).stdout = out := by
  obtain ⟨err, h⟩ := h
  rw [CommandLine.run, h]
  exact ⟨rfl, rfl⟩

theorem run_of_not_prints (h : ∀ out, ¬ Prints pool files command out) :
    (run pool files command).exit = 1 ∧ (run pool files command).stdout = "" := by
  rw [CommandLine.run]
  cases hx : execute pool files command with
  | ok x => exact absurd ⟨x.2, hx⟩ (h x.1)
  | error failure => exact ⟨rfl, rfl⟩

theorem run_exit_eq_zero_iff : (run pool files command).exit = 0 ↔
    Prints pool files command (run pool files command).stdout := by
  constructor
  · intro h
    by_contra hno
    have hnone : ∀ out, ¬ Prints pool files command out := by
      intro out hout
      exact hno (hout.run.2.symm ▸ hout)
    rw [(run_of_not_prints hnone).1] at h
    cases h
  · exact fun h => h.run.1

/-- Commands that print the same leave the same behind, messages apart. -/
theorem run_congr (h : ∀ out, Prints pool files command out ↔ Prints pool files command' out) :
    (run pool files command).exit = (run pool files command').exit ∧
      (run pool files command).stdout = (run pool files command').stdout := by
  by_cases hc : ∃ out, Prints pool files command out
  · obtain ⟨out, hout⟩ := hc
    have hout' := (h out).mp hout
    exact ⟨hout.run.1.trans hout'.run.1.symm, hout.run.2.trans hout'.run.2.symm⟩
  · rw [not_exists] at hc
    have hr := run_of_not_prints hc
    have hr' := run_of_not_prints fun out hout => hc out ((h out).mpr hout)
    exact ⟨hr.1.trans hr'.1.symm, hr.2.trans hr'.2.symm⟩

/-! ### Values of an expression -/

theorem result_eval_scalar {f : Func} (hf : f.shape = .scalar) {r : Record} {v : Value} :
    (f.eval r).result = .ok v ↔ ∃ x, (f.evalScalar r).result = .ok x ∧ .scalar x = v := by
  rw [Func.eval, hf, Func.evalAs, Outcome.result_bind_eq_ok]
  simp

theorem result_eval_vector {f : Func} (hf : f.shape = .vector) {r : Record} {v : Value} :
    (f.eval r).result = .ok v ↔ ∃ xs, (f.evalVector r).result = .ok xs ∧ .vector xs = v := by
  rw [Func.eval, hf, Func.evalAs, Outcome.result_bind_eq_ok]
  simp

theorem forall₂_exists_map {α β γ : Type} {R : α → β → Prop} {g : β → γ} {l : List α} {zs : List γ} :
    List.Forall₂ (fun a z => ∃ y, R a y ∧ g y = z) l zs ↔ ∃ ys, List.Forall₂ R l ys ∧ ys.map g = zs := by
  constructor
  · intro h
    induction h with
    | nil => exact ⟨[], .nil, rfl⟩
    | cons hy _ ih =>
      obtain ⟨y, hy, rfl⟩ := hy
      obtain ⟨ys, hys, rfl⟩ := ih
      exact ⟨y :: ys, .cons hy hys, rfl⟩
  · rintro ⟨ys, hys, rfl⟩
    exact List.forall₂_map_right_iff.mpr (hys.imp fun _ y hy => ⟨y, hy, rfl⟩)

theorem evalLines_eq_ok (h : threading.parallel = true → pool.Lawful) {f : Func} {lines : List String} :
    evalLines pool threading f records = .ok lines ↔ pool.Runs threading ∧ ∃ values,
      List.Forall₂ (fun r v => (f.eval r).result = .ok v) records values ∧
        values.map Value.toJson = lines := by
  rw [evalLines]
  cases hf : f.shape with
  | scalar =>
    simp only [Batch.evalScalar, hf, bind_eq_ok, pure_eq_ok, Batch.run_eq_ok h, result_eval_scalar hf,
      forall₂_exists_map]
    constructor
    · rintro ⟨xs, ⟨ht, hx⟩, rfl⟩
      exact ⟨ht, _, ⟨xs, hx, rfl⟩, by simp [Value.toJson]⟩
    · rintro ⟨ht, -, ⟨xs, hx, rfl⟩, rfl⟩
      exact ⟨xs, ⟨ht, hx⟩, by simp [Value.toJson]⟩
  | vector =>
    simp only [Batch.evalVector, hf, bind_eq_ok, pure_eq_ok, Batch.run_eq_ok h, result_eval_vector hf,
      forall₂_exists_map]
    constructor
    · rintro ⟨xs, ⟨ht, hx⟩, rfl⟩
      exact ⟨ht, _, ⟨xs, hx, rfl⟩, by simp [Value.toJson]⟩
    · rintro ⟨ht, -, ⟨xs, hx, rfl⟩, rfl⟩
      exact ⟨xs, ⟨ht, hx⟩, by simp [Value.toJson]⟩

theorem prints_eval (h : input.threading.parallel = true → pool.Lawful) :
    Prints pool files (.eval expr input) out ↔
      ∃ values, input.Evaluates pool files expr values ∧ unlines (values.map Value.toJson) = out := by
  simp only [Prints, execute, bind_eq_ok, mapError_eq_ok, pure_eq_ok, readEvents_eq_ok, evalLines_eq_ok h,
    Prod.mk.injEq]
  constructor
  · rintro ⟨-, events, he, schema, hs, f, hf, -, ⟨ht, values, hv, rfl⟩, hout, -⟩
    exact ⟨values, ⟨events, schema, f, ⟨he, hs, ht⟩, hf, hv⟩, hout⟩
  · rintro ⟨values, ⟨events, schema, f, ⟨he, hs, ht⟩, hf, hv⟩, hout⟩
    exact ⟨"", events, he, schema, hs, f, hf, _, ⟨ht, values, hv, rfl⟩, hout, rfl⟩

theorem prints_select (h : input.threading.parallel = true → pool.Lawful) :
    Prints pool files (.select texts input) out ↔
      ∃ n, input.Selects pool files texts n ∧ toString n ++ "\n" = out := by
  simp only [Prints, execute, bind_eq_ok, mapError_eq_ok, pure_eq_ok, mapM_eq_ok, readEvents_eq_ok,
    Batch.countPassing_eq_ok_iff h, Prod.mk.injEq]
  constructor
  · rintro ⟨-, events, he, schema, hs, cuts, hc, n, ⟨ht, hp, hn⟩, hout, -⟩
    exact ⟨n, ⟨events, schema, cuts, ⟨he, hs, ht⟩, hc, hp, hn⟩, hout⟩
  · rintro ⟨n, ⟨events, schema, cuts, ⟨he, hs, ht⟩, hc, hp, hn⟩, hout⟩
    exact ⟨_, events, he, schema, hs, cuts, hc, n, ⟨ht, hp, hn⟩, hout, rfl⟩

/-! ### Runs -/

theorem lines_unlines (values : List Value) : Text.lines (unlines (values.map Value.toJson)).toList =
    values.map fun v => v.toJson.toList := by
  have hjoin : (unlines (values.map Value.toJson)).toList =
      (values.map Value.toJson).flatMap fun t => t.toList ++ ['\n'] := by
    simp [unlines, String.toList_join, List.flatMap_map, Function.comp_def]
  rw [hjoin, Text.lines_flatMap, List.map_map]
  · rfl
  · intro t ht
    obtain ⟨v, -, rfl⟩ := List.mem_map.mp ht
    exact v.noControl_toJson

theorem Input.provides_onPool {events : List Record} (hr : pool.Runs (input.onPool true).threading) :
    (input.onPool true).Provides pool files events schema ↔ (input.onPool false).Provides pool files events schema :=
  ⟨fun h => ⟨h.holds, h.loads, nofun⟩, fun h => ⟨h.holds, h.loads, hr⟩⟩

/-- A run without the threads it asks for fails. -/
theorem run_of_not_runs (h : pool.Lawful) (hr : ¬pool.Runs input.threading) {make : Input → Command}
    (hm : (∃ expr, make = .eval expr) ∨ ∃ texts, make = .select texts) :
    (run pool files (make input)).exit = 1 ∧ (run pool files (make input)).stdout = "" := by
  refine run_of_not_prints fun out hout => hr ?_
  rcases hm with ⟨expr, rfl⟩ | ⟨texts, rfl⟩
  · obtain ⟨_, ⟨_, _, _, hin, -⟩, -⟩ := (prints_eval fun _ => h).mp hout
    exact hin.runs
  · obtain ⟨_, ⟨_, _, _, hin, -⟩, -⟩ := (prints_select fun _ => h).mp hout
    exact hin.runs

/-- **A run prints everything or nothing, and threads do not show in it.** A run of `eval` succeeds if the
expression has a value on each record of the event file, and prints these values on lines of their own; a
run of `select` succeeds if the cuts can be applied to each record, and prints how many pass them. With
threads a run leaves the same behind as without, provided that the pool can be built, and fails otherwise. -/
theorem run_all_or_nothing (h : pool.Lawful) (files : String → File) :
    (∀ command, (run pool files command).exit = 1 ∧ (run pool files command).stdout = "" ∨
      (run pool files command).exit = 0) ∧
    (∀ expr input, let result := run pool files (.eval expr input)
      (result.exit = 0 ↔ ∃ values, input.Evaluates pool files expr values) ∧
      ∀ values, input.Evaluates pool files expr values → result.stdout = unlines (values.map Value.toJson) ∧
        Text.lines result.stdout.toList = values.map fun v => v.toJson.toList) ∧
    (∀ texts input, let result := run pool files (.select texts input)
      (result.exit = 0 ↔ ∃ n, input.Selects pool files texts n) ∧
      ∀ n, input.Selects pool files texts n → result.stdout = toString n ++ "\n") ∧
    ∀ input : Input, input.threading.threads ≠ some 0 →
      ∀ command : Input → Command, (∃ expr, command = .eval expr) ∨ (∃ texts, command = .select texts) →
        let sequential := run pool files (command (input.onPool false))
        let parallel := run pool files (command (input.onPool true))
        (pool.Builds input.threading.threads →
          parallel.exit = sequential.exit ∧ parallel.stdout = sequential.stdout) ∧
        (¬pool.Builds input.threading.threads → parallel.exit = 1 ∧ parallel.stdout = "") := by
  refine ⟨fun command => ?_, fun expr input => ?_, fun texts input => ?_, ?_⟩
  · by_cases hout : ∃ out, Prints pool files command out
    · obtain ⟨out, hout⟩ := hout
      exact .inr hout.run.1
    · exact .inl (run_of_not_prints (not_exists.mp hout))
  · have hprints : ∀ values, input.Evaluates pool files expr values →
        Prints pool files (.eval expr input) (unlines (values.map Value.toJson)) :=
      fun values hv => (prints_eval fun _ => h).mpr ⟨values, hv, rfl⟩
    refine ⟨⟨fun h0 => ?_, fun ⟨values, hv⟩ => (hprints values hv).run.1⟩, fun values hv => ?_⟩
    · obtain ⟨values, hv, -⟩ := (prints_eval fun _ => h).mp (run_exit_eq_zero_iff.mp h0)
      exact ⟨values, hv⟩
    · have hout := (hprints values hv).run.2
      exact ⟨hout, by rw [hout, lines_unlines]⟩
  · have hprints : ∀ n, input.Selects pool files texts n →
        Prints pool files (.select texts input) (toString n ++ "\n") :=
      fun n hn => (prints_select fun _ => h).mpr ⟨n, hn, rfl⟩
    refine ⟨⟨fun h0 => ?_, fun ⟨n, hn⟩ => (hprints n hn).run.1⟩, fun n hn => (hprints n hn).run.2⟩
    obtain ⟨n, hn, -⟩ := (prints_select fun _ => h).mp (run_exit_eq_zero_iff.mp h0)
    exact ⟨n, hn⟩
  · intro input ht command hc
    refine ⟨fun hb => ?_, fun hb => ?_⟩
    · have hr : pool.Runs (input.onPool true).threading := fun _ => ⟨ht, hb⟩
      refine run_congr fun out => ?_
      rcases hc with ⟨expr, rfl⟩ | ⟨texts, rfl⟩
      · simp only [prints_eval fun _ => h, Input.Evaluates, Input.provides_onPool hr]
      · simp only [prints_select fun _ => h, Input.Selects, Input.provides_onPool hr]
    · have hr : ¬pool.Runs (input.onPool true).threading := fun hr => hb (hr rfl).2
      exact run_of_not_runs h hr hc

/-- Two events with a blank line between them, on a pool that begins with the last one; there are not nine
threads for it. -/
theorem run_all_or_nothing_backwards :
    let files (path : String) : File :=
      if path = "events" then .content "\x7b\"x\":1,\"y\":2\x7d\n\n\x7b\"x\":2.5,\"y\":2\x7d".toUTF8
      else .missing
    let input : Input := { events := "events", threading := { parallel := true } }
    let greedy : Input := { input with threading := { parallel := true, threads := some 9 } }
    let evaluated := run .backwards files (.eval "x > y" input)
    let selected := run .backwards files (.select ["x > y"] input)
    let refused := run .backwards files (.eval "x > y" greedy)
    Pool.backwards.Lawful ∧ input.threading.threads ≠ some 0 ∧ Pool.backwards.Builds input.threading.threads ∧
      evaluated.exit = 0 ∧ evaluated.stdout = "0.0\n1.0\n" ∧ selected.exit = 0 ∧ selected.stdout = "1\n" ∧
      (run .backwards files (.eval "x > y" (input.onPool false))).stdout = "0.0\n1.0\n" ∧
      greedy.threading.threads ≠ some 0 ∧ ¬Pool.backwards.Builds greedy.threading.threads ∧
      refused.exit = 1 ∧ refused.stdout = "" := by
  intro files input greedy evaluated selected refused
  obtain ⟨-, heval, hselect, hthreads⟩ := run_all_or_nothing Pool.lawful_backwards files
  have ht : input.threading.threads ≠ some 0 := nofun
  have hb : Pool.backwards.Builds input.threading.threads := rfl
  have ht' : greedy.threading.threads ≠ some 0 := by decide
  have hb' : ¬Pool.backwards.Builds greedy.threading.threads := nofun
  let r : Record := (Record.empty.insert "x" (.scalar 1)).insert "y" (.scalar 2)
  let r' : Record := (Record.empty.insert "x" (.scalar 2.5)).insert "y" (.scalar 2)
  have hparse : Expr.parse "x > y" = .ok (.binary (.pointwise .gt) (.ident "x") (.ident "y")) := by cbv
  let f := (Func.binary (.pointwise .gt) (.ofVariable "x" .scalar) (.ofVariable "y" .scalar)).rename "x > y"
  have hcompile : (Compiler.ofSchema (.infer r)).compile "x > y" = .ok f := by
    rw [Compiler.compile, hparse]
    rfl
  have hprovides : input.Provides .backwards files [r, r'] (.infer r) := by
    refine ⟨⟨"\x7b\"x\":1,\"y\":2\x7d\n\n\x7b\"x\":2.5,\"y\":2\x7d", ?_, ?_⟩, rfl, fun _ => ⟨ht, hb⟩⟩
    · decide +kernel
    · refine List.Forall₂.cons ?_ (.cons ?_ .nil) <;> decide +kernel
  have hvalues : input.Evaluates .backwards files "x > y" [.scalar 0, .scalar 1] :=
    ⟨[r, r'], _, f, hprovides, hcompile, .cons rfl (.cons rfl .nil)⟩
  have hcount : (Batch.countPassing .backwards {} [f] [r, r']).result = .ok 1 := rfl
  have hn : input.Selects .backwards files ["x > y"] 1 := by
    refine ⟨[r, r'], _, [f], hprovides, .cons hcompile .nil, ?_,
      Batch.countPassing_eq_ok Pool.lawful_backwards hcount⟩
    rw [List.forall_mem_cons, List.forall_mem_singleton]
    exact ⟨⟨false, rfl⟩, true, rfl⟩
  have hlines : unlines ([.scalar 0, .scalar 1].map Value.toJson) = "0.0\n1.0\n" := by decide +kernel
  have hout : evaluated.stdout = "0.0\n1.0\n" := (((heval _ input).2 _ hvalues).1).trans hlines
  have hsequential := (hthreads input ht _ (.inl ⟨"x > y", rfl⟩)).1 hb
  have hrefused := (hthreads greedy ht' _ (.inl ⟨"x > y", rfl⟩)).2 hb'
  exact ⟨Pool.lawful_backwards, ht, hb, (heval _ input).1.mpr ⟨_, hvalues⟩, hout,
    (hselect _ input).1.mpr ⟨1, hn⟩, (hselect _ input).2 1 hn, hsequential.2.symm.trans hout,
    ht', hb', hrefused⟩

end CommandLine

end Cutflow
