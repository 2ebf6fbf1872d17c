import Cutflow.Batch
import Cutflow.Proofs.Outcome

/-!
# Batches on a pool

Handing the records to a pool of threads must not show in the results of a batch. It does show in what
is evaluated: threads mix their calls, and when a record fails, others of its chunk may have been
evaluated although they come later, or left out although they come before.

## The model

Whether a pool can be built is up to the system: `Pool.Builds` is assumed where a batch has to run on it. A
pool that has been built is trusted with one chunk at a time, `Pool.Lawful` says with what. `Batch.Agrees` is
what follows for the whole batch. Which records are evaluated is said by `Outcome.Evaluates`, of any function on
records, so also of one whose calls tell the record it is evaluated on.

## What is proved

* `Pool.start_eq_ok`: a batch gets its threads if it asks for at least one and the pool can be built.
* `Batch.eq_take_of_chunks_eq`: the chunks are consecutive pieces of the list, all of one length but for the
  last.
* `Batch.run_agrees`: evaluating a function on all records agrees with doing so in sequence.
* `Batch.parallel_agrees`: so do batches of scalar and of vector functions and counts of what passes;
  functions of the wrong shape are refused unseen.
-/

namespace Cutflow

/-- The outcome comes of evaluating `f` on the records listed, on each as often as it is listed. The
calls need not be in this order, for threads may mix them. -/
def Outcome.Evaluates {α β : Type} (f : Record → Outcome α) (records : List Record)
    (o : Outcome β) : Prop :=
  o.calls.Perm (records.flatMap fun r => (f r).calls)

namespace Pool

/-- The system lets the pool have the threads that are asked for. -/
def Builds (pool : Pool) (threads : Option Nat) : Prop := pool.build threads = .ok ()

theorem start_eq_ok {pool : Pool} {threads : Option Nat} :
    pool.start threads = .ok () ↔ threads ≠ some 0 ∧ pool.Builds threads := by
  rw [start, Builds]
  split
  next h => simp [h]
  next h => cases pool.build threads <;> simp [Except.mapError, h]

/-- What a pool is trusted with, for every chunk of records. -/
structure Lawful (pool : Pool) : Prop where
  /-- If no record fails, each of them is evaluated once, and the results are in their order. -/
  ok {α : Type} {f : Record → Outcome α} {chunk : List Record} {xs : List α} :
    List.Forall₂ (fun r x => (f r).result = .ok x) chunk xs →
      (pool.collect f chunk).result = .ok xs ∧ (pool.collect f chunk).Evaluates f chunk
  /-- If some record fails, each of them is evaluated once at most, and the error is that of one
  which fails. -/
  error {α : Type} {f : Record → Outcome α} {chunk : List Record} :
    (∃ r ∈ chunk, ∃ e, (f r).result = .error e) →
      ∃ evaluated, evaluated.Sublist chunk ∧ (pool.collect f chunk).Evaluates f evaluated ∧
        ∃ r ∈ evaluated, ∃ e, (f r).result = .error e ∧ (pool.collect f chunk).result = .error e

/-- The pool that begins with the last record of a chunk. There are eight threads for it. -/
def backwards : Pool where
  build threads := if threads.getD 1 ≤ 8 then .ok () else .error "Resource temporarily unavailable (os error 11)"
  collect f records := do return (← records.reverse.mapM f).reverse

theorem lawful_backwards : backwards.Lawful where
  ok {α f chunk xs} h := by
    have h := List.forall₂_reverse_iff.mpr h
    simp only [backwards, Outcome.bind_pure_eq, Outcome.result_mapM_eq_ok.mpr h]
    refine ⟨by rw [Except.map, List.reverse_reverse], ?_⟩
    rw [Outcome.Evaluates, Outcome.calls_mapM_of_ok h]
    exact (List.reverse_perm chunk).flatMap_right _
  error {α f chunk} h := by
    obtain ⟨r, hr, e, he⟩ := h
    cases hs : (chunk.reverse.mapM f).result with
    | ok xs =>
      have hok := Outcome.exists_ok_of_mem (Outcome.result_mapM_eq_ok.mp hs) (List.mem_reverse.mpr hr)
      obtain ⟨x, hx⟩ := hok
      cases he.symm.trans hx
    | error e' =>
      obtain ⟨first, r', rest, hchunk, -, hr', hcalls⟩ := Outcome.mapM_of_error hs
      simp only [backwards, Outcome.bind_pure_eq, hs]
      refine ⟨(first ++ [r']).reverse, ?_, ?_, r', by simp, e', hr', rfl⟩
      · rw [← List.reverse_sublist, List.reverse_reverse, hchunk]
        exact (List.Sublist.refl first).append (List.singleton_sublist.mpr List.mem_cons_self)
      · rw [Outcome.Evaluates, hcalls]
        exact (List.reverse_perm _).symm.flatMap_right _

variable {pool : Pool} {α : Type} {f : Record → Outcome α} {chunk : List Record} {xs : List α}

theorem Lawful.collect_eq_ok (h : pool.Lawful) :
    (pool.collect f chunk).result = .ok xs ↔
      List.Forall₂ (fun r x => (f r).result = .ok x) chunk xs := by
  refine ⟨fun hx => ?_, fun hx => (h.ok hx).1⟩
  rcases Outcome.forall₂_or_exists_error f chunk with ⟨ys, hys⟩ | hfail
  · cases hx.symm.trans (h.ok hys).1
    exact hys
  · obtain ⟨-, -, -, -, -, e, -, he⟩ := h.error hfail
    cases hx.symm.trans he

/-- A chunk fails only if a record in it does. -/
theorem Lawful.exists_error (h : pool.Lawful) {e : Error} (he : (pool.collect f chunk).result = .error e) :
    ∃ r ∈ chunk, ∃ e, (f r).result = .error e := by
  rcases Outcome.forall₂_or_exists_error f chunk with ⟨ys, hys⟩ | hfail
  · cases he.symm.trans (h.ok hys).1
  · exact hfail

end Pool

namespace Batch

/-- How a batch on a pool compares with the same batch in sequence, if `f` is what is evaluated on the
records and they are handed over in chunks of `size`. -/
structure Agrees {α β : Type} (f : Record → Outcome α) (size : Nat) (records : List Record)
    (sequential parallel : Outcome β) : Prop where
  /-- Both succeed with the same results, or neither does. -/
  ok_iff : ∀ x, parallel.result = .ok x ↔ sequential.result = .ok x
  /-- If they succeed, each record is evaluated once. -/
  evaluates : ∀ x, sequential.result = .ok x → parallel.Evaluates f records
  /-- If they fail, it is in the first chunk that holds a record which fails, and with the error of such a
  record; the records before this chunk are evaluated once, those behind it not at all. -/
  error : ∀ e, sequential.result = .error e →
    ∃ k, (∀ r ∈ records.take (k * size), ∃ x, (f r).result = .ok x) ∧
      ∃ evaluated, evaluated.Sublist ((records.drop (k * size)).take size) ∧
        parallel.Evaluates f (records.take (k * size) ++ evaluated) ∧
        ∃ r ∈ evaluated, ∃ e', (f r).result = .error e' ∧ parallel.result = .error e'

/-! ### Chunks -/

section Chunks

variable {α : Type} {size : Nat}

theorem chunks_of_ne_nil {xs : List α} (h : xs ≠ []) :
    chunks size xs = xs.take (max 1 size) :: chunks size (xs.drop (max 1 size)) := by
  obtain ⟨n, hn⟩ : ∃ n, max 1 size = n + 1 := ⟨max 1 size - 1, by omega⟩
  have hs : size - 1 = n := by omega
  obtain ⟨x, xs, rfl⟩ := List.exists_cons_of_ne_nil h
  rw [chunks, hs, hn, List.take_succ_cons, List.drop_succ_cons]

theorem flatten_chunks (size : Nat) (xs : List α) : (chunks size xs).flatten = xs := by
  fun_induction chunks size xs with
  | case1 => rfl
  | case2 x xs ih => rw [List.flatten_cons, ih, List.cons_append, List.take_append_drop]

theorem ne_nil_of_chunks_eq {xs chunk : List α} {rest : List (List α)}
    (h : chunks size xs = chunk :: rest) : xs ≠ [] := by
  rintro rfl
  rw [chunks] at h
  cases h

/-- The chunk that comes after `first` begins where as many whole chunks end. -/
theorem eq_take_of_chunks_eq {xs chunk : List α} {first rest : List (List α)}
    (h : chunks size xs = first ++ chunk :: rest) :
    first.flatten = xs.take (first.length * max 1 size) ∧
      chunk = (xs.drop (first.length * max 1 size)).take (max 1 size) := by
  induction first generalizing xs with
  | nil =>
    rw [List.nil_append, chunks_of_ne_nil (ne_nil_of_chunks_eq h)] at h
    obtain ⟨rfl, -⟩ := List.cons.inj h
    simp
  | cons c first ih =>
    rw [List.cons_append, chunks_of_ne_nil (ne_nil_of_chunks_eq h)] at h
    obtain ⟨hc, hrest⟩ := List.cons.inj h
    obtain ⟨hfirst, hchunk⟩ := ih hrest
    have hlength : (c :: first).length * max 1 size = max 1 size + first.length * max 1 size := by
      rw [List.length_cons, Nat.succ_mul, Nat.add_comm]
    rw [hlength, List.flatten_cons, ← hc, hfirst, List.take_add, ← List.drop_drop]
    exact ⟨rfl, hchunk⟩

end Chunks

/-! ### Chunks on a pool -/

section Run

variable {pool : Pool} {α : Type} {f : Record → Outcome α} {size : Nat} {records : List Record}

theorem evaluates_flatten {cs : List (List Record)}
    (h : ∀ c ∈ cs, (pool.collect f c).Evaluates f c) :
    (cs.flatMap fun c => (pool.collect f c).calls).Perm (cs.flatten.flatMap fun r => (f r).calls) := by
  rw [List.flatten_eq_flatMap, List.flatMap_assoc]
  exact List.Perm.flatMap_left cs h

/-- If all chunks succeed, so do all records. -/
theorem forall₂_of_collect_ok (h : pool.Lawful) {parts : List (List α)}
    (hp : ((chunks size records).mapM (pool.collect f)).result = .ok parts) :
    List.Forall₂ (fun r x => (f r).result = .ok x) records parts.flatten := by
  have hparts := List.rel_flatten ((Outcome.result_mapM_eq_ok.mp hp).imp fun c p => h.collect_eq_ok.mp)
  rwa [flatten_chunks] at hparts

theorem evaluates_of_collect_ok (h : pool.Lawful) {parts : List (List α)}
    (hp : ((chunks size records).mapM (pool.collect f)).result = .ok parts) :
    ((chunks size records).mapM (pool.collect f)).Evaluates f records := by
  have hparts := Outcome.result_mapM_eq_ok.mp hp
  have hcalls : ∀ c ∈ chunks size records, (pool.collect f c).Evaluates f c := by
    intro c hc
    obtain ⟨p, hp⟩ := Outcome.exists_ok_of_mem hparts hc
    exact (h.ok (h.collect_eq_ok.mp hp)).2
  rw [Outcome.Evaluates, Outcome.calls_mapM_of_ok hparts]
  conv => rhs; rw [← flatten_chunks size records]
  exact evaluates_flatten hcalls

/-- If some chunk fails, it is the first one to hold a record which fails, and the last one to be begun. -/
theorem collect_of_error (h : pool.Lawful) {e : Error}
    (he : ((chunks size records).mapM (pool.collect f)).result = .error e) :
    ∃ k, (∀ r ∈ records.take (k * max 1 size), ∃ x, (f r).result = .ok x) ∧
      ∃ evaluated, evaluated.Sublist ((records.drop (k * max 1 size)).take (max 1 size)) ∧
        ((chunks size records).mapM (pool.collect f)).Evaluates f
          (records.take (k * max 1 size) ++ evaluated) ∧
        ∃ r ∈ evaluated, (f r).result = .error e := by
  obtain ⟨first, chunk, rest, hchunks, hfirst, hfail, hcalls⟩ := Outcome.mapM_of_error he
  obtain ⟨hflat, hchunk⟩ := eq_take_of_chunks_eq hchunks
  have hok : ∀ c ∈ first, ∃ xs, List.Forall₂ (fun r x => (f r).result = .ok x) c xs := by
    intro c hc
    obtain ⟨xs, hxs⟩ := hfirst c hc
    exact ⟨xs, h.collect_eq_ok.mp hxs⟩
  obtain ⟨evaluated, hsub, heval, r, hr, e', hre, hce⟩ := h.error (h.exists_error hfail)
  cases hfail.symm.trans hce
  refine ⟨first.length, ?_, evaluated, hchunk ▸ hsub, ?_, r, hr, hre⟩
  · rw [← hflat]
    intro r hr
    obtain ⟨c, hc, hr⟩ := List.mem_flatten.mp hr
    obtain ⟨xs, hxs⟩ := hok c hc
    exact Outcome.exists_ok_of_mem hxs hr
  · rw [Outcome.Evaluates, hcalls, ← hflat, List.flatMap_append, List.flatMap_append, List.flatMap_singleton]
    refine (evaluates_flatten fun c hc => ?_).append heval
    obtain ⟨xs, hxs⟩ := hok c hc
    exact (h.ok hxs).2

end Run

/-! ### Batches -/

section Batches

variable {pool : Pool} {α β γ : Type} {f : Record → Outcome α} {size : Nat} {records : List Record}

/-- What is made of the results afterwards does not matter. -/
theorem Agrees.bind_pure {sequential parallel : Outcome β} (g : β → γ)
    (h : Agrees f size records sequential parallel) :
    Agrees f size records (sequential >>= fun x => pure (g x)) (parallel >>= fun x => pure (g x)) := by
  rw [Outcome.bind_pure_eq, Outcome.bind_pure_eq]
  cases hs : sequential.result with
  | ok x =>
    rw [(h.ok_iff x).mpr hs]
    exact ⟨fun _ => .rfl, fun _ _ => h.evaluates x hs, nofun⟩
  | error e =>
    obtain ⟨k, hk, evaluated, hsub, heval, r, hr, e', hre, hp⟩ := h.error e hs
    rw [hp]
    exact ⟨fun _ => ⟨nofun, nofun⟩, nofun, fun _ _ =>
      ⟨k, hk, evaluated, hsub, heval, r, hr, e', hre, rfl⟩⟩

/-- A function on records is evaluated alike by both kinds of batches. -/
theorem run_agrees (h : pool.Lawful) {threading : Threading} (ht : threading.threads ≠ some 0)
    (hb : pool.Builds threading.threads) (f : Record → Outcome α) (records : List Record) :
    Agrees f (max 1 threading.chunkSize) records
      (run pool { threading with parallel := false } f records)
      (run pool { threading with parallel := true } f records) := by
  have hseq : run pool { threading with parallel := false } f records = records.mapM f := rfl
  have hpar : run pool { threading with parallel := true } f records =
      (chunks threading.chunkSize records).mapM (pool.collect f) >>= fun parts => pure parts.flatten := by
    show Outcome.ofExcept (pool.start threading.threads) >>= _ = _
    rw [Pool.start_eq_ok.mpr ⟨ht, hb⟩]
    rfl
  rw [hseq, hpar, Outcome.bind_pure_eq]
  cases hp : ((chunks threading.chunkSize records).mapM (pool.collect f)).result with
  | ok parts =>
    have hs := Outcome.result_mapM_eq_ok.mpr (forall₂_of_collect_ok h hp)
    refine ⟨fun x => by rw [hs]; rfl, fun x _ => evaluates_of_collect_ok h hp, ?_⟩
    intro e he
    cases hs.symm.trans he
  | error e =>
    obtain ⟨k, hk, evaluated, hsub, heval, r, hr, hre⟩ := collect_of_error h hp
    have hmem : r ∈ records := List.mem_of_mem_drop (List.mem_of_mem_take (hsub.subset hr))
    have hs : ∀ xs, (records.mapM f).result ≠ .ok xs := by
      intro xs hxs
      obtain ⟨x, hx⟩ := Outcome.exists_ok_of_mem (Outcome.result_mapM_eq_ok.mp hxs) hmem
      cases hre.symm.trans hx
    refine ⟨fun x => ⟨nofun, fun hx => absurd hx (hs x)⟩, fun x hx => absurd hx (hs x), ?_⟩
    intro _ _
    exact ⟨k, hk, evaluated, hsub, heval, r, hr, e, hre, rfl⟩

/-- The results of a batch that succeeds are those of its records, in their order. -/
theorem forall₂_of_run_ok (h : pool.Lawful) {threading : Threading} {xs : List α}
    (hx : (run pool threading f records).result = .ok xs) :
    List.Forall₂ (fun r x => (f r).result = .ok x) records xs := by
  rw [run] at hx
  split at hx
  · exact Outcome.result_mapM_eq_ok.mp hx
  · obtain ⟨-, -, hx⟩ := Outcome.result_bind_eq_ok.mp hx
    obtain ⟨parts, hparts, hx⟩ := Outcome.result_bind_eq_ok.mp hx
    cases hx
    exact forall₂_of_collect_ok h hparts

theorem evalScalar_of_vector {f : Func} (hf : f.shape = .vector) (pool : Pool) (threading : Threading)
    (records : List Record) :
    evalScalar pool threading f records = .fail (.invalidShape f.name .scalar) := by
  rw [evalScalar, hf]

theorem evalVector_of_scalar {f : Func} (hf : f.shape = .scalar) (pool : Pool) (threading : Threading)
    (records : List Record) :
    evalVector pool threading f records = .fail (.invalidShape f.name .vector) := by
  rw [evalVector, hf]

/-- **Parallel batches equal sequential ones**: on a lawful pool that can be built with at least one thread,
whatever the size of the chunks, a batch succeeds with the results of the sequential one in the same order, or
fails in the first chunk that holds a record which fails. A function of the wrong shape is not evaluated at
all. -/
theorem parallel_agrees (h : pool.Lawful) {threading : Threading} (ht : threading.threads ≠ some 0)
    (hb : pool.Builds threading.threads) (records : List Record) :
    let sequential := { threading with parallel := false }
    let parallel := { threading with parallel := true }
    let size := max 1 threading.chunkSize
    (∀ f : Func, f.shape = .scalar → Agrees f.evalScalar size records
      (evalScalar pool sequential f records) (evalScalar pool parallel f records)) ∧
    (∀ f : Func, f.shape = .vector → Agrees f.evalVector size records
      (evalVector pool sequential f records) (evalVector pool parallel f records)) ∧
    (∀ cuts, Agrees (Selection.passes cuts) size records
      (countPassing pool sequential cuts records) (countPassing pool parallel cuts records)) ∧
    ∀ (pool : Pool) (threading : Threading) (f : Func) (records : List Record),
      (f.shape = .vector →
        evalScalar pool threading f records = .fail (.invalidShape f.name .scalar)) ∧
      (f.shape = .scalar →
        evalVector pool threading f records = .fail (.invalidShape f.name .vector)) := by
  intro sequential parallel size
  refine ⟨?_, ?_, ?_, ?_⟩
  · intro f hf
    rw [evalScalar, evalScalar, hf]
    exact run_agrees h ht hb f.evalScalar records
  · intro f hf
    rw [evalVector, evalVector, hf]
    exact run_agrees h ht hb f.evalVector records
  · intro cuts
    exact (run_agrees h ht hb (Selection.passes cuts) records).bind_pure fun passed => passed.count true
  · intro pool threading f records
    exact ⟨fun hf => evalScalar_of_vector hf pool threading records,
      fun hf => evalVector_of_scalar hf pool threading records⟩

/-- The second chunk holds two records that fail, and the pool comes to the other one of them first. -/
theorem parallel_agrees_backwards :
    let f : Func := .ofEvaluator "f" <| .scalar fun r =>
      ⟨["f"], Evaluator.entryAt "f" [7] ((r.scalar? "x").getD 0)⟩
    let records := [0, 0, 5, 6, 0].map fun x => Record.empty.insert "x" (.scalar x)
    let threading : Threading := { chunkSize := 2, threads := some 3 }
    let sequential := evalScalar .backwards { threading with parallel := false } f records
    let parallel := evalScalar .backwards { threading with parallel := true } f records
    Pool.backwards.Lawful ∧ threading.threads ≠ some 0 ∧ Pool.backwards.Builds threading.threads ∧
      f.shape = .scalar ∧ Agrees f.evalScalar 2 records sequential parallel ∧
      sequential = ⟨["f", "f", "f"], .error (.indexOutOfRange "f" 5 1)⟩ ∧
      parallel = ⟨["f", "f", "f"], .error (.indexOutOfRange "f" 6 1)⟩ := by
  intro f records threading sequential parallel
  have ht : threading.threads ≠ some 0 := by decide
  have hb : Pool.backwards.Builds threading.threads := rfl
  obtain ⟨hf, -⟩ := parallel_agrees Pool.lawful_backwards ht hb records
  refine ⟨Pool.lawful_backwards, ht, hb, rfl, hf f rfl, rfl, ?_⟩
  have hc : chunks 2 records = [records.take 2, (records.drop 2).take 2, records.drop 4] := by cbv
  show (chunks 2 records).mapM (Pool.backwards.collect f.evalScalar) >>= _ = _
  rw [hc]
  rfl

end Batches

end Batch

end Cutflow
