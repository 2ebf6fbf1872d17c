import Cutflow.Selection

/-!
# Batches

The same evaluation on every record of a list, with the results in the order of the records.

## The model

A parallel batch builds a pool of threads, which the system may refuse, and hands the records to
it in chunks. What matters of a pool is whether it can be built with the threads that are asked
for, and how it evaluates one chunk: a `Pool` is any pair of functions that say so. The pool is
built before the first record is looked at, and the chunks follow one another, so that none is
begun after one has failed. `Pool.inOrder` can always be built and takes the records of a chunk one
after the other.
-/

namespace Cutflow

/-- How a batch is spread over threads. -/
structure Threading where
  /-- Whether the records are handed to a pool. -/
  parallel : Bool := false
  /-- How many records are handed over at a time; at least one is. -/
  chunkSize : Nat := 4096
  /-- The number of threads, if it is prescribed. -/
  threads : Option Nat := none
  deriving DecidableEq

/-- A kind of thread pool. -/
structure Pool where
  /-- Asks the system for threads, as many as are prescribed; if it refuses, the reason. -/
  build : Option Nat → Except String Unit
  /-- Evaluates a function on all records of a chunk. -/
  collect : {α : Type} → (Record → Outcome α) → List Record → Outcome (List α)

namespace Pool

/-- The pool that takes one record after the other. -/
def inOrder : Pool where
  build _ := .ok ()
  collect f records := records.mapM f

/-- Builds the pool for a batch. -/
def start (pool : Pool) (threads : Option Nat) : Except Error Unit :=
  if threads = some 0 then .error (@Error.noThreads .zero)
  else (pool.build threads).mapError fun reason => @Error.noThreads (.refused reason)

end Pool

namespace Batch

/-- The list cut into pieces of `size` elements, the last of which may be shorter; pieces of size
zero have one element. -/
def chunks {α : Type} (size : Nat) (xs : List α) : List (List α) :=
  match xs with
  | [] => []
  | x :: xs => (x :: xs.take (size - 1)) :: chunks size (xs.drop (size - 1))
termination_by xs.length
decreasing_by exact Nat.lt_succ_of_le (List.drop_sublist _ _).length_le

/-- Evaluates `f` on every record. -/
def run {α : Type} (pool : Pool) (threading : Threading) (f : Record → Outcome α)
    (records : List Record) : Outcome (List α) :=
  if !threading.parallel then records.mapM f
  else do
    Outcome.ofExcept (pool.start threading.threads)
    let parts ← (chunks threading.chunkSize records).mapM (pool.collect f)
    return parts.flatten

/-- The numbers a scalar function gives on the records. -/
def evalScalar (pool : Pool) (threading : Threading) (f : Func) (records : List Record) :
    Outcome (List Float) :=
  match f.shape with
  | .scalar => run pool threading f.evalScalar records
  | .vector => .fail (.invalidShape f.name .scalar)

/-- The lists a vector function gives on the records. -/
def evalVector (pool : Pool) (threading : Threading) (f : Func) (records : List Record) :
    Outcome (List (List Float)) :=
  match f.shape with
  | .vector => run pool threading f.evalVector records
  | .scalar => .fail (.invalidShape f.name .vector)

/-- The number of records that pass every cut. -/
def countPassing (pool : Pool) (threading : Threading) (cuts : List Func)
    (records : List Record) : Outcome Nat := do
  let passed ← run pool threading (Selection.passes cuts) records
  return passed.count true

end Batch

end Cutflow
