import Cutflow.Func

/-!
# Selections

A cut is a function whose value says whether an event passes. A scalar cut passes if its value is
true. Vector cuts look at the objects of the event one by one: together they pass if some object
passes each of them.
-/

namespace Cutflow.Selection

open Number

/-- Whether some entry counts as true. -/
def anyTrue (xs : List Float) : Bool := xs.any isTrue

/-- Whether some index lies within every row and has a true entry in each of them; there is none
without rows. -/
def allRowsAnyTrue : List (List Float) → Bool
  | [] => false
  | first :: rest =>
    (List.range first.length).any fun i => (first :: rest).all fun row => (row[i]?).any isTrue

/-- Applies the cuts in order, with the values of the vector cuts applied before in `rows`. The
first scalar cut that is not true settles the matter. -/
def applyCuts (r : Record) (rows : List (List Float)) : List Func → Outcome Bool
  | [] => return rows.isEmpty || allRowsAnyTrue rows
  | cut :: cuts =>
    match cut.evaluator with
    | .scalar run => do
      if isTrue (← run r) then applyCuts r rows cuts else return false
    | .vector run => do
      applyCuts r (rows ++ [← run r]) cuts

/-- Whether a record passes every cut; without cuts it does. -/
def passes (cuts : List Func) (r : Record) : Outcome Bool := applyCuts r [] cuts

end Cutflow.Selection
