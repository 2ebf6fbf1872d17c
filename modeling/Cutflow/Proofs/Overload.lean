import Cutflow.Proofs.AcceptedName
import Cutflow.Proofs.Composition

/-!
# Overloads

An operator between two functions can be written in several ways. It makes a new function, or it changes its
left operand, and a number can stand for the function that gives it. The ways differ in what they do about
names: the name of a new function has its blanks taken out, but what is changed in place gets two names
joined as they are. They come to the same because there is no name with a blank to begin with, whatever has
been done to the functions before, and joining names brings none in.

## The model

`Session.Move` is what can be done to the functions of a session: a step, or the gift of an evaluator of any
kind, of which the steps know constant ones only. Two sequences of moves are related by `Session.Recasts` if
the second one writes operators in other ways.

## What is proved

* `Func.combine_eq`: both forms of an operator make the same function of operands without blanks in their
  names.
* `Session.Clean.step`, `Session.Clean.after`: no move brings a blank into a name.
* `Session.overloads_agree`: sequences of moves that differ in the overloads of operators lead to the same
  session.
-/

namespace Cutflow

open Text

namespace Func

variable {f g entry : Func}

/-- Both forms of an operator make the same function. -/
theorem combine_eq (form : Form) (op : BinaryOp) (hf : Blankless f.name) (hg : Blankless g.name) :
    combine form op f g =
      ⟨joinedName f.name op.symbol g.name, combineEvaluators op f.evaluator g.evaluator⟩ := by
  rw [← name_combine form op hf hg, ← evaluator_combine form op f g]

theorem blankless_name_ofVariable (name : String) (shape : Shape) : Blankless (ofVariable name shape).name := by
  cases shape <;> exact blankless_withoutBlanks name

theorem blankless_name_index (h : f.index g = .ok entry) : Blankless entry.name := by
  obtain ⟨e, -, he⟩ := bind_eq_ok.mp h
  cases he
  exact blankless_withoutBlanks _

end Func

namespace Session

/-- What can be done to the functions of a session. -/
inductive Move where
  /-- Runs a step. -/
  | step (st : Step)
  /-- Makes a hand-written function. -/
  | leaf (target name : String) (evaluator : Evaluator)
  /-- Gives a function a hand-written evaluator. -/
  | setEvaluator (a : String) (evaluator : Evaluator)

/-- The session after a move; what is refused changes nothing. -/
def move (pool : Pool) (s : Session) : Move → Session
  | .step st =>
    match s.step pool st with
    | .ok (s', _) => s'
    | .error _ => s
  | .leaf target name evaluator => (s.store target (.ofEvaluator name evaluator)).1
  | .setEvaluator a evaluator =>
    match s.fetch a with
    | .ok f => (s.store a (f.withEvaluator evaluator)).1
    | .error _ => s

/-- The session after a sequence of moves. -/
def after (pool : Pool) (s : Session) (moves : List Move) : Session := moves.foldl (move pool) s

/-- The session holds the function in a register, or with a compiler, in use or saved. -/
def Holds (s : Session) (f : Func) : Prop :=
  (∃ name, s.registers.find? name = some f) ∨
    ∃ c ∈ s.compiler :: s.snapshots, ∃ name, c.functions.find? name = some f

/-- No name of a function has a blank. -/
def Clean (s : Session) : Prop := ∀ f, s.Holds f → Blankless f.name

/-- The step that puts an operand into a register. -/
def Operand.load (target : String) : Operand → Step
  | .register a => .copy target a
  | .number x => .constant target x

/-- In the second sequence of moves operators of the first one are written in other ways: in the other form
or with operands that stand for the same functions, or as a change of a copy of the left operand. -/
inductive Recasts (pool : Pool) : Session → List Move → List Move → Prop where
  | nil {s : Session} : Recasts pool s [] []
  | keep {s : Session} {moves moves' : List Move} (m : Move) :
      Recasts pool (s.move pool m) moves moves' → Recasts pool s (m :: moves) (m :: moves')
  | overload {s : Session} {target : String} {op : BinaryOp} {form form' : Form} {a a' b b' : Operand}
      {moves moves' : List Move} : s.operand a = s.operand a' → s.operand b = s.operand b' →
      Recasts pool (s.move pool (.step (.binary target op form a b))) moves moves' →
      Recasts pool s (.step (.binary target op form a b) :: moves)
        (.step (.binary target op form' a' b') :: moves')
  | assign {s : Session} {target : String} {op : BinaryOp} {form : Form} {a b : Operand} {f g : Func}
      {moves moves' : List Move} : s.operand a = .ok f → s.operand b = .ok g → b ≠ .register target →
      Recasts pool (s.move pool (.step (.binary target op form a b))) moves moves' →
      Recasts pool s (.step (.binary target op form a b) :: moves)
        (.step (a.load target) :: .step (.binary target op .inPlace (.register target) b) :: moves')

variable {pool : Pool} {s s' : Session} {target name : String} {f g : Func} {a b : Operand}

/-! ### Names -/

theorem fetch_eq_ok : s.fetch name = .ok f ↔ s.registers.find? name = some f := by
  rw [fetch]
  cases s.registers.find? name <;> simp

theorem holds_of_store (h : (s.store target f).1.Holds g) : g = f ∨ s.Holds g := by
  rcases h with ⟨name, hg⟩ | hc
  · by_cases hn : name = target
    · subst hn
      exact .inl (Option.some.inj (hg.symm.trans (NameMap.find?_insert_self ..)))
    · exact .inr (.inl ⟨name, (NameMap.find?_insert_of_ne _ _ hn).symm.trans hg⟩)
  · exact .inr (.inr hc)

/-- Counting calls is the business of the counts only. -/
theorem exists_counts_foldl (s : Session) (calls : List String) :
    ∃ counts, calls.foldl countCall s = { s with counts } := by
  induction calls generalizing s with
  | nil => exact ⟨s.counts, rfl⟩
  | cons id calls ih => exact ih (s.countCall id)

theorem exists_counts_beginCount (s : Session) (id : String) : ∃ counts, s.beginCount id = { s with counts } := by
  rw [beginCount]
  split
  · exact ⟨s.counts, rfl⟩
  · exact ⟨_, rfl⟩

namespace Clean

theorem store (hs : s.Clean) (hf : Blankless f.name) : (s.store target f).1.Clean := by
  intro g hg
  rcases holds_of_store hg with rfl | hg
  · exact hf
  · exact hs g hg

theorem counts (hs : s.Clean) (counts : NameMap Nat) : Clean { s with counts } := hs

theorem beginCount (hs : s.Clean) (id : String) : (s.beginCount id).Clean := by
  obtain ⟨counts, h⟩ := s.exists_counts_beginCount id
  exact h ▸ hs.counts counts

theorem countCalls (hs : s.Clean) (calls : List String) : (calls.foldl countCall s).Clean := by
  obtain ⟨counts, h⟩ := s.exists_counts_foldl calls
  exact h ▸ hs.counts counts

theorem fetch (hs : s.Clean) (h : s.fetch name = .ok f) : Blankless f.name :=
  hs f (.inl ⟨name, fetch_eq_ok.mp h⟩)

theorem withEvaluator (hs : s.Clean) (h : s.fetch name = .ok f) (evaluator : Evaluator) :
    (s.store target (f.withEvaluator evaluator)).1.Clean := by
  have hf : Blankless f.name := hs.fetch h
  exact hs.store hf

theorem operand (hs : s.Clean) (h : s.operand a = .ok f) : Blankless f.name := by
  cases a with
  | register name => exact hs.fetch h
  | number x =>
    cases h
    exact Func.blankless_name_constant x

theorem combine (hs : s.Clean) (ha : s.operand a = .ok f) (hb : s.operand b = .ok g) (form : Form)
    (op : BinaryOp) : Blankless (f.combine form op g).name := by
  rw [Func.combine_eq form op (hs.operand ha) (hs.operand hb)]
  exact Func.blankless_joinedName op (hs.operand ha) (hs.operand hb)

theorem register (hs : s.Clean) (hf : Blankless f.name) :
    Clean { s with compiler := { s.compiler with functions := s.compiler.functions.insert name f } } := by
  rintro g (hg | ⟨c, hc, other, hg⟩)
  · exact hs g (.inl hg)
  · rcases List.mem_cons.mp hc with rfl | hc
    · by_cases hn : other = name
      · subst hn
        cases hg.symm.trans (NameMap.find?_insert_self ..)
        exact hf
      · exact hs g (.inr ⟨s.compiler, List.mem_cons_self, other, (NameMap.find?_insert_of_ne _ _ hn).symm.trans hg⟩)
    · exact hs g (.inr ⟨c, List.mem_cons_of_mem _ hc, other, hg⟩)

/-- Only compilers that were there before are put into use or saved. -/
theorem of_compilers (hs : s.Clean) (hr : s'.registers = s.registers)
    (hc : s'.compiler :: s'.snapshots ⊆ s.compiler :: s.snapshots) : s'.Clean := by
  rintro f (⟨name, hf⟩ | ⟨c, hmem, hf⟩)
  · exact hs f (.inl ⟨name, hr ▸ hf⟩)
  · exact hs f (.inr ⟨c, hc hmem, hf⟩)

/-- **No step brings a blank into a name.** -/
theorem step (hs : s.Clean) {st : Step} {reply : Reply} (h : s.step pool st = .ok (s', reply)) : s'.Clean := by
  cases st with
  | constant target x =>
    cases h
    exact hs.store (Func.blankless_name_constant x)
  | «variable» target name shape =>
    cases h
    exact hs.store (Func.blankless_name_ofVariable name shape)
  | copy target a =>
    obtain ⟨f, hf, h⟩ := bind_eq_ok.mp h
    cases h
    exact hs.store (hs.fetch hf)
  | leaf target name id value failure =>
    cases h
    exact (hs.beginCount id).store (blankless_withoutBlanks name)
  | compile target text =>
    obtain ⟨f, hf, h⟩ := bind_eq_ok.mp h
    cases h
    obtain ⟨-, -, g, -, rfl⟩ := Compiler.compile_eq_ok.mp (mapError_eq_ok.mp hf)
    exact hs.store (blankless_withoutBlanks text)
  | register name a =>
    obtain ⟨f, hf, h⟩ := bind_eq_ok.mp h
    obtain ⟨c, hc, h⟩ := bind_eq_ok.mp h
    cases h
    obtain ⟨-, rfl⟩ := Compiler.register_eq_ok.mp (mapError_eq_ok.mp hc)
    exact hs.register (hs.fetch hf)
  | schemaSize =>
    cases h
    exact hs
  | snapshot =>
    cases h
    exact hs.of_compilers rfl (List.cons_subset.mpr ⟨List.mem_cons_self, List.Subset.refl _⟩)
  | restore =>
    rw [Session.step] at h
    split at h
    next =>
      cases h
      exact hs
    next compiler snapshots hsaved =>
      cases h
      exact hs.of_compilers rfl (hsaved ▸ List.subset_cons_self ..)
  | unary target op a =>
    obtain ⟨f, hf, h⟩ := bind_eq_ok.mp h
    cases h
    exact hs.store (blankless_withoutBlanks _)
  | binary target op form a b =>
    obtain ⟨f, hf, h⟩ := bind_eq_ok.mp h
    obtain ⟨g, hg, h⟩ := bind_eq_ok.mp h
    cases h
    exact hs.store (hs.combine hf hg form op)
  | index target a i =>
    obtain ⟨f, hf, h⟩ := bind_eq_ok.mp h
    obtain ⟨g, hg, h⟩ := bind_eq_ok.mp h
    obtain ⟨entry, he, h⟩ := bind_eq_ok.mp h
    cases h
    exact hs.store (Func.blankless_name_index (mapError_eq_ok.mp he))
  | rename a name =>
    obtain ⟨f, hf, h⟩ := bind_eq_ok.mp h
    cases h
    exact hs.store (blankless_withoutBlanks name)
  | setLeaf a id value =>
    obtain ⟨f, hf, h⟩ := bind_eq_ok.mp h
    cases h
    have hn : Blankless f.name := hs.fetch hf
    exact (hs.beginCount id).store hn
  | setEvaluator a source =>
    cases source with
    | none =>
      obtain ⟨f, hf, h⟩ := bind_eq_ok.mp h
      cases h
      exact hs.store (hs.fetch hf)
    | some source =>
      obtain ⟨f, hf, h⟩ := bind_eq_ok.mp h
      obtain ⟨g, hg, h⟩ := bind_eq_ok.mp h
      cases h
      exact hs.withEvaluator hf g.evaluator
  | describe a =>
    obtain ⟨f, hf, h⟩ := bind_eq_ok.mp h
    cases h
    exact hs
  | eval a record shape =>
    obtain ⟨f, hf, h⟩ := bind_eq_ok.mp h
    cases h
    exact hs.countCalls _
  | batch a shape threading =>
    cases shape <;>
    · obtain ⟨f, hf, h⟩ := bind_eq_ok.mp h
      cases h
      exact hs.countCalls _
  | count cuts threading =>
    obtain ⟨fs, hfs, h⟩ := bind_eq_ok.mp h
    cases h
    exact hs.countCalls _

theorem move (hs : s.Clean) (m : Move) : (s.move pool m).Clean := by
  cases m with
  | step st =>
    rw [Session.move]
    split
    next h => exact hs.step h
    next => exact hs
  | leaf target name evaluator => exact hs.store (blankless_withoutBlanks name)
  | setEvaluator a evaluator =>
    rw [Session.move]
    split
    next f hf => exact hs.withEvaluator hf evaluator
    next => exact hs

theorem after (hs : s.Clean) (moves : List Move) : (s.after pool moves).Clean := by
  induction moves generalizing s with
  | nil => exact hs
  | cons m moves ih => exact ih (hs.move m)

end Clean

theorem clean_start (schema : Schema) (records : List Record) : (start schema records).Clean := by
  rintro f (⟨name, hf⟩ | ⟨c, hc, name, hf⟩)
  · cases hf
  · cases List.mem_singleton.mp hc
    cases hf

/-! ### Ways of writing an operator -/

theorem step_binary (ha : s.operand a = .ok f) (hb : s.operand b = .ok g) (form : Form) (op : BinaryOp) :
    s.step pool (.binary target op form a b) = .ok (s.store target (f.combine form op g)) := by
  rw [step, ha, hb]
  rfl

/-- Neither the form of an operator matters nor how its operands are given. -/
theorem step_binary_congr (hs : s.Clean) {a' b' : Operand} (ha : s.operand a = s.operand a')
    (hb : s.operand b = s.operand b') (form form' : Form) (op : BinaryOp) :
    s.step pool (.binary target op form a b) = s.step pool (.binary target op form' a' b') := by
  cases hf : s.operand a' with
  | error e => rw [step, step, ha, hf]; rfl
  | ok f =>
    cases hg : s.operand b' with
    | error e => rw [step, step, ha, hb, hf, hg]; rfl
    | ok g =>
      rw [step_binary hf hg, step_binary (ha.trans hf) (hb.trans hg),
        Func.combine_eq form op (hs.operand hf) (hs.operand hg),
        Func.combine_eq form' op (hs.operand hf) (hs.operand hg)]

theorem move_load (h : s.operand a = .ok f) : s.move pool (.step (a.load target)) = (s.store target f).1 := by
  cases a with
  | register name =>
    have hf : s.fetch name = .ok f := h
    simp only [move, Operand.load, step, hf]
    rfl
  | number x =>
    cases h
    rfl

/-- Another operand does not see that a register is changed. -/
theorem operand_store (hb : b ≠ .register target) : (s.store target f).1.operand b = s.operand b := by
  cases b with
  | register name =>
    have hn : name ≠ target := fun h => hb (h ▸ rfl)
    simp only [operand, fetch, Session.store, NameMap.find?_insert_of_ne _ _ hn]
  | number x => rfl

/-- An operator may be applied in place to a copy of its left operand. -/
theorem move_assign (hs : s.Clean) (ha : s.operand a = .ok f) (hb : s.operand b = .ok g)
    (hne : b ≠ .register target) (form : Form) (op : BinaryOp) :
    s.move pool (.step (.binary target op form a b)) =
      (s.move pool (.step (a.load target))).move pool
        (.step (.binary target op .inPlace (.register target) b)) := by
  have ht : (s.store target f).1.operand (.register target) = .ok f :=
    fetch_eq_ok.mpr (NameMap.find?_insert_self ..)
  have hb' : (s.store target f).1.operand b = .ok g := (operand_store hne).trans hb
  rw [move_load ha, move, move, step_binary ha hb, step_binary ht hb']
  simp only [Session.store, NameMap.insert_insert, Func.combine_eq _ op (hs.operand ha) (hs.operand hb)]

theorem Recasts.after_eq {moves moves' : List Move} (h : Recasts pool s moves moves') (hs : s.Clean) :
    s.after pool moves = s.after pool moves' := by
  induction h with
  | nil => rfl
  | keep m h ih => exact ih (hs.move m)
  | @overload s target op form form' a a' b b' moves moves' ha hb h ih =>
    have hm : s.move pool (.step (.binary target op form a b)) =
        s.move pool (.step (.binary target op form' a' b')) := by
      rw [move, move, step_binary_congr hs ha hb form form' op]
    exact (ih (hs.move _)).trans (congrArg (after pool · moves') hm)
  | @assign s target op form a b f g moves moves' ha hb hne h ih =>
    exact (ih (hs.move _)).trans (congrArg (after pool · moves') (move_assign hs ha hb hne form op))

/-- **All overloads of an operator make the same function, and names stay free of blanks.** Whatever is
done to the functions of a session, no name ever has a blank; so an operator makes a function of the same
name and with the same evaluator of its operands, be these functions or numbers, whether it makes a new
function or changes the left operand; and sequences of moves that differ in how operators are written lead
to the same session. -/
theorem overloads_agree (pool : Pool) (schema : Schema) (records : List Record) :
    (∀ moves f, ((start schema records).after pool moves).Holds f → ∀ c ∈ f.name.toList, isBlank c = false) ∧
    (∀ moves a b f g, ((start schema records).after pool moves).operand a = .ok f →
      ((start schema records).after pool moves).operand b = .ok g → ∀ form op, f.combine form op g =
        ⟨Func.joinedName f.name op.symbol g.name, Func.combineEvaluators op f.evaluator g.evaluator⟩) ∧
    ∀ moves moves', Recasts pool (start schema records) moves moves' →
      (start schema records).after pool moves = (start schema records).after pool moves' := by
  have hstart := clean_start schema records
  refine ⟨fun moves f hf => ?_, fun moves a b f g ha hb form op => ?_, fun moves moves' h => h.after_eq hstart⟩
  · exact blankless_iff.mp (hstart.after moves f hf)
  · exact Func.combine_eq form op ((hstart.after moves).operand ha) ((hstart.after moves).operand hb)

/-- A leaf is named with a blank. Two is added to it by a register or in place as a number, and three times
the sum is made anew or as a change of the function that gives three. -/
theorem overloads_agree_numbers :
    let leaf : Move := .leaf "a" "p t" (.vector fun r => return (r.vector? "pt").getD [])
    let two : Move := .step (.constant "k" 2)
    let add := BinaryOp.pointwise .add
    let mul := BinaryOp.pointwise .mul
    let moves : List Move := [leaf, two, .step (.binary "b" add .fresh (.register "a") (.register "k")),
      .step (.binary "c" mul .fresh (.number 3) (.register "b"))]
    let moves' : List Move := [leaf, two, .step (.binary "b" add .inPlace (.register "a") (.number 2)),
      .step (.constant "c" 3), .step (.binary "c" mul .inPlace (.register "c") (.register "b"))]
    let s := start ∅ []
    Recasts .inOrder s moves moves' ∧ s.after .inOrder moves = s.after .inOrder moves' ∧
      ∃ f, (s.after .inOrder moves').registers.find? "c" = some f ∧ f.name = "(3)*((pt)+(2))" ∧
        (f.eval (Record.empty.insert "pt" (.vector [1, 4]))).result = .ok (.vector [9, 18]) := by
  intro leaf two add mul moves moves' s
  have h : Recasts .inOrder s moves moves' :=
    .keep _ (.keep _ (.overload rfl rfl (.assign rfl rfl (by decide) .nil)))
  exact ⟨h, (overloads_agree .inOrder ∅ []).2.2 moves moves' h, _, rfl, by decide +kernel, by decide +kernel⟩

end Session

end Cutflow
