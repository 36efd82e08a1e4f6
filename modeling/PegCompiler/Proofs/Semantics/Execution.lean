import PegCompiler.Lowering.Rule
import PegCompiler.Proofs.Semantics.Parsing
import Mathlib.Data.List.Forall2
import Mathlib.Logic.Function.Basic

/-! Execution of the code of rules. Code runs on value locals, position locals and what all rules
of a parser share: the current position, the mark and the depth of silence. `leave` ends the
innermost block. Lists are values: code appends only to a list that one local holds. -/
namespace PegCompiler

namespace Semantics

variable {ω π : Type}

structure Runtime (ω π : Type) where
  literal : (value : String) → (ignoreCase : Bool) → Parser ω π
  pattern : (initializer : String) → (inverted : Bool) → Parser ω π
  any : Parser ω π
  slice : (start stop : π) → String
  number : Datum ω → Option Int
  predicate : UserMethod → List (Datum ω) → π → Bool → Prop
  action : UserMethod → List (Datum ω) → (mark current : π) → Datum ω → Prop

structure Shared (π : Type) where
  current : π
  mark : π
  silent : Int

abbrev Method (ω π : Type) := Shared π → Outcome ω → Shared π → Prop

-- Constants are handed to a method as their initializers.
structure Methods (ω π : Type) where
  literal : (value expected : String) → (ignoreCase : Bool) → Method ω π
  pattern : (initializer expected : String) → (inverted : Bool) → Method ω π
  any : Method ω π
  fail : (expected : String) → Method ω π
  newArray : List (Datum ω) → Method ω π
  toText : (start : π) → Method ω π

def Matches (method : Method ω π) (parser : Parser ω π) : Prop :=
  ∀ s o s', method s o s' ↔ ∃ q, parser s.current o q ∧ s' = { s with current := q }

def Answers (method : Method ω π) (result : Shared π → Outcome ω) : Prop :=
  ∀ s o s', method s o s' ↔ o = result s ∧ s' = s

/-- What the methods of the runtime are for: matching moves the current position and nothing else,
and the others leave everything as it is. -/
structure Methods.Implement (methods : Methods ω π) (rt : Runtime ω π) : Prop where
  literal : ∀ value expected ignoreCase,
    Matches (methods.literal value expected ignoreCase) (rt.literal value ignoreCase)
  pattern : ∀ initializer expected inverted,
    Matches (methods.pattern initializer expected inverted) (rt.pattern initializer inverted)
  any : Matches methods.any rt.any
  fail : ∀ expected, Answers (methods.fail expected) fun _ => .failed
  newArray : ∀ items, Answers (methods.newArray items) fun _ => .matched (.list items)
  toText : ∀ start, Answers (methods.toText start) fun s => .matched (.text (rt.slice start s.current))

namespace Runtime

def methods (rt : Runtime ω π) : Methods ω π where
  literal value _ ignoreCase s o s' :=
    ∃ q, rt.literal value ignoreCase s.current o q ∧ s' = { s with current := q }
  pattern initializer _ inverted s o s' :=
    ∃ q, rt.pattern initializer inverted s.current o q ∧ s' = { s with current := q }
  any s o s' := ∃ q, rt.any s.current o q ∧ s' = { s with current := q }
  fail _ s o s' := o = .failed ∧ s' = s
  newArray items s o s' := o = .matched (.list items) ∧ s' = s
  toText start s o s' := o = .matched (.text (rt.slice start s.current)) ∧ s' = s

theorem methods_implement (rt : Runtime ω π) : rt.methods.Implement rt where
  literal _ _ _ _ _ _ := Iff.rfl
  pattern _ _ _ _ _ _ := Iff.rfl
  any _ _ _ := Iff.rfl
  fail _ _ _ _ := Iff.rfl
  newArray _ _ _ _ := Iff.rfl
  toText _ _ _ _ := Iff.rfl

end Runtime

structure Machine (ω π : Type) extends Shared π where
  values : Nat → Outcome ω
  positions : Nat → π

inductive Exit where
  | done
  | left

abbrev Calls (ω π : Type) := String → Shared π → Outcome ω → Shared π → Prop

namespace Machine

def setValue (m : Machine ω π) (slot : Nat) (o : Outcome ω) : Machine ω π :=
  { m with values := Function.update m.values slot o }

def savePosition (m : Machine ω π) (position : Nat) : Machine ω π :=
  { m with positions := Function.update m.positions position m.current }

def goTo (m : Machine ω π) (p : π) : Machine ω π :=
  { m with current := p }

def Holds (m : Machine ω π) (slots : List Nat) (ds : List (Datum ω)) : Prop :=
  List.Forall₂ (fun slot d => m.values slot = .matched d) slots ds

end Machine

structure Context (ω π : Type) where
  runtime : Runtime ω π
  methods : Methods ω π
  code : Registries
  call : Calls ω π

def BoundIs (c : Context ω π) (m : Machine ω π) : Bound → Int → Prop
  -- beyond the greatest int a literal does not compile
  | .count n, k => n.toNat ≤ maxInt ∧ k = n.toNat
  | .slot slot, k => ∃ d, m.values slot = .matched d ∧ c.runtime.number d = some k

def ValueIs (c : Context ω π) (m : Machine ω π) : Value → Outcome ω → Shared π → Prop
  | .failed, o, s => o = .failed ∧ s = m.toShared
  | .null, o, s => o = .matched .null ∧ s = m.toShared
  | .array slots, o, s => ∃ ds, m.Holds slots ds ∧ c.methods.newArray ds m.toShared o s
  | .textFrom position, o, s => c.methods.toText (m.positions position) m.toShared o s
  | .callRule name, o, s => c.call name m.toShared o s
  | .matchLiteral value expected ignoreCase, o, s =>
    ∃ e, c.code.expected.values.get? expected = some e ∧
      c.methods.literal value e ignoreCase m.toShared o s
  | .matchClass pattern expected inverted, o, s =>
    ∃ initializer e, c.code.patterns.values.get? pattern = some initializer ∧
      c.code.expected.values.get? expected = some e ∧
      c.methods.pattern initializer e inverted m.toShared o s
  | .matchAny, o, s => c.methods.any m.toShared o s
  | .reportFailure expected, o, s =>
    ∃ e, c.code.expected.values.get? expected = some e ∧ c.methods.fail e m.toShared o s
  | .callAction index arguments, o, s =>
    ∃ method ds d, (c.code.userCode.methods .action).get? index = some method ∧
      m.Holds (arguments.map (·.slot)) ds ∧ c.runtime.action method ds m.mark m.current d ∧
      o = .matched d ∧ s = m.toShared

def TestIs (c : Context ω π) (m : Machine ω π) : Test → Bool → Prop
  | .failed slot, b => b = (m.values slot).isFailed
  | .matched slot, b => b = !(m.values slot).isFailed
  | .atLeast slot bound, b => ∃ items n, m.values slot = .matched (.list items) ∧
      BoundIs c m bound n ∧ (b = true ↔ n ≤ items.length)
  | .fewer slot bound, b => ∃ items n, m.values slot = .matched (.list items) ∧
      BoundIs c m bound n ∧ (b = true ↔ (items.length : Int) < n)
  | .holds isNegative index arguments, b =>
    ∃ method ds, (c.code.userCode.methods .predicate).get? index = some method ∧
      m.Holds (arguments.map (·.slot)) ds ∧ c.runtime.predicate method ds m.current (b ^^ isNegative)

def StepRuns (c : Context ω π) (m : Machine ω π) : Step → Exit → Machine ω π → Prop
  | .assign slot value, x, m' => x = .done ∧
      ∃ o s, ValueIs c m value o s ∧ m' = { m.setValue slot o with toShared := s }
  | .save position, x, m' => x = .done ∧ m' = m.savePosition position
  | .restore position, x, m' => x = .done ∧ m' = m.goTo (m.positions position)
  | .mark position, x, m' => x = .done ∧ m' = { m with mark := m.positions position }
  | .silence, x, m' => x = .done ∧ m' = { m with silent := m.silent + 1 }
  | .unsilence, x, m' => x = .done ∧ m' = { m with silent := m.silent - 1 }
  | .append list item, x, m' => x = .done ∧ ∃ items d, m.values list = .matched (.list items) ∧
      m.values item = .matched d ∧ m' = m.setValue list (.matched (.list (items ++ [d])))
  | .leave, x, m' => x = .left ∧ m' = m

inductive Loop (body : Machine ω π → Exit → Machine ω π → Prop) :
    Machine ω π → Machine ω π → Prop
  | leave {m m' : Machine ω π} : body m .left m' → Loop body m m'
  | again {m u m' : Machine ω π} : body m .done u → Loop body u m' → Loop body m m'

mutual

def InstrRuns (c : Context ω π) : Instr → Machine ω π → Exit → Machine ω π → Prop
  | .step s, m, x, m' => StepRuns c m s x m'
  | .brief test s, m, x, m' => (TestIs c m test true ∧ StepRuns c m s x m') ∨
      (TestIs c m test false ∧ x = .done ∧ m' = m)
  | .ifThen test body, m, x, m' => (TestIs c m test true ∧ Runs c body m x m') ∨
      (TestIs c m test false ∧ x = .done ∧ m' = m)
  | .ifElse test body otherwise, m, x, m' => (TestIs c m test true ∧ Runs c body m x m') ∨
      (TestIs c m test false ∧ Runs c otherwise m x m')
  | .block kind body, m, x, m' => x = .done ∧
      if kind.repeats then Loop (fun u y u' => Runs c body u y u') m m'
      else ∃ y, Runs c body m y m'
  | .alternative _, m, x, m' => x = .done ∧ m' = m
  | .element _, m, x, m' => x = .done ∧ m' = m
  | .blank, m, x, m' => x = .done ∧ m' = m

def Runs (c : Context ω π) : List Instr → Machine ω π → Exit → Machine ω π → Prop
  | [], m, x, m' => x = .done ∧ m' = m
  | instr :: rest, m, x, m' => (x = .left ∧ InstrRuns c instr m .left m') ∨
      ∃ u, InstrRuns c instr m .done u ∧ Runs c rest u x m'

end

section Running

variable {c : Context ω π} {m m' : Machine ω π} {x : Exit} {rest : List Instr}

@[simp] theorem runs_nil : Runs c [] m x m' ↔ x = .done ∧ m' = m := Iff.rfl

theorem runs_cons {instr : Instr} : Runs c (instr :: rest) m x m' ↔
    (x = .left ∧ InstrRuns c instr m .left m') ∨
      ∃ u, InstrRuns c instr m .done u ∧ Runs c rest u x m' := Iff.rfl

theorem runs_append {code : List Instr} : Runs c (code ++ rest) m x m' ↔
    (x = .left ∧ Runs c code m .left m') ∨ ∃ u, Runs c code m .done u ∧ Runs c rest u x m' := by
  induction code generalizing m with
  | nil => simp
  | cons instr code ih =>
    rw [List.cons_append,runs_cons]
    simp only [ih,runs_cons,reduceCtorEq,true_and,false_and,false_or]
    constructor
    · rintro (⟨rfl,here⟩ | ⟨u,first,⟨rfl,inner⟩ | ⟨v,inner,behind⟩⟩)
      · exact .inl ⟨rfl,.inl here⟩
      · exact .inl ⟨rfl,.inr ⟨u,first,inner⟩⟩
      · exact .inr ⟨v,⟨u,first,inner⟩,behind⟩
    · rintro (⟨rfl,here | ⟨u,first,inner⟩⟩ | ⟨v,⟨u,first,inner⟩,behind⟩)
      · exact .inl ⟨rfl,here⟩
      · exact .inr ⟨u,first,.inl ⟨rfl,inner⟩⟩
      · exact .inr ⟨u,first,.inr ⟨v,inner,behind⟩⟩

/-- An instruction that never leaves. -/
private theorem runs_cons_done {instr : Instr} {after : Machine ω π → Prop}
    (only : ∀ y v, InstrRuns c instr m y v ↔ y = .done ∧ after v) :
    Runs c (instr :: rest) m x m' ↔ ∃ u, after u ∧ Runs c rest u x m' := by
  simp [runs_cons,only]

/-- An instruction that never leaves and ends in one state only. -/
private theorem runs_cons_of {instr : Instr} {u : Machine ω π}
    (only : ∀ y v, InstrRuns c instr m y v ↔ y = .done ∧ v = u) :
    Runs c (instr :: rest) m x m' ↔ Runs c rest u x m' := by
  rw [runs_cons_done only]
  simp

@[simp] theorem runs_save {position : Nat} : Runs c (.step (.save position) :: rest) m x m' ↔
    Runs c rest (m.savePosition position) x m' :=
  runs_cons_of fun _ _ => Iff.rfl

@[simp] theorem runs_restore {position : Nat} : Runs c (.step (.restore position) :: rest) m x m' ↔
    Runs c rest (m.goTo (m.positions position)) x m' :=
  runs_cons_of fun _ _ => Iff.rfl

@[simp] theorem runs_mark {position : Nat} : Runs c (.step (.mark position) :: rest) m x m' ↔
    Runs c rest { m with mark := m.positions position } x m' :=
  runs_cons_of fun _ _ => Iff.rfl

@[simp] theorem runs_silence : Runs c (.step .silence :: rest) m x m' ↔
    Runs c rest { m with silent := m.silent + 1 } x m' :=
  runs_cons_of fun _ _ => Iff.rfl

@[simp] theorem runs_unsilence : Runs c (.step .unsilence :: rest) m x m' ↔
    Runs c rest { m with silent := m.silent - 1 } x m' :=
  runs_cons_of fun _ _ => Iff.rfl

@[simp] theorem runs_blank : Runs c (.blank :: rest) m x m' ↔ Runs c rest m x m' :=
  runs_cons_of fun _ _ => Iff.rfl

@[simp] theorem runs_alternative {n : Nat} :
    Runs c (.alternative n :: rest) m x m' ↔ Runs c rest m x m' :=
  runs_cons_of fun _ _ => Iff.rfl

@[simp] theorem runs_element {n : Nat} :
    Runs c (.element n :: rest) m x m' ↔ Runs c rest m x m' :=
  runs_cons_of fun _ _ => Iff.rfl

@[simp] theorem runs_leave : Runs c (.step .leave :: rest) m x m' ↔ x = .left ∧ m' = m := by
  have only (y : Exit) (v : Machine ω π) : InstrRuns c (.step .leave) m y v ↔ y = .left ∧ v = m :=
    Iff.rfl
  simp [runs_cons,only]

theorem runs_assign {slot : Nat} {value : Value} :
    Runs c (.step (.assign slot value) :: rest) m x m' ↔
      ∃ o s, ValueIs c m value o s ∧ Runs c rest { m.setValue slot o with toShared := s } x m' := by
  rw [runs_cons_done fun _ _ => Iff.rfl]
  constructor
  · rintro ⟨u,⟨o,s,given,rfl⟩,behind⟩
    exact ⟨o,s,given,behind⟩
  · rintro ⟨o,s,given,behind⟩
    exact ⟨_,⟨o,s,given,rfl⟩,behind⟩

@[simp] theorem runs_assign_failed {slot : Nat} :
    Runs c (.step (.assign slot .failed) :: rest) m x m' ↔
      Runs c rest (m.setValue slot .failed) x m' := by
  simp only [runs_assign,ValueIs,and_assoc,exists_and_left,exists_eq_left]
  rfl

theorem runs_assign_empty (implements : c.methods.Implement c.runtime) {slot : Nat} :
    Runs c (.step (.assign slot (.array [])) :: rest) m x m' ↔
      Runs c rest (m.setValue slot (.matched (.list []))) x m' := by
  simp only [runs_assign,ValueIs,Machine.Holds,List.forall₂_nil_left_iff,exists_eq_left,
    implements.newArray _ _ _ _,and_assoc,exists_and_left]
  rfl

theorem runs_append_step {list item : Nat} :
    Runs c (.step (.append list item) :: rest) m x m' ↔ ∃ items d,
      m.values list = .matched (.list items) ∧ m.values item = .matched d ∧
      Runs c rest (m.setValue list (.matched (.list (items ++ [d])))) x m' := by
  rw [runs_cons_done fun _ _ => Iff.rfl]
  constructor
  · rintro ⟨u,⟨items,d,listed,found,rfl⟩,behind⟩
    exact ⟨items,d,listed,found,behind⟩
  · rintro ⟨items,d,listed,found,behind⟩
    exact ⟨_,⟨items,d,listed,found,rfl⟩,behind⟩

/-- A test in front of code: the code runs first if the test comes out true. -/
theorem runs_ifThen {test : Test} {body : List Instr} :
    Runs c (.ifThen test body :: rest) m x m' ↔
      (TestIs c m test true ∧ Runs c (body ++ rest) m x m') ∨
        (TestIs c m test false ∧ Runs c rest m x m') := by
  have here (y : Exit) (v : Machine ω π) : InstrRuns c (.ifThen test body) m y v ↔
      (TestIs c m test true ∧ Runs c body m y v) ∨ (TestIs c m test false ∧ y = .done ∧ v = m) :=
    Iff.rfl
  simp only [runs_cons,here,runs_append,reduceCtorEq,false_and,and_false,or_false,true_and]
  constructor
  · rintro (⟨rfl,yes,left⟩ | ⟨u,⟨yes,inner⟩ | ⟨no,rfl⟩,behind⟩)
    · exact .inl ⟨yes,.inl ⟨rfl,left⟩⟩
    · exact .inl ⟨yes,.inr ⟨u,inner,behind⟩⟩
    · exact .inr ⟨no,behind⟩
  · rintro (⟨yes,⟨rfl,left⟩ | ⟨u,inner,behind⟩⟩ | ⟨no,behind⟩)
    · exact .inl ⟨rfl,yes,left⟩
    · exact .inr ⟨u,.inl ⟨yes,inner⟩,behind⟩
    · exact .inr ⟨m,.inr ⟨no,rfl⟩,behind⟩

theorem runs_brief {test : Test} {s : Step} :
    Runs c (.brief test s :: rest) m x m' ↔ Runs c (.ifThen test [.step s] :: rest) m x m' := by
  have step (y : Exit) (u : Machine ω π) : InstrRuns c (.step s) m y u ↔ StepRuns c m s y u :=
    Iff.rfl
  have single (y : Exit) (u : Machine ω π) : Runs c [.step s] m y u ↔ StepRuns c m s y u := by
    simp only [runs_cons,step,runs_nil]
    cases y <;> simp
  have same (y : Exit) (u : Machine ω π) :
      InstrRuns c (.brief test s) m y u ↔ InstrRuns c (.ifThen test [.step s]) m y u := by
    change _ ↔ (_ ∧ Runs c [.step s] m y u) ∨ _
    rw [single]
    rfl
  simp only [runs_cons,same]

theorem runs_ifElse {test : Test} {body otherwise : List Instr} :
    Runs c (.ifElse test body otherwise :: rest) m x m' ↔
      (TestIs c m test true ∧ Runs c (body ++ rest) m x m') ∨
        (TestIs c m test false ∧ Runs c (otherwise ++ rest) m x m') := by
  have here (y : Exit) (v : Machine ω π) : InstrRuns c (.ifElse test body otherwise) m y v ↔
      (TestIs c m test true ∧ Runs c body m y v) ∨ (TestIs c m test false ∧ Runs c otherwise m y v) :=
    Iff.rfl
  simp only [runs_cons,here,runs_append]
  constructor
  · rintro (⟨rfl,⟨yes,left⟩ | ⟨no,left⟩⟩ | ⟨u,⟨yes,inner⟩ | ⟨no,inner⟩,behind⟩)
    · exact .inl ⟨yes,.inl ⟨rfl,left⟩⟩
    · exact .inr ⟨no,.inl ⟨rfl,left⟩⟩
    · exact .inl ⟨yes,.inr ⟨u,inner,behind⟩⟩
    · exact .inr ⟨no,.inr ⟨u,inner,behind⟩⟩
  · rintro (⟨yes,⟨rfl,left⟩ | ⟨u,inner,behind⟩⟩ | ⟨no,⟨rfl,left⟩ | ⟨u,inner,behind⟩⟩)
    · exact .inl ⟨rfl,.inl ⟨yes,left⟩⟩
    · exact .inr ⟨u,.inl ⟨yes,inner⟩,behind⟩
    · exact .inl ⟨rfl,.inr ⟨no,left⟩⟩
    · exact .inr ⟨u,.inr ⟨no,inner⟩,behind⟩

@[simp] theorem runs_ifFailed {slot : Nat} {body : List Instr} :
    Runs c (.ifThen (.failed slot) body :: rest) m x m' ↔
      Runs c (if (m.values slot).isFailed then body ++ rest else rest) m x m' := by
  cases found : (m.values slot).isFailed <;> simp [runs_ifThen,TestIs,found]

@[simp] theorem runs_ifMatched {slot : Nat} {body : List Instr} :
    Runs c (.ifThen (.matched slot) body :: rest) m x m' ↔
      Runs c (if (m.values slot).isFailed then rest else body ++ rest) m x m' := by
  cases found : (m.values slot).isFailed <;> simp [runs_ifThen,TestIs,found]

@[simp] theorem runs_elseMatched {slot : Nat} {body otherwise : List Instr} :
    Runs c (.ifElse (.matched slot) body otherwise :: rest) m x m' ↔
      Runs c (if (m.values slot).isFailed then otherwise ++ rest else body ++ rest) m x m' := by
  cases found : (m.values slot).isFailed <;> simp [runs_ifElse,TestIs,found]

/-- A block that runs once: however its body ends, the code behind it goes on. -/
theorem runs_block {kind : BlockKind} {body : List Instr} (once : kind.repeats = false) :
    Runs c (.block kind body :: rest) m x m' ↔
      ∃ y u, Runs c body m y u ∧ Runs c rest u x m' := by
  have here (y : Exit) (v : Machine ω π) :
      InstrRuns c (.block kind body) m y v ↔ y = .done ∧ ∃ z, Runs c body m z v := by
    change _ ∧ (if kind.repeats then _ else _) ↔ _
    simp only [once,Bool.false_eq_true,if_false]
  rw [runs_cons_done here]
  constructor
  · rintro ⟨u,⟨y,inner⟩,behind⟩
    exact ⟨y,u,inner,behind⟩
  · rintro ⟨y,u,inner,behind⟩
    exact ⟨u,⟨y,inner⟩,behind⟩

theorem runs_loop {body : List Instr} : Runs c (.block .range body :: rest) m x m' ↔
    ∃ u, Loop (Runs c body) m u ∧ Runs c rest u x m' :=
  runs_cons_done fun _ _ => Iff.rfl

end Running

structure Routine where
  name : String
  values : List Nat
  positions : List Nat
  body : List Instr
  result : Nat

/-- Routines called by name, with calls nested less than `depth` deep. A called rule starts with
locals of its own, whatever they hold; its outcome is that of the local that it returns. -/
def callWithin (rt : Runtime ω π) (methods : Methods ω π) (code : Registries)
    (routines : List Routine) : (depth : Nat) → Calls ω π
  | 0, _, _, _, _ => False
  | depth + 1, name, s, o, s' => ∃ routine m m',
      (routines.find? fun r => r.name == name) = some routine ∧ m.toShared = s ∧
      Runs ⟨rt,methods,code,callWithin rt methods code routines depth⟩ routine.body m .done m' ∧
      m'.values routine.result = o ∧ m'.toShared = s'

def calls (rt : Runtime ω π) (methods : Methods ω π) (code : Registries)
    (routines : List Routine) : Calls ω π :=
  fun name s o s' => ∃ depth, callWithin rt methods code routines depth name s o s'

end Semantics

def Subroutine.routine (sub : Subroutine) : Semantics.Routine :=
  ⟨sub.name,List.range sub.values.declared,List.range sub.positions.declared,sub.body,0⟩

end PegCompiler
