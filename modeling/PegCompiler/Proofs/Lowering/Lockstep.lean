import PegCompiler.Proofs.Lowering.References

/-! Two runs of lowering side by side, each with registries of its own. They take the same locals,
fail with the same error, and emit the same code but for the numbers of constants and methods, which
stand for the same resources in both. Nothing else of the registries gets into the code. -/
namespace PegCompiler

structure Renumbering where
  pattern : Nat → Nat
  expected : Nat → Nat
  method : MethodKind → Nat → Nat

namespace Renumbering

def target (numbers : Renumbering) : Alias → Alias
  | .pattern index => .pattern (numbers.pattern index)
  | .expected index => .expected (numbers.expected index)
  | .method kind index => .method kind (numbers.method kind index)

def Joins (numbers : Renumbering) (p q : Registries) : Prop :=
  ∀ {first second resource}, p.lookup first = some resource → q.lookup second = some resource →
    numbers.target first = second

end Renumbering

@[simp] def Value.renumber (numbers : Renumbering) : Value → Value
  | .matchLiteral value expected ignoreCase =>
    .matchLiteral value (numbers.expected expected) ignoreCase
  | .matchClass pattern expected inverted =>
    .matchClass (numbers.pattern pattern) (numbers.expected expected) inverted
  | .reportFailure expected => .reportFailure (numbers.expected expected)
  | .callAction method arguments => .callAction (numbers.method .action method) arguments
  | value => value

@[simp] def Test.renumber (numbers : Renumbering) : Test → Test
  | .holds isNegative method arguments =>
    .holds isNegative (numbers.method .predicate method) arguments
  | test => test

@[simp] def Step.renumber (numbers : Renumbering) : Step → Step
  | .assign slot value => .assign slot (value.renumber numbers)
  | step => step

namespace Instr

mutual

@[simp] def renumber (numbers : Renumbering) : Instr → Instr
  | .step s => .step (s.renumber numbers)
  | .brief test s => .brief (test.renumber numbers) (s.renumber numbers)
  | .ifThen test body => .ifThen (test.renumber numbers) (renumberAll numbers body)
  | .ifElse test body otherwise =>
    .ifElse (test.renumber numbers) (renumberAll numbers body) (renumberAll numbers otherwise)
  | .block kind body => .block kind (renumberAll numbers body)
  | .alternative n => .alternative n
  | .element n => .element n
  | .blank => .blank

@[simp] def renumberAll (numbers : Renumbering) : List Instr → List Instr
  | [] => []
  | instr :: rest => instr.renumber numbers :: renumberAll numbers rest

end

@[simp] theorem renumberAll_append (numbers : Renumbering) (first second : List Instr) :
    renumberAll numbers (first ++ second) =
      renumberAll numbers first ++ renumberAll numbers second := by
  induction first with
  | nil => rfl
  | cons instr rest ih => simp [ih]

end Instr

namespace Lowering

variable {α β : Type} {cfg : Setting}

structure Parallel (s t : State) : Prop where
  values : s.values = t.values
  positions : s.positions = t.positions

/-- Either both runs fail with one error, or both end in parallel states with results that are
related wherever the registries grow to. -/
inductive Matches (post : Registries → Registries → α → α → Prop) (s t : State) :
    Except GenerateError α × State → Except GenerateError α × State → Prop
  | ok {a b s' t'} : Parallel s' t' → s.registries.Within s'.registries →
      t.registries.Within t'.registries →
      (∀ p q, s'.registries.Within p → t'.registries.Within q → post p q a b) →
      Matches post s t (.ok a,s') (.ok b,t')
  | error {error s' t'} : Matches post s t (.error error,s') (.error error,t')

def InStep (x y : Lower α) (post : Registries → Registries → α → α → Prop) : Prop :=
  ∀ s t, Parallel s t → Matches post s t (outcome x s) (outcome y t)

variable {x y : Lower α} {f g : α → Lower β} {post : Registries → Registries → β → β → Prop}

theorem InStep.pure {a b : β} (done : ∀ p q, post p q a b) : InStep (Pure.pure a) (Pure.pure b) post :=
  fun _ _ parallel => .ok parallel (.refl _) (.refl _) fun p q _ _ => done p q

/-- What is known of the first results is known wherever the second part takes the registries. -/
theorem InStep.bind {middle : Registries → Registries → α → α → Prop} (first : InStep x y middle)
    (next : ∀ a b, (∃ p q, middle p q a b) →
      InStep (f a) (g b) fun p q c d => middle p q a b → post p q c d) :
    InStep (x >>= f) (y >>= g) post := by
  intro s t parallel
  have before := first s t parallel
  rw [outcome_bind,outcome_bind]
  generalize outcome x s = run, outcome y t = run' at before ⊢
  cases before with
  | error => exact .error
  | @ok a b s' t' parallel' within within' related =>
    have after := next a b ⟨_,_,related _ _ (.refl _) (.refl _)⟩ s' t' parallel'
    dsimp only
    generalize outcome (f a) s' = run, outcome (g b) t' = run' at after ⊢
    cases after with
    | error => exact .error
    | ok parallel'' grown grown' last =>
      refine .ok parallel'' (within.trans grown) (within'.trans grown') fun p q inside inside' => ?_
      exact last p q inside inside' (related p q (grown.trans inside) (grown'.trans inside'))

theorem InStep.imp {post post' : Registries → Registries → α → α → Prop} (steps : InStep x y post)
    (weaker : ∀ p q a b, post p q a b → post' p q a b) : InStep x y post' := by
  intro s t parallel
  have run := steps s t parallel
  generalize outcome x s = first, outcome y t = second at run ⊢
  cases run with
  | error => exact .error
  | ok parallel' grown grown' last =>
    exact .ok parallel' grown grown' fun p q inside inside' =>
      weaker p q _ _ (last p q inside inside')

/-! Operations that have nothing to do with the registries. -/

def Blind (x : Lower α) (post : α → Prop) : Prop :=
  ∀ s registries, outcome x { s with registries } =
    ((outcome x s).1,{ (outcome x s).2 with registries }) ∧ ∀ a, (outcome x s).1 = .ok a → post a

theorem Blind.inStep {post : α → Prop} (blind : Blind x post) :
    InStep x x fun _ _ a b => b = a ∧ post a := by
  intro s t parallel
  have other : t = { s with registries := t.registries } := by
    cases s
    cases t
    simp only [State.mk.injEq,and_true]
    exact ⟨parallel.values.symm,parallel.positions.symm⟩
  have kept : (outcome x s).2.registries = s.registries :=
    congrArg (fun run => run.2.registries) (blind s s.registries).1
  obtain ⟨same,known⟩ := blind s t.registries
  rw [← other] at same
  rw [same]
  cases run : outcome x s with
  | mk result s' =>
    rw [run] at kept known
    cases result with
    | error error => exact .error
    | ok a =>
      have within : s.registries.Within s'.registries := kept ▸ .refl _
      exact .ok ⟨rfl,rfl⟩ within (.refl _) fun p q _ _ => ⟨rfl,known a rfl⟩

theorem Blind.then {known : α → Prop} (blind : Blind x known)
    (next : ∀ a, known a → InStep (f a) (g a) post) : InStep (x >>= f) (x >>= g) post := by
  apply blind.inStep.bind
  intro a b related
  obtain ⟨-,-,rfl,held⟩ := related
  exact (next b held).imp fun p q c d last _ => last

theorem Blind.pure {known : α → Prop} {a : α} (held : known a) : Blind (Pure.pure a) known :=
  fun _ _ => ⟨rfl,fun _ same => Except.ok.inj same ▸ held⟩

theorem Blind.bind {known : α → Prop} {last : β → Prop} (first : Blind x known)
    (next : ∀ a, known a → Blind (f a) last) : Blind (x >>= f) last := by
  intro s registries
  obtain ⟨same,held⟩ := first s registries
  rw [outcome_bind,outcome_bind,same]
  cases run : outcome x s with
  | mk result s' =>
    rw [run] at held
    cases result with
    | error error => exact ⟨rfl,nofun⟩
    | ok a => exact next a (held a rfl) s' registries

/-- An operation on the locals alone. -/
private theorem blind_locals {γ : Type} {read : State → Except Fault γ} {write : State → γ → Lower α}
    {known : α → Prop} (reads : ∀ s registries, read { s with registries } = read s)
    (writes : ∀ c s registries, outcome (write { s with registries } c) { s with registries } =
      ((outcome (write s c) s).1,{ (outcome (write s c) s).2 with registries }) ∧
      ∀ a, (outcome (write s c) s).1 = .ok a → known a) :
    Blind (get >>= fun s => ofFault (read s) >>= write s) known := by
  intro s registries
  simp only [outcome_bind,outcome_get,reads]
  cases read s with
  | error fault => exact ⟨rfl,nofun⟩
  | ok c => exact writes c s registries

def Plain (instr : Instr) : Prop :=
  ∀ numbers, instr.renumber numbers = instr

private theorem blind_popValue : Blind popValue fun _ => True :=
  blind_locals (fun _ _ => rfl) fun _ _ _ => ⟨rfl,fun _ _ => trivial⟩

private theorem blind_popValues (n : Nat) : Blind (popValues n) fun _ => True :=
  blind_locals (fun _ _ => rfl) fun _ _ _ => ⟨rfl,fun _ _ => trivial⟩

private theorem blind_topValue : Blind topValue fun _ => True := by
  have ended : topValue = get >>= fun s => ofFault s.values.top >>= Pure.pure := by
    simp only [topValue,bind_pure]
  rw [ended]
  exact blind_locals (fun _ _ => rfl) fun _ _ _ => ⟨rfl,fun _ _ => trivial⟩

private theorem blind_popPosition : Blind popPosition fun _ => True :=
  blind_locals (fun _ _ => rfl) fun _ _ _ => ⟨rfl,fun _ _ => trivial⟩

private theorem blind_savePosition : Blind savePosition Plain :=
  fun _ _ => ⟨rfl,fun _ same => Except.ok.inj same ▸ fun _ => rfl⟩

private theorem blind_reclaimPosition : Blind reclaimPosition fun _ => True :=
  fun _ _ => ⟨rfl,fun _ _ => trivial⟩

private theorem blind_restorePosition : Blind restorePosition Plain :=
  blind_popPosition.bind fun _ _ => .pure fun _ => rfl

private theorem blind_markPosition : Blind markPosition Plain :=
  blind_popPosition.bind fun _ _ => .pure fun _ => rfl

private theorem blind_expectBase (kind : Kind) (base : Nat) :
    Blind (expectBase kind base) fun _ => True := by
  intro s registries
  simp only [expectBase,outcome_bind,outcome_get]
  split <;> exact ⟨rfl,fun _ _ => trivial⟩

private theorem blind_typeOf (cfg : Setting) (kind : Kind) (site : Site) :
    Blind (typeOf cfg kind site) fun _ => True := by
  unfold typeOf
  cases cfg.types.node site.id with
  | none => exact fun _ _ => ⟨rfl,fun _ _ => trivial⟩
  | some ty => exact .pure trivial

private theorem blind_boundOf (scope : Scope) (location : Location) (boundary : Boundary) :
    Blind (boundOf scope location boundary) fun _ => True := by
  cases boundary with
  | count n => exact .pure trivial
  | label name =>
    rw [boundOf]
    cases scope.find name with
    | none => exact fun _ _ => ⟨rfl,fun _ _ => trivial⟩
    | some binding => exact .pure trivial

private theorem blind_boundsOf (scope : Scope) (location : Location) (boundary : Option Boundary) :
    Blind (boundary.mapM (boundOf scope location)) fun _ => True := by
  cases boundary with
  | none => exact .pure trivial
  | some limit =>
    rw [Option.mapM_some,map_eq_pure_bind]
    exact (blind_boundOf scope location limit).bind fun _ _ => .pure trivial

def PlainAll (code : List Instr) : Prop :=
  ∀ numbers, Instr.renumberAll numbers code = code

private theorem blind_abandon (index first : Nat) : Blind (abandon index first) PlainAll := by
  unfold abandon
  split
  · exact .pure fun _ => rfl
  · refine blind_restorePosition.bind fun restored plain => blind_reclaimPosition.bind fun _ _ => ?_
    refine .pure fun numbers => ?_
    simp [plain numbers]

/-- A position that is saved, or given back, on a condition. -/
private theorem Blind.when {x : Lower Instr} (blind : Blind x Plain) (condition : Bool)
    {f g : List Instr → Lower β} (next : ∀ code, PlainAll code → InStep (f code) (g code) post) :
    InStep (if condition then (do let code ← Pure.pure [← x]; f code)
        else (do let code ← Pure.pure []; f code))
      (if condition then (do let code ← Pure.pure [← x]; g code)
        else (do let code ← Pure.pure []; g code)) post := by
  cases condition with
  | false => exact next [] fun _ => rfl
  | true => exact blind.then fun instr plain => next [instr] fun numbers => by simp [plain numbers]

/-! Values that are put into locals. -/

def SameValue (p q : Registries) (first second : Value) : Prop :=
  ∀ numbers : Renumbering, numbers.Joins p q → second = first.renumber numbers

def SameCode (p q : Registries) (first second : List Instr) : Prop :=
  ∀ numbers : Renumbering, numbers.Joins p q → second = Instr.renumberAll numbers first

private def takeSlot : Lower Nat := do
  let s ← get
  set { s with values := s.values.reclaim }
  return s.values.occupied

private def retakeSlot : Lower Nat := do
  let s ← get
  let (slot,values) ← ofFault s.values.replace
  set { s with values }
  return slot

private theorem blind_takeSlot : Blind takeSlot fun _ => True := fun _ _ => ⟨rfl,fun _ _ => trivial⟩

private theorem blind_retakeSlot : Blind retakeSlot fun _ => True :=
  blind_locals (fun _ _ => rfl) fun _ _ _ => ⟨rfl,fun _ _ => trivial⟩

private theorem assignNext_then {first second : Value} {f g : Step → Lower β}
    (next : ∀ slot, InStep (f (.assign slot first)) (g (.assign slot second)) post) :
    InStep (assignNext first >>= f) (assignNext second >>= g) post := by
  have split (value : Value) :
      assignNext value = takeSlot >>= fun slot => Pure.pure (.assign slot value) := rfl
  simp only [split,bind_assoc,pure_bind]
  exact blind_takeSlot.then fun slot _ => next slot

private theorem pushValue_then {first second : Value} {f g : Instr → Lower β}
    (next : ∀ slot, InStep (f (.step (.assign slot first))) (g (.step (.assign slot second))) post) :
    InStep (pushValue first >>= f) (pushValue second >>= g) post := by
  simp only [pushValue,bind_assoc,pure_bind]
  exact assignNext_then next

private theorem replaceValue_then {first second : Value} {f g : Instr → Lower β}
    (next : ∀ slot, InStep (f (.step (.assign slot first))) (g (.step (.assign slot second))) post) :
    InStep (replaceValue first >>= f) (replaceValue second >>= g) post := by
  have split (value : Value) :
      replaceValue value = retakeSlot >>= fun slot => Pure.pure (.step (.assign slot value)) := by
    simp only [replaceValue,retakeSlot,bind_assoc,pure_bind]
  simp only [split,bind_assoc,pure_bind]
  exact blind_retakeSlot.then fun slot _ => next slot

/-! What is registered. -/

def Names (p q : Registries) (first second : Alias) : Prop :=
  ∃ resource, p.lookup first = some resource ∧ q.lookup second = some resource

theorem lookup_within {p q : Registries} (grown : p.Within q) {target : Alias} {resource : Resource}
    (found : p.lookup target = some resource) : q.lookup target = some resource := by
  cases target with
  | pattern index =>
    obtain ⟨value,present,rfl⟩ := Option.map_eq_some_iff.mp found
    exact congrArg (Option.map _) (Interner.get?_of_prefix grown.patterns present)
  | expected index =>
    obtain ⟨value,present,rfl⟩ := Option.map_eq_some_iff.mp found
    exact congrArg (Option.map _) (Interner.get?_of_prefix grown.expected present)
  | method kind index =>
    obtain ⟨value,present,rfl⟩ := Option.map_eq_some_iff.mp found
    exact congrArg (Option.map _) (Interner.get?_of_prefix (grown.methods kind) present)

private theorem inStep_register {x : Lower Nat} (resource : Resource) {target : Nat → Alias}
    (run : ∀ s, ∃ index,
      outcome x s = (.ok index,{ s with registries := s.registries.register resource }) ∧
        (s.registries.register resource).lookup (target index) = some resource) :
    InStep x x fun p q first second => Names p q (target first) (target second) := by
  intro s t parallel
  obtain ⟨first,here,found⟩ := run s
  obtain ⟨second,there,found'⟩ := run t
  rw [here,there]
  refine .ok ⟨parallel.values,parallel.positions⟩ (s.registries.within_register resource)
    (t.registries.within_register resource) fun p q inside inside' => ?_
  exact ⟨resource,lookup_within inside found,lookup_within inside' found'⟩

private theorem inStep_addPattern (initializer : String) :
    InStep (addPattern initializer) (addPattern initializer)
      fun p q first second => Names p q (.pattern first) (.pattern second) := by
  apply inStep_register (.pattern initializer)
  intro s
  exact ⟨_,rfl,congrArg (Option.map _) (Interner.get?_intern _ _)⟩

private theorem inStep_addExpected (initializer : String) :
    InStep (addExpected initializer) (addExpected initializer)
      fun p q first second => Names p q (.expected first) (.expected second) := by
  apply inStep_register (.expected initializer)
  intro s
  exact ⟨_,rfl,congrArg (Option.map _) (Interner.get?_intern _ _)⟩

private theorem inStep_addMethod (kind : MethodKind) (method : UserMethod) :
    InStep (addMethod kind method) (addMethod kind method)
      fun p q first second => Names p q (.method kind first) (.method kind second) := by
  apply inStep_register (.method kind method)
  intro s
  exact ⟨_,rfl,congrArg (Option.map _) (UserCode.get?_add _ _ _)⟩

section Joined

variable {p q : Registries} {numbers : Renumbering} {i j : Nat}

private theorem Names.pattern (names : Names p q (.pattern i) (.pattern j))
    (joins : numbers.Joins p q) : numbers.pattern i = j := by
  obtain ⟨resource,left,right⟩ := names
  exact Alias.pattern.inj (joins left right)

private theorem Names.expected (names : Names p q (.expected i) (.expected j))
    (joins : numbers.Joins p q) : numbers.expected i = j := by
  obtain ⟨resource,left,right⟩ := names
  exact Alias.expected.inj (joins left right)

private theorem Names.method {kind : MethodKind} (names : Names p q (.method kind i) (.method kind j))
    (joins : numbers.Joins p q) : numbers.method kind i = j := by
  obtain ⟨resource,left,right⟩ := names
  exact (Alias.method.inj (joins left right)).2

end Joined

/-! One lemma for each kind of node: around parts that run in step, it runs in step. -/

def Steady (x : Lower (List Instr × Scope)) : Prop :=
  InStep x x fun p q a b => SameCode p q a.1 b.1 ∧ b.2 = a.2

def SteadyCode (x : Lower (List Instr)) : Prop :=
  InStep x x SameCode

theorem Steady.then {x : Lower (List Instr × Scope)} {f g : List Instr × Scope → Lower β}
    (steady : Steady x) (next : ∀ code code' scope, InStep (f (code,scope)) (g (code',scope))
      fun p q c d => SameCode p q code code' → post p q c d) :
    InStep (x >>= f) (x >>= g) post := by
  apply InStep.bind steady
  intro ⟨code,scope⟩ ⟨code',scope'⟩ related
  obtain ⟨-,-,-,rfl⟩ := related
  exact (next code code' scope').imp fun p q c d last both => last both.1

theorem SteadyCode.then {x : Lower (List Instr)} {f g : List Instr → Lower β} (steady : SteadyCode x)
    (next : ∀ code code', InStep (f code) (g code')
      fun p q c d => SameCode p q code code' → post p q c d) :
    InStep (x >>= f) (x >>= g) post :=
  InStep.bind steady fun code code' _ => next code code'

theorem Steady.code {x : Lower (List Instr × Scope)} (steady : Steady x) :
    SteadyCode (Prod.fst <$> x) := by
  unfold SteadyCode
  rw [map_eq_pure_bind]
  exact steady.then fun _ _ _ => .pure fun _ _ same => same

/-- A node that leaves the labels as they were. -/
theorem SteadyCode.scoped {x : Lower (List Instr)} (steady : SteadyCode x) (scope : Scope) :
    Steady (do return (← x,scope)) :=
  steady.then fun _ _ => .pure fun _ _ same => ⟨same,rfl⟩

private theorem steady_pushValue {value : Value} (plain : ∀ numbers, value.renumber numbers = value) :
    SteadyCode (do return [← pushValue value]) := by
  refine pushValue_then fun slot => .pure fun p q numbers _ => ?_
  rw [Instr.renumberAll,Instr.renumber,Step.renumber,plain numbers,Instr.renumberAll]

private theorem steady_lowerLiteral (cfg : Setting) (value : String) (ignoreCase : Bool) :
    SteadyCode (lowerLiteral cfg value ignoreCase) := by
  simp only [lowerLiteral,ofFault_expected,pure_bind]
  refine (inStep_addExpected _).bind fun first second _ => pushValue_then fun slot => ?_
  refine .pure fun p q names numbers joins => ?_
  simp [names.expected joins]

private theorem steady_lowerClass (cfg : Setting) (parts : List ClassPart)
    (inverted ignoreCase : Bool) (rawText : String) :
    SteadyCode (lowerClass cfg parts inverted ignoreCase rawText) := by
  simp only [lowerClass,ofFault_expected,ofFault_pattern,pure_bind]
  refine (inStep_addPattern _).bind fun pattern pattern' _ => ?_
  refine (inStep_addExpected _).bind fun expected expected' _ => pushValue_then fun slot => ?_
  refine .pure fun p q described compiled numbers joins => ?_
  simp [described.expected joins,compiled.pattern joins]

private theorem steady_lowerPredicate (cfg : Setting) (isNegative : Bool) (code : String)
    (ns : Option String) (scope : Scope) : SteadyCode (lowerPredicate cfg isNegative code ns scope) := by
  simp only [lowerPredicate,arguments_eq,pure_bind]
  refine (inStep_addMethod _ _).bind fun method method' _ => pushValue_then fun slot => ?_
  refine replaceValue_then fun again => .pure fun p q names numbers joins => ?_
  simp [names.method joins]

private theorem steady_lowerNamed (cfg : Setting) (name : String)
    {body : Lower (List Instr × Scope)} (inner : Steady body) : Steady (lowerNamed cfg name body) := by
  simp only [lowerNamed,ofFault_expected,pure_bind]
  refine (inStep_addExpected _).bind fun expected expected' _ => inner.then fun code code' scope => ?_
  refine blind_topValue.then fun top _ => replaceValue_then fun slot => ?_
  refine .pure fun p q same names => ⟨fun numbers joins => ?_,rfl⟩
  simp [same numbers joins,names.expected joins]

private theorem steady_lowerText {body : Lower (List Instr)} (inner : SteadyCode body) :
    SteadyCode (lowerText body) := by
  refine blind_savePosition.then fun saved plain => inner.then fun code code' => ?_
  refine blind_popValue.then fun result _ => blind_popPosition.then fun start _ => ?_
  refine pushValue_then fun slot => .pure fun p q same numbers joins => ?_
  simp [same numbers joins,plain numbers]

private theorem steady_lowerOptional {body : Lower (List Instr)} (inner : SteadyCode body) :
    SteadyCode (lowerOptional body) := by
  refine inner.then fun code code' => blind_popValue.then fun result _ => ?_
  refine assignNext_then fun slot => .pure fun p q same numbers joins => ?_
  simp [same numbers joins]

private theorem steady_lowerLookahead (isNegative : Bool) {body : Lower (List Instr)}
    (inner : SteadyCode body) : SteadyCode (lowerLookahead isNegative body) := by
  refine blind_savePosition.then fun saved plain => inner.then fun code code' => ?_
  refine blind_restorePosition.then fun restored plain' => ?_
  cases isNegative with
  | false =>
    refine .pure fun p q same numbers joins => ?_
    simp [same numbers joins,plain numbers,plain' numbers]
  | true =>
    refine blind_popValue.then fun result _ => pushValue_then fun slot => ?_
    refine replaceValue_then fun again => .pure fun p q same numbers joins => ?_
    simp [same numbers joins,plain numbers,plain' numbers]

private theorem inStep_actionCall (cfg : Setting) (site : Site) (action : Action)
    (passed : List Passed) : InStep (actionCall cfg site action passed)
      (actionCall cfg site action passed) SameValue := by
  simp only [actionCall,cfg.imports.render_eq,ofFault,pure_bind]
  refine (blind_typeOf cfg _ site).then fun ty _ => (inStep_addMethod _ _).bind fun method method' _ => ?_
  refine .pure fun p q names numbers joins => ?_
  simp [names.method joins]

private theorem steady_lowerAction (cfg : Setting) (site : Site) (action : Action)
    {body : Lower (List Instr × Scope)} (inner : Steady body) :
    SteadyCode (lowerAction cfg site action body) := by
  simp only [lowerAction,arguments_eq,pure_bind]
  refine blind_savePosition.then fun saved plain => inner.then fun code code' scope => ?_
  refine (inStep_actionCall cfg site action _).bind fun call call' _ => ?_
  refine blind_topValue.then fun top _ => blind_markPosition.then fun marked plain' => ?_
  refine replaceValue_then fun slot => .pure fun p q called same numbers joins => ?_
  simp [same numbers joins,called numbers joins,plain numbers,plain' numbers]

private theorem steady_lowerRepeated (repetition : Repetition) (scope : Scope) (location : Location)
    {body : Lower (List Instr)} (inner : SteadyCode body) :
    SteadyCode (lowerRepeated repetition scope location body) := by
  have limits (list : Nat) (most : Option Bound) (numbers : Renumbering) :
      Instr.renumberAll numbers (most.toList.map fun bound => .brief (.atLeast list bound) .leave) =
        most.toList.map fun bound => .brief (.atLeast list bound) .leave := by
    cases most <;> simp
  simp only [lowerRepeated]
  refine (blind_boundOf scope location _).then fun least _ => ?_
  refine (blind_boundsOf scope location _).then fun most _ => ?_
  refine blind_savePosition.when _ fun saved plain => ?_
  refine pushValue_then fun slot => blind_topValue.then fun list _ => ?_
  refine inner.then fun code code' => blind_popValue.then fun item _ => ?_
  split
  · refine blind_restorePosition.when _ fun restored plain' => ?_
    refine replaceValue_then fun again => .pure fun p q same numbers joins => ?_
    simp [same numbers joins,plain numbers,plain' numbers,limits]
  · refine .pure fun p q same numbers joins => ?_
    simp [same numbers joins,plain numbers,limits]

private theorem steady_closeSequence (cfg : Setting) (caller : Option (Site × Action)) (count : Nat)
    (scope : Scope) : SteadyCode (closeSequence cfg caller count scope) := by
  refine (blind_popValues count).then fun slots _ => ?_
  cases caller with
  | some called =>
    simp only [arguments_eq,pure_bind]
    refine blind_markPosition.then fun marked plain => ?_
    refine (inStep_actionCall cfg _ _ _).bind fun call call' _ => ?_
    refine pushValue_then fun slot => .pure fun p q same numbers joins => ?_
    simp [same numbers joins,plain numbers]
  | none =>
    refine pushValue_then fun slot => ?_
    dsimp only
    split
    · exact blind_popPosition.then fun _ _ => .pure fun p q numbers joins => by simp
    · exact .pure fun p q numbers joins => by simp

private theorem steady_alternatives (cfg : Setting) {alternatives : List Expr}
    (all : ∀ e ∈ alternatives, ∀ base caller scope, Steady (lower cfg e base caller scope))
    (base n : Nat) (scope : Scope) : SteadyCode (lowerAlternatives cfg alternatives base n scope) := by
  induction alternatives generalizing n with
  | nil => exact .pure fun p q numbers joins => rfl
  | cons e rest ih =>
    have others := ih fun e member => all e (List.mem_cons_of_mem _ member)
    rw [lowerAlternatives]
    refine (all e List.mem_cons_self base none scope).then fun code code' _ => ?_
    dsimp only
    split
    · refine .pure fun p q same numbers joins => ?_
      simp [same numbers joins]
    · refine blind_popValue.then fun result _ => (others (n + 1)).then fun rest rest' => ?_
      refine .pure fun p q later same numbers joins => ?_
      simp [same numbers joins,later numbers joins]

private theorem steady_elements (cfg : Setting) {elements : List Expr}
    (all : ∀ e ∈ elements, ∀ base caller scope, Steady (lower cfg e base caller scope))
    (base index first : Nat) (scope : Scope) :
    Steady (lowerElements cfg elements base index first scope) := by
  induction elements generalizing index first scope with
  | nil => exact .pure fun p q => ⟨fun numbers joins => rfl,rfl⟩
  | cons e rest ih =>
    have others := ih fun e member => all e (List.mem_cons_of_mem _ member)
    rw [lowerElements]
    refine (all e List.mem_cons_self (base + index) none scope).then fun code code' inner => ?_
    refine blind_topValue.then fun top _ => (blind_abandon _ _).then fun onFail plain => ?_
    refine (others _ _ inner).then fun rest rest' outer => ?_
    refine .pure fun p q later same => ⟨fun numbers joins => ?_,rfl⟩
    simp [same numbers joins,later numbers joins,plain numbers]

/-- Lowering an expression runs in step with itself, wherever the registries start. -/
theorem lower_steady (cfg : Setting) (e : Expr) (base : Nat) (caller : Option (Site × Action))
    (scope : Scope) : Steady (lower cfg e base caller scope) := by
  induction e using Expr.induction generalizing base caller scope with
  | named site name body ih =>
    exact (blind_expectBase _ _).then fun _ _ => steady_lowerNamed cfg name (ih base none scope)
  | choice site alternatives ih =>
    rw [lower]
    refine (blind_expectBase _ _).then fun _ _ => ?_
    split
    · exact (steady_pushValue fun _ => rfl).scoped scope
    · refine (steady_alternatives cfg ih base 1 scope).then fun code code' => ?_
      refine .pure fun p q same => ⟨fun numbers joins => ?_,rfl⟩
      simp [same numbers joins]
  | action site act body ih =>
    rw [lower]
    refine (blind_expectBase _ _).then fun _ _ => ?_
    split
    · refine (ih base (some (site,act)) scope).then fun code code' _ => ?_
      exact .pure fun p q same => ⟨same,rfl⟩
    · exact (steady_lowerAction cfg site act (ih base none scope)).scoped scope
  | sequence site elements ih =>
    simp only [lower]
    refine (blind_expectBase _ _).then fun _ _ => blind_savePosition.when _ fun saved plain => ?_
    refine (steady_elements cfg ih base 0 base scope).then fun code code' inner => ?_
    refine (steady_closeSequence cfg caller _ inner).then fun close close' => ?_
    split
    · refine .pure fun p q closed same => ⟨fun numbers joins => ?_,rfl⟩
      simp [closed numbers joins,plain numbers]
    · refine .pure fun p q closed same => ⟨fun numbers joins => ?_,rfl⟩
      simp [closed numbers joins,same numbers joins,plain numbers]
  | labeled site label body ih =>
    refine (blind_expectBase _ _).then fun _ _ => (blind_typeOf cfg _ _).then fun ty _ => ?_
    refine (ih base none scope).then fun code code' _ => .pure fun p q same => ⟨same,rfl⟩
  | text site body ih =>
    exact (blind_expectBase _ _).then fun _ _ =>
      (steady_lowerText (ih base none scope).code).scoped scope
  | optional site body ih =>
    exact (blind_expectBase _ _).then fun _ _ =>
      (steady_lowerOptional (ih base none scope).code).scoped scope
  | repeated site repetition body ih =>
    exact (blind_expectBase _ _).then fun _ _ =>
      (steady_lowerRepeated repetition scope _ (ih (base + 1) none scope).code).scoped scope
  | lookahead site isNegative body ih =>
    exact (blind_expectBase _ _).then fun _ _ =>
      (steady_lowerLookahead isNegative (ih base none scope).code).scoped scope
  | predicate site isNegative code ns =>
    exact (blind_expectBase _ _).then fun _ _ =>
      (steady_lowerPredicate cfg isNegative code ns scope).scoped scope
  | ruleRef site name =>
    exact (blind_expectBase _ _).then fun _ _ => (steady_pushValue fun _ => rfl).scoped scope
  | literal site value ignoreCase =>
    exact (blind_expectBase _ _).then fun _ _ =>
      (steady_lowerLiteral cfg value ignoreCase).scoped scope
  | charClass site parts inverted ignoreCase rawText =>
    exact (blind_expectBase _ _).then fun _ _ =>
      (steady_lowerClass cfg parts inverted ignoreCase rawText).scoped scope
  | any site =>
    exact (blind_expectBase _ _).then fun _ _ => (steady_pushValue fun _ => rfl).scoped scope

end Lowering

end PegCompiler
