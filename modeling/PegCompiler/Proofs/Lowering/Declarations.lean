import PegCompiler.Proofs.Lowering.Framing

/-! Lowering declares what it uses. The number of declared locals is the most that were ever taken,
so a local is declared once it is taken. `Declares` says this of a computation and of the locals
that its result shows; it has a rule for every operation, and lowering is built from these. -/
namespace PegCompiler

namespace Instr

def locals (instr : Instr) : List Local := instr.accesses.map (·.target)

def localsAll (code : List Instr) : List Local := (accessesAll code).map (·.target)

section Locals

variable {test : Test} {s : Step} {code rest : List Instr} {instr : Instr}

private theorem targets_step (s : Step) : s.accesses.map (·.target) = s.reads ++ s.writes := by
  simp [Step.accesses,List.map_map,Function.comp_def,-Step.reads,-Step.writes]

private theorem targets_test (test : Test) : test.accesses.map (·.target) = test.reads := by
  simp [Test.accesses,List.map_map,Function.comp_def,-Test.reads]

@[simp,grind =] theorem locals_step : (step s).locals = s.reads ++ s.writes := targets_step s

@[simp,grind =] theorem locals_brief : (brief test s).locals = test.reads ++ (s.reads ++ s.writes) := by
  rw [locals,accesses,List.map_append,targets_test,targets_step]

@[simp,grind =] theorem locals_ifThen : (ifThen test code).locals = test.reads ++ localsAll code := by
  rw [locals,accesses,List.map_append,targets_test,localsAll]

@[simp,grind =] theorem locals_ifElse :
    (ifElse test code rest).locals = test.reads ++ localsAll code ++ localsAll rest := by
  rw [locals,accesses,List.map_append,List.map_append,targets_test,localsAll,localsAll]

@[simp,grind =] theorem locals_block {kind : BlockKind} : (block kind code).locals = localsAll code := rfl

@[simp,grind =] theorem locals_alternative {n : Nat} : (alternative n).locals = [] := rfl

@[simp,grind =] theorem locals_element {n : Nat} : (element n).locals = [] := rfl

@[simp,grind =] theorem locals_blank : blank.locals = [] := rfl

@[simp,grind =] theorem localsAll_nil : localsAll [] = [] := rfl

@[simp,grind =] theorem localsAll_cons : localsAll (instr :: rest) = instr.locals ++ localsAll rest := by
  simp [locals,localsAll]

@[simp,grind =] theorem localsAll_append :
    localsAll (code ++ rest) = localsAll code ++ localsAll rest := by
  simp [localsAll]

end Locals

end Instr

def Scope.locals (scope : Scope) : List Local := scope.map fun b => .value b.slot

structure Locals.Extends (a b : Locals) : Prop where
  letter : b.letter = a.letter
  type : b.type = a.type
  declared : a.declared ≤ b.declared
  covered : a.occupied ≤ a.declared → b.occupied ≤ b.declared

namespace Locals.Extends

variable {a b c : Locals}

theorem refl (a : Locals) : a.Extends a := ⟨rfl,rfl,Nat.le_refl _,id⟩

theorem trans (first : a.Extends b) (second : b.Extends c) : a.Extends c :=
  ⟨second.letter.trans first.letter,second.type.trans first.type,
    Nat.le_trans first.declared second.declared,second.covered ∘ first.covered⟩

theorem reclaim (a : Locals) : a.Extends a.reclaim :=
  ⟨rfl,rfl,Nat.le_max_left _ _,fun _ => Nat.le_max_right _ _⟩

theorem released {n : Nat} (fewer : n ≤ a.occupied) : a.Extends { a with occupied := n } :=
  ⟨rfl,rfl,Nat.le_refl _,fun covered => Nat.le_trans fewer covered⟩

end Locals.Extends

namespace Lowering

open Instr

structure State.Covered (s : State) : Prop where
  values : s.values.occupied ≤ s.values.declared
  positions : s.positions.occupied ≤ s.positions.declared

def State.Has (s : State) : Local → Prop
  | .value slot => slot < s.values.declared
  | .position index => index < s.positions.declared

structure State.Extends (s t : State) : Prop where
  values : s.values.Extends t.values
  positions : s.positions.Extends t.positions

namespace State

variable {s t u : State}

theorem Extends.refl (s : State) : s.Extends s := ⟨.refl _,.refl _⟩

theorem Extends.trans (first : s.Extends t) (second : t.Extends u) : s.Extends u :=
  ⟨first.values.trans second.values,first.positions.trans second.positions⟩

theorem Extends.has (grown : s.Extends t) {l : Local} (here : s.Has l) : t.Has l := by
  cases l with
  | value slot => exact Nat.lt_of_lt_of_le here grown.values.declared
  | position index => exact Nat.lt_of_lt_of_le here grown.positions.declared

theorem Extends.covers (grown : s.Extends t) (covered : s.Covered) : t.Covered :=
  ⟨grown.values.covered covered.values,grown.positions.covered covered.positions⟩

end State

variable {α β : Type} {known more : List Local} {x : Lower α} {shown : α → List Local}

def Declares (known : List Local) (x : Lower α) (shown : α → List Local) : Prop :=
  ∀ ⦃s a t⦄, Yields x s a t → s.Covered → (∀ l ∈ known, s.Has l) →
    s.Extends t ∧ ∀ l ∈ shown a, t.Has l

namespace Declares

theorem pure {a : α} (all : shown a ⊆ known) : Declares known (Pure.pure a) shown := by
  intro s b t ok covered has
  obtain ⟨rfl,rfl⟩ := (yields_pure _ _ _ _).mp ok
  exact ⟨.refl _,fun l member => has l (all member)⟩

theorem bind {f : α → Lower β} {later : β → List Local} (first : Declares known x shown)
    (next : ∀ a, Declares (shown a ++ known) (f a) later) : Declares known (x >>= f) later := by
  intro s b t ok covered has
  obtain ⟨a,u,start,ok⟩ := (yields_bind _ _ _ _ _).mp ok
  obtain ⟨grown,seen⟩ := first start covered has
  have both : ∀ l ∈ shown a ++ known, u.Has l := List.forall_mem_append.mpr
    ⟨seen,fun l member => grown.has (has l member)⟩
  obtain ⟨further,behind⟩ := next a ok (grown.covers covered) both
  exact ⟨grown.trans further,behind⟩

theorem weaken (declares : Declares known x shown) (all : known ⊆ more) :
    Declares more x shown :=
  fun _ _ _ ok covered has => declares ok covered fun l member => has l (all member)

/-- Registering and looking up leave the locals alone. -/
theorem still (same : ∀ {s a t}, Yields x s a t → t.values = s.values ∧
    t.positions = s.positions ∧ shown a ⊆ known) : Declares known x shown := by
  intro s a t ok covered has
  obtain ⟨values,positions,all⟩ := same ok
  have grown : s.Extends t := ⟨values ▸ .refl _,positions ▸ .refl _⟩
  exact ⟨grown,fun l member => grown.has (has l (all member))⟩

end Declares

section Operations

variable {s : State}

private theorem has_reclaimed (s : State) :
    State.Has { s with values := s.values.reclaim } (.value s.values.occupied) :=
  Nat.le_max_right _ _

private theorem State.Covered.top {slot : Nat} (covered : s.Covered)
    (taken : s.values.occupied = slot + 1) : s.Has (.value slot) := by
  have := covered.values
  exact Nat.lt_of_lt_of_le (by omega) this

private theorem State.Covered.topPosition {index : Nat} (covered : s.Covered)
    (taken : s.positions.occupied = index + 1) : s.Has (.position index) := by
  have := covered.positions
  exact Nat.lt_of_lt_of_le (by omega) this

theorem declares_assignNext {value : Value} (reads : value.reads ⊆ known) :
    Declares known (assignNext value) fun s => s.reads ++ s.writes := by
  intro s a t ok covered has
  obtain ⟨rfl,rfl⟩ := (yields_assignNext _ _ _ _).mp ok
  have grown : s.Extends { s with values := s.values.reclaim } := ⟨.reclaim _,.refl _⟩
  refine ⟨grown,List.forall_mem_append.mpr ⟨fun l member => ?_,?_⟩⟩
  · exact grown.has (has l (reads member))
  · exact List.forall_mem_singleton.mpr (has_reclaimed s)

theorem declares_pushValue {value : Value} (reads : value.reads ⊆ known) :
    Declares known (pushValue value) locals :=
  (declares_assignNext reads).bind fun _ => .pure (by simp)

theorem declares_popValue : Declares known popValue fun slot => [.value slot] := by
  intro s slot t ok covered has
  obtain ⟨taken,rfl⟩ := (yields_popValue _ _ _).mp ok
  have grown : s.Extends { s with values := { s.values with occupied := slot } } :=
    ⟨.released (by omega),.refl _⟩
  exact ⟨grown,List.forall_mem_singleton.mpr (grown.has (covered.top taken))⟩

theorem declares_popValues (n : Nat) :
    Declares known (popValues n) fun slots => slots.map Local.value := by
  intro s slots t ok covered has
  obtain ⟨enough,rfl,rfl⟩ := (yields_popValues _ _ _ _).mp ok
  refine ⟨⟨.released (Nat.sub_le _ _),.refl _⟩,?_⟩
  simp only [List.map_map,List.forall_mem_map,List.mem_range]
  intro k inside
  have := covered.values
  change s.values.occupied - n + k < s.values.declared
  omega

theorem declares_topValue : Declares known topValue fun slot => [.value slot] := by
  intro s slot t ok covered has
  obtain ⟨taken,rfl⟩ := (yields_topValue _ _ _).mp ok
  exact ⟨.refl _,List.forall_mem_singleton.mpr (covered.top taken)⟩

theorem declares_replaceValue {value : Value} (reads : value.reads ⊆ known) :
    Declares known (replaceValue value) locals := by
  intro s a t ok covered has
  obtain ⟨slot,taken,rfl,rfl⟩ := (yields_replaceValue _ _ _ _).mp ok
  have grown : s.Extends
      { s with values := Locals.reclaim { s.values with occupied := slot } } :=
    ⟨.trans (.released (by omega)) (.reclaim _),.refl _⟩
  rw [locals_step]
  refine ⟨grown,List.forall_mem_append.mpr ⟨fun l member => ?_,?_⟩⟩
  · exact grown.has (has l (reads member))
  · exact List.forall_mem_singleton.mpr (grown.has (covered.top taken))

theorem declares_savePosition : Declares known savePosition locals := by
  intro s a t ok covered has
  obtain ⟨rfl,rfl⟩ := (yields_savePosition _ _ _).mp ok
  refine ⟨⟨.refl _,.reclaim _⟩,List.forall_mem_singleton.mpr ?_⟩
  exact Nat.le_max_right _ _

theorem declares_reclaimPosition : Declares known reclaimPosition fun _ => [] := by
  intro s a t ok covered has
  obtain rfl := (yields_reclaimPosition _ _ _).mp ok
  exact ⟨⟨.refl _,.reclaim _⟩,nofun⟩

theorem declares_popPosition : Declares known popPosition fun index => [.position index] := by
  intro s index t ok covered has
  obtain ⟨taken,rfl⟩ := (yields_popPosition _ _ _).mp ok
  have grown : s.Extends { s with positions := { s.positions with occupied := index } } :=
    ⟨.refl _,.released (by omega)⟩
  exact ⟨grown,List.forall_mem_singleton.mpr (grown.has (covered.topPosition taken))⟩

theorem declares_restorePosition : Declares known restorePosition locals :=
  declares_popPosition.bind fun _ => .pure (by simp)

theorem declares_markPosition : Declares known markPosition locals :=
  declares_popPosition.bind fun _ => .pure (by simp)

theorem declares_addPattern (initializer : String) :
    Declares known (addPattern initializer) fun _ => [] :=
  .still fun ok => by
    obtain ⟨-,rfl⟩ := (yields_addPattern _ _ _ _).mp ok
    exact ⟨rfl,rfl,List.nil_subset _⟩

theorem declares_addExpected (initializer : String) :
    Declares known (addExpected initializer) fun _ => [] :=
  .still fun ok => by
    obtain ⟨-,rfl⟩ := (yields_addExpected _ _ _ _).mp ok
    exact ⟨rfl,rfl,List.nil_subset _⟩

theorem declares_addMethod (kind : MethodKind) (method : UserMethod) :
    Declares known (addMethod kind method) fun _ => [] :=
  .still fun ok => by
    obtain ⟨-,rfl⟩ := (yields_addMethod _ _ _ _ _).mp ok
    exact ⟨rfl,rfl,List.nil_subset _⟩

theorem declares_expectBase (kind : Kind) (base : Nat) :
    Declares known (expectBase kind base) fun _ => [] :=
  .still fun ok => by
    obtain ⟨-,rfl⟩ := (yields_expectBase _ _ _ _ _).mp ok
    exact ⟨rfl,rfl,List.nil_subset _⟩

theorem declares_typeOf (cfg : Setting) (kind : Kind) (site : Site) :
    Declares known (typeOf cfg kind site) fun _ => [] :=
  .still fun ok => by
    obtain ⟨-,rfl⟩ := (yields_typeOf _ _ _ _ _ _).mp ok
    exact ⟨rfl,rfl,List.nil_subset _⟩

theorem declares_fault {fault : Except Fault α} : Declares known (ofFault fault) fun _ => [] := by
  cases fault with
  | ok a => exact .pure (List.nil_subset _)
  | error _ =>
    intro s a t ok
    exact absurd ok (by simp [ofFault])

theorem declares_arguments (cfg : Setting) {scope : Scope} (labels : scope.locals ⊆ known) :
    Declares known (arguments cfg scope) fun passed => passed.map fun p => .value p.slot := by
  rw [arguments_eq]
  refine .pure ?_
  simpa [Scope.locals,Function.comp_def,passedFor] using labels

theorem declares_boundOf {scope : Scope} (location : Location) (boundary : Boundary)
    (labels : scope.locals ⊆ known) : Declares known (boundOf scope location boundary) Bound.reads := by
  refine .still fun ok => ?_
  obtain ⟨found,rfl⟩ := (yields_boundOf _ _ _ _ _ _).mp ok
  refine ⟨rfl,rfl,?_⟩
  cases boundary with
  | count n =>
    cases Option.some.inj found
    exact List.nil_subset _
  | label name =>
    obtain ⟨binding,there,rfl⟩ := Option.map_eq_some_iff.mp found
    have member : .value binding.slot ∈ scope.locals :=
      List.mem_map_of_mem (List.mem_of_find?_eq_some there)
    exact List.cons_subset.mpr ⟨labels member,List.nil_subset _⟩

end Operations

section Constructs

variable {cfg : Setting} {scope : Scope} {shownCode : List Instr × Scope → List Local}

theorem declares_actionCall (cfg : Setting) (site : Site) (action : Action) {passed : List Passed}
    (given : (passed.map fun p => Local.value p.slot) ⊆ known) :
    Declares known (actionCall cfg site action passed) Value.reads := by
  refine .bind (declares_typeOf _ _ _) fun ty => .bind declares_fault fun type =>
    .bind (declares_addMethod _ _) fun index => .pure ?_
  simpa using given

theorem declares_literal (cfg : Setting) (value : String) (ignoreCase : Bool) :
    Declares known (lowerLiteral cfg value ignoreCase) localsAll :=
  .bind declares_fault fun _ => .bind (declares_addExpected _) fun _ =>
    .bind (declares_pushValue (by simp)) fun _ => .pure (by simp)

theorem declares_class (cfg : Setting) (parts : List ClassPart) (inverted ignoreCase : Bool)
    (rawText : String) :
    Declares known (lowerClass cfg parts inverted ignoreCase rawText) localsAll :=
  .bind declares_fault fun _ => .bind declares_fault fun _ => .bind (declares_addPattern _) fun _ =>
    .bind (declares_addExpected _) fun _ =>
      .bind (declares_pushValue (by simp)) fun _ => .pure (by simp)

theorem declares_predicate (cfg : Setting) (isNegative : Bool) (code : String) (ns : Option String)
    (labels : scope.locals ⊆ known) :
    Declares known (lowerPredicate cfg isNegative code ns scope) localsAll := by
  refine .bind (declares_arguments cfg labels) fun passed => .bind (declares_addMethod _ _) fun index =>
    .bind (declares_pushValue (by simp)) fun yes =>
      .bind (declares_replaceValue (by simp)) fun no => .pure ?_
  grind [Test.reads]

theorem declares_named (cfg : Setting) (name : String) {body : Lower (List Instr × Scope)}
    (inner : Declares known body fun r => localsAll r.1 ++ r.2.locals) :
    Declares known (lowerNamed cfg name body) fun r => localsAll r.1 ++ r.2.locals := by
  refine .bind declares_fault fun _ => .bind (declares_addExpected _) fun expected =>
    .bind (inner.weaken ?_) fun (code,scope) => .bind declares_topValue fun top =>
      .bind (declares_replaceValue ?_) fun fail => .pure ?_
  · simp
  · simp
  · grind [Test.reads,Step.reads,Step.writes]

theorem declares_text {body : Lower (List Instr)} (inner : Declares known body localsAll) :
    Declares known (lowerText body) localsAll := by
  refine .bind declares_savePosition fun saved => .bind (inner.weaken ?_) fun code =>
    .bind declares_popValue fun result => .bind declares_popPosition fun start =>
      .bind (declares_pushValue ?_) fun taken => .pure ?_
  · simp
  · simp
  · grind [Test.reads]

theorem declares_optional {body : Lower (List Instr)} (inner : Declares known body localsAll) :
    Declares known (lowerOptional body) localsAll := by
  refine .bind inner fun code => .bind declares_popValue fun result =>
    .bind (declares_assignNext ?_) fun absent => .pure ?_
  · simp
  · grind [Test.reads]

theorem declares_lookahead (isNegative : Bool) {body : Lower (List Instr)}
    (inner : Declares known body localsAll) :
    Declares known (lowerLookahead isNegative body) localsAll := by
  refine .bind declares_savePosition fun saved => .bind (inner.weaken ?_) fun code =>
    .bind declares_restorePosition fun restored => ?_
  · simp
  · cases isNegative with
    | false => exact .pure (by grind [Step.reads,Step.writes])
    | true =>
      refine .bind declares_popValue fun result => .bind (declares_pushValue ?_) fun fail =>
        .bind (declares_replaceValue ?_) fun pass => .pure ?_
      · simp
      · simp
      · rw [localsAll_append]
        exact List.append_subset.mpr ⟨by grind [Step.reads,Step.writes],by grind [Test.reads]⟩

theorem declares_boundsOf (location : Location) (boundary : Option Boundary)
    (labels : scope.locals ⊆ known) :
    Declares known (boundary.mapM (boundOf scope location))
      fun most => most.toList.flatMap Bound.reads := by
  cases boundary with
  | none => exact .pure (by simp)
  | some limit =>
    rw [Option.mapM_some,map_eq_pure_bind]
    exact .bind (declares_boundOf _ _ labels) fun most => .pure (by simp)

theorem declares_repeated (repetition : Repetition) (location : Location)
    {body : Lower (List Instr)} (labels : scope.locals ⊆ known)
    (inner : Declares known body localsAll) :
    Declares known (lowerRepeated repetition scope location body) localsAll := by
  refine .bind (declares_boundOf _ _ labels) fun least =>
    .bind (declares_boundsOf _ _ (List.subset_append_of_subset_right _ labels)) fun most => ?_
  extract_lets rest
  have looped (saved : List Instr) {more : List Local}
      (given : localsAll saved ++ (most.toList.flatMap Bound.reads ++ (least.reads ++ known)) ⊆ more) :
      Declares more (rest saved) localsAll := by
    refine .bind (declares_pushValue ?_) fun start => .bind declares_topValue fun list =>
      .bind (inner.weaken ?_) fun code => .bind declares_popValue fun item => ?_
    · simp
    · grind
    extract_lets full loop ending
    have limits : localsAll full ⊆ .value list :: most.toList.flatMap Bound.reads := by
      cases most <;> simp [full]
    have round : loop.locals = localsAll full ++ localsAll code ++
        [.value item,.value list,.value item] := by
      simp [loop]
    have ended (restored : List Instr) {further : List Local} (all : localsAll restored ++
        ([.value item] ++ (localsAll code ++ ([.value list] ++ (start.locals ++ more)))) ⊆ further) :
        Declares further (ending restored) localsAll := by
      refine .bind (declares_replaceValue ?_) fun fail => .pure ?_
      · simp
      · grind [Test.reads]
    split
    · simp only [pure_bind]
      split
      · exact declares_restorePosition.bind fun restored => ended [restored] (by simp)
      · exact ended [] (by simp)
    · exact .pure (by grind)
  simp only [pure_bind]
  split
  · exact declares_savePosition.bind fun saved => looped [saved] (by simp)
  · exact looped [] (by simp)

theorem declares_close (cfg : Setting) (caller : Option (Site × Action)) (count : Nat)
    (labels : scope.locals ⊆ known) :
    Declares known (closeSequence cfg caller count scope) localsAll := by
  refine .bind (declares_popValues count) fun slots => ?_
  cases caller with
  | some called =>
    refine .bind (declares_arguments cfg ?_) fun passed => .bind declares_markPosition fun marked =>
      .bind (declares_actionCall cfg _ _ ?_) fun call => .bind (declares_pushValue ?_) fun result =>
        .pure ?_
    · exact List.subset_append_of_subset_right _ labels
    · simp
    · simp
    · grind
  | none =>
    refine .bind (declares_pushValue ?_) fun bundle => ?_
    · simp
    · split
      · exact .bind declares_popPosition fun _ => .pure (by grind)
      · exact .pure (by grind)

theorem declares_abandon (index : Nat) {first : Nat} (given : index ≠ 0 → .value first ∈ known) :
    Declares known (abandon index first) localsAll := by
  unfold abandon
  split
  · exact .pure (by simp)
  next behind =>
    refine .bind declares_restorePosition fun restored => .bind declares_reclaimPosition fun _ =>
      .pure ?_
    have := given behind
    grind [Step.reads,Step.writes,Value.reads]

theorem declares_action (cfg : Setting) (site : Site) (action : Action)
    {body : Lower (List Instr × Scope)}
    (inner : Declares known body fun r => localsAll r.1 ++ r.2.locals) :
    Declares known (lowerAction cfg site action body) localsAll := by
  refine .bind declares_savePosition fun saved => .bind (inner.weaken ?_) fun (code,scope) =>
    .bind (declares_arguments cfg ?_) fun passed => .bind (declares_actionCall cfg _ _ ?_) fun call =>
      .bind declares_topValue fun top => .bind declares_markPosition fun marked =>
        .bind (declares_replaceValue ?_) fun result => .pure ?_
  · simp
  · simp
  · simp
  · grind
  · grind [Test.reads]

private def Accounts (cfg : Setting) (e : Expr) : Prop :=
  ∀ {base caller scope known}, scope.locals ⊆ known →
    Declares known (lower cfg e base caller scope) fun r => localsAll r.1 ++ r.2.locals

private theorem accounts_code {e : Expr} {base : Nat} {caller : Option (Site × Action)}
    (accounts : Accounts cfg e) (labels : scope.locals ⊆ known) :
    Declares known (Prod.fst <$> lower cfg e base caller scope) localsAll := by
  rw [map_eq_pure_bind]
  exact .bind (accounts labels) fun r => .pure (by simp)

/-- The local of the value is taken behind the expression. -/
private theorem accounts_result {e : Expr} {base : Nat} {caller : Option (Site × Action)}
    (accounts : Accounts cfg e) (labels : scope.locals ⊆ known) :
    Declares known (lower cfg e base caller scope)
      fun r => .value base :: (localsAll r.1 ++ r.2.locals) := by
  intro s r t ok covered has
  obtain ⟨grown,seen⟩ := accounts labels ok covered has
  have balanced := lower_balanced cfg ok (lower_at_base ok)
  have top := (grown.covers covered).top balanced.1
  exact ⟨grown,List.forall_mem_cons.mpr ⟨top,seen⟩⟩

private theorem accounts_alternatives {alternatives : List Expr}
    (all : ∀ e ∈ alternatives, Accounts cfg e) {base n : Nat} (labels : scope.locals ⊆ known) :
    Declares known (lowerAlternatives cfg alternatives base n scope) localsAll := by
  induction alternatives generalizing n known with
  | nil => exact .pure (by simp)
  | cons e rest ih =>
    rw [lowerAlternatives]
    refine .bind (all e List.mem_cons_self labels) fun head => ?_
    obtain ⟨code,inner⟩ := head
    dsimp only
    split
    · exact .pure (by simp)
    · refine .bind declares_popValue fun result => .bind (ih ?_ ?_) fun others => .pure ?_
      · exact fun e member => all e (List.mem_cons_of_mem _ member)
      · grind
      · grind [Test.reads,Step.reads,Step.writes]

private theorem accounts_elements {elements : List Expr} (all : ∀ e ∈ elements, Accounts cfg e)
    {base index first : Nat} (labels : scope.locals ⊆ known)
    (given : index ≠ 0 → .value first ∈ known) :
    Declares known (lowerElements cfg elements base index first scope)
      fun r => localsAll r.1 ++ r.2.locals := by
  induction elements generalizing index first scope known with
  | nil => exact .pure (by simpa using labels)
  | cons e rest ih =>
    rw [lowerElements]
    refine .bind (all e List.mem_cons_self labels) fun head => ?_
    obtain ⟨code,inner⟩ := head
    refine .bind declares_topValue fun top => .bind (declares_abandon index ?_) fun onFail =>
      .bind (ih ?_ ?_ ?_) fun tail => ?_
    · intro behind
      grind
    · exact fun e member => all e (List.mem_cons_of_mem _ member)
    · grind
    · grind
    · obtain ⟨others,behind⟩ := tail
      exact .pure (by grind [Test.reads])

private theorem accounts (e : Expr) : Accounts cfg e := by
  induction e using Expr.induction with
  | named site name body ih =>
    intro base caller scope known labels
    rw [lower]
    exact (declares_expectBase _ _).bind fun _ => declares_named cfg name (ih labels)
  | choice site alternatives ih =>
    intro base caller scope known labels
    rw [lower]
    refine (declares_expectBase _ _).bind fun _ => ?_
    split
    · exact (declares_pushValue (by simp)).bind fun _ => .pure (by grind)
    · exact (accounts_alternatives ih labels).bind fun _ => .pure (by grind)
  | action site act body ih =>
    intro base caller scope known labels
    rw [lower]
    refine (declares_expectBase _ _).bind fun _ => ?_
    split
    · exact (ih labels).bind fun _ => .pure (by grind)
    · exact (declares_action cfg site act (ih labels)).bind fun _ => .pure (by grind)
  | sequence site elements ih =>
    intro base caller scope known labels
    rw [lower]
    refine (declares_expectBase _ _).bind fun _ => ?_
    extract_lets rest
    have ended (saved : List Instr) {more : List Local} (given : localsAll saved ++ known ⊆ more) :
        Declares more (rest saved) fun r => localsAll r.1 ++ r.2.locals := by
      refine .bind (accounts_elements ih ?_ fun behind => absurd rfl behind) fun inside => ?_
      · grind
      obtain ⟨code,inner⟩ := inside
      refine .bind (declares_close cfg caller _ ?_) fun close => ?_
      · grind
      · split <;> exact .pure (by grind)
    simp only [pure_bind]
    split
    · exact declares_savePosition.bind fun saved => ended [saved] (by simp)
    · exact ended [] (by simp)
  | labeled site label body ih =>
    intro base caller scope known labels
    rw [lower]
    refine (declares_expectBase _ _).bind fun _ => (declares_typeOf _ _ _).bind fun type =>
      .bind (accounts_result ih labels) fun inside => ?_
    obtain ⟨code,inner⟩ := inside
    have bound : (scope.bind ⟨label,base,type⟩).locals ⊆ .value base :: scope.locals := by
      intro l member
      obtain ⟨b,inside,rfl⟩ := List.mem_map.mp member
      rcases Scope.mem_bind inside with rfl | there
      · exact List.mem_cons_self
      · exact List.mem_cons_of_mem _ (List.mem_map_of_mem there)
    exact .pure (by grind)
  | text site body ih =>
    intro base caller scope known labels
    rw [lower]
    exact (declares_expectBase _ _).bind fun _ =>
      (declares_text (accounts_code ih labels)).bind fun _ => .pure (by grind)
  | optional site body ih =>
    intro base caller scope known labels
    rw [lower]
    exact (declares_expectBase _ _).bind fun _ =>
      (declares_optional (accounts_code ih labels)).bind fun _ => .pure (by grind)
  | repeated site repetition body ih =>
    intro base caller scope known labels
    rw [lower]
    exact (declares_expectBase _ _).bind fun _ =>
      (declares_repeated repetition _ labels (accounts_code ih labels)).bind fun _ => .pure (by grind)
  | lookahead site isNegative body ih =>
    intro base caller scope known labels
    rw [lower]
    exact (declares_expectBase _ _).bind fun _ =>
      (declares_lookahead isNegative (accounts_code ih labels)).bind fun _ => .pure (by grind)
  | predicate site isNegative code ns =>
    intro base caller scope known labels
    rw [lower]
    exact (declares_expectBase _ _).bind fun _ =>
      (declares_predicate cfg isNegative code ns labels).bind fun _ => .pure (by grind)
  | literal site value ignoreCase =>
    intro base caller scope known labels
    rw [lower]
    exact (declares_expectBase _ _).bind fun _ =>
      (declares_literal cfg value ignoreCase).bind fun _ => .pure (by grind)
  | charClass site parts inverted ignoreCase rawText =>
    intro base caller scope known labels
    rw [lower]
    exact (declares_expectBase _ _).bind fun _ =>
      (declares_class cfg parts inverted ignoreCase rawText).bind fun _ => .pure (by grind)
  | ruleRef | any =>
    intro base caller scope known labels
    rw [lower]
    exact (declares_expectBase _ _).bind fun _ =>
      (declares_pushValue (by simp)).bind fun _ => .pure (by grind)

/-- Lowering declares the local of the value, those of the code and those of the labels. -/
theorem lower_declares (cfg : Setting) (e : Expr) {base : Nat} {caller : Option (Site × Action)}
    (labels : scope.locals ⊆ known) :
    Declares known (lower cfg e base caller scope)
      fun r => .value base :: (localsAll r.1 ++ r.2.locals) :=
  accounts_result (accounts e) labels

end Constructs

end Lowering

end PegCompiler
