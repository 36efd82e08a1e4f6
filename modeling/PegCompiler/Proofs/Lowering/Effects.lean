import PegCompiler.Proofs.Grammar.Scoping
import PegCompiler.Proofs.Lowering.Balance

/-! What lowering does besides emitting code: it registers what the code refers to, and it may
fail. A policy says which changes of the registries and which errors are accepted. Lowering an
expression keeps to every policy that permits what its nodes do, whether it succeeds or fails, so
a fact about all runs of lowering is a policy and what that policy permits. -/
namespace PegCompiler

inductive Resource where
  | pattern (initializer : String)
  | expected (initializer : String)
  | method (kind : MethodKind) (method : UserMethod)
deriving DecidableEq

def Registries.register (registries : Registries) : Resource → Registries
  | .pattern initializer => { registries with patterns := (registries.patterns.add initializer).2 }
  | .expected initializer => { registries with expected := (registries.expected.add initializer).2 }
  | .method kind method => { registries with userCode := (registries.userCode.add kind method).2 }

namespace Lowering

def expectation (cfg : Setting) (kind : ExpectedKind) (value description : Option String) :
    String :=
  expectedInitializer (cfg.imports.className "Expected") kind value description

def classShown (parts : List ClassPart) (inverted : Bool) : String :=
  "[" ++ (if inverted then "^" else "") ++ classBody parts ++ "]"

theorem expected_eq (cfg : Setting) :
    cfg.imports.resolve "Expected" = .ok (cfg.imports.className "Expected") :=
  cfg.imports.resolve_eq (by simp [Target.Imports.knownNames])

theorem pattern_eq (cfg : Setting) :
    cfg.imports.resolve "Pattern" = .ok (cfg.imports.className "Pattern") :=
  cfg.imports.resolve_eq (by simp [Target.Imports.knownNames])

/-- What is accepted of lowering: how the registries may change, which errors may be raised, and
what is known of the scope where these labels are bound. -/
structure Policy (cfg : Setting) where
  moves : Registries → Registries → Prop
  raises : GenerateError → Prop
  knows : Scope → List Labelled → Prop
  refl : ∀ a, moves a a
  trans : ∀ {a b c}, moves a b → moves b c → moves a c
  fault : ∀ fault, raises (.internal fault)
  bind : ∀ {scope bound} {l : Labelled} {ty}, knows scope bound →
    cfg.types.expr l.body = some ty → knows (scope.bind ⟨l.label,l.slot,ty⟩) (bound ++ [l])

namespace Policy

variable {cfg : Setting} {α β : Type} (policy : Policy cfg)

def Keeps (x : Lower α) (post : α → Prop) : Prop :=
  ∀ s : State, policy.moves s.registries (outcome x s).2.registries ∧
    match (outcome x s).1 with
    | .ok a => post a
    | .error error => policy.raises error

def Allows (resource : Resource) : Prop :=
  ∀ registries, policy.moves registries (registries.register resource)

def Looks (kind : Kind) (site : Site) : Prop :=
  cfg.types.node site.id = none → policy.raises (.untyped kind.name site.location)

structure Calls (site : Site) (act : Action) (bound : List Labelled) : Prop where
  looks : policy.Looks .action site
  allows : ∀ ty scope, cfg.types.node site.id = some ty → policy.knows scope bound →
    policy.Allows (.method .action
      (methodFor act.ns (cfg.imports.spelling ty) act.code (scope.map (passedFor cfg))))

def Bounds (bound : List Labelled) (location : Location) (boundary : Boundary) : Prop :=
  ∀ label scope, boundary = .label label → policy.knows scope bound → scope.find label = none →
    policy.raises (.unboundLabel label location)

def Permits (visit : Visit) : Prop :=
  match visit.node with
  | .named _ name _ => policy.Allows (.expected (expectation cfg .rule none (some name)))
  | .action site act body => policy.Calls site act (visit.bound ++ body.handed visit.base)
  | .labeled _ _ body => policy.Looks body.kind body.site
  | .repeated _ repetition body => policy.Bounds visit.bound body.location repetition.min ∧
    ∀ boundary ∈ repetition.max, policy.Bounds visit.bound body.location boundary
  | .predicate _ _ code ns => ∀ scope, policy.knows scope visit.bound → policy.Allows
      (.method .predicate (methodFor ns "boolean" code (scope.map (passedFor cfg))))
  | .literal _ value ignoreCase => policy.Allows (.expected (expectation cfg .literal
      (some (if ignoreCase then Text.lowercase value else value))
      (some (Target.stringLiteral value))))
  | .charClass _ parts inverted ignoreCase rawText =>
    policy.Allows (.pattern (patternInitializer (cfg.imports.className "Pattern")
      (classPattern parts) ignoreCase)) ∧
    policy.Allows
      (.expected (expectation cfg .pattern (some (classShown parts inverted)) (some rawText)))
  | _ => True

end Policy

variable {cfg : Setting} {α β : Type} {policy : Policy cfg}

/-! Operations on locals register nothing and fail by faults only. -/

def Quiet (x : Lower α) : Prop :=
  ∀ s : State, (outcome x s).2.registries = s.registries ∧
    ∀ error, (outcome x s).1 = .error error → ∃ fault, error = .internal fault

private theorem quiet_get_fault {γ : Type} {f : State → Except Fault γ} {g : State → γ → Lower α}
    (quiet : ∀ s c, (outcome (g s c) s).2.registries = s.registries ∧
      ∀ error, (outcome (g s c) s).1 ≠ .error error) :
    Quiet (get >>= fun s => ofFault (f s) >>= g s) := by
  intro s
  simp only [outcome_bind,outcome_get]
  cases f s with
  | error fault =>
    rw [outcome_fault]
    exact ⟨rfl,fun error raised => ⟨fault,Except.error.inj raised.symm⟩⟩
  | ok c => exact ⟨(quiet s c).1,fun error raised => absurd raised ((quiet s c).2 error)⟩

theorem quiet_pure (a : α) : Quiet (pure a) := fun _ => ⟨rfl,nofun⟩

theorem Quiet.bind {x : Lower α} {f : α → Lower β} (first : Quiet x)
    (next : ∀ a, Quiet (f a)) : Quiet (x >>= f) := by
  intro s
  have before := first s
  rw [outcome_bind]
  cases run : outcome x s with
  | mk result t =>
    rw [run] at before
    cases result with
    | error error => exact ⟨before.1,fun _ raised => before.2 _ (by rw [Except.error.inj raised])⟩
    | ok a => exact ⟨(next a t).1.trans before.1,(next a t).2⟩

theorem quiet_assignNext (value : Value) : Quiet (assignNext value) :=
  fun _ => ⟨rfl,nofun⟩

theorem quiet_pushValue (value : Value) : Quiet (pushValue value) := fun _ => ⟨rfl,nofun⟩

theorem quiet_popValue : Quiet popValue := quiet_get_fault fun _ _ => ⟨rfl,nofun⟩

theorem quiet_popValues (n : Nat) : Quiet (popValues n) :=
  quiet_get_fault fun _ _ => ⟨rfl,nofun⟩

theorem quiet_replaceValue (value : Value) : Quiet (replaceValue value) :=
  quiet_get_fault fun _ _ => ⟨rfl,nofun⟩

theorem quiet_topValue : Quiet topValue := by
  have ended : topValue = get >>= fun s => ofFault s.values.top >>= pure := by
    simp only [topValue,bind_pure]
  rw [ended]
  exact quiet_get_fault fun _ _ => ⟨rfl,fun _ => by simp [outcome_pure]⟩

theorem quiet_savePosition : Quiet savePosition := fun _ => ⟨rfl,nofun⟩

theorem quiet_reclaimPosition : Quiet reclaimPosition := fun _ => ⟨rfl,nofun⟩

theorem quiet_popPosition : Quiet popPosition := quiet_get_fault fun _ _ => ⟨rfl,nofun⟩

theorem quiet_restorePosition : Quiet restorePosition :=
  quiet_popPosition.bind fun _ => quiet_pure _

theorem quiet_markPosition : Quiet markPosition :=
  quiet_popPosition.bind fun _ => quiet_pure _

theorem quiet_expectBase (kind : Kind) (base : Nat) : Quiet (expectBase kind base) := by
  intro s
  simp only [expectBase,outcome_bind,outcome_get]
  split
  · exact quiet_pure () s
  · exact ⟨rfl,fun error raised => ⟨_,Except.error.inj raised.symm⟩⟩

theorem quiet_abandon (index first : Nat) : Quiet (abandon index first) := by
  unfold abandon
  split
  · exact quiet_pure _
  · exact quiet_restorePosition.bind fun _ => quiet_reclaimPosition.bind fun _ => quiet_pure _

/-! Keeping to a policy composes. -/

private theorem Quiet.keeps {x : Lower α} (quiet : Quiet x) : policy.Keeps x fun _ => True := by
  intro s
  obtain ⟨same,faults⟩ := quiet s
  rw [same]
  refine ⟨policy.refl _,?_⟩
  split
  next => trivial
  next error raised =>
    obtain ⟨fault,rfl⟩ := faults error raised
    exact policy.fault fault

namespace Policy.Keeps

theorem pure {post : α → Prop} {a : α} (done : post a) : policy.Keeps (Pure.pure a) post :=
  fun _ => ⟨policy.refl _,done⟩

theorem bind {x : Lower α} {f : α → Lower β} {middle : α → Prop} {post : β → Prop}
    (first : policy.Keeps x middle) (next : ∀ a, middle a → policy.Keeps (f a) post) :
    policy.Keeps (x >>= f) post := by
  intro s
  have before := first s
  rw [outcome_bind]
  cases run : outcome x s with
  | mk result t =>
    rw [run] at before
    cases result with
    | error _ => exact before
    | ok a =>
      obtain ⟨moved,rest⟩ := next a before.2 t
      exact ⟨policy.trans before.1 moved,rest⟩

theorem map {x : Lower α} {f : α → β} {post : α → Prop} (keeps : policy.Keeps x post) :
    policy.Keeps (f <$> x) fun _ => True := by
  rw [map_eq_pure_bind]
  exact keeps.bind fun _ _ => .pure trivial

end Policy.Keeps

private theorem Quiet.then {x : Lower α} {f : α → Lower β} {post : β → Prop} (quiet : Quiet x)
    (next : ∀ a, policy.Keeps (f a) post) : policy.Keeps (x >>= f) post :=
  quiet.keeps.bind fun a _ => next a

private theorem keeps_addPattern {initializer : String}
    (allowed : policy.Allows (.pattern initializer)) :
    policy.Keeps (addPattern initializer) fun _ => True :=
  fun s => ⟨allowed s.registries,trivial⟩

private theorem keeps_addExpected {initializer : String}
    (allowed : policy.Allows (.expected initializer)) :
    policy.Keeps (addExpected initializer) fun _ => True :=
  fun s => ⟨allowed s.registries,trivial⟩

private theorem keeps_addMethod {kind : MethodKind} {method : UserMethod}
    (allowed : policy.Allows (.method kind method)) :
    policy.Keeps (addMethod kind method) fun _ => True :=
  fun s => ⟨allowed s.registries,trivial⟩

private theorem keeps_typeOf {kind : Kind} {site : Site} (looks : policy.Looks kind site) :
    policy.Keeps (typeOf cfg kind site) fun ty => cfg.types.node site.id = some ty := by
  unfold typeOf
  cases found : cfg.types.node site.id with
  | some ty => exact .pure rfl
  | none => exact fun s => ⟨policy.refl _,looks found⟩

private theorem keeps_boundOf {scope : Scope} {bound : List Labelled} {location : Location}
    {boundary : Boundary} (known : policy.knows scope bound)
    (bounds : policy.Bounds bound location boundary) :
    policy.Keeps (boundOf scope location boundary) fun _ => True := by
  cases boundary with
  | count n => exact .pure trivial
  | label name =>
    rw [boundOf]
    cases found : scope.find name with
    | some binding => exact .pure trivial
    | none => exact fun s => ⟨policy.refl _,bounds name scope rfl known found⟩

private theorem keeps_boundsOf {scope : Scope} {bound : List Labelled} {location : Location}
    {boundary : Option Boundary} (known : policy.knows scope bound)
    (bounds : ∀ limit ∈ boundary, policy.Bounds bound location limit) :
    policy.Keeps (boundary.mapM (boundOf scope location)) fun _ => True := by
  cases boundary with
  | none => exact .pure trivial
  | some limit => exact (keeps_boundOf known (bounds limit rfl)).map

theorem keeps_actionCall {site : Site} {act : Action} {scope : Scope}
    {bound : List Labelled} (known : policy.knows scope bound)
    (calls : policy.Calls site act bound) :
    policy.Keeps (actionCall cfg site act (scope.map (passedFor cfg))) fun _ => True := by
  unfold actionCall
  refine (keeps_typeOf calls.looks).bind fun ty typed => ?_
  simp only [cfg.imports.render_eq,ofFault,pure_bind]
  exact (keeps_addMethod (calls.allows ty scope typed known)).bind fun _ _ => .pure trivial

/-! One lemma for each kind of node. -/

theorem ofFault_expected (cfg : Setting) :
    ofFault (cfg.imports.resolve "Expected") = pure (cfg.imports.className "Expected") := by
  rw [expected_eq]
  rfl

theorem ofFault_pattern (cfg : Setting) :
    ofFault (cfg.imports.resolve "Pattern") = pure (cfg.imports.className "Pattern") := by
  rw [pattern_eq]
  rfl

variable {scope : Scope} {bound : List Labelled} {base : Nat}

private theorem keeps_lowerLiteral {site : Site} {value : String} {ignoreCase : Bool}
    (permits : policy.Permits ⟨.literal site value ignoreCase,base,bound⟩) :
    policy.Keeps (lowerLiteral cfg value ignoreCase) fun _ => True := by
  rw [lowerLiteral,ofFault_expected,pure_bind]
  exact (keeps_addExpected permits).bind fun _ _ => (quiet_pushValue _).then fun _ => .pure trivial

private theorem keeps_lowerClass {site : Site} {parts : List ClassPart} {inverted ignoreCase : Bool}
    {rawText : String}
    (permits : policy.Permits ⟨.charClass site parts inverted ignoreCase rawText,base,bound⟩) :
    policy.Keeps (lowerClass cfg parts inverted ignoreCase rawText) fun _ => True := by
  obtain ⟨compiled,described⟩ := permits
  rw [lowerClass,ofFault_pattern,pure_bind,ofFault_expected,pure_bind]
  exact (keeps_addPattern compiled).bind fun _ _ => (keeps_addExpected described).bind fun _ _ =>
    (quiet_pushValue _).then fun _ => .pure trivial

private theorem keeps_lowerPredicate {site : Site} {isNegative : Bool} {code : String}
    {ns : Option String} (known : policy.knows scope bound)
    (permits : policy.Permits ⟨.predicate site isNegative code ns,base,bound⟩) :
    policy.Keeps (lowerPredicate cfg isNegative code ns scope) fun _ => True := by
  simp only [lowerPredicate,arguments_eq,pure_bind]
  exact (keeps_addMethod (permits scope known)).bind fun _ _ => (quiet_pushValue _).then fun _ =>
    (quiet_replaceValue _).then fun _ => .pure trivial

private theorem keeps_lowerNamed {name : String} {body : Lower (List Instr × Scope)}
    (allowed : policy.Allows (.expected (expectation cfg .rule none (some name))))
    (inner : policy.Keeps body fun result => policy.knows result.2 bound) :
    policy.Keeps (lowerNamed cfg name body) fun result => policy.knows result.2 bound := by
  rw [lowerNamed,ofFault_expected,pure_bind]
  exact (keeps_addExpected allowed).bind fun _ _ => inner.bind fun _ held =>
    quiet_topValue.then fun _ => (quiet_replaceValue _).then fun _ => .pure held

private theorem keeps_lowerText {body : Lower (List Instr)}
    (inner : policy.Keeps body fun _ => True) : policy.Keeps (lowerText body) fun _ => True :=
  quiet_savePosition.then fun _ => inner.bind fun _ _ => quiet_popValue.then fun _ =>
    quiet_popPosition.then fun _ => (quiet_pushValue _).then fun _ => .pure trivial

private theorem keeps_lowerOptional {body : Lower (List Instr)}
    (inner : policy.Keeps body fun _ => True) : policy.Keeps (lowerOptional body) fun _ => True :=
  inner.bind fun _ _ => quiet_popValue.then fun _ => (quiet_assignNext _).then fun _ =>
    .pure trivial

private theorem keeps_lowerLookahead {isNegative : Bool} {body : Lower (List Instr)}
    (inner : policy.Keeps body fun _ => True) :
    policy.Keeps (lowerLookahead isNegative body) fun _ => True := by
  refine quiet_savePosition.then fun _ => inner.bind fun _ _ => quiet_restorePosition.then fun _ => ?_
  cases isNegative with
  | true =>
    exact quiet_popValue.then fun _ => (quiet_pushValue _).then fun _ =>
      (quiet_replaceValue _).then fun _ => .pure trivial
  | false => exact .pure trivial

private theorem keeps_lowerAction {site : Site} {act : Action} {body : Lower (List Instr × Scope)}
    (calls : policy.Calls site act bound)
    (inner : policy.Keeps body fun result => policy.knows result.2 bound) :
    policy.Keeps (lowerAction cfg site act body) fun _ => True := by
  refine quiet_savePosition.then fun _ => inner.bind fun result known => ?_
  simp only [arguments_eq,pure_bind]
  exact (keeps_actionCall known calls).bind fun _ _ => quiet_topValue.then fun _ =>
    quiet_markPosition.then fun _ => (quiet_replaceValue _).then fun _ => .pure trivial

private theorem keeps_lowerRepeated {site : Site} {repetition : Repetition} {e : Expr}
    {body : Lower (List Instr)} (known : policy.knows scope bound)
    (permits : policy.Permits ⟨.repeated site repetition e,base,bound⟩)
    (inner : policy.Keeps body fun _ => True) :
    policy.Keeps (lowerRepeated repetition scope e.location body) fun _ => True := by
  obtain ⟨lower,upper⟩ := permits
  refine (keeps_boundOf known lower).bind fun least _ => ?_
  refine (keeps_boundsOf known upper).bind fun most _ => ?_
  dsimp only
  split
  · refine quiet_savePosition.then fun _ => (quiet_pure _).then fun _ => ?_
    refine (quiet_pushValue _).then fun _ => quiet_topValue.then fun _ => inner.bind fun _ _ => ?_
    refine quiet_popValue.then fun _ => ?_
    split
    · exact quiet_restorePosition.then fun _ => (quiet_pure _).then fun _ =>
        (quiet_replaceValue _).then fun _ => .pure trivial
    · exact .pure trivial
  · refine (quiet_pure _).then fun _ => (quiet_pushValue _).then fun _ => ?_
    refine quiet_topValue.then fun _ => inner.bind fun _ _ => quiet_popValue.then fun _ => ?_
    split
    · exact (quiet_pure _).then fun _ => (quiet_replaceValue _).then fun _ => .pure trivial
    · exact .pure trivial

theorem keeps_closeSequence {caller : Option (Site × Action)} {count : Nat}
    (known : policy.knows scope bound)
    (calls : ∀ site act, caller = some (site,act) → policy.Calls site act bound) :
    policy.Keeps (closeSequence cfg caller count scope) fun _ => True := by
  refine (quiet_popValues count).then fun slots => ?_
  cases caller with
  | some called =>
    simp only [arguments_eq,pure_bind]
    exact quiet_markPosition.then fun _ => (keeps_actionCall known (calls _ _ rfl)).bind fun _ _ =>
      (quiet_pushValue _).then fun _ => .pure trivial
  | none =>
    refine (quiet_pushValue _).then fun bundle => ?_
    by_cases some : 0 < count
    · rw [if_pos some]
      exact quiet_popPosition.then fun _ => .pure trivial
    · rw [if_neg some]
      exact .pure trivial

/-- Wherever it is lowered, `e` keeps to the policy, and behind it the labels that it exports are
bound. An action directly around a sequence is called at its end. -/
private def Kept (policy : Policy cfg) (e : Expr) : Prop :=
  ∀ {base caller scope bound}, policy.knows scope bound →
    (∀ visit ∈ e.visits base bound, policy.Permits visit) →
    (∀ site act, caller = some (site,act) → policy.Calls site act (bound ++ e.handed base)) →
    policy.Keeps (lower cfg e base caller scope) fun result =>
      policy.knows result.2 (bound ++ e.exports base)

private theorem keeps_lowerAlternatives {alternatives : List Expr}
    (all : ∀ e ∈ alternatives, Kept policy e) (n : Nat) (known : policy.knows scope bound)
    (permits : ∀ visit ∈ Expr.visitsAlternatives base bound alternatives, policy.Permits visit) :
    policy.Keeps (lowerAlternatives cfg alternatives base n scope) fun _ => True := by
  induction alternatives generalizing n with
  | nil =>
    rw [lowerAlternatives]
    exact .pure trivial
  | cons e rest ih =>
    rw [Expr.visitsAlternatives,List.forall_mem_append] at permits
    rw [lowerAlternatives]
    refine (all e List.mem_cons_self known permits.1 (by simp)).bind fun result _ => ?_
    dsimp only
    split
    · exact .pure trivial
    · have others := ih (fun e member => all e (List.mem_cons_of_mem _ member)) (n + 1) permits.2
      exact quiet_popValue.then fun _ => others.bind fun _ _ => .pure trivial

private theorem keeps_lowerElements {elements : List Expr} (all : ∀ e ∈ elements, Kept policy e)
    (index first : Nat) (known : policy.knows scope bound)
    (permits : ∀ visit ∈ Expr.visitsElements (base + index) bound elements, policy.Permits visit) :
    policy.Keeps (lowerElements cfg elements base index first scope) fun result =>
      policy.knows result.2 (bound ++ Expr.exportsAll (base + index) elements) := by
  induction elements generalizing index first scope bound with
  | nil =>
    rw [lowerElements]
    exact .pure (by simpa [Expr.exportsAll] using known)
  | cons e rest ih =>
    rw [Expr.visitsElements,List.forall_mem_append] at permits
    rw [lowerElements]
    refine (all e List.mem_cons_self known permits.1 (by simp)).bind fun result behind => ?_
    refine quiet_topValue.then fun top => (quiet_abandon _ _).then fun onFail => ?_
    refine (ih (fun e member => all e (List.mem_cons_of_mem _ member)) (index + 1) _ behind
      permits.2).bind fun others ended => .pure ?_
    simpa [Expr.exportsAll,Nat.add_assoc] using ended

private theorem knows_same {e : Expr} (none : e.exports base = []) (known : policy.knows scope bound) :
    policy.knows scope (bound ++ e.exports base) := by
  rwa [none,List.append_nil]

private theorem kept (e : Expr) : Kept policy e := by
  induction e using Expr.induction with
  | named site name body ih =>
    intro base caller scope bound known permits _
    simp only [Expr.visits,List.forall_mem_append,List.forall_mem_singleton] at permits
    rw [lower]
    have inner : policy.Keeps (lower cfg body base none scope) fun result =>
        policy.knows result.2 (bound ++ body.exports base) := ih known permits.1 (by simp)
    exact (quiet_expectBase _ _).then fun _ => keeps_lowerNamed permits.2 inner
  | choice site alternatives ih =>
    intro base caller scope bound known permits _
    simp only [Expr.visits,List.forall_mem_append,List.forall_mem_singleton] at permits
    rw [lower]
    refine (quiet_expectBase _ _).then fun _ => ?_
    split
    · exact (quiet_pushValue _).then fun _ => .pure (knows_same rfl known)
    · exact (keeps_lowerAlternatives ih 1 known permits.1).bind fun _ _ =>
        .pure (knows_same rfl known)
  | action site act body ih =>
    intro base caller scope bound known permits _
    simp only [Expr.visits,List.forall_mem_append,List.forall_mem_singleton] at permits
    rw [lower]
    refine (quiet_expectBase _ _).then fun _ => ?_
    split
    next =>
      have called : ∀ site' act', some (site,act) = some (site',act') →
          policy.Calls site' act' (bound ++ body.handed base) := by
        rintro _ _ ⟨⟩
        exact permits.2
      exact (ih known permits.1 called).bind fun _ _ => .pure (knows_same rfl known)
    next plain =>
      have seen : body.handed base = body.exports base := by
        cases body <;> first | rfl | simp [Expr.isSequence] at plain
      have calls : policy.Calls site act (bound ++ body.exports base) := seen ▸ permits.2
      exact (keeps_lowerAction calls (ih known permits.1 (by simp))).bind fun _ _ =>
        .pure (knows_same rfl known)
  | sequence site elements ih =>
    intro base caller scope bound known permits calls
    simp only [Expr.visits,List.forall_mem_append,List.forall_mem_singleton] at permits
    rw [lower]
    refine (quiet_expectBase _ _).then fun _ => ?_
    have inside := keeps_lowerElements ih 0 base known permits.1
    have ending : ∀ saved : List Instr, policy.Keeps (do
        let inside ← lowerElements cfg elements base 0 base scope
        let close ← closeSequence cfg caller elements.length inside.2
        if elements.isEmpty then return (saved ++ close,scope)
        else return (saved ++ [.block .sequence (inside.1 ++ close)],scope)) fun result =>
          policy.knows result.2 (bound ++ (Expr.sequence site elements).exports base) := by
      intro saved
      refine inside.bind fun result behind => ?_
      refine (keeps_closeSequence behind calls).bind fun close _ => ?_
      split <;> exact .pure (knows_same rfl known)
    dsimp only
    split
    · exact quiet_savePosition.then fun _ => (quiet_pure _).then ending
    · exact (quiet_pure _).then ending
  | labeled site label body ih =>
    intro base caller scope bound known permits _
    simp only [Expr.visits,List.forall_mem_append,List.forall_mem_singleton] at permits
    rw [lower]
    refine (quiet_expectBase _ _).then fun _ => (keeps_typeOf permits.2).bind fun ty typed => ?_
    refine (ih known permits.1 (by simp)).bind fun result _ => .pure ?_
    exact policy.bind (l := ⟨label,body,base⟩) known typed
  | text site body ih =>
    intro base caller scope bound known permits _
    simp only [Expr.visits,List.forall_mem_append,List.forall_mem_singleton] at permits
    rw [lower]
    exact (quiet_expectBase _ _).then fun _ =>
      (keeps_lowerText (ih known permits.1 (by simp)).map).bind fun _ _ =>
        .pure (knows_same rfl known)
  | optional site body ih =>
    intro base caller scope bound known permits _
    simp only [Expr.visits,List.forall_mem_append,List.forall_mem_singleton] at permits
    rw [lower]
    exact (quiet_expectBase _ _).then fun _ =>
      (keeps_lowerOptional (ih known permits.1 (by simp)).map).bind fun _ _ =>
        .pure (knows_same rfl known)
  | repeated site repetition body ih =>
    intro base caller scope bound known permits _
    simp only [Expr.visits,List.forall_mem_append,List.forall_mem_singleton] at permits
    rw [lower]
    exact (quiet_expectBase _ _).then fun _ =>
      (keeps_lowerRepeated known permits.2 (ih known permits.1 (by simp)).map).bind fun _ _ =>
        .pure (knows_same rfl known)
  | lookahead site isNegative body ih =>
    intro base caller scope bound known permits _
    simp only [Expr.visits,List.forall_mem_append,List.forall_mem_singleton] at permits
    rw [lower]
    exact (quiet_expectBase _ _).then fun _ =>
      (keeps_lowerLookahead (ih known permits.1 (by simp)).map).bind fun _ _ =>
        .pure (knows_same rfl known)
  | predicate site isNegative code ns =>
    intro base caller scope bound known permits _
    simp only [Expr.visits,List.nil_append,List.forall_mem_singleton] at permits
    rw [lower]
    exact (quiet_expectBase _ _).then fun _ =>
      (keeps_lowerPredicate known permits).bind fun _ _ => .pure (knows_same rfl known)
  | ruleRef site name =>
    intro base caller scope bound known permits _
    rw [lower]
    exact (quiet_expectBase _ _).then fun _ => (quiet_pushValue _).then fun _ =>
      .pure (knows_same rfl known)
  | literal site value ignoreCase =>
    intro base caller scope bound known permits _
    simp only [Expr.visits,List.nil_append,List.forall_mem_singleton] at permits
    rw [lower]
    exact (quiet_expectBase _ _).then fun _ =>
      (keeps_lowerLiteral permits).bind fun _ _ => .pure (knows_same rfl known)
  | charClass site parts inverted ignoreCase rawText =>
    intro base caller scope bound known permits _
    simp only [Expr.visits,List.nil_append,List.forall_mem_singleton] at permits
    rw [lower]
    exact (quiet_expectBase _ _).then fun _ =>
      (keeps_lowerClass permits).bind fun _ _ => .pure (knows_same rfl known)
  | any site =>
    intro base caller scope bound known permits _
    rw [lower]
    exact (quiet_expectBase _ _).then fun _ => (quiet_pushValue _).then fun _ =>
      .pure (knows_same rfl known)

theorem keeps_abandon (index first : Nat) : policy.Keeps (abandon index first) fun _ => True :=
  (quiet_abandon index first).keeps

theorem keeps_lower {e : Expr} {caller : Option (Site × Action)} (known : policy.knows scope bound)
    (permits : ∀ visit ∈ e.visits base bound, policy.Permits visit)
    (calls : ∀ site act, caller = some (site,act) → policy.Calls site act (bound ++ e.handed base)) :
    policy.Keeps (lower cfg e base caller scope) fun result =>
      policy.knows result.2 (bound ++ e.exports base) :=
  kept e known permits calls

theorem keeps_alternatives {alternatives : List Expr} (n : Nat) (known : policy.knows scope bound)
    (permits : ∀ visit ∈ Expr.visitsAlternatives base bound alternatives, policy.Permits visit) :
    policy.Keeps (lowerAlternatives cfg alternatives base n scope) fun _ => True :=
  keeps_lowerAlternatives (fun e _ => kept e) n known permits

theorem keeps_elements {elements : List Expr} (index first : Nat) (known : policy.knows scope bound)
    (permits : ∀ visit ∈ Expr.visitsElements (base + index) bound elements, policy.Permits visit) :
    policy.Keeps (lowerElements cfg elements base index first scope) fun result =>
      policy.knows result.2 (bound ++ Expr.exportsAll (base + index) elements) :=
  keeps_lowerElements (fun e _ => kept e) index first known permits

/-- Lowering a rule keeps to every policy that permits what the nodes of its expression do. -/
theorem Policy.keeps_rule (policy : Policy cfg) {rule : Rule} (start : policy.knows [] [])
    (permits : ∀ visit ∈ rule.body.visits 0 [], policy.Permits visit) (isStart : Bool)
    (before : Registries) :
    policy.moves before (lowerRule cfg rule isStart before).2 ∧
    ∀ error, (lowerRule cfg rule isStart before).1 = .error error → policy.raises error := by
  have body : policy.Keeps (lowerBody cfg rule isStart) fun _ => True := by
    refine (kept rule.body start permits (by simp)).bind fun result _ => ?_
    intro s
    simp only [outcome_bind,outcome_get]
    split
    · exact ⟨policy.refl _,trivial⟩
    · exact ⟨policy.refl _,policy.fault _⟩
  obtain ⟨object,position,run⟩ := lowerRule_eq cfg rule isStart before
  obtain ⟨moved,ended⟩ := body (startState object position before)
  rw [run]
  refine ⟨moved,fun error raised => ?_⟩
  rwa [show _ = Except.error error from raised] at ended

end Lowering

end PegCompiler
