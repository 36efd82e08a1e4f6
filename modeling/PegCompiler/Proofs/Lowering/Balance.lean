import PegCompiler.Proofs.Grammar.Induction
import PegCompiler.Proofs.Lowering.Outcome

/-! Stack balance of lowering. From the state where exactly `base` value locals are taken, every
expression takes one more and gives all position locals back, and no fault is raised on the way:
not by a stack, not by a check of the base, not by the look-up of a class. -/
namespace PegCompiler.Lowering

open Target

variable {α : Type} {base : Nat}

def Balanced (base : Nat) (s t : State) : Prop :=
  t.values.occupied = base + 1 ∧ t.positions.occupied = s.positions.occupied

def KeepsBalance (base : Nat) (x : Lower α) : Prop :=
  ∀ s, s.values.occupied = base → Safe x s fun _ t => Balanced base s t

theorem KeepsBalance.safe {x : Lower α} (kept : KeepsBalance base x) {s : State}
    {post : α → State → Prop} (taken : s.values.occupied = base)
    (next : ∀ a t, t.values.occupied = base + 1 → t.positions.occupied = s.positions.occupied →
      post a t) : Safe x s post :=
  (kept s taken).imp fun a t _ balanced => next a t balanced.1 balanced.2

theorem KeepsBalance.map {x : Lower α} {β : Type} (kept : KeepsBalance base x) (f : α → β) :
    KeepsBalance base (f <$> x) := by
  intro s taken
  rw [safe_map]
  exact kept s taken

private theorem expected_known (cfg : Setting) :
    ∃ className, cfg.imports.resolve "Expected" = .ok className :=
  cfg.imports.resolve_ok (by simp [Imports.knownNames])

private theorem pattern_known (cfg : Setting) :
    ∃ className, cfg.imports.resolve "Pattern" = .ok className :=
  cfg.imports.resolve_ok (by simp [Imports.knownNames])

private theorem pushValue_balanced (value : Value) : KeepsBalance base (pushValue value) := by
  intro s taken
  simp [Balanced,taken]

private theorem lowerLiteral_balanced (cfg : Setting) (value : String) (ignoreCase : Bool) :
    KeepsBalance base (lowerLiteral cfg value ignoreCase) := by
  intro s taken
  obtain ⟨className,resolved⟩ := expected_known cfg
  simp [lowerLiteral,resolved,Balanced,taken]

private theorem lowerClass_balanced (cfg : Setting) (parts : List ClassPart)
    (inverted ignoreCase : Bool) (rawText : String) :
    KeepsBalance base (lowerClass cfg parts inverted ignoreCase rawText) := by
  intro s taken
  obtain ⟨expectedClass,resolved⟩ := expected_known cfg
  obtain ⟨patternClass,compiled⟩ := pattern_known cfg
  simp [lowerClass,resolved,compiled,Balanced,taken]

private theorem lowerPredicate_balanced (cfg : Setting) (isNegative : Bool) (code : String)
    (ns : Option String) (scope : Scope) :
    KeepsBalance base (lowerPredicate cfg isNegative code ns scope) := by
  intro s taken
  simp [lowerPredicate,Balanced,taken]

private theorem lowerNamed_balanced (cfg : Setting) (name : String)
    {body : Lower (List Instr × Scope)} (inner : KeepsBalance base body) :
    KeepsBalance base (lowerNamed cfg name body) := by
  intro s taken
  obtain ⟨className,resolved⟩ := expected_known cfg
  simp only [lowerNamed,resolved,safe_bind,safe_ofFault_ok,safe_addExpected]
  refine inner.safe (by exact taken) ?_
  intro result t values positions
  simp [Balanced,values,positions]

private theorem lowerText_balanced {body : Lower (List Instr)} (inner : KeepsBalance base body) :
    KeepsBalance base (lowerText body) := by
  intro s taken
  simp only [lowerText,safe_bind,safe_savePosition]
  refine inner.safe (by exact taken) ?_
  intro code t values positions
  simp [Balanced,values,positions]

private theorem lowerOptional_balanced {body : Lower (List Instr)}
    (inner : KeepsBalance base body) : KeepsBalance base (lowerOptional body) := by
  intro s taken
  simp only [lowerOptional,safe_bind]
  refine inner.safe (by exact taken) ?_
  intro code t values positions
  simp [Balanced,values,positions]

private theorem lowerLookahead_balanced (isNegative : Bool) {body : Lower (List Instr)}
    (inner : KeepsBalance base body) : KeepsBalance base (lowerLookahead isNegative body) := by
  intro s taken
  simp only [lowerLookahead,safe_bind,safe_savePosition]
  refine inner.safe (by exact taken) ?_
  intro code t values positions
  cases isNegative <;> simp [Balanced,values,positions]

private theorem lowerAction_balanced (cfg : Setting) (site : Site) (action : Action)
    {body : Lower (List Instr × Scope)} (inner : KeepsBalance base body) :
    KeepsBalance base (lowerAction cfg site action body) := by
  intro s taken
  simp only [lowerAction,safe_bind,safe_savePosition]
  refine inner.safe (by exact taken) ?_
  intro result t values positions
  simp [Balanced,values,positions]

/-- A repetition that needs its position back saves one, and gives it back when it can fail. -/
theorem canFail_of_needsRollback {boundary : Boundary} (rollback : needsRollback boundary = true) :
    canFail boundary = true := by
  cases boundary with
  | count n =>
    simp only [needsRollback,canFail,decide_eq_true_eq,UInt32.lt_iff_toNat_lt] at rollback ⊢
    exact Nat.lt_of_le_of_lt (Nat.zero_le _) rollback
  | label name => rfl

private theorem lowerRepeated_balanced (repetition : Repetition) (scope : Scope)
    (location : Location) {body : Lower (List Instr)} (inner : KeepsBalance (base + 1) body) :
    KeepsBalance base (lowerRepeated repetition scope location body) := by
  intro s taken
  simp only [lowerRepeated,safe_bind,safe_boundOf,safe_boundsOf]
  intro least _ most _
  cases rollback : needsRollback repetition.min with
  | true =>
    have failing := canFail_of_needsRollback rollback
    simp only [if_true,safe_bind,safe_savePosition,safe_pure,safe_pushValue,safe_topValue]
    refine ⟨base,by simp [taken],?_⟩
    refine inner.safe (by simp [taken]) ?_
    intro code t values positions
    simp [Balanced,values,positions,failing]
  | false =>
    simp only [Bool.false_eq_true,if_false,safe_bind,safe_pure,safe_pushValue,safe_topValue]
    refine ⟨base,by simp [taken],?_⟩
    refine inner.safe (by simp [taken]) ?_
    intro code t values positions
    cases canFail repetition.min <;> simp [Balanced,values,positions]

/-- Behind the elements of a sequence `count` values and, if one was saved, a position are given
back, and one value is taken. -/
private theorem closeSequence_safe (cfg : Setting) (caller : Option (Site × Action)) (count : Nat)
    (scope : Scope) {s : State} {before : Nat} (taken : s.values.occupied = base + count)
    (saved : s.positions.occupied = if 0 < count ∨ caller.isSome then before + 1 else before) :
    Safe (closeSequence cfg caller count scope) s fun _ t =>
      t.values.occupied = base + 1 ∧ t.positions.occupied = before := by
  simp only [closeSequence,safe_bind,safe_popValues]
  refine ⟨by omega,?_⟩
  cases caller with
  | some called =>
    have position : s.positions.occupied = before + 1 := by simpa using saved
    simp [position,taken]
  | none =>
    by_cases some : 0 < count
    · have position : s.positions.occupied = before + 1 := by simpa [some] using saved
      simp [some,position,taken]
    · have position : s.positions.occupied = before := by simpa [some] using saved
      simp [some,position,taken]

theorem abandon_safe (index first : Nat) {s : State} (saved : 0 < s.positions.occupied) :
    Safe (abandon index first) s fun _ t =>
      t.values = s.values ∧ t.positions.occupied = s.positions.occupied := by
  obtain ⟨before,position⟩ : ∃ n, s.positions.occupied = n + 1 :=
    ⟨_,(Nat.succ_pred_eq_of_pos saved).symm⟩
  by_cases atFirst : index = 0
  · simp [abandon,atFirst]
  · simp [abandon,atFirst,position]

private def Tame (cfg : Setting) (e : Expr) : Prop :=
  ∀ base caller scope, KeepsBalance base (lower cfg e base caller scope)

private theorem lowerAlternatives_balanced (cfg : Setting) {alternatives : List Expr}
    (all : ∀ e ∈ alternatives, Tame cfg e) (some : alternatives ≠ []) (base n : Nat)
    (scope : Scope) : KeepsBalance base (lowerAlternatives cfg alternatives base n scope) := by
  induction alternatives generalizing n with
  | nil => exact absurd rfl some
  | cons e rest ih =>
    intro s taken
    rw [lowerAlternatives,safe_bind]
    refine (all e (by simp) base none scope).safe taken ?_
    intro result t values positions
    cases rest with
    | nil => simp [Balanced,values,positions]
    | cons next others =>
      simp only [List.isEmpty_cons,Bool.false_eq_true,if_false,safe_bind,safe_popValue]
      refine ⟨base,values,?_⟩
      have kept := ih (fun e member => all e (List.mem_cons_of_mem _ member)) (by simp) (n + 1)
      refine kept.safe rfl ?_
      intro others u taken same
      rw [safe_pure]
      exact ⟨taken,same.trans positions⟩

private theorem lowerElements_safe (cfg : Setting) {elements : List Expr}
    (all : ∀ e ∈ elements, Tame cfg e) (base index first : Nat) (scope : Scope) {s : State}
    (taken : s.values.occupied = base + index) (saved : elements ≠ [] → 0 < s.positions.occupied) :
    Safe (lowerElements cfg elements base index first scope) s fun _ t =>
      t.values.occupied = base + index + elements.length ∧
        t.positions.occupied = s.positions.occupied := by
  induction elements generalizing index first scope s with
  | nil => simp [lowerElements,taken]
  | cons e rest ih =>
    rw [lowerElements,safe_bind]
    refine (all e (by simp) (base + index) none scope).safe taken ?_
    intro result t values positions
    have saved' : 0 < t.positions.occupied := positions ▸ saved (by simp)
    simp only [safe_bind,safe_topValue]
    refine ⟨base + index,values,?_⟩
    refine (abandon_safe index _ saved').imp ?_
    rintro onFail u - ⟨sameValues,samePositions⟩
    have elementTaken : u.values.occupied = base + (index + 1) := by rw [sameValues,values]; omega
    have tail := ih (fun e member => all e (List.mem_cons_of_mem _ member)) (index + 1)
      (if index = 0 then base + index else first) result.2 elementTaken
      (fun _ => samePositions ▸ saved')
    refine tail.imp ?_
    rintro others v - ⟨restTaken,restPositions⟩
    simp only [safe_pure,List.length_cons]
    exact ⟨by omega,by rw [restPositions,samePositions,positions]⟩

/-- A sequence behind the place where it may save its position. -/
private theorem elements_then_close (cfg : Setting) {elements : List Expr}
    (all : ∀ e ∈ elements, Tame cfg e) (caller : Option (Site × Action)) (scope : Scope)
    (before : Nat) {s : State} (taken : s.values.occupied = base)
    (saved : s.positions.occupied =
      if 0 < elements.length ∨ caller.isSome then before + 1 else before)
    {post : List Instr × Scope → List Instr → State → Prop}
    (next : ∀ result close t, t.values.occupied = base + 1 → t.positions.occupied = before →
      post result close t) :
    Safe (lowerElements cfg elements base 0 base scope) s fun result t =>
      Safe (closeSequence cfg caller elements.length result.2) t (post result) := by
  have position : elements ≠ [] → 0 < s.positions.occupied := by
    intro some
    have length : 0 < elements.length := List.length_pos_iff.mpr some
    simp only [length,true_or,if_true] at saved
    omega
  refine (lowerElements_safe cfg all base 0 base scope taken position).imp ?_
  rintro result t - ⟨values,positions⟩
  refine (closeSequence_safe cfg caller elements.length result.2 values
    (positions.trans saved)).imp ?_
  rintro close u - ⟨closed,given⟩
  exact next result close u closed given

private theorem lower_tame (cfg : Setting) (e : Expr) : Tame cfg e := by
  induction e using Expr.induction with
  | named site name body ih =>
    intro base caller scope s taken
    simp only [lower,safe_bind,safe_expectBase]
    exact ⟨taken,lowerNamed_balanced cfg name (ih base none scope) s taken⟩
  | choice site alternatives ih =>
    intro base caller scope s taken
    simp only [lower,safe_bind,safe_expectBase]
    refine ⟨taken,?_⟩
    cases alternatives with
    | nil => simp [Balanced,taken]
    | cons e rest =>
      simpa using lowerAlternatives_balanced cfg ih (by simp) base 1 scope s taken
  | action site act body ih =>
    intro base caller scope s taken
    simp only [lower,safe_bind,safe_expectBase]
    refine ⟨taken,?_⟩
    split
    · simpa using ih base (some (site,act)) scope s taken
    · simpa using lowerAction_balanced cfg site act (ih base none scope) s taken
  | sequence site elements ih =>
    intro base caller scope s taken
    simp only [lower,safe_bind,safe_expectBase]
    refine ⟨taken,?_⟩
    by_cases needed : 0 < elements.length ∨ caller.isSome
    · have saves : (!elements.isEmpty || caller.isSome) = true := by
        simpa [List.length_pos_iff] using needed
      simp only [if_pos saves,safe_bind,safe_savePosition,safe_pure]
      refine elements_then_close cfg ih caller scope s.positions.occupied (by exact taken)
        (by simp [needed]) ?_
      intro result close t values positions
      split <;> exact (safe_pure _ _ _).mpr ⟨values,positions⟩
    · have saves : ¬(!elements.isEmpty || caller.isSome) = true := by
        simpa [List.length_pos_iff] using needed
      simp only [if_neg saves,safe_bind,safe_pure]
      refine elements_then_close cfg ih caller scope s.positions.occupied taken (by simp [needed]) ?_
      intro result close t values positions
      split <;> exact (safe_pure _ _ _).mpr ⟨values,positions⟩
  | labeled site label body ih =>
    intro base caller scope s taken
    simp only [lower,safe_bind,safe_expectBase,safe_typeOf]
    exact ⟨taken,fun ty _ => by simpa using ih base none scope s taken⟩
  | text site body ih =>
    intro base caller scope s taken
    simp only [lower,safe_bind,safe_expectBase,safe_pure]
    exact ⟨taken,lowerText_balanced ((ih base none scope).map _) s taken⟩
  | optional site body ih =>
    intro base caller scope s taken
    simp only [lower,safe_bind,safe_expectBase,safe_pure]
    exact ⟨taken,lowerOptional_balanced ((ih base none scope).map _) s taken⟩
  | repeated site repetition body ih =>
    intro base caller scope s taken
    simp only [lower,safe_bind,safe_expectBase,safe_pure]
    exact ⟨taken,lowerRepeated_balanced repetition scope _ ((ih (base + 1) none scope).map _) s taken⟩
  | lookahead site isNegative body ih =>
    intro base caller scope s taken
    simp only [lower,safe_bind,safe_expectBase,safe_pure]
    exact ⟨taken,lowerLookahead_balanced isNegative ((ih base none scope).map _) s taken⟩
  | predicate site isNegative code ns =>
    intro base caller scope s taken
    simp only [lower,safe_bind,safe_expectBase,safe_pure]
    exact ⟨taken,lowerPredicate_balanced cfg isNegative code ns scope s taken⟩
  | ruleRef site name =>
    intro base caller scope s taken
    simp only [lower,safe_bind,safe_expectBase,safe_pure]
    exact ⟨taken,pushValue_balanced (.callRule name) s taken⟩
  | literal site value ignoreCase =>
    intro base caller scope s taken
    simp only [lower,safe_bind,safe_expectBase,safe_pure]
    exact ⟨taken,lowerLiteral_balanced cfg value ignoreCase s taken⟩
  | charClass site parts inverted ignoreCase rawText =>
    intro base caller scope s taken
    simp only [lower,safe_bind,safe_expectBase,safe_pure]
    exact ⟨taken,lowerClass_balanced cfg parts inverted ignoreCase rawText s taken⟩
  | any site =>
    intro base caller scope s taken
    simp only [lower,safe_bind,safe_expectBase,safe_pure]
    exact ⟨taken,pushValue_balanced .matchAny s taken⟩

theorem lower_balanced (cfg : Setting) {e : Expr} {base : Nat} {caller : Option (Site × Action)}
    {scope : Scope} {s t : State} {result : List Instr × Scope}
    (ok : Yields (lower cfg e base caller scope) s result t) (taken : s.values.occupied = base) :
    Balanced base s t :=
  (lower_tame cfg e base caller scope s taken).of_yields ok

private theorem lowerBody_safe (cfg : Setting) (rule : Rule) (isStart : Bool) {s : State}
    (values : s.values.occupied = 0) (positions : s.positions.occupied = 0) :
    Safe (lowerBody cfg rule isStart) s fun sub _ =>
      sub.values.occupied = 1 ∧ sub.positions.occupied = 0 := by
  rw [lowerBody,safe_bind]
  refine (lower_tame cfg rule.body 0 none []).safe values ?_
  intro result t taken given
  rw [positions] at given
  simp [taken,given]

/-- Spelling a subroutine as statements looks up known classes only. -/
theorem toStmts_ok (sub : Subroutine) (imports : Imports) :
    ∃ stmts, sub.toStmts imports = .ok stmts := by
  have known {short : String} (member : short ∈ Imports.knownNames) := imports.resolve_ok member
  obtain ⟨mark,rule⟩ : ∃ text, imports.resolve "Rule" = .ok text :=
    known (by simp [Imports.knownNames])
  obtain ⟨object,top⟩ : ∃ text, imports.resolve "Object" = .ok text :=
    known (by simp [Imports.knownNames])
  obtain ⟨list,lists⟩ : ∃ text, imports.resolve "List" = .ok text :=
    known (by simp [Imports.knownNames])
  obtain ⟨number,numbers⟩ : ∃ text, imports.resolve "Number" = .ok text :=
    known (by simp [Imports.knownNames])
  simp only [Subroutine.toStmts,rule,top,lists,numbers]
  exact ⟨_,rfl⟩

def startState (object position : String) (registries : Registries) : State where
  values := { letter := valueLetter, type := object }
  positions := { letter := positionLetter, type := position }
  registries

theorem lowerRule_from (cfg : Setting) (rule : Rule) (isStart : Bool) (registries : Registries) :
    lowerRule cfg rule isStart registries =
      let run := outcome (lowerBody cfg rule isStart)
        (startState (cfg.imports.className "Object") (cfg.imports.className "Position") registries)
      (run.1,run.2.registries) := by
  have object := cfg.imports.resolve_eq (by simp [Imports.knownNames] : "Object" ∈ _)
  have position := cfg.imports.resolve_eq (by simp [Imports.knownNames] : "Position" ∈ _)
  unfold lowerRule
  rw [object,position]
  rfl

theorem lowerRule_eq (cfg : Setting) (rule : Rule) (isStart : Bool) (registries : Registries) :
    ∃ object position, lowerRule cfg rule isStart registries =
      ((outcome (lowerBody cfg rule isStart) (startState object position registries)).1,
        (outcome (lowerBody cfg rule isStart)
          (startState object position registries)).2.registries) :=
  ⟨_,_,lowerRule_from cfg rule isStart registries⟩

theorem lowerRule_started {cfg : Setting} {rule : Rule} {isStart : Bool}
    {before after : Registries} {sub : Subroutine}
    (ok : lowerRule cfg rule isStart before = (.ok sub,after)) :
    ∃ t, Yields (lowerBody cfg rule isStart) (startState (cfg.imports.className "Object")
      (cfg.imports.className "Position") before) sub t ∧ t.registries = after := by
  rw [lowerRule_from,Prod.mk.injEq] at ok
  exact ⟨_,.of_fst ok.1,ok.2⟩

theorem lowerRule_ok {cfg : Setting} {rule : Rule} {isStart : Bool} {before after : Registries}
    {sub : Subroutine} (ok : lowerRule cfg rule isStart before = (.ok sub,after)) :
    ∃ object position t,
      Yields (lowerBody cfg rule isStart) (startState object position before) sub t ∧
        t.registries = after :=
  ⟨_,_,lowerRule_started ok⟩

/-- No fault stops the lowering of a rule. -/
theorem lowerRule_faultless (cfg : Setting) (rule : Rule) (isStart : Bool) (registries : Registries)
    (fault : Fault) : (lowerRule cfg rule isStart registries).1 ≠ .error (.internal fault) := by
  obtain ⟨object,position,lowered⟩ := lowerRule_eq cfg rule isStart registries
  have safe : Safe (lowerBody cfg rule isStart) (startState object position registries) _ :=
    lowerBody_safe cfg rule isStart rfl rfl
  rw [lowered]
  unfold Safe at safe
  split at safe
  next sub t run =>
    rw [run]
    exact nofun
  next error t run =>
    rw [run]
    intro raised
    cases raised
    exact safe fault rfl

/-- Lowering an expression above the locals that are taken raises no fault, and when it succeeds
the pointer of the value stack has moved up by one and that of the position stack stands where
it stood: for every expression, table, state of the registries and scope. Hence a rule either
lowers, leaving one value and no position, to a subroutine whose statements can be spelled, or
is refused by an error that is no fault. -/
theorem lower_keeps_stacks_balanced (cfg : Setting) :
    (∀ e caller scope s, Safe (lower cfg e s.values.occupied caller scope) s fun _ t =>
      t.values.pointer = s.values.pointer + 1 ∧ t.positions.pointer = s.positions.pointer) ∧
    ∀ rule isStart registries,
      (∃ sub, (lowerRule cfg rule isStart registries).1 = .ok sub ∧ sub.values.pointer = 0 ∧
        sub.positions.pointer = -1 ∧ ∃ stmts, sub.toStmts cfg.imports = .ok stmts) ∨
      ∃ error, (lowerRule cfg rule isStart registries).1 = .error error ∧
        ∀ fault, error ≠ .internal fault := by
  constructor
  · intro e caller scope s
    refine (lower_tame cfg e _ caller scope s rfl).imp ?_
    rintro result t - ⟨values,positions⟩
    unfold Locals.pointer
    exact ⟨by omega,by omega⟩
  · intro rule isStart registries
    obtain ⟨object,position,lowered⟩ := lowerRule_eq cfg rule isStart registries
    have safe : Safe (lowerBody cfg rule isStart) (startState object position registries) _ :=
      lowerBody_safe cfg rule isStart rfl rfl
    rw [lowered]
    unfold Safe at safe
    split at safe
    next sub t run =>
      rw [run]
      exact .inl ⟨sub,rfl,by simp [Locals.pointer,safe.1],by simp [Locals.pointer,safe.2],
        toStmts_ok sub cfg.imports⟩
    next error t run =>
      rw [run]
      exact .inr ⟨error,rfl,safe⟩

end PegCompiler.Lowering
