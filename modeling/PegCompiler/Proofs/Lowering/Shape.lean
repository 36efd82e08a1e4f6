import PegCompiler.Proofs.Lowering.Growth

/-! The code that lowering emits, as a relation. `Emits` gives for every kind of expression the
code above `base` taken value locals and `depth` taken position locals, with the constants and
methods that its numbers stand for in the final registries. Every successful run of lowering is
an instance, so what holds of emitted code is proved from `Emits` and without the monad. -/
namespace PegCompiler.Lowering

variable {base depth : Nat} {scope : Scope} {s t : State}

def ActionAt (cfg : Setting) (final : Registries) (site : Site) (act : Action) (scope : Scope)
    (index : Nat) : Prop :=
  ∃ ty, cfg.types.node site.id = some ty ∧ (final.userCode.methods .action).get? index =
    some (methodFor act.ns (cfg.imports.spelling ty) act.code (scope.map (passedFor cfg)))

def abandoned (base depth index : Nat) : List Instr :=
  if index = 0 then [.step .leave]
  else [.step (.restore depth),.step (.assign base .failed),.step .leave]

inductive Closes (cfg : Setting) (final : Registries) (base depth count : Nat) (scope : Scope) :
    Option (Site × Action) → List Instr → Prop
  | bundle : Closes cfg final base depth count scope none
      [.step (.assign base (.array ((List.range count).map (base + ·))))]
  | call {site act index} : ActionAt cfg final site act scope index →
      Closes cfg final base depth count scope (some (site,act))
        [.step (.mark depth),.step (.assign base (.callAction index (scope.map (passedFor cfg))))]

def loopBody (base : Nat) (most : Option Bound) (code : List Instr) : List Instr :=
  (most.toList.map fun bound => Instr.brief (.atLeast base bound) .leave) ++ code ++
    [.brief (.failed (base + 1)) .leave,.step (.append base (base + 1))]

def undone (min : Boundary) (depth : Nat) : List Instr :=
  if needsRollback min then [.step (.restore depth)] else []

def shortage (min : Boundary) (base depth : Nat) (least : Bound) : List Instr :=
  if canFail min then
    [.ifThen (.fewer base least) (undone min depth ++ [.step (.assign base .failed)])]
  else []

def negated (isNegative : Bool) (base : Nat) : List Instr :=
  if isNegative then
    [.ifElse (.matched base) [.step (.assign base .failed)] [.step (.assign base .null)]]
  else []

mutual

/-- `Emits cfg final e base depth caller scope code scope'`: `e` becomes `code`, behind which
`scope'` is in scope. `caller` is an action directly around a sequence. -/
inductive Emits (cfg : Setting) (final : Registries) :
    Expr → (base depth : Nat) → Option (Site × Action) → Scope → List Instr → Scope → Prop
  | named {site name body base depth caller scope code inner expected} :
      final.expected.values.get? expected = some (expectation cfg .rule none (some name)) →
      Emits cfg final body base depth none scope code inner →
      Emits cfg final (.named site name body) base depth caller scope
        ([.step .silence,.blank] ++ code ++ [.blank,.step .unsilence,
          .ifThen (.failed base) [.step (.assign base (.reportFailure expected))]]) inner
  | choice_empty {site base depth caller scope} :
      Emits cfg final (.choice site []) base depth caller scope
        [.step (.assign base .failed)] scope
  | choice {site alternatives base depth caller scope code} : alternatives ≠ [] →
      EmitsAlternatives cfg final alternatives base depth 1 scope code →
      Emits cfg final (.choice site alternatives) base depth caller scope
        [.block .choice code] scope
  | action_sequence {site act inner elements base depth caller scope code scope'} :
      Emits cfg final (.sequence inner elements) base depth (some (site,act)) scope code scope' →
      Emits cfg final (.action site act (.sequence inner elements)) base depth caller scope
        code scope
  | action {site act body base depth caller scope code inner index} : body.isSequence = false →
      Emits cfg final body base (depth + 1) none scope code inner →
      ActionAt cfg final site act inner index →
      Emits cfg final (.action site act body) base depth caller scope
        ([.step (.save depth),.blank] ++ code ++ [.blank,.ifThen (.matched base)
          [.step (.mark depth),
            .step (.assign base (.callAction index (inner.map (passedFor cfg))))]]) scope
  | sequence_empty {site base depth caller scope close} :
      Closes cfg final base depth 0 scope caller close →
      Emits cfg final (.sequence site []) base depth caller scope
        ((if caller.isSome then [.step (.save depth)] else []) ++ close) scope
  | sequence {site elements base depth caller scope code inner close} : elements ≠ [] →
      EmitsElements cfg final elements base depth 0 scope code inner →
      Closes cfg final base depth elements.length inner caller close →
      Emits cfg final (.sequence site elements) base depth caller scope
        [.step (.save depth),.block .sequence (code ++ close)] scope
  | labeled {site label body base depth caller scope code inner type} :
      cfg.types.node body.id = some type → Emits cfg final body base depth none scope code inner →
      Emits cfg final (.labeled site label body) base depth caller scope
        code (scope.bind ⟨label,base,type⟩)
  | text {site body base depth caller scope code inner} :
      Emits cfg final body base (depth + 1) none scope code inner →
      Emits cfg final (.text site body) base depth caller scope
        ([.step (.save depth)] ++ code ++
          [.ifThen (.matched base) [.step (.assign base (.textFrom depth))]]) scope
  | optional {site body base depth caller scope code inner} :
      Emits cfg final body base depth none scope code inner →
      Emits cfg final (.optional site body) base depth caller scope
        (code ++ [.brief (.failed base) (.assign base .null)]) scope
  | repeated {site repetition body base depth caller scope code inner least most} :
      boundIn scope repetition.min = some least →
      repetition.max.map (boundIn scope) = most.map some →
      Emits cfg final body (base + 1)
        (if needsRollback repetition.min then depth + 1 else depth) none scope code inner →
      Emits cfg final (.repeated site repetition body) base depth caller scope
        ((if needsRollback repetition.min then [.step (.save depth)] else []) ++
          [.step (.assign base (.array [])),.block .range (loopBody base most code)] ++
          shortage repetition.min base depth least) scope
  | lookahead {site isNegative body base depth caller scope code inner} :
      Emits cfg final body base (depth + 1) none scope code inner →
      Emits cfg final (.lookahead site isNegative body) base depth caller scope
        ([.step (.save depth),.step .silence] ++ code ++
          [.step .unsilence,.step (.restore depth)] ++ negated isNegative base) scope
  | predicate {site isNegative code ns base depth caller scope index} :
      (final.userCode.methods .predicate).get? index =
        some (methodFor ns "boolean" code (scope.map (passedFor cfg))) →
      Emits cfg final (.predicate site isNegative code ns) base depth caller scope
        [.ifElse (.holds isNegative index (scope.map (passedFor cfg)))
          [.step (.assign base .null)] [.step (.assign base .failed)]] scope
  | ruleRef {site name base depth caller scope} :
      Emits cfg final (.ruleRef site name) base depth caller scope
        [.step (.assign base (.callRule name))] scope
  | literal {site value ignoreCase base depth caller scope expected} :
      final.expected.values.get? expected = some (expectation cfg .literal
        (some (if ignoreCase then Text.lowercase value else value))
        (some (Target.stringLiteral value))) →
      Emits cfg final (.literal site value ignoreCase) base depth caller scope
        [.step (.assign base (.matchLiteral value expected ignoreCase))] scope
  | charClass {site parts inverted ignoreCase rawText base depth caller scope pattern expected} :
      final.patterns.values.get? pattern = some (patternInitializer
        (cfg.imports.className "Pattern") (classPattern parts) ignoreCase) →
      final.expected.values.get? expected =
        some (expectation cfg .pattern (some (classShown parts inverted)) (some rawText)) →
      Emits cfg final (.charClass site parts inverted ignoreCase rawText) base depth caller scope
        [.step (.assign base (.matchClass pattern expected inverted))] scope
  | any {site base depth caller scope} :
      Emits cfg final (.any site) base depth caller scope [.step (.assign base .matchAny)] scope

inductive EmitsAlternatives (cfg : Setting) (final : Registries) :
    List Expr → (base depth n : Nat) → Scope → List Instr → Prop
  | last {e base depth n scope code inner} : Emits cfg final e base depth none scope code inner →
      EmitsAlternatives cfg final [e] base depth n scope (.alternative n :: code)
  | cons {e rest base depth n scope code inner others} : rest ≠ [] →
      Emits cfg final e base depth none scope code inner →
      EmitsAlternatives cfg final rest base depth (n + 1) scope others →
      EmitsAlternatives cfg final (e :: rest) base depth n scope
        (.alternative n :: code ++ [.brief (.matched base) .leave,.blank] ++ others)

/-- Elements of a sequence from the one at `index` on, with their results one above the other;
the position of the sequence is saved in the local `depth`. -/
inductive EmitsElements (cfg : Setting) (final : Registries) :
    List Expr → (base depth index : Nat) → Scope → List Instr → Scope → Prop
  | nil {base depth index scope} : EmitsElements cfg final [] base depth index scope [] scope
  | cons {e rest base depth index scope code inner others scope'} :
      Emits cfg final e (base + index) (depth + 1) none scope code inner →
      EmitsElements cfg final rest base depth (index + 1) inner others scope' →
      EmitsElements cfg final (e :: rest) base depth index scope
        (.element (index + 1) :: code ++ [.ifThen (.failed (base + index))
          (abandoned base depth index),.blank] ++ others) scope'

end

private theorem expected_found {final : Registries} (pool : ConstantPool) (initializer : String)
    (kept : (pool.add initializer).2.values.entries <+: final.expected.values.entries) :
    final.expected.values.get? (pool.add initializer).1 = some initializer :=
  Interner.get?_of_prefix kept (pool.values.get?_intern initializer)

private theorem pattern_found {final : Registries} (pool : ConstantPool) (initializer : String)
    (kept : (pool.add initializer).2.values.entries <+: final.patterns.values.entries) :
    final.patterns.values.get? (pool.add initializer).1 = some initializer :=
  Interner.get?_of_prefix kept (pool.values.get?_intern initializer)

private theorem actionCall_at (cfg : Setting) {final : Registries} {site : Site} {act : Action}
    {value : Value}
    (ok : Yields (actionCall cfg site act (scope.map (passedFor cfg))) s value t)
    (kept : t.registries.Within final) :
    t.values = s.values ∧ t.positions = s.positions ∧ ∃ index,
      ActionAt cfg final site act scope index ∧
        value = .callAction index (scope.map (passedFor cfg)) := by
  simp only [yields_actionCall,yields_addMethod] at ok
  obtain ⟨ty,typed,index,⟨rfl,rfl⟩,rfl⟩ := ok
  exact ⟨rfl,rfl,_,⟨ty,typed,Interner.get?_of_prefix (kept.methods .action)
    (UserCode.get?_add _ _ _)⟩,rfl⟩

theorem closeSequence_closes (cfg : Setting) {final : Registries}
    {caller : Option (Site × Action)} {count : Nat} {code : List Instr}
    (ok : Yields (closeSequence cfg caller count scope) s code t)
    (taken : s.values.occupied = base + count)
    (saved : caller.isSome → s.positions.occupied = depth + 1)
    (kept : t.registries.Within final) :
    Closes cfg final base depth count scope caller code := by
  have first : s.values.occupied - count = base := by omega
  cases caller with
  | some called =>
    simp only [closeSequence,yields_bind,yields_popValues,yields_arguments,yields_markPosition,
      yields_pushValue,yields_pure,first] at ok
    obtain ⟨_,_,⟨-,-,rfl⟩,_,_,⟨rfl,rfl⟩,_,_,⟨_,position,rfl,rfl⟩,value,u,called,_,_,⟨rfl,rfl⟩,
      rfl,rfl⟩ := ok
    obtain ⟨values,-,index,registered,rfl⟩ := actionCall_at cfg called kept
    rw [saved rfl,Nat.add_right_cancel_iff] at position
    rw [values,← position]
    exact .call registered
  | none =>
    simp only [closeSequence,yields_bind,yields_popValues,yields_pushValue,first] at ok
    obtain ⟨_,_,⟨-,rfl,rfl⟩,_,_,⟨rfl,rfl⟩,ok⟩ := ok
    have same : code = [.step (.assign base (.array ((List.range count).map (base + ·))))] := by
      split at ok
      · simp only [yields_bind,yields_pure] at ok
        obtain ⟨_,_,-,same,-⟩ := ok
        exact same
      · exact ((yields_pure _ _ _ _).mp ok).1
    rw [same]
    exact .bundle

private theorem abandon_eq {index first : Nat} {code : List Instr}
    (ok : Yields (abandon index first) s code t) (saved : s.positions.occupied = depth + 1) :
    code = abandoned first depth index := by
  unfold abandon at ok
  unfold abandoned
  split at ok
  next atFirst =>
    rw [if_pos atFirst]
    exact ((yields_pure _ _ _ _).mp ok).1
  next behind =>
    simp only [yields_bind,yields_restorePosition,yields_reclaimPosition,yields_pure,saved,
      Nat.add_right_cancel_iff] at ok
    obtain ⟨_,_,⟨_,rfl,rfl,rfl⟩,_,_,-,rfl,-⟩ := ok
    rw [if_neg behind]

private def Shaped (cfg : Setting) (final : Registries) (e : Expr) : Prop :=
  ∀ {base caller scope s result t}, Yields (lower cfg e base caller scope) s result t →
    s.values.occupied = base → t.registries.Within final →
    Emits cfg final e base s.positions.occupied caller scope result.1 result.2

private theorem alternatives_shaped (cfg : Setting) {final : Registries} {alternatives : List Expr}
    (all : ∀ e ∈ alternatives, Shaped cfg final e) (some : alternatives ≠ []) {n : Nat}
    {code : List Instr} (ok : Yields (lowerAlternatives cfg alternatives base n scope) s code t)
    (taken : s.values.occupied = base) (kept : t.registries.Within final) :
    EmitsAlternatives cfg final alternatives base s.positions.occupied n scope code := by
  induction alternatives generalizing n s code with
  | nil => exact absurd rfl some
  | cons e rest ih =>
    rw [lowerAlternatives,yields_bind] at ok
    obtain ⟨result,u,first,ok⟩ := ok
    have balanced := lower_balanced cfg first taken
    cases rest with
    | nil =>
      obtain ⟨rfl,rfl⟩ := (yields_pure _ _ _ _).mp ok
      exact .last (all e (by simp) first taken kept)
    | cons next others =>
      simp only [List.isEmpty_cons,Bool.false_eq_true,if_false,yields_bind,yields_popValue,
        yields_pure,balanced.1,Nat.add_right_cancel_iff] at ok
      obtain ⟨_,_,⟨rfl,rfl⟩,code',v,behind,rfl,rfl⟩ := ok
      have grown := (grows_alternatives cfg _ _ _ _).within behind
      have tail := ih (fun e member => all e (List.mem_cons_of_mem _ member)) (by simp) behind rfl
      rw [show _ = s.positions.occupied from balanced.2] at tail
      exact .cons (by simp) (all e (by simp) first taken (grown.trans kept)) tail

private theorem elements_shaped (cfg : Setting) {final : Registries} {elements : List Expr}
    (all : ∀ e ∈ elements, Shaped cfg final e) {index first : Nat}
    {result : List Instr × Scope}
    (ok : Yields (lowerElements cfg elements base index first scope) s result t)
    (taken : s.values.occupied = base + index) (atFirst : index ≠ 0 → first = base)
    (saved : elements ≠ [] → s.positions.occupied = depth + 1) (kept : t.registries.Within final) :
    EmitsElements cfg final elements base depth index scope result.1 result.2 ∧
      t.values.occupied = base + index + elements.length ∧
      t.positions.occupied = s.positions.occupied := by
  induction elements generalizing index first scope s result with
  | nil =>
    rw [lowerElements,yields_pure] at ok
    obtain ⟨rfl,rfl⟩ := ok
    exact ⟨.nil,taken,rfl⟩
  | cons e rest ih =>
    rw [lowerElements,yields_bind] at ok
    obtain ⟨head,u,lowered,ok⟩ := ok
    have balanced := lower_balanced cfg lowered taken
    have position : u.positions.occupied = depth + 1 := balanced.2.trans (saved (by simp))
    simp only [yields_bind,yields_topValue,yields_pure,balanced.1,Nat.add_right_cancel_iff] at ok
    obtain ⟨_,_,⟨rfl,rfl⟩,onFail,v,abandons,others,w,behind,rfl,rfl⟩ := ok
    have firstLocal : (if index = 0 then base + index else first) = base := by
      split
      next zero => rw [zero,Nat.add_zero]
      next behindFirst => exact atFirst behindFirst
    rw [firstLocal] at abandons behind
    have same := (abandon_safe index base (by omega)).of_yields abandons
    have values : v.values.occupied = base + (index + 1) := by rw [same.1,balanced.1]; omega
    have tail := ih (fun e member => all e (List.mem_cons_of_mem _ member)) behind values
      (fun _ => rfl) (fun _ => same.2.trans position)
    have grown := (grows_elements cfg _ _ _ _ _).within behind
    have element := all e (by simp) lowered taken
      (((grows_abandon _ _).within abandons).trans (grown.trans kept))
    rw [saved (by simp)] at element
    rw [abandon_eq abandons position]
    refine ⟨.cons element tail.1,?_,?_⟩
    · rw [tail.2.1,List.length_cons]
      omega
    · rw [tail.2.2,same.2,balanced.2]

private theorem named_shaped (cfg : Setting) {final : Registries} {site : Site} {name : String}
    {body : Expr} (inner : Shaped cfg final body) : Shaped cfg final (.named site name body) := by
  intro base caller scope s result t ok taken kept
  simp only [lower,lowerNamed,expected_eq,yields_bind,yields_expectBase,yields_ofFault_ok,
    yields_addExpected] at ok
  obtain ⟨_,_,⟨-,rfl⟩,_,_,⟨rfl,rfl⟩,_,_,⟨rfl,rfl⟩,⟨code,after⟩,u,lowered,ok⟩ := ok
  have balanced := lower_balanced cfg lowered (by exact taken)
  simp only [yields_topValue,yields_replaceValue,yields_pure,balanced.1,
    Nat.add_right_cancel_iff] at ok
  obtain ⟨_,_,⟨rfl,rfl⟩,_,_,⟨_,again,rfl,rfl⟩,rfl,rfl⟩ := ok
  obtain rfl := Nat.add_right_cancel (balanced.1.symm.trans again)
  have grown := (grows_lower cfg _ _ _ _).within lowered
  exact .named (expected_found _ _ (grown.trans kept).expected) (inner lowered (by exact taken) kept)

private theorem action_shaped (cfg : Setting) {final : Registries} {site : Site} {act : Action}
    {body : Expr} (inner : Shaped cfg final body) : Shaped cfg final (.action site act body) := by
  intro base caller scope s result t ok taken kept
  simp only [lower,yields_bind,yields_expectBase] at ok
  obtain ⟨_,_,⟨-,rfl⟩,ok⟩ := ok
  split at ok
  next isSequence =>
    simp only [yields_bind,yields_pure] at ok
    obtain ⟨⟨code,after⟩,u,lowered,rfl,rfl⟩ := ok
    cases body with
    | sequence site' elements =>
      have called := inner lowered taken kept
      exact .action_sequence called
    | _ => simp [Expr.isSequence] at isSequence
  next plain =>
    simp only [lowerAction,yields_bind,yields_savePosition,yields_arguments] at ok
    obtain ⟨_,_,⟨_,_,⟨rfl,rfl⟩,⟨code,after⟩,u,lowered,_,_,⟨rfl,rfl⟩,value,v,called,ok⟩,done⟩ := ok
    obtain ⟨rfl,rfl⟩ := (yields_pure _ _ _ _).mp done
    have balanced := lower_balanced cfg lowered (by exact taken)
    have grown := (grows_actionCall cfg _ _ _).within called
    simp only [yields_topValue,yields_markPosition,yields_replaceValue,yields_pure] at ok
    obtain ⟨_,_,⟨top,rfl⟩,_,_,⟨_,position,rfl,rfl⟩,_,_,⟨_,again,rfl,rfl⟩,rfl,rfl⟩ := ok
    obtain ⟨values,positions,index,registered,rfl⟩ := actionCall_at cfg called kept
    rw [values,balanced.1,Nat.add_right_cancel_iff] at top again
    rw [positions,balanced.2] at position
    obtain rfl := Nat.add_right_cancel position
    subst top again
    exact .action (by simpa using plain) (inner lowered (by exact taken) (grown.trans kept)) registered

private theorem sequence_shaped (cfg : Setting) {final : Registries} {site : Site}
    {elements : List Expr} (all : ∀ e ∈ elements, Shaped cfg final e) :
    Shaped cfg final (.sequence site elements) := by
  intro base caller scope s result t ok taken kept
  simp only [lower,yields_bind,yields_expectBase] at ok
  obtain ⟨_,_,⟨-,rfl⟩,ok⟩ := ok
  cases elements with
  | nil =>
    simp only [List.isEmpty_nil,Bool.not_true,Bool.false_or,if_true,lowerElements] at ok
    cases caller with
    | none =>
      simp only [Option.isSome_none,Bool.false_eq_true,if_false,yields_bind,yields_pure] at ok
      obtain ⟨_,_,⟨rfl,rfl⟩,_,_,⟨rfl,rfl⟩,close,v,closed,rfl,rfl⟩ := ok
      exact .sequence_empty (closeSequence_closes cfg closed (by simpa using taken) (by simp) kept)
    | some called =>
      simp only [Option.isSome_some,if_true,yields_bind,yields_savePosition,yields_pure] at ok
      obtain ⟨_,_,⟨rfl,rfl⟩,_,_,⟨rfl,rfl⟩,_,_,⟨rfl,rfl⟩,close,v,closed,rfl,rfl⟩ := ok
      exact .sequence_empty
        (closeSequence_closes cfg closed (by simpa using taken) (fun _ => rfl) kept)
  | cons e rest =>
    simp only [List.isEmpty_cons,Bool.not_false,Bool.true_or,if_true,Bool.false_eq_true,if_false,
      yields_bind,yields_savePosition,yields_pure] at ok
    obtain ⟨_,_,⟨rfl,rfl⟩,_,_,⟨rfl,rfl⟩,⟨code,after⟩,u,lowered,close,v,closed,rfl,rfl⟩ := ok
    have grown := (grows_closeSequence cfg _ _ _).within closed
    have shaped := elements_shaped cfg all lowered (by exact taken) (by simp)
      (fun _ => rfl) (grown.trans kept)
    have closes := closeSequence_closes cfg closed (by simpa using shaped.2.1)
      (fun _ => shaped.2.2) kept
    exact .sequence (by simp) shaped.1 closes

private theorem text_shaped (cfg : Setting) {final : Registries} {site : Site} {body : Expr}
    (inner : Shaped cfg final body) : Shaped cfg final (.text site body) := by
  intro base caller scope s result t ok taken kept
  simp only [lower,lowerText,yields_bind,yields_expectBase,yields_savePosition,yields_map] at ok
  obtain ⟨_,_,⟨-,rfl⟩,_,_,⟨_,_,⟨rfl,rfl⟩,_,u,⟨⟨code,after⟩,lowered,rfl⟩,ok⟩,done⟩ := ok
  obtain ⟨rfl,rfl⟩ := (yields_pure _ _ _ _).mp done
  have balanced := lower_balanced cfg lowered (by exact taken)
  simp only [yields_popValue,yields_popPosition,yields_pushValue,yields_pure] at ok
  obtain ⟨_,_,⟨top,rfl⟩,_,_,⟨position,rfl⟩,_,_,⟨rfl,rfl⟩,rfl,rfl⟩ := ok
  obtain rfl := Nat.add_right_cancel (balanced.1.symm.trans top)
  obtain rfl := Nat.add_right_cancel (balanced.2.symm.trans position)
  exact .text (inner lowered (by exact taken) kept)

private theorem optional_shaped (cfg : Setting) {final : Registries} {site : Site} {body : Expr}
    (inner : Shaped cfg final body) : Shaped cfg final (.optional site body) := by
  intro base caller scope s result t ok taken kept
  simp only [lower,lowerOptional,yields_bind,yields_expectBase,yields_map] at ok
  obtain ⟨_,_,⟨-,rfl⟩,_,_,⟨_,u,⟨⟨code,after⟩,lowered,rfl⟩,ok⟩,done⟩ := ok
  obtain ⟨rfl,rfl⟩ := (yields_pure _ _ _ _).mp done
  have balanced := lower_balanced cfg lowered taken
  simp only [yields_popValue,yields_assignNext,yields_pure] at ok
  obtain ⟨_,_,⟨top,rfl⟩,_,_,⟨rfl,rfl⟩,rfl,rfl⟩ := ok
  obtain rfl := Nat.add_right_cancel (balanced.1.symm.trans top)
  exact .optional (inner lowered taken kept)

private theorem lookahead_shaped (cfg : Setting) {final : Registries} {site : Site}
    {isNegative : Bool} {body : Expr} (inner : Shaped cfg final body) :
    Shaped cfg final (.lookahead site isNegative body) := by
  intro base caller scope s result t ok taken kept
  simp only [lower,lowerLookahead,yields_bind,yields_expectBase,yields_savePosition,yields_map,
    yields_restorePosition] at ok
  obtain ⟨_,_,⟨-,rfl⟩,_,_,⟨_,_,⟨rfl,rfl⟩,_,u,⟨⟨code,after⟩,lowered,rfl⟩,_,_,
    ⟨_,position,rfl,rfl⟩,ok⟩,done⟩ := ok
  obtain ⟨rfl,rfl⟩ := (yields_pure _ _ _ _).mp done
  have balanced := lower_balanced cfg lowered (by exact taken)
  obtain rfl := Nat.add_right_cancel (balanced.2.symm.trans position)
  cases isNegative with
  | false =>
    obtain ⟨rfl,rfl⟩ := (yields_pure _ _ _ _).mp ok
    have ahead : Emits cfg final (.lookahead site false body) base _ caller scope _ scope :=
      .lookahead (inner lowered (by exact taken) kept)
    rwa [show negated false base = [] from rfl,List.append_nil] at ahead
  | true =>
    simp only [if_true,yields_bind,yields_popValue,yields_pushValue,yields_replaceValue,
      yields_pure] at ok
    obtain ⟨_,_,⟨top,rfl⟩,_,_,⟨rfl,rfl⟩,_,_,⟨_,again,rfl,rfl⟩,rfl,rfl⟩ := ok
    obtain rfl := Nat.add_right_cancel (balanced.1.symm.trans top)
    obtain rfl := Nat.add_right_cancel again
    exact .lookahead (inner lowered (by exact taken) kept)

private theorem repeated_shaped (cfg : Setting) {final : Registries} {site : Site}
    {repetition : Repetition} {body : Expr} (inner : Shaped cfg final body) :
    Shaped cfg final (.repeated site repetition body) := by
  intro base caller scope s result t ok taken kept
  simp only [lower,lowerRepeated,yields_bind,yields_expectBase,yields_boundOf,yields_boundsOf] at ok
  obtain ⟨_,_,⟨-,rfl⟩,_,_,⟨least,_,⟨lower,rfl⟩,most,_,⟨upper,rfl⟩,ok⟩,done⟩ := ok
  obtain ⟨rfl,rfl⟩ := (yields_pure _ _ _ _).mp done
  cases rollback : needsRollback repetition.min with
  | true =>
    have failing := canFail_of_needsRollback rollback
    simp only [rollback,failing,if_true,yields_bind,yields_savePosition,yields_pure,
      yields_pushValue,yields_topValue,yields_map] at ok
    obtain ⟨_,_,⟨rfl,rfl⟩,_,_,⟨rfl,rfl⟩,_,_,⟨rfl,rfl⟩,_,_,⟨list,rfl⟩,_,u,
      ⟨⟨code,after⟩,lowered,rfl⟩,ok⟩ := ok
    obtain rfl := taken.symm.trans (Nat.add_right_cancel list)
    have balanced := lower_balanced cfg lowered list
    simp only [yields_popValue,yields_restorePosition,yields_replaceValue] at ok
    obtain ⟨_,_,⟨item,rfl⟩,_,_,⟨_,position,rfl,rfl⟩,_,_,⟨rfl,rfl⟩,_,_,⟨_,again,rfl,rfl⟩,
      rfl,rfl⟩ := ok
    obtain rfl := Nat.add_right_cancel (balanced.1.symm.trans item)
    obtain rfl := Nat.add_right_cancel (balanced.2.symm.trans position)
    obtain rfl := Nat.add_right_cancel again
    have shaped := inner lowered list kept
    have whole : Emits cfg final (.repeated site repetition body) base _ caller scope _ scope :=
      .repeated lower upper (by rwa [rollback])
    simpa [rollback,failing,taken,shortage,undone,loopBody] using whole
  | false =>
    simp only [rollback,Bool.false_eq_true,if_false,yields_bind,yields_pure,yields_pushValue,
      yields_topValue,yields_map] at ok
    obtain ⟨_,_,⟨rfl,rfl⟩,_,_,⟨rfl,rfl⟩,_,_,⟨list,rfl⟩,_,u,⟨⟨code,after⟩,lowered,rfl⟩,ok⟩ := ok
    obtain rfl := taken.symm.trans (Nat.add_right_cancel list)
    have balanced := lower_balanced cfg lowered list
    simp only [yields_popValue] at ok
    obtain ⟨_,_,⟨item,rfl⟩,ok⟩ := ok
    obtain rfl := Nat.add_right_cancel (balanced.1.symm.trans item)
    have whole (kept : u.registries.Within final) :
        Emits cfg final (.repeated site repetition body) base _ caller scope _ scope :=
      .repeated lower upper (by rw [rollback]; exact inner lowered list kept)
    split at ok
    next failing =>
      simp only [yields_bind,yields_replaceValue,yields_pure] at ok
      obtain ⟨_,_,⟨rfl,rfl⟩,_,_,⟨_,again,rfl,rfl⟩,rfl,rfl⟩ := ok
      obtain rfl := Nat.add_right_cancel again
      simpa [rollback,failing,taken,shortage,undone,loopBody] using whole kept
    next failing =>
      obtain ⟨rfl,rfl⟩ := (yields_pure _ _ _ _).mp ok
      simpa [rollback,failing,taken,shortage,undone,loopBody] using whole kept

private theorem choice_shaped (cfg : Setting) {final : Registries} {site : Site}
    {alternatives : List Expr} (all : ∀ e ∈ alternatives, Shaped cfg final e) :
    Shaped cfg final (.choice site alternatives) := by
  intro base caller scope s result t ok taken kept
  simp only [lower,yields_bind,yields_expectBase] at ok
  obtain ⟨_,_,⟨-,rfl⟩,ok⟩ := ok
  cases alternatives with
  | nil =>
    simp only [List.isEmpty_nil,if_true,yields_bind,yields_pushValue,yields_pure,taken] at ok
    obtain ⟨_,_,⟨rfl,rfl⟩,rfl,rfl⟩ := ok
    exact .choice_empty
  | cons e rest =>
    simp only [List.isEmpty_cons,Bool.false_eq_true,if_false,yields_bind,yields_pure] at ok
    obtain ⟨code,u,lowered,rfl,rfl⟩ := ok
    exact .choice (by simp) (alternatives_shaped cfg all (by simp) lowered taken kept)

/-- Lowering emits what `Emits` describes, in the registries it leaves and in all that extend
them. -/
theorem lower_emits (cfg : Setting) {final : Registries} (e : Expr) {caller : Option (Site × Action)}
    {result : List Instr × Scope} (ok : Yields (lower cfg e base caller scope) s result t)
    (taken : s.values.occupied = base) (kept : t.registries.Within final) :
    Emits cfg final e base s.positions.occupied caller scope result.1 result.2 := by
  suffices shaped : Shaped cfg final e from shaped ok taken kept
  clear ok taken kept
  induction e using Expr.induction with
  | named site name body ih => exact named_shaped cfg ih
  | choice site alternatives ih => exact choice_shaped cfg ih
  | action site act body ih => exact action_shaped cfg ih
  | sequence site elements ih => exact sequence_shaped cfg ih
  | labeled site label body ih =>
    intro base caller scope s result t ok taken kept
    simp only [lower,yields_bind,yields_expectBase,yields_typeOf,yields_pure] at ok
    obtain ⟨_,_,⟨-,rfl⟩,_,_,⟨typed,rfl⟩,⟨code,after⟩,u,lowered,rfl,rfl⟩ := ok
    have labelled := ih lowered taken kept
    exact .labeled typed labelled
  | text site body ih => exact text_shaped cfg ih
  | optional site body ih => exact optional_shaped cfg ih
  | repeated site repetition body ih => exact repeated_shaped cfg ih
  | lookahead site isNegative body ih => exact lookahead_shaped cfg ih
  | predicate site isNegative code ns =>
    intro base caller scope s result t ok taken kept
    simp only [lower,lowerPredicate,yields_bind,yields_expectBase,yields_arguments,
      yields_addMethod,yields_pushValue,yields_replaceValue,yields_pure] at ok
    obtain ⟨_,_,⟨rfl,rfl⟩,_,_,⟨_,_,⟨rfl,rfl⟩,_,_,⟨rfl,rfl⟩,_,_,⟨rfl,rfl⟩,_,_,⟨_,again,rfl,rfl⟩,
      rfl,rfl⟩,rfl,rfl⟩ := ok
    obtain rfl := Nat.add_right_cancel again
    exact .predicate (Interner.get?_of_prefix (kept.methods .predicate) (UserCode.get?_add _ _ _))
  | ruleRef site name =>
    intro base caller scope s result t ok taken kept
    simp only [lower,yields_bind,yields_expectBase,yields_pushValue,yields_pure] at ok
    obtain ⟨_,_,⟨rfl,rfl⟩,_,_,⟨rfl,rfl⟩,rfl,rfl⟩ := ok
    exact .ruleRef
  | literal site value ignoreCase =>
    intro base caller scope s result t ok taken kept
    simp only [lower,lowerLiteral,expected_eq,yields_bind,yields_expectBase,yields_ofFault_ok,
      yields_addExpected,yields_pushValue,yields_pure] at ok
    obtain ⟨_,_,⟨rfl,rfl⟩,_,_,⟨_,_,⟨rfl,rfl⟩,_,_,⟨rfl,rfl⟩,_,_,⟨rfl,rfl⟩,rfl,rfl⟩,rfl,rfl⟩ := ok
    exact .literal (expected_found _ _ kept.expected)
  | charClass site parts inverted ignoreCase rawText =>
    intro base caller scope s result t ok taken kept
    simp only [lower,lowerClass,expected_eq,pattern_eq,yields_bind,yields_expectBase,
      yields_ofFault_ok,yields_addPattern,yields_addExpected,yields_pushValue,yields_pure] at ok
    obtain ⟨_,_,⟨rfl,rfl⟩,_,_,⟨_,_,⟨rfl,rfl⟩,_,_,⟨rfl,rfl⟩,_,_,⟨rfl,rfl⟩,_,_,⟨rfl,rfl⟩,_,_,
      ⟨rfl,rfl⟩,rfl,rfl⟩,rfl,rfl⟩ := ok
    exact .charClass (pattern_found _ _ kept.patterns) (expected_found _ _ kept.expected)
  | any site =>
    intro base caller scope s result t ok taken kept
    simp only [lower,yields_bind,yields_expectBase,yields_pushValue,yields_pure] at ok
    obtain ⟨_,_,⟨rfl,rfl⟩,_,_,⟨rfl,rfl⟩,rfl,rfl⟩ := ok
    exact .any

/-- Lowering elements behind the first `index` of a sequence emits what `EmitsElements` describes. -/
theorem lowerElements_emits (cfg : Setting) {final : Registries} {elements : List Expr}
    {index first : Nat} {result : List Instr × Scope}
    (ok : Yields (lowerElements cfg elements base index first scope) s result t)
    (taken : s.values.occupied = base + index) (atFirst : index ≠ 0 → first = base)
    (saved : elements ≠ [] → s.positions.occupied = depth + 1) (kept : t.registries.Within final) :
    EmitsElements cfg final elements base depth index scope result.1 result.2 ∧
      t.values.occupied = base + index + elements.length ∧
      t.positions.occupied = s.positions.occupied :=
  elements_shaped cfg (fun e _ _ _ _ _ _ _ => lower_emits cfg e) ok taken atFirst saved kept

end PegCompiler.Lowering
