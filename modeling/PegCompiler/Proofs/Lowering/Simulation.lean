import PegCompiler.Proofs.Lowering.Repetition
import PegCompiler.Proofs.Lowering.Shape

/-! Emitted code computes what its expression means, for every kind of expression. Whether an
expression that fails has moved on matters where the code does not go back, so parsers are taken
to fail in place. -/
namespace PegCompiler.Semantics

open Lowering

variable {ω π : Type}

section Expressions

variable {cfg : Setting} {c : Context ω π} {call : String → Parser ω π} {base depth : Nat}
  {scope : Scope} {code : List Instr} {site : Site} {body : Expr}

private theorem named_simulates (implements : c.methods.Implement c.runtime) {name : String}
    {expected : Nat} {initializer : String}
    (registered : c.code.expected.values.get? expected = some initializer)
    (inner : Simulates cfg c call body base depth scope code) :
    Simulates cfg c call (.named site name body) base depth scope
      ([.step .silence,.blank] ++ code ++ [.blank,.step .unsilence,
        .ifThen (.failed base) [.step (.assign base (.reportFailure expected))]]) := by
  intro m labels held
  have front := @inner { m with silent := m.silent + 1 } labels (held.of_values fun _ _ => rfl)
  refine .silence (.blank ?_)
  refine .append (fun o q o' q' => o' = o ∧ q' = q) front (Nat.le_refl _) (Nat.le_refl _)
    (fun u frame ended => ?_) ?_
  · refine .blank (.unsilence (.ifFailed (fun failed => ?_) fun d _ => .nil))
    rw [show u.values base = .failed from failed]
    refine .assign_only fun o s => ?_
    simp only [ValueIs,registered,Option.some.injEq,exists_eq_left',implements.fail _ _ _ _]
  · intro o q
    constructor
    · rintro ⟨_,_,ended,rfl,rfl⟩
      exact .named ended
    · intro ended
      cases ended with
      | named ended => exact ⟨o,q,ended,rfl,rfl⟩

/-- The inner code of an expression that first saves its position, and what its end says about that
position. -/
private theorem Simulates.saved (inner : Simulates cfg c call body base (depth + 1) scope code)
    {m : Machine ω π} {labels : Labels ω} (held : Represents cfg m scope labels) :
    Meets c ToEnd base (depth + 1) code (m.savePosition depth)
      (Eval (c.runtime.meaning cfg) call body labels m.current) :=
  @inner (m.savePosition depth) labels (held.of_values fun _ _ => rfl)

private theorem saved_position {m u : Machine ω π}
    (kept : ∀ position < depth + 1, u.positions position = (m.savePosition depth).positions position) :
    u.positions depth = m.current := by
  rw [kept depth (Nat.lt_succ_self depth),Machine.savePosition_self]

private theorem text_simulates (implements : c.methods.Implement c.runtime)
    (inner : Simulates cfg c call body base (depth + 1) scope code) :
    Simulates cfg c call (.text site body) base depth scope
      ([.step (.save depth)] ++ code ++
        [.ifThen (.matched base) [.step (.assign base (.textFrom depth))]]) := by
  intro m labels held
  refine .save (.append (fun o q o' q' => q' = q ∧
    o' = o.elim .failed fun _ => .matched (.text (c.runtime.slice m.current q)))
    (inner.saved held) (Nat.le_refl _) (Nat.le_succ _) (fun u frame ended => ?_) ?_)
  · refine .ifMatched (fun d matched => ?_) (fun failed => ?_)
    · rw [matched,← saved_position frame.positions]
      exact Meets.congr (.assign_only fun o s => implements.toText _ _ o s) fun _ _ => and_comm
    · rw [failed]
      exact Meets.nil.congr fun _ _ => by rw [failed,and_comm,Outcome.elim]
  · intro o q
    constructor
    · rintro ⟨_ | d,_,ended,rfl,rfl⟩
      · exact .text_failed ended
      · exact .text_matched ended
    · intro ended
      cases ended with
      | text_matched ended => exact ⟨_,_,ended,rfl,rfl⟩
      | text_failed ended => exact ⟨_,_,ended,rfl,rfl⟩

private theorem optional_simulates (inner : Simulates cfg c call body base depth scope code)
    (inPlace : ∀ labels, FailsInPlace (Eval (c.runtime.meaning cfg) call body labels)) :
    Simulates cfg c call (.optional site body) base depth scope
      (code ++ [.brief (.failed base) (.assign base .null)]) := by
  intro m labels held
  refine .append (fun o q o' q' => q' = q ∧ o' = o.elim (.matched .null) .matched)
    (inner held) (Nat.le_refl _) (Nat.le_refl _) (fun u frame ended => ?_) ?_
  · refine .brief (.ifFailed (fun failed => ?_) (fun d matched => ?_))
    · rw [failed]
      exact Meets.congr (.assign_only fun _ _ => Iff.rfl) fun _ _ => and_comm
    · rw [matched]
      exact Meets.nil.congr fun _ _ => by rw [matched,and_comm,Outcome.elim]
  · intro o q
    constructor
    · rintro ⟨_ | d,_,ended,rfl,rfl⟩
      · obtain rfl := inPlace _ _ _ ended
        exact .optional_absent ended
      · exact .optional_present ended
    · intro ended
      cases ended with
      | optional_present ended => exact ⟨_,_,ended,rfl,rfl⟩
      | optional_absent ended =>
        obtain rfl := inPlace _ _ _ ended
        exact ⟨_,_,ended,rfl,rfl⟩

private theorem lookahead_simulates {isNegative : Bool}
    (inner : Simulates cfg c call body base (depth + 1) scope code) :
    Simulates cfg c call (.lookahead site isNegative body) base depth scope
      ([.step (.save depth),.step .silence] ++ code ++
        [.step .unsilence,.step (.restore depth)] ++ negated isNegative base) := by
  intro m labels held
  have front := @inner { m.savePosition depth with silent := m.silent + 1 } labels
    (held.of_values fun _ _ => rfl)
  rw [List.append_assoc]
  refine .save (.silence (.append (fun o _ o' q' => q' = m.current ∧ o' = match isNegative,o with
    | false,o => o
    | true,.failed => .matched .null
    | true,.matched _ => .failed) front (Nat.le_refl _) (Nat.le_succ _)
    (fun u frame ended => ?_) ?_))
  · have position : u.positions depth = m.current :=
      saved_position frame.positions
    rw [← position]
    refine .unsilence (.restore ?_)
    cases isNegative with
    | false => exact Meets.nil.congr fun _ _ => and_comm
    | true =>
      refine .elseMatched (fun d matched => ?_) (fun failed => ?_)
      · rw [show u.values base = .matched d from matched]
        exact Meets.congr (.assign_only fun _ _ => Iff.rfl) fun _ _ => and_comm
      · rw [show u.values base = .failed from failed]
        exact Meets.congr (.assign_only fun _ _ => Iff.rfl) fun _ _ => and_comm
  · intro o q
    constructor
    · rintro ⟨o',_,ended,rfl,rfl⟩
      cases isNegative with
      | false => exact .and ended
      | true =>
        cases o' with
        | failed => exact .not_matched ended
        | matched d => exact .not_failed ended
    · intro ended
      cases ended with
      | and ended => exact ⟨_,_,ended,rfl,rfl⟩
      | not_matched ended => exact ⟨_,_,ended,rfl,rfl⟩
      | not_failed ended => exact ⟨_,_,ended,rfl,rfl⟩

/-- The value of a call of an action is what the action gives for the labels in scope and the range
from the mark to the current position. -/
private theorem action_value {act : Action} {index : Nat} {m : Machine ω π} {labels : Labels ω}
    (registered : ActionAt cfg c.code site act scope index) (held : Represents cfg m scope labels)
    (o : Outcome ω) (q : π) :
    (∃ s, ValueIs c m (.callAction index (scope.map (passedFor cfg))) o s ∧ s.current = q) ↔
      ∃ d, (c.runtime.meaning cfg).action site act labels m.mark m.current d ∧ o = .matched d ∧
        q = m.current := by
  obtain ⟨ty,typed,found⟩ := registered
  rw [held.method_eq] at found
  simp only [ValueIs,found,Option.some.injEq,held.holds_iff,Runtime.meaning]
  constructor
  · rintro ⟨s,⟨_,_,d,rfl,rfl,called,rfl,rfl⟩,rfl⟩
    exact ⟨d,⟨ty,typed,called⟩,rfl,rfl⟩
  · rintro ⟨d,⟨_,typed',called⟩,rfl,rfl⟩
    obtain rfl := Option.some.inj (typed.symm.trans typed')
    exact ⟨m.toShared,⟨_,_,d,rfl,rfl,called,rfl,rfl⟩,rfl⟩

/-- What is in scope behind an expression that has matched represents what it exports. -/
theorem exports_represented {final : Registries} {e : Expr} {caller : Option (Site × Action)}
    {scope' : Scope} (emitted : Emits cfg final e base depth caller scope code scope')
    {m : Machine ω π} {labels : Labels ω} {d : Datum ω} (held : Represents cfg m scope labels)
    (value : m.values base = .matched d) : Represents cfg m scope' (exports labels d e) := by
  induction e using Expr.induction generalizing depth caller scope code scope' labels with
  | named site name body ih =>
    cases emitted with
    | named _ inner => exact ih inner held
  | labeled site label body _ =>
    cases emitted with
    | labeled typed _ => exact held.bind ⟨rfl,typed,value⟩
  | _ => cases emitted <;> exact held

/-- Behind an expression all labels in scope have their locals below the next free one. -/
theorem scope_below {final : Registries} {e : Expr} {caller : Option (Site × Action)}
    {scope' : Scope} (emitted : Emits cfg final e base depth caller scope code scope')
    (below : ScopeBelow scope base) : ScopeBelow scope' (base + 1) := by
  induction e using Expr.induction generalizing depth caller scope code scope' with
  | named site name body ih =>
    cases emitted with
    | named _ inner => exact ih inner below
  | labeled site label body _ =>
    cases emitted with
    | labeled typed _ => exact (below.mono (Nat.le_succ _)).bind (Nat.lt_succ_self _)
  | _ => cases emitted <;> exact below.mono (Nat.le_succ _)

private theorem action_simulates {act : Action} {index : Nat} {scope' : Scope}
    (plain : body.isSequence = false) (below : ScopeBelow scope base)
    (emitted : Emits cfg c.code body base (depth + 1) none scope code scope')
    (registered : ActionAt cfg c.code site act scope' index)
    (inner : Simulates cfg c call body base (depth + 1) scope code) :
    Simulates cfg c call (.action site act body) base depth scope
      ([.step (.save depth),.blank] ++ code ++ [.blank,.ifThen (.matched base)
        [.step (.mark depth),
          .step (.assign base (.callAction index (scope'.map (passedFor cfg))))]]) := by
  intro m labels held
  refine .save (.blank (.append (fun o q o' q' => o.elim (o' = .failed ∧ q' = q) fun d =>
    ∃ result, (c.runtime.meaning cfg).action site act (exports labels d body) m.current q result ∧
      o' = .matched result ∧ q' = q) (inner.saved held)
    (Nat.le_refl _) (Nat.le_succ _) (fun u frame ended => ?_) ?_))
  · refine .blank (.ifMatched (fun d matched => .mark (.assign ?_)) (fun failed => ?_))
    · have heldBefore : Represents cfg (m.savePosition depth) scope labels :=
        held.of_values fun _ _ => rfl
      have exported := exports_represented emitted (heldBefore.frame below frame) matched
      intro o q
      rw [matched,← saved_position frame.positions]
      exact action_value (m := { u with mark := u.positions depth }) registered
        (exported.of_values fun _ _ => rfl) o q
    · rw [failed]
      exact Meets.nil.congr fun _ _ => by rw [failed,Outcome.elim]
  · intro o q
    constructor
    · rintro ⟨_ | d,q',ended,following⟩
      · obtain ⟨rfl,rfl⟩ := following
        exact .action_failed ended
      · obtain ⟨result,called,rfl,rfl⟩ := following
        exact .action_matched plain ended called
    · intro ended
      cases ended with
      | action_matched _ ended called => exact ⟨_,_,ended,_,called,rfl,rfl⟩
      | action_sequence => simp [Expr.isSequence] at plain
      | action_failed ended => exact ⟨_,_,ended,rfl,rfl⟩

private theorem predicate_simulates {isNegative : Bool} {source : String} {ns : Option String}
    {index : Nat} (registered : (c.code.userCode.methods .predicate).get? index =
      some (methodFor ns "boolean" source (scope.map (passedFor cfg)))) :
    Simulates cfg c call (.predicate site isNegative source ns) base depth scope
      [.ifElse (.holds isNegative index (scope.map (passedFor cfg)))
        [.step (.assign base .null)] [.step (.assign base .failed)]] := by
  intro m labels held
  rw [held.method_eq] at registered
  have test (answer : Bool) :
      TestIs c m (.holds isNegative index (scope.map (passedFor cfg))) answer ↔
        (c.runtime.meaning cfg).predicate source ns labels m.current (answer ^^ isNegative) := by
    simp only [TestIs,registered,Option.some.injEq,held.holds_iff,Runtime.meaning]
    constructor
    · rintro ⟨_,_,rfl,rfl,answered⟩
      exact answered
    · intro answered
      exact ⟨_,_,rfl,rfl,answered⟩
  refine Meets.congr (.ifElse (.assign_only fun _ _ => Iff.rfl) (.assign_only fun _ _ => Iff.rfl))
    fun o q => ?_
  rw [test,test,Bool.true_xor,Bool.false_xor]
  constructor
  · rintro (⟨answered,rfl,rfl⟩ | ⟨answered,rfl,rfl⟩)
    · exact .predicate_matched answered
    · exact .predicate_failed answered
  · intro ended
    cases ended with
    | predicate_matched answered => exact .inl ⟨answered,rfl,rfl⟩
    | predicate_failed answered => exact .inr ⟨answered,rfl,rfl⟩

private theorem ruleRef_simulates {name : String}
    (linked : ∀ s o q, (∃ s', c.call name s o s' ∧ s'.current = q) ↔ call name s.current o q) :
    Simulates cfg c call (.ruleRef site name) base depth scope
      [.step (.assign base (.callRule name))] := by
  intro m labels held
  refine .assign fun o q => ?_
  rw [show (∃ s, ValueIs c m (.callRule name) o s ∧ s.current = q) ↔ _ from linked m.toShared o q]
  constructor
  · intro called
    exact .ruleRef called
  · intro ended
    cases ended with
    | ruleRef called => exact called

/-- Matching at the current position. -/
private theorem match_value {value : Value} {m : Machine ω π} (parser : Parser ω π)
    (means : ∀ o s, ValueIs c m value o s ↔
      ∃ q, parser m.current o q ∧ s = { m.toShared with current := q }) (o : Outcome ω) (q : π) :
    (∃ s, ValueIs c m value o s ∧ s.current = q) ↔ parser m.current o q := by
  simp only [means]
  constructor
  · rintro ⟨_,⟨_,matching,rfl⟩,rfl⟩
    exact matching
  · intro matching
    exact ⟨_,⟨q,matching,rfl⟩,rfl⟩

private theorem literal_simulates (implements : c.methods.Implement c.runtime) {text : String}
    {ignoreCase : Bool} {expected : Nat} {initializer : String}
    (registered : c.code.expected.values.get? expected = some initializer) :
    Simulates cfg c call (.literal site text ignoreCase) base depth scope
      [.step (.assign base (.matchLiteral text expected ignoreCase))] := by
  intro m labels held
  refine .assign fun o q => ?_
  rw [match_value (c.runtime.literal text ignoreCase) fun o s => by
    simp only [ValueIs,registered,Option.some.injEq,exists_eq_left',implements.literal _ _ _ _ _ _]]
  constructor
  · intro matching
    exact .literal matching
  · intro ended
    cases ended with
    | literal matching => exact matching

private theorem charClass_simulates (implements : c.methods.Implement c.runtime)
    {parts : List ClassPart} {inverted ignoreCase : Bool} {rawText : String}
    {pattern expected : Nat} {initializer : String}
    (registered : c.code.patterns.values.get? pattern = some (patternInitializer
      (cfg.imports.className "Pattern") (classPattern parts) ignoreCase))
    (shown : c.code.expected.values.get? expected = some initializer) :
    Simulates cfg c call (.charClass site parts inverted ignoreCase rawText) base depth scope
      [.step (.assign base (.matchClass pattern expected inverted))] := by
  intro m labels held
  refine .assign fun o q => ?_
  rw [match_value ((c.runtime.meaning cfg).charClass parts inverted ignoreCase)
    fun o s => by
      simp only [ValueIs,registered,shown,Option.some.injEq,exists_and_left,exists_eq_left',
        implements.pattern _ _ _ _ _ _]
      rfl]
  constructor
  · intro matching
    exact .charClass matching
  · intro ended
    cases ended with
    | charClass matching => exact matching

private theorem any_simulates (implements : c.methods.Implement c.runtime) :
    Simulates cfg c call (.any site) base depth scope [.step (.assign base .matchAny)] := by
  intro m labels held
  refine .assign fun o q => ?_
  rw [match_value c.runtime.any fun o s =>
    show ValueIs c m .matchAny o s ↔ _ from implements.any m.toShared o s]
  constructor
  · intro matching
    exact .any matching
  · intro ended
    cases ended with
    | any matching => exact matching

/-- All code that `e` becomes computes what it means, and `e` fails in place. The code of a
sequence directly under an action computes what the action means. -/
private structure Sound (cfg : Setting) (c : Context ω π) (call : String → Parser ω π) (e : Expr) :
    Prop where
  simulates : ∀ {base depth scope code scope'}, ScopeBelow scope base →
    Emits cfg c.code e base depth none scope code scope' →
    Simulates cfg c call e base depth scope code
  called : ∀ {base depth site act scope code scope'}, e.isSequence = true → ScopeBelow scope base →
    Emits cfg c.code e base depth (some (site,act)) scope code scope' →
    Simulates cfg c call (.action site act e) base depth scope code
  inPlace : ∀ labels, FailsInPlace (Eval (c.runtime.meaning cfg) call e labels)

private theorem Sound.of_plain {e : Expr} (plain : e.isSequence = false)
    (inPlace : ∀ labels, FailsInPlace (Eval (c.runtime.meaning cfg) call e labels))
    (simulates : ∀ {base depth scope code scope'}, ScopeBelow scope base →
      Emits cfg c.code e base depth none scope code scope' →
      Simulates cfg c call e base depth scope code) : Sound cfg c call e :=
  ⟨simulates,fun isSequence => absurd isSequence (by rw [plain]; exact Bool.false_ne_true),inPlace⟩

private theorem alternatives_meet {alternatives : List Expr}
    (all : ∀ e ∈ alternatives, Sound cfg c call e) {n : Nat}
    (emitted : EmitsAlternatives cfg c.code alternatives base depth n scope code)
    (below : ScopeBelow scope base) {m : Machine ω π} {labels : Labels ω}
    (held : Represents cfg m scope labels) :
    Meets c Anyhow base depth code m
      (Choose (c.runtime.meaning cfg) call alternatives labels m.current) := by
  induction alternatives generalizing n code m with
  | nil => cases emitted
  | cons e rest ih =>
    have first := all e List.mem_cons_self
    cases emitted with
    | last inner =>
      refine .alternative ((first.simulates below inner held).anyhow.congr fun o q => ?_)
      constructor
      · intro ended
        cases o with
        | failed =>
          obtain rfl := first.inPlace _ _ _ ended
          exact .next ended .none
        | matched d => exact .first ended
      · intro chosen
        cases chosen with
        | first ended => exact ended
        | next ended none =>
          cases none
          obtain rfl := first.inPlace _ _ _ ended
          exact ended
    | cons _ inner others =>
      rw [List.append_assoc]
      refine .alternative (.append (fun o q o' q' =>
        o.elim (Choose (c.runtime.meaning cfg) call rest labels m.current o' q')
          fun d => o' = .matched d ∧ q' = q)
        (first.simulates below inner held) (Nat.le_refl _) (Nat.le_refl _)
        (fun u frame ended => ?_) fun o q => ?_)
      · refine .brief (.ifMatched (fun d matched => ?_) fun failed => .blank ?_)
        · rw [matched]
          exact Meets.leave.congr fun o q => by rw [matched,Outcome.elim]
        · rw [failed] at ended ⊢
          rw [← first.inPlace _ _ _ ended]
          exact ih (fun e member => all e (List.mem_cons_of_mem _ member)) others
            (held.frame below frame)
      · constructor
        · rintro ⟨_ | d,q',ended,following⟩
          · exact .next ended following
          · obtain ⟨rfl,rfl⟩ := following
            exact .first ended
        · intro chosen
          cases chosen with
          | first ended => exact ⟨_,_,ended,rfl,rfl⟩
          | next ended others => exact ⟨_,_,ended,others⟩

private theorem choice_simulates {alternatives : List Expr}
    (all : ∀ e ∈ alternatives, Sound cfg c call e)
    (emitted : EmitsAlternatives cfg c.code alternatives base depth 1 scope code)
    (below : ScopeBelow scope base) :
    Simulates cfg c call (.choice site alternatives) base depth scope [.block .choice code] := by
  intro m labels held
  refine .block rfl ((alternatives_meet all emitted below held).congr fun o q => ?_)
  constructor
  · intro chosen
    exact .choice chosen
  · intro ended
    cases ended with
    | choice chosen => exact chosen

private theorem emptyChoice_simulates : Simulates cfg c call (.choice site []) base depth scope
    [.step (.assign base .failed)] := by
  intro m labels held
  refine Meets.congr (.assign_only fun _ _ => Iff.rfl) fun o q => ?_
  constructor
  · rintro ⟨rfl,rfl⟩
    exact .choice .none
  · intro ended
    cases ended with
    | choice chosen =>
      cases chosen
      exact ⟨rfl,rfl⟩

private def HoldsFrom (m : Machine ω π) (base count : Nat) (ds : List (Datum ω)) : Prop :=
  m.Holds ((List.range count).map (base + ·)) ds

private theorem HoldsFrom.frame {m u : Machine ω π} {count : Nat} {ds : List (Datum ω)}
    (prior : HoldsFrom m base count ds)
    (kept : ∀ slot < base + count, u.values slot = m.values slot) : HoldsFrom u base count ds := by
  simp only [HoldsFrom,Machine.Holds,List.forall₂_map_left_iff] at prior ⊢
  refine ((List.forall₂_and_left _ _).mpr ⟨fun i member => List.mem_range.mp member,prior⟩).imp ?_
  rintro i d ⟨inside,value⟩
  rw [kept _ (by omega),value]

private theorem HoldsFrom.snoc {m : Machine ω π} {count : Nat} {ds : List (Datum ω)} {d : Datum ω}
    (prior : HoldsFrom m base count ds) (value : m.values (base + count) = .matched d) :
    HoldsFrom m base (count + 1) (ds ++ [d]) := by
  rw [HoldsFrom,List.range_succ,List.map_append]
  exact List.rel_append prior (.cons value .nil)

/-- What follows a failed element: the first local says so, and the position is that of the whole
sequence. -/
private theorem abandoned_meets {m : Machine ω π} {index : Nat} {start : π} {rest : List Instr}
    (failed : m.values (base + index) = .failed) (saved : m.positions depth = start)
    (atStart : index = 0 → m.current = start) :
    Meets c Anyhow base depth (abandoned base depth index ++ rest) m
      fun o q => o = .failed ∧ q = start := by
  unfold abandoned
  split
  next zero =>
    subst zero
    refine Meets.leave.congr fun o q => ?_
    rw [show m.values base = .failed from failed,atStart rfl]
  next =>
    refine .restore (.assignFailed (Meets.leave.congr fun o q => ?_))
    rw [Machine.setValue_self]
    exact saved ▸ Iff.rfl

/-- The elements of a sequence from `index` on, in front of the code that closes it. -/
private theorem elements_meet {elements : List Expr} (all : ∀ e ∈ elements, Sound cfg c call e)
    {index : Nat} {scope' : Scope}
    (emitted : EmitsElements cfg c.code elements base depth index scope code scope')
    (below : ScopeBelow scope (base + index)) {m : Machine ω π} {labels : Labels ω}
    {before : List (Datum ω)} {start : π} (held : Represents cfg m scope labels)
    (prior : HoldsFrom m base index before) (saved : m.positions depth = start)
    (atStart : index = 0 → m.current = start) {close : List Instr}
    {ended : List (Datum ω) → Labels ω → π → Outcome ω → π → Prop}
    (closing : ∀ u ds ls, u.positions depth = start →
      HoldsFrom u base (index + elements.length) ds → Represents cfg u scope' ls →
      Meets c Anyhow base depth close u (ended ds ls u.current)) :
    Meets c Anyhow base depth (code ++ close) m fun o q =>
      (∃ ds ls q', All (c.runtime.meaning cfg) call elements labels m.current ds ls q' ∧
        ended (before ++ ds) ls q' o q) ∨
      (Broken (c.runtime.meaning cfg) call elements labels m.current ∧ o = .failed ∧ q = start) := by
  induction elements generalizing index scope code m labels before with
  | nil =>
    cases emitted
    refine (closing m before labels saved prior held).congr fun o q => ?_
    constructor
    · intro closed
      exact .inl ⟨[],labels,m.current,.nil,by rwa [List.append_nil]⟩
    · rintro (⟨_,_,_,done,closed⟩ | ⟨broken,-⟩)
      · cases done
        rwa [List.append_nil] at closed
      · cases broken
  | cons e rest ih =>
    cases emitted with
    | cons inner others =>
      have first := all e List.mem_cons_self
      rw [List.append_assoc,List.append_assoc]
      refine .element (.append (fun o q o' q' => o.elim (o' = .failed ∧ q' = start) fun d =>
        (∃ ds ls r, All (c.runtime.meaning cfg) call rest (exports labels d e) q ds ls r ∧
          ended (before ++ d :: ds) ls r o' q') ∨
        (Broken (c.runtime.meaning cfg) call rest (exports labels d e) q ∧ o' = .failed ∧
          q' = start))
        (first.simulates below inner held) (Nat.le_add_right base index) (Nat.le_succ depth)
        (fun u frame ended => ?_) fun o q => ?_)
      · have savedThere : u.positions depth = start :=
          (frame.positions depth (Nat.lt_succ_self depth)).trans saved
        refine .ifFailed (fun failed => ?_) (fun d matched => .blank ?_)
        · rw [failed] at ended ⊢
          refine abandoned_meets failed savedThere fun zero => ?_
          exact (first.inPlace _ _ _ ended).trans (atStart zero)
        · rw [matched]
          have tail := ih (fun e member => all e (List.mem_cons_of_mem _ member)) others
            (scope_below inner below) (exports_represented inner (held.frame below frame) matched)
            ((prior.frame frame.values).snoc matched) savedThere (by simp)
            (fun u ds ls position values there => closing u ds ls position
              (by rwa [List.length_cons,Nat.add_comm rest.length,← Nat.add_assoc]) there)
          simp only [List.append_assoc,List.singleton_append] at tail
          exact tail
      · constructor
        · rintro ⟨_ | d,q',ended,following⟩
          · exact .inr ⟨.here ended,following⟩
          · rcases following with ⟨ds,ls,r,done,closed⟩ | ⟨broken,failed⟩
            · exact .inl ⟨d :: ds,ls,r,.cons ended done,closed⟩
            · exact .inr ⟨.later ended broken,failed⟩
        · rintro (⟨_,ls,r,done,closed⟩ | ⟨broken,failed⟩)
          · cases done with
            | cons ended done => exact ⟨_,_,ended,.inl ⟨_,ls,r,done,closed⟩⟩
          · cases broken with
            | here ended => exact ⟨_,_,ended,failed⟩
            | later ended broken => exact ⟨_,_,ended,.inr ⟨broken,failed⟩⟩

private def Closed (cfg : Setting) (c : Context ω π) (caller : Option (Site × Action)) (start : π)
    (ds : List (Datum ω)) (labels : Labels ω) (stop : π) (o : Outcome ω) (q : π) : Prop :=
  match caller with
  | none => o = .matched (.list ds) ∧ q = stop
  | some (site,act) => ∃ d, (c.runtime.meaning cfg).action site act labels start stop d ∧
      o = .matched d ∧ q = stop

private theorem Machine.Holds.unique {m : Machine ω π} {slots : List Nat} {ds ds' : List (Datum ω)}
    (first : m.Holds slots ds) (second : m.Holds slots ds') : ds = ds' := by
  induction first generalizing ds' with
  | nil =>
    cases second
    rfl
  | cons value _ ih =>
    cases second with
    | cons value' rest =>
      rw [Outcome.matched.inj (value.symm.trans value'),ih rest]

private theorem closes_meets (implements : c.methods.Implement c.runtime) {count : Nat}
    {caller : Option (Site × Action)} {close : List Instr}
    (closes : Closes cfg c.code base depth count scope caller close) {u : Machine ω π} {start : π}
    {ds : List (Datum ω)} {labels : Labels ω} (saved : caller.isSome → u.positions depth = start)
    (values : HoldsFrom u base count ds) (held : Represents cfg u scope labels) :
    Meets c ToEnd base depth close u (Closed cfg c caller start ds labels u.current) := by
  cases closes with
  | bundle =>
    refine .assign_only fun o s => ?_
    simp only [ValueIs,implements.newArray _ _ _ _]
    constructor
    · rintro ⟨ds',values',rfl,rfl⟩
      rw [values'.unique values]
      exact ⟨rfl,rfl⟩
    · rintro ⟨rfl,rfl⟩
      exact ⟨ds,values,rfl,rfl⟩
  | call registered =>
    refine .mark (.assign fun o q => ?_)
    rw [← saved rfl]
    exact action_value (m := { u with mark := u.positions depth }) registered
      (held.of_values fun _ _ => rfl) o q

def around (caller : Option (Site × Action)) (e : Expr) : Expr :=
  match caller with
  | none => e
  | some (site,act) => .action site act e

private theorem eval_sequence_iff {caller : Option (Site × Action)} {elements : List Expr}
    {labels : Labels ω} {p q : π} {o : Outcome ω} :
    (∃ ds ls q', All (c.runtime.meaning cfg) call elements labels p ds ls q' ∧
      Closed cfg c caller p ds ls q' o q) ∨
    (Broken (c.runtime.meaning cfg) call elements labels p ∧ o = .failed ∧ q = p) ↔
      Eval (c.runtime.meaning cfg) call (around caller (.sequence site elements)) labels p o q := by
  cases caller with
  | none =>
    constructor
    · rintro (⟨ds,ls,_,done,rfl,rfl⟩ | ⟨broken,rfl,rfl⟩)
      · exact .sequence_matched done
      · exact .sequence_failed broken
    · intro ended
      cases ended with
      | sequence_matched done => exact .inl ⟨_,_,_,done,rfl,rfl⟩
      | sequence_failed broken => exact .inr ⟨broken,rfl,rfl⟩
  | some called =>
    constructor
    · rintro (⟨ds,ls,_,done,d,result,rfl,rfl⟩ | ⟨broken,rfl,rfl⟩)
      · exact .action_sequence done result
      · exact .action_failed (.sequence_failed broken)
    · intro ended
      cases ended with
      | action_matched plain => simp [Expr.isSequence] at plain
      | action_sequence done result => exact .inl ⟨_,_,_,done,_,result,rfl,rfl⟩
      | action_failed failed =>
        cases failed with
        | sequence_failed broken => exact .inr ⟨broken,rfl,rfl⟩

private theorem sequence_simulates (implements : c.methods.Implement c.runtime)
    {elements : List Expr} {caller : Option (Site × Action)} {scope' : Scope} (all : ∀ e ∈ elements, Sound cfg c call e) (below : ScopeBelow scope base)
    (emitted : Emits cfg c.code (.sequence site elements) base depth caller scope code scope') :
    Simulates cfg c call (around caller (.sequence site elements)) base depth scope code := by
  intro m labels held
  have none : HoldsFrom m base 0 [] := .nil
  cases emitted with
  | sequence_empty closes =>
    have only (o : Outcome ω) (q : π) : Closed cfg c caller m.current [] labels m.current o q ↔
        Eval (c.runtime.meaning cfg) call (around caller (.sequence site [])) labels m.current o
          q := by
      rw [← eval_sequence_iff]
      constructor
      · intro closed
        exact .inl ⟨[],labels,_,.nil,closed⟩
      · rintro (⟨_,_,_,done,closed⟩ | ⟨broken,-⟩)
        · cases done
          exact closed
        · cases broken
    cases caller with
    | none => exact (closes_meets implements closes (by simp) none held).congr only
    | some called =>
      have held' : Represents cfg (m.savePosition depth) scope labels := held.of_values fun _ _ => rfl
      have closed := closes_meets implements closes (fun _ => m.savePosition_self depth) none held'
      exact .save (closed.congr only)
  | sequence _ inner closes =>
    have held' : Represents cfg (m.savePosition depth) scope labels := held.of_values fun _ _ => rfl
    refine .save (.block rfl ((elements_meet all inner below held' none
      (m.savePosition_self depth) (fun _ => rfl) fun u ds ls saved values there => ?_).congr
      fun o q => eval_sequence_iff))
    exact (closes_meets implements closes (fun _ => saved) (by simpa using values) there).anyhow

/-- Emitted code computes what its expression means, if rules do what `call` says and all parsers
fail in place. -/
theorem emits_simulates (implements : c.methods.Implement c.runtime)
    (linked : ∀ name s o q, (∃ s', c.call name s o s' ∧ s'.current = q) ↔ call name s.current o q)
    (inPlace : ∀ e labels, FailsInPlace (Eval (c.runtime.meaning cfg) call e labels)) (e : Expr)
    {scope' : Scope} (below : ScopeBelow scope base)
    (emitted : Emits cfg c.code e base depth none scope code scope') :
    Simulates cfg c call e base depth scope code := by
  suffices sound : Sound cfg c call e from sound.simulates below emitted
  clear below emitted
  induction e using Expr.induction with
  | named site name body ih =>
    refine .of_plain rfl (inPlace _) fun below emitted => ?_
    cases emitted with
    | named registered inner =>
      exact named_simulates implements registered (ih.simulates below inner)
  | choice site alternatives ih =>
    refine .of_plain rfl (inPlace _) fun below emitted => ?_
    cases emitted with
    | choice_empty => exact emptyChoice_simulates
    | choice _ inner => exact choice_simulates ih inner below
  | action site act body ih =>
    refine .of_plain rfl (inPlace _) fun below emitted => ?_
    cases emitted with
    | action_sequence inner => exact ih.called rfl below inner
    | action plain inner registered =>
      exact action_simulates plain below inner registered (ih.simulates below inner)
  | sequence site elements ih =>
    have simulates {caller : Option (Site × Action)} {base depth : Nat} {scope scope' : Scope}
        {code : List Instr} (below : ScopeBelow scope base)
        (emitted : Emits cfg c.code (.sequence site elements) base depth caller scope code scope') :=
      sequence_simulates implements ih below emitted
    exact ⟨simulates,fun _ => simulates,inPlace _⟩
  | labeled site label body ih =>
    refine .of_plain rfl (inPlace _) fun below emitted => ?_
    cases emitted with
    | labeled _ inner =>
      intro m labels held
      refine (ih.simulates below inner held).congr fun o q => ?_
      constructor
      · intro ended
        exact .labeled ended
      · intro ended
        cases ended with
        | labeled ended => exact ended
  | text site body ih =>
    refine .of_plain rfl (inPlace _) fun below emitted => ?_
    cases emitted with
    | text inner => exact text_simulates implements (ih.simulates below inner)
  | optional site body ih =>
    refine .of_plain rfl (inPlace _) fun below emitted => ?_
    cases emitted with
    | optional inner => exact optional_simulates (ih.simulates below inner) ih.inPlace
  | repeated site repetition body ih =>
    refine .of_plain rfl (inPlace _) fun below emitted => ?_
    cases emitted with
    | repeated lower upper inner =>
      exact repeated_simulates implements lower upper (ih.simulates (below.mono (Nat.le_succ _)) inner)
        ih.inPlace below
  | lookahead site isNegative body ih =>
    refine .of_plain rfl (inPlace _) fun below emitted => ?_
    cases emitted with
    | lookahead inner => exact lookahead_simulates (ih.simulates below inner)
  | predicate site isNegative source ns =>
    refine .of_plain rfl (inPlace _) fun below emitted => ?_
    cases emitted with
    | predicate registered => exact predicate_simulates registered
  | ruleRef site name =>
    refine .of_plain rfl (inPlace _) fun below emitted => ?_
    cases emitted
    exact ruleRef_simulates (linked name)
  | literal site value ignoreCase =>
    refine .of_plain rfl (inPlace _) fun below emitted => ?_
    cases emitted with
    | literal registered => exact literal_simulates implements registered
  | charClass site parts inverted ignoreCase rawText =>
    refine .of_plain rfl (inPlace _) fun below emitted => ?_
    cases emitted with
    | charClass registered shown => exact charClass_simulates implements registered shown
  | any site =>
    refine .of_plain rfl (inPlace _) fun below emitted => ?_
    cases emitted
    exact any_simulates implements

end Expressions

end PegCompiler.Semantics
