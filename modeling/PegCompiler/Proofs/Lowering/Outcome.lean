import PegCompiler.Lowering.Rule
import PegCompiler.Proofs.Target.Spelling

/-! What single operations of lowering come to. `Yields` follows successful runs; `Safe` says
that a run raises no fault and what holds of its result. Both are given for sequential
composition and for every operation on locals, so that later proofs open neither the monad nor
the stacks. -/
namespace PegCompiler

namespace Locals

@[simp] theorem reclaim_occupied (l : Locals) : l.reclaim.occupied = l.occupied + 1 := rfl

theorem top_zero {l : Locals} (empty : l.occupied = 0) :
    l.top = .error (.underflow l.letter (-1)) := by
  simp [top,slotAt,pointer,empty]

theorem top_succ {l : Locals} {n : Nat} (taken : l.occupied = n + 1) : l.top = .ok n := by
  have notNegative : ¬(n : Int) < 0 := by omega
  simp [top,slotAt,pointer,taken,notNegative]

theorem pop_zero {l : Locals} (empty : l.occupied = 0) :
    l.pop = .error (.underflow l.letter (-1)) := by
  simp [pop,top_zero empty,bind,Except.bind]

theorem pop_succ {l : Locals} {n : Nat} (taken : l.occupied = n + 1) :
    l.pop = .ok (n,{ l with occupied := n }) := by
  simp [pop,top_succ taken,taken,bind,Except.bind,pure,Except.pure]

theorem replace_zero {l : Locals} (empty : l.occupied = 0) :
    l.replace = .error (.underflow l.letter (-1)) := by
  simp [replace,pop_zero empty,bind,Except.bind]

theorem replace_succ {l : Locals} {n : Nat} (taken : l.occupied = n + 1) :
    l.replace = .ok (n,Locals.reclaim { l with occupied := n }) := by
  simp [replace,pop_succ taken,push,bind,Except.bind,pure,Except.pure]

end Locals

namespace Lowering

variable {α β : Type}

def outcome (x : Lower α) (s : State) : Except GenerateError α × State :=
  x.run.run s

def Yields (x : Lower α) (s : State) (a : α) (t : State) : Prop :=
  outcome x s = (.ok a,t)

def Safe (x : Lower α) (s : State) (post : α → State → Prop) : Prop :=
  match outcome x s with
  | (.ok a,t) => post a t
  | (.error error,_) => ∀ fault, error ≠ .internal fault

theorem Yields.outcome_eq {x : Lower α} {s t : State} {a : α} (ok : Yields x s a t) :
    outcome x s = (.ok a,t) := ok

theorem Yields.of_fst {x : Lower α} {s : State} {a : α} (ok : (outcome x s).1 = .ok a) :
    Yields x s a (outcome x s).2 := Prod.ext ok rfl

theorem Safe.of_yields {x : Lower α} {s t : State} {a : α} {post : α → State → Prop}
    (safe : Safe x s post) (ok : Yields x s a t) : post a t := by
  simpa only [Safe,show outcome x s = (.ok a,t) from ok] using safe

theorem Safe.imp {x : Lower α} {s : State} {post post' : α → State → Prop}
    (safe : Safe x s post) (weaker : ∀ a t, Yields x s a t → post a t → post' a t) :
    Safe x s post' := by
  unfold Safe at safe ⊢
  cases run : outcome x s with
  | mk result t =>
    rw [run] at safe
    cases result with
    | error _ => exact safe
    | ok a => exact weaker a t run safe

theorem outcome_bind (x : Lower α) (f : α → Lower β) (s : State) :
    outcome (x >>= f) s = match outcome x s with
      | (.ok a,t) => outcome (f a) t
      | (.error error,t) => (.error error,t) := by
  simp only [outcome,ExceptT.run_bind,StateT.run_bind]
  rcases x.run.run s with ⟨_ | _,t⟩ <;> rfl

private theorem yields_iff {x : Lower α} {s t u : State} {a b : α} (run : outcome x s = (.ok a,t)) :
    Yields x s b u ↔ b = a ∧ u = t := by
  rw [Yields,run,Prod.mk.injEq,Except.ok.injEq,eq_comm,@eq_comm _ t]

private theorem not_yields {x : Lower α} {s t u : State} {error : GenerateError} {b : α}
    (run : outcome x s = (.error error,t)) : ¬Yields x s b u := by
  rw [Yields,run]
  exact fun same => nomatch congrArg Prod.fst same

@[simp] theorem yields_pure (a b : α) (s t : State) :
    Yields (pure a) s b t ↔ b = a ∧ t = s := yields_iff rfl

@[simp] theorem safe_pure (a : α) (s : State) (post : α → State → Prop) :
    Safe (pure a) s post ↔ post a s := Iff.rfl

@[simp] theorem yields_throw (error : GenerateError) (a : α) (s t : State) :
    ¬Yields (throw error) s a t := not_yields rfl

@[simp] theorem yields_bind (x : Lower α) (f : α → Lower β) (s t : State) (b : β) :
    Yields (x >>= f) s b t ↔ ∃ a u, Yields x s a u ∧ Yields (f a) u b t := by
  unfold Yields
  rw [outcome_bind]
  cases outcome x s with
  | mk result u =>
    cases result with
    | error _ => simp
    | ok a =>
      constructor
      · intro run
        exact ⟨a,u,rfl,run⟩
      · rintro ⟨a',u',same,run⟩
        cases same
        exact run

@[simp] theorem safe_bind (x : Lower α) (f : α → Lower β) (s : State) (post : β → State → Prop) :
    Safe (x >>= f) s post ↔ Safe x s fun a t => Safe (f a) t post := by
  unfold Safe
  rw [outcome_bind]
  cases outcome x s with
  | mk result t => cases result <;> rfl

@[simp] theorem yields_map (f : α → β) (x : Lower α) (s t : State) (b : β) :
    Yields (f <$> x) s b t ↔ ∃ a, Yields x s a t ∧ b = f a := by
  rw [map_eq_pure_bind,yields_bind]
  constructor
  · rintro ⟨a,u,run,done⟩
    obtain ⟨rfl,rfl⟩ := (yields_pure _ _ _ _).mp done
    exact ⟨a,run,rfl⟩
  · rintro ⟨a,run,rfl⟩
    exact ⟨a,t,run,(yields_pure _ _ _ _).mpr ⟨rfl,rfl⟩⟩

@[simp] theorem safe_map (f : α → β) (x : Lower α) (s : State) (post : β → State → Prop) :
    Safe (f <$> x) s post ↔ Safe x s fun a t => post (f a) t := by
  rw [map_eq_pure_bind,safe_bind]
  rfl

@[simp] theorem yields_ofFault_ok (a b : α) (s t : State) :
    Yields (ofFault (.ok a)) s b t ↔ b = a ∧ t = s := yields_pure a b s t

@[simp] theorem safe_ofFault_ok (a : α) (s : State) (post : α → State → Prop) :
    Safe (ofFault (.ok a)) s post ↔ post a s := Iff.rfl

theorem outcome_get (s : State) : outcome (get : Lower State) s = (.ok s,s) := rfl

theorem outcome_set (s t : State) : outcome (set t : Lower Unit) s = (.ok (),t) := rfl

theorem outcome_pure (a : α) (s : State) : outcome (pure a) s = (.ok a,s) := rfl

theorem outcome_ok (a : α) (s : State) : outcome (ofFault (.ok a)) s = (.ok a,s) := rfl

theorem outcome_fault (fault : Fault) (s : State) :
    outcome (ofFault (.error fault : Except Fault α)) s = (.error (.internal fault),s) := rfl

@[simp] theorem yields_get (s t u : State) :
    Yields (get : Lower State) s u t ↔ u = s ∧ t = s := yields_iff rfl

@[simp] theorem safe_get (s : State) (post : State → State → Prop) :
    Safe (get : Lower State) s post ↔ post s s := Iff.rfl

/-! Operations on value locals. -/

@[simp] theorem yields_assignNext (value : Value) (s t : State) (step : Step) :
    Yields (assignNext value) s step t ↔
      step = .assign s.values.occupied value ∧ t = { s with values := s.values.reclaim } :=
  yields_iff rfl

@[simp] theorem safe_assignNext (value : Value) (s : State) (post : Step → State → Prop) :
    Safe (assignNext value) s post ↔
      post (.assign s.values.occupied value) { s with values := s.values.reclaim } := Iff.rfl

@[simp] theorem yields_pushValue (value : Value) (s t : State) (instr : Instr) :
    Yields (pushValue value) s instr t ↔ instr = .step (.assign s.values.occupied value) ∧
      t = { s with values := s.values.reclaim } := by
  rw [pushValue,yields_bind]
  constructor
  · rintro ⟨step,u,assigned,done⟩
    obtain ⟨rfl,rfl⟩ := (yields_assignNext _ _ _ _).mp assigned
    exact (yields_pure _ _ _ _).mp done
  · rintro ⟨rfl,rfl⟩
    exact ⟨_,_,(yields_assignNext _ _ _ _).mpr ⟨rfl,rfl⟩,(yields_pure _ _ _ _).mpr ⟨rfl,rfl⟩⟩

@[simp] theorem safe_pushValue (value : Value) (s : State) (post : Instr → State → Prop) :
    Safe (pushValue value) s post ↔
      post (.step (.assign s.values.occupied value)) { s with values := s.values.reclaim } := Iff.rfl

private theorem popValue_zero {s : State} (empty : s.values.occupied = 0) :
    outcome popValue s = (.error (.internal (.underflow s.values.letter (-1))),s) := by
  simp only [popValue,outcome_bind,outcome_get,Locals.pop_zero empty,outcome_fault]

private theorem popValue_succ {s : State} {n : Nat} (taken : s.values.occupied = n + 1) :
    outcome popValue s = (.ok n,{ s with values := { s.values with occupied := n } }) := by
  simp only [popValue,outcome_bind,outcome_get,Locals.pop_succ taken,outcome_ok,outcome_set,
    outcome_pure]

@[simp] theorem yields_popValue (s t : State) (slot : Nat) :
    Yields popValue s slot t ↔ s.values.occupied = slot + 1 ∧
      t = { s with values := { s.values with occupied := slot } } := by
  cases taken : s.values.occupied with
  | zero => simp [Yields,popValue_zero taken]
  | succ n =>
    simp only [Yields,popValue_succ taken,Prod.mk.injEq,Except.ok.injEq,Nat.add_right_cancel_iff]
    constructor
    · rintro ⟨rfl,rfl⟩
      exact ⟨rfl,rfl⟩
    · rintro ⟨rfl,rfl⟩
      exact ⟨rfl,rfl⟩

@[simp] theorem safe_popValue (s : State) (post : Nat → State → Prop) :
    Safe popValue s post ↔ ∃ slot, s.values.occupied = slot + 1 ∧
      post slot { s with values := { s.values with occupied := slot } } := by
  cases taken : s.values.occupied with
  | zero => simp [Safe,popValue_zero taken]
  | succ n => simp [Safe,popValue_succ taken]

private theorem topValue_zero {s : State} (empty : s.values.occupied = 0) :
    outcome topValue s = (.error (.internal (.underflow s.values.letter (-1))),s) := by
  simp only [topValue,outcome_bind,outcome_get,Locals.top_zero empty,outcome_fault]

private theorem topValue_succ {s : State} {n : Nat} (taken : s.values.occupied = n + 1) :
    outcome topValue s = (.ok n,s) := by
  simp only [topValue,outcome_bind,outcome_get,Locals.top_succ taken,outcome_ok]

@[simp] theorem yields_topValue (s t : State) (slot : Nat) :
    Yields topValue s slot t ↔ s.values.occupied = slot + 1 ∧ t = s := by
  cases taken : s.values.occupied with
  | zero => simp [Yields,topValue_zero taken]
  | succ n => simp [Yields,topValue_succ taken,eq_comm]

@[simp] theorem safe_topValue (s : State) (post : Nat → State → Prop) :
    Safe topValue s post ↔ ∃ slot, s.values.occupied = slot + 1 ∧ post slot s := by
  cases taken : s.values.occupied with
  | zero => simp [Safe,topValue_zero taken]
  | succ n => simp [Safe,topValue_succ taken]

private theorem replaceValue_zero (value : Value) {s : State} (empty : s.values.occupied = 0) :
    outcome (replaceValue value) s = (.error (.internal (.underflow s.values.letter (-1))),s) := by
  simp only [replaceValue,outcome_bind,outcome_get,Locals.replace_zero empty,outcome_fault]

private theorem replaceValue_succ (value : Value) {s : State} {n : Nat}
    (taken : s.values.occupied = n + 1) :
    outcome (replaceValue value) s = (.ok (.step (.assign n value)),
      { s with values := Locals.reclaim { s.values with occupied := n } }) := by
  simp only [replaceValue,outcome_bind,outcome_get,Locals.replace_succ taken,outcome_ok,
    outcome_set,outcome_pure]

@[simp] theorem yields_replaceValue (value : Value) (s t : State) (instr : Instr) :
    Yields (replaceValue value) s instr t ↔ ∃ slot, s.values.occupied = slot + 1 ∧
      instr = .step (.assign slot value) ∧
      t = { s with values := Locals.reclaim { s.values with occupied := slot } } := by
  cases taken : s.values.occupied with
  | zero => simp [Yields,replaceValue_zero value taken]
  | succ n => simp [Yields,replaceValue_succ value taken,eq_comm]

@[simp] theorem safe_replaceValue (value : Value) (s : State) (post : Instr → State → Prop) :
    Safe (replaceValue value) s post ↔ ∃ slot, s.values.occupied = slot + 1 ∧
      post (.step (.assign slot value))
        { s with values := Locals.reclaim { s.values with occupied := slot } } := by
  cases taken : s.values.occupied with
  | zero => simp [Safe,replaceValue_zero value taken]
  | succ n => simp [Safe,replaceValue_succ value taken]

private theorem popValues_le {s : State} {n : Nat} (enough : n ≤ s.values.occupied) :
    outcome (popValues n) s = (.ok ((List.range n).map (s.values.occupied - n + ·)),
      { s with values := { s.values with occupied := s.values.occupied - n } }) := by
  simp only [popValues,outcome_bind,outcome_get,Locals.popMany,if_pos enough,outcome_ok,
    outcome_set,outcome_pure]

private theorem popValues_gt {s : State} {n : Nat} (short : ¬n ≤ s.values.occupied) :
    outcome (popValues n) s =
      (.error (.internal (.underflow s.values.letter ((s.values.occupied : Int) - n))),s) := by
  simp only [popValues,outcome_bind,outcome_get,Locals.popMany,if_neg short,outcome_fault]

@[simp] theorem yields_popValues (n : Nat) (s t : State) (slots : List Nat) :
    Yields (popValues n) s slots t ↔ n ≤ s.values.occupied ∧
      slots = (List.range n).map (s.values.occupied - n + ·) ∧
      t = { s with values := { s.values with occupied := s.values.occupied - n } } := by
  by_cases enough : n ≤ s.values.occupied
  · simp [Yields,popValues_le enough,enough,eq_comm]
  · simp [Yields,popValues_gt enough,enough]

@[simp] theorem safe_popValues (n : Nat) (s : State) (post : List Nat → State → Prop) :
    Safe (popValues n) s post ↔ n ≤ s.values.occupied ∧
      post ((List.range n).map (s.values.occupied - n + ·))
        { s with values := { s.values with occupied := s.values.occupied - n } } := by
  by_cases enough : n ≤ s.values.occupied
  · simp [Safe,popValues_le enough,enough]
  · simp [Safe,popValues_gt enough,enough]

/-! Operations on position locals. -/

@[simp] theorem yields_savePosition (s t : State) (instr : Instr) :
    Yields savePosition s instr t ↔ instr = .step (.save s.positions.occupied) ∧
      t = { s with positions := s.positions.reclaim } := yields_iff rfl

@[simp] theorem safe_savePosition (s : State) (post : Instr → State → Prop) :
    Safe savePosition s post ↔ post (.step (.save s.positions.occupied))
      { s with positions := s.positions.reclaim } := Iff.rfl

@[simp] theorem yields_reclaimPosition (s t : State) (u : Unit) :
    Yields reclaimPosition s u t ↔ t = { s with positions := s.positions.reclaim } := by
  change (Except.ok _,_) = (Except.ok u,t) ↔ _
  simp only [Prod.mk.injEq,true_and,eq_comm]

@[simp] theorem safe_reclaimPosition (s : State) (post : Unit → State → Prop) :
    Safe reclaimPosition s post ↔ post () { s with positions := s.positions.reclaim } := Iff.rfl

private theorem popPosition_zero {s : State} (empty : s.positions.occupied = 0) :
    outcome popPosition s = (.error (.internal (.underflow s.positions.letter (-1))),s) := by
  simp only [popPosition,outcome_bind,outcome_get,Locals.pop_zero empty,outcome_fault]

private theorem popPosition_succ {s : State} {n : Nat} (taken : s.positions.occupied = n + 1) :
    outcome popPosition s = (.ok n,{ s with positions := { s.positions with occupied := n } }) := by
  simp only [popPosition,outcome_bind,outcome_get,Locals.pop_succ taken,outcome_ok,outcome_set,
    outcome_pure]

@[simp] theorem yields_popPosition (s t : State) (position : Nat) :
    Yields popPosition s position t ↔ s.positions.occupied = position + 1 ∧
      t = { s with positions := { s.positions with occupied := position } } := by
  cases taken : s.positions.occupied with
  | zero => simp [Yields,popPosition_zero taken]
  | succ n =>
    simp only [Yields,popPosition_succ taken,Prod.mk.injEq,Except.ok.injEq,
      Nat.add_right_cancel_iff]
    constructor
    · rintro ⟨rfl,rfl⟩
      exact ⟨rfl,rfl⟩
    · rintro ⟨rfl,rfl⟩
      exact ⟨rfl,rfl⟩

@[simp] theorem safe_popPosition (s : State) (post : Nat → State → Prop) :
    Safe popPosition s post ↔ ∃ position, s.positions.occupied = position + 1 ∧
      post position { s with positions := { s.positions with occupied := position } } := by
  cases taken : s.positions.occupied with
  | zero => simp [Safe,popPosition_zero taken]
  | succ n => simp [Safe,popPosition_succ taken]

@[simp] theorem yields_restorePosition (s t : State) (instr : Instr) :
    Yields restorePosition s instr t ↔ ∃ position, s.positions.occupied = position + 1 ∧
      instr = .step (.restore position) ∧
      t = { s with positions := { s.positions with occupied := position } } := by
  simp [restorePosition,and_left_comm,and_comm]

@[simp] theorem safe_restorePosition (s : State) (post : Instr → State → Prop) :
    Safe restorePosition s post ↔ ∃ position, s.positions.occupied = position + 1 ∧
      post (.step (.restore position))
        { s with positions := { s.positions with occupied := position } } := by
  simp [restorePosition]

@[simp] theorem yields_markPosition (s t : State) (instr : Instr) :
    Yields markPosition s instr t ↔ ∃ position, s.positions.occupied = position + 1 ∧
      instr = .step (.mark position) ∧
      t = { s with positions := { s.positions with occupied := position } } := by
  simp [markPosition,and_left_comm,and_comm]

@[simp] theorem safe_markPosition (s : State) (post : Instr → State → Prop) :
    Safe markPosition s post ↔ ∃ position, s.positions.occupied = position + 1 ∧
      post (.step (.mark position))
        { s with positions := { s.positions with occupied := position } } := by
  simp [markPosition]

/-! Registration, types and checks. -/

@[simp] theorem yields_addPattern (initializer : String) (s t : State) (index : Nat) :
    Yields (addPattern initializer) s index t ↔
      index = (s.registries.patterns.add initializer).1 ∧
      t = { s with registries :=
        { s.registries with patterns := (s.registries.patterns.add initializer).2 } } :=
  yields_iff rfl

@[simp] theorem safe_addPattern (initializer : String) (s : State) (post : Nat → State → Prop) :
    Safe (addPattern initializer) s post ↔ post (s.registries.patterns.add initializer).1
      { s with registries :=
        { s.registries with patterns := (s.registries.patterns.add initializer).2 } } := Iff.rfl

@[simp] theorem yields_addExpected (initializer : String) (s t : State) (index : Nat) :
    Yields (addExpected initializer) s index t ↔
      index = (s.registries.expected.add initializer).1 ∧
      t = { s with registries :=
        { s.registries with expected := (s.registries.expected.add initializer).2 } } :=
  yields_iff rfl

@[simp] theorem safe_addExpected (initializer : String) (s : State) (post : Nat → State → Prop) :
    Safe (addExpected initializer) s post ↔ post (s.registries.expected.add initializer).1
      { s with registries :=
        { s.registries with expected := (s.registries.expected.add initializer).2 } } := Iff.rfl

@[simp] theorem yields_addMethod (kind : MethodKind) (method : UserMethod) (s t : State)
    (index : Nat) :
    Yields (addMethod kind method) s index t ↔
      index = (s.registries.userCode.add kind method).1 ∧
      t = { s with registries :=
        { s.registries with userCode := (s.registries.userCode.add kind method).2 } } :=
  yields_iff rfl

@[simp] theorem safe_addMethod (kind : MethodKind) (method : UserMethod) (s : State)
    (post : Nat → State → Prop) :
    Safe (addMethod kind method) s post ↔ post (s.registries.userCode.add kind method).1
      { s with registries :=
        { s.registries with userCode := (s.registries.userCode.add kind method).2 } } := Iff.rfl

private theorem expectBase_misplaced (kind : Kind) {base : Nat} {s : State}
    (elsewhere : s.values.occupied ≠ base) :
    outcome (expectBase kind base) s = (.error (.internal (.misplaced kind.name)),s) := by
  simp only [expectBase,outcome_bind,outcome_get,if_neg elsewhere]
  rfl

@[simp] theorem yields_expectBase (kind : Kind) (base : Nat) (s t : State) (u : Unit) :
    Yields (expectBase kind base) s u t ↔ s.values.occupied = base ∧ t = s := by
  by_cases at_base : s.values.occupied = base
  · simp [Yields,expectBase,outcome_bind,outcome_get,at_base,outcome_pure,eq_comm]
  · simp [not_yields (expectBase_misplaced kind at_base),at_base]

@[simp] theorem safe_expectBase (kind : Kind) (base : Nat) (s : State)
    (post : Unit → State → Prop) :
    Safe (expectBase kind base) s post ↔ s.values.occupied = base ∧ post () s := by
  by_cases at_base : s.values.occupied = base
  · simp [Safe,expectBase,outcome_bind,outcome_get,at_base,outcome_pure]
  · simp [Safe,expectBase_misplaced kind at_base,at_base]

@[simp] theorem yields_typeOf (cfg : Setting) (kind : Kind) (site : Site) (s t : State) (ty : Ty) :
    Yields (typeOf cfg kind site) s ty t ↔ cfg.types.node site.id = some ty ∧ t = s := by
  unfold typeOf
  cases cfg.types.node site.id with
  | none => simp
  | some found => simp [eq_comm]

@[simp] theorem safe_typeOf (cfg : Setting) (kind : Kind) (site : Site) (s : State)
    (post : Ty → State → Prop) :
    Safe (typeOf cfg kind site) s post ↔ ∀ ty, cfg.types.node site.id = some ty → post ty s := by
  unfold typeOf
  cases cfg.types.node site.id with
  | none =>
    simp only [reduceCtorEq,false_implies,implies_true,iff_true]
    intro fault same
    cases same
  | some found => simp

def passedFor (cfg : Setting) (binding : Binding) : Passed :=
  ⟨binding.label,cfg.imports.spelling binding.type,binding.slot⟩

theorem arguments_eq (cfg : Setting) (scope : Scope) :
    arguments cfg scope = pure (scope.map (passedFor cfg)) := by
  have each : (fun b : Binding => (do
      return ⟨b.label,← ofFault (cfg.imports.render b.type),b.slot⟩ : Lower Passed)) =
      fun b => pure (passedFor cfg b) := by
    funext b
    rw [cfg.imports.render_eq]
    rfl
  rw [arguments,each,List.mapM_pure]

@[simp] theorem yields_arguments (cfg : Setting) (scope : Scope) (s t : State)
    (passed : List Passed) :
    Yields (arguments cfg scope) s passed t ↔ passed = scope.map (passedFor cfg) ∧ t = s := by
  rw [arguments_eq,yields_pure]

@[simp] theorem safe_arguments (cfg : Setting) (scope : Scope) (s : State)
    (post : List Passed → State → Prop) :
    Safe (arguments cfg scope) s post ↔ post (scope.map (passedFor cfg)) s := by
  rw [arguments_eq,safe_pure]

@[simp] theorem yields_actionCall (cfg : Setting) (site : Site) (action : Action)
    (passed : List Passed) (s t : State) (value : Value) :
    Yields (actionCall cfg site action passed) s value t ↔
      ∃ ty, cfg.types.node site.id = some ty ∧ ∃ index,
        Yields (addMethod .action
          (methodFor action.ns (cfg.imports.spelling ty) action.code passed)) s index t ∧
        value = .callAction index passed := by
  simp only [actionCall,cfg.imports.render_eq,yields_bind,yields_typeOf,yields_ofFault_ok,
    yields_pure]
  constructor
  · rintro ⟨_,_,⟨typed,rfl⟩,_,_,⟨rfl,rfl⟩,index,_,added,rfl,rfl⟩
    exact ⟨_,typed,index,added,rfl⟩
  · rintro ⟨ty,typed,index,added,rfl⟩
    exact ⟨ty,s,⟨typed,rfl⟩,_,s,⟨rfl,rfl⟩,index,t,added,rfl,rfl⟩

@[simp] theorem safe_actionCall (cfg : Setting) (site : Site) (action : Action)
    (passed : List Passed) (s : State) (post : Value → State → Prop) :
    Safe (actionCall cfg site action passed) s post ↔
      ∀ ty, cfg.types.node site.id = some ty → Safe (addMethod .action
        (methodFor action.ns (cfg.imports.spelling ty) action.code passed)) s
        fun index t => post (.callAction index passed) t := by
  simp only [actionCall,cfg.imports.render_eq,safe_bind,safe_typeOf,safe_ofFault_ok,safe_pure]

def boundIn (scope : Scope) : Boundary → Option Bound
  | .count n => some (.count n)
  | .label name => (scope.find name).map fun binding => .slot binding.slot

@[simp] theorem yields_boundOf (scope : Scope) (location : Location) (boundary : Boundary)
    (s t : State) (bound : Bound) :
    Yields (boundOf scope location boundary) s bound t ↔
      boundIn scope boundary = some bound ∧ t = s := by
  cases boundary with
  | count n => simp [boundOf,boundIn,eq_comm]
  | label name =>
    cases found : scope.find name with
    | none => simp [boundOf,boundIn,found]
    | some binding => simp [boundOf,boundIn,found,eq_comm]

@[simp] theorem safe_boundOf (scope : Scope) (location : Location) (boundary : Boundary)
    (s : State) (post : Bound → State → Prop) :
    Safe (boundOf scope location boundary) s post ↔
      ∀ bound, boundIn scope boundary = some bound → post bound s := by
  cases boundary with
  | count n => simp [boundOf,boundIn]
  | label name =>
    cases found : scope.find name with
    | none =>
      simp only [boundOf,boundIn,found,Option.map_none,reduceCtorEq,false_implies,implies_true,
        iff_true]
      intro fault same
      cases same
    | some binding => simp [boundOf,boundIn,found]

@[simp] theorem yields_boundsOf (scope : Scope) (location : Location)
    (boundary : Option Boundary) (s t : State) (bound : Option Bound) :
    Yields (boundary.mapM (boundOf scope location)) s bound t ↔
      boundary.map (boundIn scope) = bound.map some ∧ t = s := by
  cases boundary with
  | none => cases bound <;> simp
  | some limit => cases bound <;> simp

@[simp] theorem safe_boundsOf (scope : Scope) (location : Location)
    (boundary : Option Boundary) (s : State) (post : Option Bound → State → Prop) :
    Safe (boundary.mapM (boundOf scope location)) s post ↔
      ∀ bound, boundary.map (boundIn scope) = Option.map some bound → post bound s := by
  cases boundary with
  | none =>
    simp only [Option.mapM_none,safe_pure,Option.map_none]
    constructor
    · intro here bound found
      cases bound with
      | none => exact here
      | some _ => cases found
    · intro all
      exact all none rfl
  | some limit =>
    simp only [Option.mapM_some,safe_map,safe_boundOf,Option.map_some]
    constructor
    · intro all bound found
      cases bound with
      | none => simp at found
      | some bound => exact all bound (Option.some.inj found)
    · intro all bound found
      exact all (some bound) (congrArg some found)

-- A goal about a run is opened by the lemmas above, never by computing the run.
attribute [irreducible] Yields Safe

end Lowering

end PegCompiler
