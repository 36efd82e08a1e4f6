import PegCompiler.Proofs.Lowering.Declarations
import PegCompiler.Proofs.Lowering.References
import PegCompiler.Proofs.Lowering.Simulation
import PegCompiler.Proofs.Semantics.Spelled

/-! Lowering preserves meaning. The statements that a rule is compiled to, read and run, end in an
outcome and at a position if and only if the expression of the rule means that outcome at that
position. Rules call each other, so the equivalence is proved for calls nested less than `depth`
deep, by induction on `depth`. -/
namespace PegCompiler.Semantics

open Lowering Target

variable {ω π : Type}

structure Runtime.Stays (rt : Runtime ω π) : Prop where
  literal : ∀ value ignoreCase, FailsInPlace (rt.literal value ignoreCase)
  pattern : ∀ initializer inverted, FailsInPlace (rt.pattern initializer inverted)
  any : FailsInPlace rt.any

theorem Runtime.Stays.meaning {rt : Runtime ω π} (stays : rt.Stays) (cfg : Setting) :
    (rt.meaning cfg).Stays :=
  ⟨stays.literal,fun _ inverted _ => stays.pattern _ inverted,stays.any⟩

def Lowered (cfg : Setting) (code : Registries) (rule : Rule) (sub : Subroutine) : Prop :=
  ∃ isStart before after, lowerRule cfg rule isStart before = (.ok sub,after) ∧ after.Within code

/-- A rule that was lowered keeps its name, and its body is the code of its expression. -/
theorem Lowered.emits {cfg : Setting} {code : Registries} {rule : Rule} {sub : Subroutine}
    (lowered : Lowered cfg code rule sub) :
    sub.name = rule.name ∧ ∃ scope, Emits cfg code rule.body 0 0 none [] sub.body scope := by
  obtain ⟨isStart,before,after,run,within⟩ := lowered
  obtain ⟨object,position,t,yields,rfl⟩ := lowerRule_ok run
  simp only [lowerBody,yields_bind,yields_get] at yields
  obtain ⟨⟨body,scope⟩,_,lowered,_,_,⟨rfl,rfl⟩,done⟩ := yields
  split at done
  · obtain ⟨rfl,rfl⟩ := (yields_pure _ _ _ _).mp done
    exact ⟨rfl,scope,lower_emits cfg rule.body lowered rfl within⟩
  · exact absurd done (yields_throw _ _ _ _)

/-- A subroutine has the locals of values and those of positions. -/
theorem lowerRule_locals {cfg : Setting} {rule : Rule} {isStart : Bool}
    {before after : Registries} {sub : Subroutine}
    (lowered : lowerRule cfg rule isStart before = (.ok sub,after)) :
    LocalsOf cfg.imports sub.values sub.positions := by
  obtain ⟨t,yields,-⟩ := lowerRule_started lowered
  simp only [lowerBody,yields_bind,yields_get] at yields
  obtain ⟨⟨body,scope⟩,_,run,_,_,⟨rfl,rfl⟩,done⟩ := yields
  split at done
  next =>
    obtain ⟨rfl,rfl⟩ := (yields_pure _ _ _ _).mp done
    obtain ⟨grown,seen⟩ := lower_declares cfg rule.body (List.nil_subset []) run
      ⟨Nat.le_refl 0,Nat.le_refl 0⟩ fun _ member => absurd member List.not_mem_nil
    have result : t.Has (.value 0) := seen _ List.mem_cons_self
    exact ⟨grown.values.letter,grown.values.type,grown.positions.letter,grown.positions.type,
      Nat.ne_of_gt result⟩
  next => exact absurd done (yields_throw _ _ _ _)

/-- The code of a rule hands methods what they declare. -/
theorem Lowered.declared {cfg : Setting} {code : Registries} {rule : Rule} {sub : Subroutine}
    (lowered : Lowered cfg code rule sub) :
    ∀ r ∈ Instr.referencesAll sub.body, Declared code r := by
  obtain ⟨-,scope,emitted⟩ := lowered.emits
  intro r inside kind index target
  obtain ⟨need,-,serves⟩ := related (emits_references emitted) inside
  have found := serves.found
  rw [target] at found
  obtain ⟨method,present,same⟩ := Option.map_eq_some_iff.mp found
  exact ⟨method,present,serves.params kind method same.symm⟩

def Compiled (cfg : Setting) (code : Registries) (rule : Rule) (stmts : List Stmt) : Prop :=
  ∃ isStart before sub after, lowerRule cfg rule isStart before = (.ok sub,after) ∧
    sub.toStmts cfg.imports = .ok stmts ∧ after.Within code

/-- What a rule is compiled to reads as its subroutine. -/
theorem Compiled.lowered {cfg : Setting} {code : Registries} {rule : Rule} {stmts : List Stmt}
    (compiled : Compiled cfg code rule stmts) : ∃ sub, Lowered cfg code rule sub ∧
      readRoutine cfg.imports code stmts = some sub.routine := by
  obtain ⟨isStart,before,sub,after,run,printed,within⟩ := compiled
  have lowered : Lowered cfg code rule sub := ⟨isStart,before,after,run,within⟩
  exact ⟨sub,lowered,readRoutine_toStmts (lowerRule_locals run) lowered.declared printed⟩

theorem compiled_lowered {cfg : Setting} {code : Registries} {rules : List Rule}
    {pieces : List (List Stmt)} (compiled : List.Forall₂ (Compiled cfg code) rules pieces) :
    ∃ subs, List.Forall₂ (Lowered cfg code) rules subs ∧
      pieces.mapM (readRoutine cfg.imports code) = some (subs.map Subroutine.routine) := by
  induction compiled with
  | nil => exact ⟨[],.nil,rfl⟩
  | cons first _ ih =>
    obtain ⟨sub,lowered,read⟩ := first.lowered
    obtain ⟨subs,others,reads⟩ := ih
    exact ⟨sub :: subs,.cons lowered others,by rw [List.mapM_cons,read,reads]; rfl⟩

section Programs

variable {cfg : Setting} {rt : Runtime ω π} {methods : Methods ω π} {code : Registries}

/-- The body of a rule that was lowered, run with calls that do what `parse` says. -/
private theorem body_meets (stays : rt.Stays) (implements : methods.Implement rt)
    {call : Calls ω π} {parse : String → Parser ω π}
    (linked : ∀ name s o q, (∃ s', call name s o s' ∧ s'.current = q) ↔ parse name s.current o q)
    (inPlace : ∀ name, FailsInPlace (parse name)) {rule : Rule} {sub : Subroutine}
    (lowered : Lowered cfg code rule sub) (m : Machine ω π) :
    Meets ⟨rt,methods,code,call⟩ ToEnd 0 0 sub.body m
      (Eval (rt.meaning cfg) parse rule.body [] m.current) := by
  obtain ⟨-,scope,emitted⟩ := lowered.emits
  have simulates : Simulates cfg ⟨rt,methods,code,call⟩ parse rule.body 0 0 [] sub.body :=
    emits_simulates implements linked (eval_failsInPlace (stays.meaning cfg) inPlace) rule.body
      (fun _ member => nomatch member) emitted
  exact simulates .nil

/-- Looking up a rule by name and looking up its routine find the same place. -/
private theorem find_lowered {rules : List Rule} {subs : List Subroutine}
    (lowered : List.Forall₂ (Lowered cfg code) rules subs) (name : String) :
    Option.Rel (fun rule routine => ∃ sub, Lowered cfg code rule sub ∧ routine = sub.routine)
      (rules.find? fun r => r.name == name)
      ((subs.map Subroutine.routine).find? fun r => r.name == name) := by
  induction lowered with
  | nil => exact .none
  | @cons rule sub _ _ first _ ih =>
    have names : sub.routine.name = rule.name := first.emits.1
    rw [List.map_cons,List.find?_cons,List.find?_cons,names]
    cases rule.name == name with
    | true => exact .some ⟨sub,first,rfl⟩
    | false => exact ih

/-- Calls of routines nested less than `depth` deep do what the rules do. -/
private theorem callWithin_iff (stays : rt.Stays) (implements : methods.Implement rt)
    {rules : List Rule} {subs : List Subroutine}
    (lowered : List.Forall₂ (Lowered cfg code) rules subs) (depth : Nat) (name : String)
    (s : Shared π) (o : Outcome ω) (q : π) :
    (∃ s', callWithin rt methods code (subs.map Subroutine.routine) depth name s o s' ∧
        s'.current = q) ↔
      ruleWithin (rt.meaning cfg) rules depth name s.current o q := by
  induction depth generalizing name s o q with
  | zero => simp [callWithin,ruleWithin]
  | succ depth ih =>
    have inPlace := ruleWithin_failsInPlace (stays.meaning cfg) rules depth
    have place := find_lowered lowered name
    simp only [callWithin,ruleWithin]
    generalize (rules.find? fun r => r.name == name) = found,
      ((subs.map Subroutine.routine).find? fun r => r.name == name) = found' at place ⊢
    cases place with
    | none => simp
    | @some rule _ here =>
      obtain ⟨sub,lowered,rfl⟩ := here
      have meets := body_meets stays implements ih inPlace lowered
      constructor
      · rintro ⟨_,⟨_,m,m',found,rfl,run,rfl,rfl⟩,rfl⟩
        obtain rfl := Option.some.inj found
        exact ⟨rule,rfl,((meets m).sound run).2.2⟩
      · rintro ⟨_,found,ended⟩
        obtain rfl := Option.some.inj found
        -- The locals of a called rule may hold anything.
        let m : Machine ω π := { s with values := fun _ => .failed, positions := fun _ => s.current }
        obtain ⟨x,m',run,value,position⟩ := (meets m).complete ended
        obtain ⟨rfl,-⟩ := (meets m).sound run
        exact ⟨m'.toShared,⟨_,m,m',rfl,rfl,run,value,rfl⟩,position⟩

/-- Calls of routines do what the rules do. -/
theorem calls_iff (stays : rt.Stays) (implements : methods.Implement rt) {rules : List Rule}
    {subs : List Subroutine} (lowered : List.Forall₂ (Lowered cfg code) rules subs)
    (name : String) (s : Shared π) (o : Outcome ω) (q : π) :
    (∃ s', calls rt methods code (subs.map Subroutine.routine) name s o s' ∧ s'.current = q) ↔
      ruleParser (rt.meaning cfg) rules name s.current o q := by
  simp only [calls,ruleParser,← callWithin_iff stays implements lowered]
  constructor
  · rintro ⟨s',⟨depth,called⟩,position⟩
    exact ⟨depth,s',called,position⟩
  · rintro ⟨depth,s',called,position⟩
    exact ⟨s',⟨depth,called⟩,position⟩

end Programs

def inputRuntime (input : List Char) : Runtime Empty Nat where
  literal value _ p o q :=
    if value.toList.isPrefixOf (input.drop p) then o = .matched (.text value) ∧ q = p + value.length
    else o = .failed ∧ q = p
  pattern _ _ p o q := o = .failed ∧ q = p
  any p o q :=
    match input[p]? with
    | some c => o = .matched (.char c) ∧ q = p + 1
    | none => o = .failed ∧ q = p
  slice start stop := String.ofList ((input.drop start).take (stop - start))
  number _ := none
  predicate _ _ _ _ := False
  action _ _ _ _ _ := False

def chainRule : Rule where
  name := "chain"
  body := .choice {} [.sequence {} [.literal {} "a" false,.ruleRef {} "chain"],.literal {} "b" false]

end PegCompiler.Semantics
