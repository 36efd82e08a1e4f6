import PegCompiler.Proofs.Lowering.Preservation
import PegCompiler.Proofs.Lowering.References

/-! Label scoping of lowered rules. The calls in the code of a rule are, in order, those of its
predicates and actions, and each is handed exactly the labels that are lexically in scope. -/
namespace PegCompiler.Lowering

structure Call where
  kind : MethodKind
  method : Nat
  arguments : List Passed

structure CallSite where
  kind : MethodKind
  ns : Option String
  code : String
  bound : List Labelled

private def asCall (reference : Reference) : Option Call :=
  match reference.target with
  | .method kind index => some ⟨kind,index,reference.arguments⟩
  | _ => none

def calls (code : List Instr) : List Call := (Instr.referencesAll code).filterMap asCall

def callSite (visit : Visit) : Option CallSite :=
  match visit.node with
  | .predicate _ _ code ns => some ⟨.predicate,ns,code,visit.bound⟩
  | .action _ act body => some ⟨.action,act.ns,act.code,visit.bound ++ body.handed visit.base⟩
  | _ => none

/-- How a label is passed: by its latest binding, under the type that the table gives the labelled
expression, from the local that this expression was lowered to. -/
structure PassesLatest (cfg : Setting) (final : Registries) (code : List Instr)
    (bound : List Labelled) (p : Passed) (l : Labelled) : Prop where
  latest : bound.reverse.find? (fun other => other.label == p.param) = some l
  type : ∃ ty, cfg.types.expr l.body = some ty ∧ cfg.imports.render ty = .ok p.type
  slot : p.slot = l.slot
  lowered : LoweredIn cfg final code l

structure HandedScope (cfg : Setting) (final : Registries) (code : List Instr) (call : Call)
    (site : CallSite) : Prop where
  kind : call.kind = site.kind
  method : ∃ type, (final.userCode.methods site.kind).get? call.method =
    some ⟨site.ns,type,site.code,call.arguments.map fun p => (p.param,p.type)⟩
  names : call.arguments.map (·.param) = (site.bound.map (·.label)).eraseDups
  distinct : (call.arguments.map (·.param)).Nodup
  arguments : ∀ p ∈ call.arguments, ∃ l, PassesLatest cfg final code site.bound p l

section Calls

variable {cfg : Setting} {final : Registries} {code : List Instr}

private def needCall (need : Need) : Option CallSite :=
  match need.resource with
  | .method kind method => some ⟨kind,method.ns,method.body,need.bound⟩
  | _ => none

private theorem needs_calls (visits : List Visit) :
    (needsOf cfg visits).filterMap needCall = visits.filterMap callSite := by
  induction visits with
  | nil => rfl
  | cons visit rest ih =>
    have here : (needs cfg visit).filterMap needCall = (callSite visit).toList := by
      obtain ⟨node,base,bound⟩ := visit
      cases node <;> rfl
    change (needs cfg visit ++ needsOf cfg rest).filterMap needCall = _
    rw [List.filterMap_append,here,ih,List.filterMap_cons]
    cases callSite visit <;> rfl

private theorem Serves.call {reference : Reference} {need : Need}
    (served : Serves cfg final (LoweredIn cfg final code) reference need) :
    Option.Rel (HandedScope cfg final code) (asCall reference) (needCall need) := by
  obtain ⟨found,names,passed,params⟩ := served
  obtain ⟨resource,bound⟩ := need
  obtain ⟨target,arguments⟩ := reference
  cases target with
  | pattern index =>
    obtain ⟨value,-,rfl⟩ := Option.map_eq_some_iff.mp found
    exact .none
  | expected index =>
    obtain ⟨value,-,rfl⟩ := Option.map_eq_some_iff.mp found
    exact .none
  | method kind index =>
    obtain ⟨method,registered,rfl⟩ := Option.map_eq_some_iff.mp found
    have named : arguments.map (·.param) = (bound.map (·.label)).eraseDups := names
    have typed : method.params = arguments.map fun p => (p.param,p.type) :=
      params kind method rfl
    refine .some ⟨rfl,⟨method.type,?_⟩,named,?_,fun p member => ?_⟩
    · rw [registered,← typed]
    · rw [named]
      exact eraseDups_nodup _
    · obtain ⟨l,last,slot,type,known,lowered⟩ := passed p member
      obtain ⟨ty,found⟩ := Option.isSome_iff_exists.mp known
      have node : cfg.types.node l.body.id = some ty := found
      refine ⟨l,last,⟨ty,found,?_⟩,slot,lowered⟩
      rw [cfg.imports.render_eq,type,Semantics.labelType,node]

end Calls

/-- The calls in the code of a rule are those of the predicates and actions of its expression, in
order, and each is handed the labels in scope where it stands. -/
theorem calls_see_lexical_scope (cfg : Setting) (rule : Rule) (isStart : Bool)
    (before after : Registries) (sub : Subroutine)
    (lowered : lowerRule cfg rule isStart before = (.ok sub,after)) :
    List.Forall₂ (HandedScope cfg after sub.body) (calls sub.body)
      ((rule.body.visits 0 []).filterMap callSite) := by
  obtain ⟨-,inner,emitted⟩ := Semantics.Lowered.emits
    (⟨isStart,before,after,lowered,.refl after⟩ : Semantics.Lowered cfg after rule sub)
  rw [← needs_calls,calls]
  exact List.rel_filterMap (fun _ _ served => served.call) (emits_references emitted)

theorem HandedScope.slots {cfg : Setting} {final : Registries} {code : List Instr} {call : Call}
    {site : CallSite} (handed : HandedScope cfg final code call site) :
    call.arguments.map (fun p => (p.param,some p.slot)) =
      (site.bound.map (·.label)).eraseDups.map fun label =>
        (label,(latest site.bound label).map (·.slot)) := by
  rw [← handed.names,List.map_map]
  apply List.map_congr_left
  intro p member
  obtain ⟨l,passed⟩ := handed.arguments p member
  have last : latest site.bound p.param = some l := passed.latest
  simp [last,passed.slot]

def reboundRule : Rule where
  name := "rebound"
  body := .action { id := 0 } { code := "return a;" } (.sequence { id := 1 } [
    .labeled { id := 2 } "a" (.any { id := 3 }),
    .named { id := 4 } "word" (.labeled { id := 5 } "b" (.literal { id := 6 } "b" false)),
    .labeled { id := 7 } "a" (.text { id := 8 } (.any { id := 9 })),
    .predicate { id := 10 } false "return b != null;" none])

def reboundSetting : Setting :=
  ⟨⟨false⟩,{ nodes := [(0,.object),(3,.char),(6,.slice),(8,.slice)] }⟩

/-- Both calls are handed the later binding of the label in the place of the earlier one. -/
theorem rebound_calls : ∃ before sub after,
    lowerRule reboundSetting reboundRule true before = (.ok sub,after) ∧
    (calls sub.body).map (fun call => call.arguments.map fun p => (p.param,some p.slot)) =
      [[("a",some 2),("b",some 1)],[("a",some 2),("b",some 1)]] := by
  let before : Registries :=
    ⟨{ letter := "p", type := "Pattern" },{ letter := "e", type := "Expected" },{}⟩
  have lowers : (lowerRule reboundSetting reboundRule true before).1.toOption.isSome = true := by
    decide +kernel
  cases run : lowerRule reboundSetting reboundRule true before with
  | mk result after =>
    rw [run] at lowers
    cases result with
    | error _ => exact nomatch lowers
    | ok sub =>
      refine ⟨before,sub,after,run,?_⟩
      have handed := calls_see_lexical_scope reboundSetting reboundRule true before after sub run
      have slots := List.forall₂_map_left_iff.mpr
        (List.forall₂_map_right_iff.mpr (handed.imp fun _ _ h => h.slots))
      rw [List.forall₂_eq_eq_eq] at slots
      rw [slots]
      decide +kernel

end PegCompiler.Lowering
