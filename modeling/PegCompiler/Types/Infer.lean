import PegCompiler.Diagnostic
import PegCompiler.Types.Table

/-! Type inference. The types of actions are decided first. Then every rule is typed from its
body: a rule that is referred to before its turn is typed on demand, and stands for its own
phantom while its body is worked on. Sweeps over all rules follow until one changes nothing;
their number is limited. -/
namespace PegCompiler

inductive Decision where
  | declared (name : String)
  | default (name : String)
  | missing
deriving DecidableEq, Repr

namespace Action

def decide (default : Option String) (action : Action) : Decision :=
  match action.declaredType, default with
  | some name, _ => .declared name
  | none, some name => .default name
  | none, none => .missing

end Action

namespace Expr

mutual

def actions : Expr → List (Site × Action)
  | .named _ _ body => body.actions
  | .choice _ alternatives => actionsAll alternatives
  | .action site act body => body.actions ++ [(site,act)]
  | .sequence _ elements => actionsAll elements
  | .labeled _ _ body => body.actions
  | .text _ body => body.actions
  | .optional _ body => body.actions
  | .repeated _ _ body => body.actions
  | .lookahead _ _ body => body.actions
  | .predicate .. => []
  | .ruleRef .. => []
  | .literal .. => []
  | .charClass .. => []
  | .any .. => []

def actionsAll : List Expr → List (Site × Action)
  | [] => []
  | e :: rest => e.actions ++ actionsAll rest

end

end Expr

structure Inference where
  seeded : List (Nat × Ty) := []
  slots : List (Option Ty) := []
  nodes : List (Nat × Ty) := []
  changed : List Nat := []
  errors : List TypeError := []
  log : Diagnostics := {}

namespace Inference

def report (s : Inference) (error : TypeError) : Inference :=
  { s with
    errors := s.errors ++ [error]
    log := s.log.emitError error.message error.location }

def reportOnce (s : Inference) (error : TypeError) : Inference :=
  if error ∈ s.errors then s else s.report error

def record (s : Inference) (id : Nat) (ty : Ty) : Ty × Inference :=
  (ty,{ s with nodes := (id,ty) :: s.nodes })

def slot (s : Inference) (index : Nat) : Option Ty :=
  s.slots[index]?.join

def store (s : Inference) (index : Nat) (ty : Ty) : Inference :=
  if s.slot index = some ty then s
  else { s with slots := s.slots.set index (some ty), changed := s.changed ++ [index] }

def seed (default : Option String) (s : Inference) (entry : Site × Action) : Inference :=
  let (site,action) := entry
  match action.decide default with
  | .declared name =>
    { s with
      seeded := s.seeded ++ [(site.id,Ty.ofName name)]
      log := s.log.emitInfo s!"using type `{name}` for action from @Return annotation"
        (some site.location) }
  | .default name =>
    { s with
      seeded := s.seeded ++ [(site.id,Ty.ofName name)]
      log := s.log.emitInfo s!"using default type `{name}` for action" (some site.location) }
  | .missing => s.report (.missingReturnType site.location)

def seedAll (default : Option String) (g : Grammar) (s : Inference) : Inference :=
  (g.rules.flatMap fun rule => rule.body.actions).foldl (seed default) s

def actionType (s : Inference) (site : Site) : Ty × Inference :=
  match s.seeded.lookup site.id with
  | some ty => (ty,s)
  | none => (.object,s.reportOnce (.actionTypeUndefined site.location))

mutual

def infer (g : Grammar) (resolve : Nat → Inference → Ty × Inference) :
    Expr → Inference → Ty × Inference
  | .named site _ body, s =>
    let (ty,s) := infer g resolve body s
    s.record site.id ty
  | .choice site alternatives, s =>
    let (types,s) := inferAll g resolve alternatives s
    s.record site.id (.union types)
  | .action site _ body, s =>
    let (_,s) := infer g resolve body s
    let (ty,s) := s.actionType site
    s.record site.id ty
  | .sequence site elements, s =>
    let (types,s) := inferAll g resolve elements s
    s.record site.id (.tuple types)
  | .labeled site _ body, s =>
    let (ty,s) := infer g resolve body s
    s.record site.id ty
  | .text site body, s =>
    let (_,s) := infer g resolve body s
    s.record site.id .slice
  | .optional site body, s =>
    let (ty,s) := infer g resolve body s
    s.record site.id (.option ty)
  | .repeated site _ body, s =>
    let (ty,s) := infer g resolve body s
    s.record site.id (.list ty)
  | .lookahead site _ body, s =>
    let (_,s) := infer g resolve body s
    s.record site.id .object
  | .predicate site .., s => s.record site.id .object
  | .ruleRef site name, s =>
    match g.ruleIndex name with
    | some index =>
      let (ty,s) := resolve index s
      s.record site.id ty
    | none => (s.reportOnce (.unknownRule name site.location)).record site.id .object
  | .literal site .., s => s.record site.id .slice
  | .charClass site .., s => s.record site.id .char
  | .any site, s => s.record site.id .char

def inferAll (g : Grammar) (resolve : Nat → Inference → Ty × Inference) :
    List Expr → Inference → List Ty × Inference
  | [], s => ([],s)
  | e :: rest, s =>
    let (ty,s) := infer g resolve e s
    let (types,s) := inferAll g resolve rest s
    (ty :: types,s)

end

def inferRule (g : Grammar) (resolve : Nat → Inference → Ty × Inference) (index : Nat)
    (s : Inference) : Ty × Inference :=
  match g.rules[index]? with
  | none => (.object,s)
  | some rule =>
    let (ty,s) := infer g resolve rule.body s
    (ty,s.store index ty)

/-- The type of the rule at a place. A rule that has none yet is typed from its body, and has
its phantom meanwhile. Each level of recursion gives a type to one more rule, so `depth` need
not exceed the number of rules. -/
def ruleType (g : Grammar) : (depth : Nat) → (index : Nat) → Inference → Ty × Inference
  | 0, index, s => ((s.slot index).getD .object,s)
  | depth + 1, index, s =>
    match s.slot index with
    | some ty => (ty,s)
    | none =>
      let phantom := (g.rules[index]?.map fun rule => Ty.phantom rule.name)
      inferRule g (ruleType g depth) index { s with slots := s.slots.set index phantom }

def resolveAll (g : Grammar) (s : Inference) : Inference :=
  (List.range g.rules.length).foldl (fun s index => (ruleType g g.rules.length index s).2) s

def sweep (g : Grammar) (s : Inference) : Inference :=
  (List.range g.rules.length).foldl
    (fun s index => (inferRule g (ruleType g g.rules.length) index s).2) { s with changed := [] }

def changedNames (g : Grammar) (s : Inference) : List String :=
  s.changed.filterMap fun index => g.rules[index]?.map (·.name)

/-- Sweeps until nothing changes. With no sweep left and types still changing, one more sweep
tells which rules they are. Also gives the number of sweeps, that last one aside. -/
def settle (g : Grammar) : (left sweeps : Nat) → Inference → Inference × Nat
  | left, sweeps, s =>
    if s.changed.isEmpty then (s,sweeps)
    else
      match left with
      | 0 =>
        let s := s.sweep g
        (s.report (.diverged sweeps (s.changedNames g)),sweeps)
      | left + 1 => settle g left (sweeps + 1) (s.sweep g)

end Inference

def sweepCap (rules : Nat) : Nat := 2 * rules + 8

structure Typing where
  table : TypeTable
  errors : List TypeError
  log : Diagnostics

namespace Typing

def isOk (t : Typing) : Bool := t.errors.isEmpty

end Typing

namespace Inference

def finish (s : Inference) (sweeps : Nat) : Typing :=
  ⟨⟨s.nodes,s.slots,sweeps⟩,s.errors,s.log⟩

end Inference

/-- Infers the type of every node of a grammar. `default` is the type of actions that declare
none; without it such actions are errors, and no type is inferred. -/
def check (g : Grammar) (default : Option String) (log : Diagnostics := {}) : Typing :=
  let start : Inference := { slots := g.rules.map fun _ => none, log }
  let seeded := start.seedAll default g
  if seeded.errors.isEmpty then
    let (settled,sweeps) := (seeded.resolveAll g).settle g (sweepCap g.rules.length) 0
    settled.finish sweeps
  else seeded.finish 0

end PegCompiler
