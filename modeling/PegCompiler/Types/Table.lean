import PegCompiler.Grammar.Basic
import PegCompiler.Types.Ty

/-! The outcome of type inference: a type for every node and every rule, and what went
wrong. -/
namespace PegCompiler

inductive TypeError where
  | missingReturnType (location : Location)
  | actionTypeUndefined (location : Location)
  | unknownRule (name : String) (location : Location)
  | diverged (sweeps : Nat) (rules : List String)
deriving DecidableEq, Repr

namespace TypeError

def message : TypeError → String
  | .missingReturnType _ => "missing default return type for action result"
  | .actionTypeUndefined _ => "type of action result is undefined"
  | .unknownRule name _ => s!"reference to undefined rule `{name}`"
  | .diverged sweeps rules =>
    s!"rule types did not stabilize after {sweeps} sweeps (still changing: " ++
      ", ".intercalate rules ++ ")"

def location : TypeError → Option Location
  | .missingReturnType location => some location
  | .actionTypeUndefined location => some location
  | .unknownRule _ location => some location
  | .diverged .. => none

end TypeError

structure TypeTable where
  nodes : List (Nat × Ty) := []
  rules : List (Option Ty) := []
  sweeps : Nat := 0
deriving DecidableEq, Repr

namespace TypeTable

def node (table : TypeTable) (id : Nat) : Option Ty :=
  table.nodes.lookup id

def expr (table : TypeTable) (e : Expr) : Option Ty :=
  table.node e.id

def rule (table : TypeTable) (index : Nat) : Option Ty :=
  table.rules[index]?.join

def isComplete (table : TypeTable) (ruleCount : Nat) : Bool :=
  table.rules.length == ruleCount && table.rules.all (·.isSome)

end TypeTable

end PegCompiler
