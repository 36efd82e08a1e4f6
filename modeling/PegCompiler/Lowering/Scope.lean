import PegCompiler.Types.Ty

/-! Labels in scope, in the order of their first binding. -/
namespace PegCompiler

structure Binding where
  label : String
  slot : Nat
  type : Ty
deriving DecidableEq, Repr

abbrev Scope := List Binding

namespace Scope

def bind (scope : Scope) (binding : Binding) : Scope :=
  match scope with
  | [] => [binding]
  | first :: rest =>
    if first.label = binding.label then binding :: rest else first :: bind rest binding

def find (scope : Scope) (label : String) : Option Binding :=
  scope.find? fun b => b.label == label

end Scope

end PegCompiler
