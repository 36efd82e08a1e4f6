/-! Faults of code generation itself: conditions that no grammar should bring about, kept as
values so that their absence can be stated. -/
namespace PegCompiler

inductive Fault where
  | underflow (letter : String) (index : Int)
  | unknownClass (name : String)
  | misplaced (kind : String)
  | unbalanced (rule : String)
  | overflow
deriving DecidableEq, Repr

namespace Fault

def message : Fault → String
  | .underflow letter index =>
    s!"var stack '{letter}' underflow: attempt to use var at index {index}"
  | .unknownClass name => s!"unknown import class with local name \"{name}\""
  | .misplaced kind => s!"{kind} lowered above its base"
  | .unbalanced rule => s!"stack unbalanced in {rule}"
  | .overflow => "attempt to add with overflow"

end Fault

end PegCompiler
