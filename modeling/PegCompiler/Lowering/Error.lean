import PegCompiler.Source.Location
import PegCompiler.Target.Fault

/-! Errors that stop the generation of a parser. -/
namespace PegCompiler

inductive GenerateError where
  | unknownStartRule (name : String)
  | noStartRules
  | entryPointClash (constant first second : String)
  | unboundLabel (label : String) (location : Location)
  | untyped (kind : String) (location : Location)
  | internal (fault : Fault)
deriving DecidableEq, Repr

namespace GenerateError

def message : GenerateError → String
  | .unknownStartRule name => s!"start rule `{name}` is not defined"
  | .noStartRules => "grammar has no rules to start from"
  | .entryPointClash constant first second =>
    s!"start rules `{first}` and `{second}` both map to entry point `{constant}`"
  | .unboundLabel label _ => s!"range boundary refers to unbound label `{label}`"
  | .untyped kind _ => s!"no inferred type for `{kind}` node"
  | .internal fault => fault.message

def location : GenerateError → Option Location
  | .unboundLabel _ location => some location
  | .untyped _ location => some location
  | _ => none

end GenerateError

end PegCompiler
