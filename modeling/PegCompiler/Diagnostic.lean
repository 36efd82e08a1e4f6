import PegCompiler.Source.Location

/-! Diagnostics: what the compiler has to say about a grammar, in the order of saying it. -/
namespace PegCompiler

inductive Severity where
  | error
  | info
deriving DecidableEq, Repr

structure Diagnostic where
  severity : Severity
  message : String
  location : Option Location
deriving DecidableEq, Repr

namespace Severity

def label : Severity → String
  | .error => "error"
  | .info => "info"

def code : Severity → String
  | .error => "G0001"
  | .info => "G0100"

end Severity

namespace Diagnostic

def isError (d : Diagnostic) : Bool :=
  d.severity == .error

end Diagnostic

structure Diagnostics where
  items : List Diagnostic := []
deriving DecidableEq, Repr

namespace Diagnostics

def push (log : Diagnostics) (d : Diagnostic) : Diagnostics :=
  ⟨log.items ++ [d]⟩

def emitError (log : Diagnostics) (message : String) (location : Option Location) :
    Diagnostics :=
  log.push ⟨.error,message,location⟩

def emitInfo (log : Diagnostics) (message : String) (location : Option Location) :
    Diagnostics :=
  log.push ⟨.info,message,location⟩

def errors (log : Diagnostics) : List Diagnostic :=
  log.items.filter (·.isError)

def hasErrors (log : Diagnostics) : Bool :=
  log.items.any (·.isError)

end Diagnostics

end PegCompiler
