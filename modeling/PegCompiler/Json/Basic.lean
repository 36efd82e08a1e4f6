import PegCompiler.Decimal.Binary64

/-! JSON values. Members of an object stay in the order of the text, repeated keys included.
A value that is well formed but denotes nothing, a string with an unpaired surrogate or a
number beyond the doubles, is kept as `unreadable`: it does no harm where values are skipped. -/
namespace PegCompiler

namespace Json

inductive Number where
  | natural (n : Nat)
  | negated (n : Nat)
  | double (isNegative : Bool) (magnitude : Binary64)
deriving DecidableEq, Repr

end Json

inductive Json where
  | null
  | bool (value : Bool)
  | number (value : Json.Number)
  | string (value : String)
  | array (items : List Json)
  | object (members : List (String × Json))
  | unreadable
deriving Inhabited

end PegCompiler
