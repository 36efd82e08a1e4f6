import PegCompiler.Lowering.Interner
import PegCompiler.Target.StringLiteral

/-! Shared constants of the generated class: compiled patterns and descriptions of what was
expected. Two constants are one when their initializers read the same. -/
namespace PegCompiler

open Target

structure ConstantPool where
  letter : String
  type : String
  values : Interner String := {}

namespace ConstantPool

def add (pool : ConstantPool) (initializer : String) : Nat × ConstantPool :=
  let (index,values) := pool.values.intern initializer
  (index,{ pool with values })

def nameOf (pool : ConstantPool) (index : Nat) : String :=
  s!"{pool.letter}{index}"

def definitions (pool : ConstantPool) : List String :=
  pool.values.toList.map fun (index,initializer) =>
    s!"private static final {pool.type} {pool.nameOf index} = {initializer};"

end ConstantPool

def patternInitializer (className source : String) (ignoreCase : Bool) : String :=
  let flag := if ignoreCase then className ++ ".CASE_INSENSITIVE | " else ""
  let literal := stringLiteral source
  s!"{className}.compile({literal}, {flag}{className}.DOTALL | {className}.UNICODE_CASE)"

inductive ExpectedKind where
  | literal
  | pattern
  | rule
deriving DecidableEq, Repr

namespace ExpectedKind

def display : ExpectedKind → String
  | .literal => "LITERAL"
  | .pattern => "PATTERN"
  | .rule => "RULE"

end ExpectedKind

def literalOrNull (text : Option String) : String :=
  match text with
  | none => "null"
  | some s => if s.isEmpty then "null" else stringLiteral s

def expectedInitializer (className : String) (kind : ExpectedKind)
    (value description : Option String) : String :=
  s!"new {className}({className}.Type.{kind.display}, {literalOrNull value}, " ++
    s!"{literalOrNull description})"

end PegCompiler
