import PegCompiler.Toml.Parser

/-! Options of a compilation, and how they are read from a TOML document: every key may be
missing, and keys of no meaning are skipped. -/
namespace PegCompiler

structure Options where
  package : Option String := some "org.pegjs.parser.generated"
  className : String := "Parser"
  baseClassName : Option String := none
  useFullyQualifiedNames : Bool := false
  allowedStartRules : List String := []
  defaultActionReturnType : Option String := some "Object"
  indent : UInt64 := 2
deriving DecidableEq, Repr

namespace Options

def startRules (options : Options) (firstRule : Option String) : List String :=
  if options.allowedStartRules.isEmpty then firstRule.toList else options.allowedStartRules

inductive ReadError where
  | malformed
  | mismatch (key : String)
deriving DecidableEq, Repr

namespace ReadError

def message : ReadError → String
  | .malformed => "failed to parse options: the text is not TOML"
  | .mismatch key => s!"failed to parse options: wrong kind of value for `{key}`"

end ReadError

def field {α : Type} (t : Toml) (key : String) (read : Toml.Value → Option α) :
    Except ReadError (Option α) :=
  match t.lookup key with
  | none => .ok none
  | some (.value v) =>
    match read v with
    | some a => .ok (some a)
    | none => .error (.mismatch key)
  | some _ => .error (.mismatch key)

def readText : Toml.Value → Option String
  | .string s => some s
  | _ => none

def readFlag : Toml.Value → Option Bool
  | .boolean b => some b
  | _ => none

def readCount : Toml.Value → Option UInt64
  | .integer n => if 0 ≤ n ∧ n < UInt64.size then some (.ofNat n.toNat) else none
  | _ => none

def readTexts : Toml.Value → Option (List String)
  | .array items => items.mapM readText
  | _ => none

def ofToml (text : String) : Except ReadError Options := do
  match Toml.parse text with
  | none => .error .malformed
  | some t =>
    let base : Options := {}
    let package ← field t "package" readText
    let className ← field t "class-name" readText
    let baseClassName ← field t "base-class-name" readText
    let useFullyQualifiedNames ← field t "use-fully-qualified-names" readFlag
    let allowedStartRules ← field t "allowed-start-rules" readTexts
    let defaultActionReturnType ← field t "default-action-return-type" readText
    let indent ← field t "indent" readCount
    return {
      package := package <|> base.package
      className := className.getD base.className
      baseClassName := baseClassName <|> base.baseClassName
      useFullyQualifiedNames := useFullyQualifiedNames.getD base.useFullyQualifiedNames
      allowedStartRules := allowedStartRules.getD base.allowedStartRules
      defaultActionReturnType := defaultActionReturnType <|> base.defaultActionReturnType
      indent := indent.getD base.indent }

end Options

end PegCompiler
