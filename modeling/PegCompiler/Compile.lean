import PegCompiler.Target.ParserClass
import PegCompiler.Types.Infer

/-! From a grammar to the source of its parser: types first, then start rules, then the rules
one after another. -/
namespace PegCompiler

open Target

def firstUntyped (table : TypeTable) : (index : Nat) → List Rule → Option Rule
  | _, [] => none
  | index, rule :: rest =>
    if (table.rule index).isNone then some rule else firstUntyped table (index + 1) rest

/-- The entry points of start rules, where `entries` are those of the earlier ones. A rule
that is listed twice has one entry point; two rules must not share its name. -/
def startEntries (g : Grammar) (table : TypeTable) (entries : List Entry) :
    List String → Except GenerateError (List Entry)
  | [] => .ok entries
  | name :: rest =>
    match g.ruleIndex name with
    | none => .error (.unknownStartRule name)
    | some index =>
      let constant := upperSnake name
      match entries.find? fun e => e.constant == constant with
      | some earlier =>
        if earlier.rule = name then startEntries g table entries rest
        else .error (.entryPointClash constant earlier.rule name)
      | none =>
        let entry : Entry := ⟨name,constant,(table.rule index).getD .object⟩
        startEntries g table (entries ++ [entry]) rest

def lowerRules (cfg : Lowering.Setting) (starts : List String) (registries : Registries) :
    List Rule → Except GenerateError (List Subroutine × Registries)
  | [] => .ok ([],registries)
  | rule :: rest => do
    let (result,registries) :=
      Lowering.lowerRule cfg rule (starts.contains rule.name) registries
    let sub ← result
    let (others,registries) ← lowerRules cfg starts registries rest
    return (sub :: others,registries)

def registerInitializers (g : Grammar) (code : UserCode) : UserCode :=
  g.initializers.foldl (fun code i => code.setInitializer i.ns i.code) code

def internalError {α : Type} : Except Fault α → Except GenerateError α
  | .ok a => .ok a
  | .error fault => .error (.internal fault)

def parserClass (g : Grammar) (table : TypeTable) (options : Options) :
    Except GenerateError ParserClass := do
  if let some rule := firstUntyped table 0 g.rules then
    throw (.untyped "rule" rule.location)
  let starts := options.startRules (g.rules.head?.map (·.name))
  match starts with
  | [] => throw .noStartRules
  | defaultRule :: _ =>
    let entries ← startEntries g table [] starts
    let imports : Imports := ⟨options.useFullyQualifiedNames⟩
    let fresh ← internalError (Registries.fresh imports)
    let prepared := { fresh with userCode := registerInitializers g fresh.userCode }
    let (subroutines,registries) ← lowerRules ⟨imports,table⟩ starts prepared g.rules
    return { options, imports, defaultRule, entries, registries, subroutines }

def generateStmts (g : Grammar) (table : TypeTable) (options : Options) :
    Except GenerateError (List Stmt) := do
  internalError (← parserClass g table options).toStmts

def generate (g : Grammar) (table : TypeTable) (options : Options) :
    Except GenerateError (Except Fault String) := do
  return Stmt.render (← generateStmts g table options) options.indent

inductive CompileError where
  | type (errors : List TypeError)
  | generate (error : GenerateError)
deriving DecidableEq, Repr

namespace CompileError

def message : CompileError → String
  | .type [single] => "type inference failed: " ++ single.message
  | .type errors => s!"type inference failed with {errors.length} errors"
  | .generate error => error.message

def cause : CompileError → Option String
  | .type errors => errors.head?.map (·.message)
  | .generate error => some error.message

end CompileError

def compile (g : Grammar) (options : Options) (log : Diagnostics := {}) :
    Except CompileError (Except Fault String) × Diagnostics :=
  let typing := check g options.defaultActionReturnType log
  if typing.isOk then
    match generate g typing.table options with
    | .ok source => (.ok source,typing.log)
    | .error error =>
      (.error (.generate error),typing.log.emitError error.message error.location)
  else (.error (.type typing.errors),typing.log)

end PegCompiler
