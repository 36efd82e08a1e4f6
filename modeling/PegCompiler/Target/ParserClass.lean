import PegCompiler.Lowering.Rule
import PegCompiler.Options

/-! The generated source as a whole: package and imports, a class that holds the author's
code, and the parser class with its constants, its entry points, its interface and one
subroutine a rule. -/
namespace PegCompiler.Target

def banner (title : String) : Stmt :=
  let fill := 56 - (title.utf8ByteSize + 2)
  let left := fill / 2
  .line ("/*" ++ "".pushn '~' left ++ " " ++ title ++ " " ++ "".pushn '~' (fill - left) ++ "*/")

def holderName (options : Options) : String :=
  options.className ++ "UserCode"

def namespaceStmts (code : UserCode) (ns : Option String) : List Stmt :=
  [.blank] ++
    (ns.toList.map fun name => .line s!"/* namespace {name} */") ++
    ((code.initializer ns).toList.flatMap fun text => [banner "INITIALIZER",.line text]) ++
    [banner "PREDICATES"] ++ (code.definitions .predicate ns).map Stmt.line ++
    [banner "ACTIONS"] ++ (code.definitions .action ns).map Stmt.line

def holderClass (options : Options) (code : UserCode) : Stmt :=
  let holder := holderName options
  .block ("final class " ++ holder ++ " \x7b")
    ([.line s!"private final {options.className} parser;",
      .line (s!"{holder}({options.className} parser) " ++ "\x7b this.parser = parser; \x7d")] ++
      code.namespaces.flatMap fun n => namespaceStmts code n.name)
    "\x7d"

def inputTypes (imports : Imports) : Except Fault (List String) := do
  return [← imports.resolve "CharSequence",← imports.resolve "ByteBuffer","byte[]"]

structure Entry where
  rule : String
  constant : String
  type : Ty
deriving DecidableEq, Repr

def entryPoint (options : Options) (imports : Imports) (entry : Entry) : Except Fault Stmt := do
  let type ← imports.renderBoxed entry.type
  let parser ← imports.resolve "IBaseParser"
  let override ← imports.resolve "Override"
  let base := s!"{parser}<{type}>"
  let methods := (← inputTypes imports).flatMap fun input =>
    [.line s!"@{override}",
      .block (s!"public {type} parse({input} input) " ++ "\x7b")
        [.line s!"final {options.className} p = new {options.className}();",
          .line "p.init(input);",
          .line s!"return ({type})p.finalize(p.{subroutineName entry.rule}());"]
        "\x7d"]
  return .block (s!"public static final {base} {entry.constant} = new {base}() " ++ "\x7b") methods
    "\x7d;"

def foldStart (description : String) : Stmt :=
  .line s!"//<editor-fold defaultstate=\"collapsed\" desc=\"{description}\">"

def foldEnd : Stmt := .line "//</editor-fold>"

def interface (imports : Imports) (defaultRule : String) : Except Fault (List Stmt) := do
  let object ← imports.resolve "Object"
  let string ← imports.resolve "String"
  let override ← imports.resolve "Override"
  let methods (input : String) : List Stmt :=
    [.line s!"@{override}",
      .block (s!"public {object} parse({input} input) " ++ "\x7b")
        [.line "super.init(input);",
          .line s!"return super.finalize({subroutineName defaultRule}());"]
        "\x7d",
      .line s!"@{override}",
      .block (s!"public {object} parse({input} input, {string} startRule) " ++ "\x7b")
        [.line "super.init(input);",.line "return super.finalize(parseRule(startRule));"]
        "\x7d"]
  let groups := (← inputTypes imports).map methods
  return [foldStart "API"] ++ [Stmt.blank].intercalate groups ++ [foldEnd]

def ruleLookup (options : Options) (imports : Imports) : Except Fault (List Stmt) := do
  let noSuchRule ← imports.resolve "NoSuchRuleException"
  let rule ← imports.resolve "Rule"
  let method ← imports.resolve "Method"
  let object ← imports.resolve "Object"
  let string ← imports.resolve "String"
  let caught ← ["IllegalAccessException","IllegalArgumentException","InvocationTargetException",
    "NoSuchMethodException","SecurityException"].mapM imports.resolve
  let look : List Stmt :=
    [.line (s!"final {method} m = {options.className}.class.getDeclaredMethod(" ++
        s!"\"{subroutineStem}\" + ruleName);"),
      .line s!"final {rule} a = m.getAnnotation({rule}.class);",
      .ifThen "a == null"
        [.line (s!"throw new {noSuchRule}(" ++
          "\"\\\"\" + ruleName + \"\\\" is not a rule name\");")],
      .ifThen "!a.isStart()"
        [.line (s!"throw new {noSuchRule}(" ++
          "\"Can't start parsing from rule \\\"\" + ruleName + \"\\\".\");")],
      .line "return m.invoke(this);"]
  return [foldStart "Helpers",
    .block (s!"private {object} parseRule({string} ruleName) " ++ "\x7b")
      [.block "try \x7b" look "",
        .block ("\x7d catch (" ++ " | ".intercalate caught ++ " ex) \x7b")
          [.line s!"throw new {noSuchRule}(ex);"] "\x7d"]
      "\x7d",
    foldEnd]

structure ParserClass where
  options : Options
  imports : Imports
  defaultRule : String
  entries : List Entry
  registries : Registries
  subroutines : List Subroutine

namespace ParserClass

def body (p : ParserClass) : Except Fault (List Stmt) := do
  let holder := holderName p.options
  let entries ← p.entries.mapM (entryPoint p.options p.imports)
  let api ← interface p.imports p.defaultRule
  let helpers ← ruleLookup p.options p.imports
  let subroutines ← p.subroutines.mapM fun sub => sub.toStmts p.imports
  return [banner "PATTERNS"] ++ p.registries.patterns.definitions.map Stmt.line ++
    [banner "EXPECTED DEFINITIONS"] ++ p.registries.expected.definitions.map Stmt.line ++
    [banner "ALLOWED START RULES"] ++ entries ++
    [.line s!"private final {holder} uc = new {holder}(this);",.blank] ++ api ++ [.blank] ++
    helpers ++ [.blank,foldStart "Rule functions"] ++
    [Stmt.blank].intercalate subroutines ++ [foldEnd]

def toStmts (p : ParserClass) : Except Fault (List Stmt) := do
  let grammar ← p.imports.resolve "Grammar"
  let parser ← p.imports.resolve "IParser"
  let object ← p.imports.resolve "Object"
  let state ← p.imports.resolve "State"
  let package := p.options.package.toList.flatMap fun name =>
    [Stmt.line s!"package {name};",.blank]
  let imports :=
    if p.imports.fullNames then [] else Imports.declarations.map Stmt.line ++ [.blank]
  let base := p.options.baseClassName.getD state
  return package ++ imports ++
    [holderClass p.options p.registries.userCode,.blank,.line s!"@{grammar}",
      .block (s!"public class {p.options.className} extends {base} implements " ++
          s!"{parser}<{object}> " ++ "\x7b")
        (← p.body) "\x7d"]

end ParserClass

end PegCompiler.Target
