import PegCompiler.Command.Arguments
import PegCompiler.Compile
import PegCompiler.Diagnostic.Render
import PegCompiler.Grammar.Decode

/-! The command line as a function of its words and of the files that it can read. Errors of
a grammar go to the error stream, the generated source to a file or to the output stream. -/
namespace PegCompiler.Command

abbrev Files := String → Except String String

structure Output where
  path : String
  content : String
deriving DecidableEq, Repr

structure Outcome where
  exitCode : Nat := 0
  stdout : String := ""
  stderr : String := ""
  output : Option Output := none
deriving DecidableEq, Repr

def failureLine (i : Invocation) (message : String) : String :=
  if i.has .json then (⟨.error,message,none⟩ : Diagnostic).jsonLine i.input
  else s!"error: {message}\n"

def failed (i : Invocation) (shown message : String) : Outcome :=
  { exitCode := 1, stderr := shown ++ failureLine i message }

def writeFailed (i : Invocation) (path reason : String) : Outcome :=
  failed i "" s!"failed to write '{path}': {reason}"

structure Session where
  invocation : Invocation
  grammar : Grammar
  options : Options
  source : Option String

def shownErrors (i : Invocation) (source : Option String) (log : Diagnostics) : String :=
  String.join (log.errors.map fun d => d.render source i.input (i.has .json))

def readOptions (files : Files) (i : Invocation) : Except String Options := do
  let options ← match i.value? .config with
    | none => pure {}
    | some path =>
      match files path with
      | .error reason => throw s!"failed to read {path}: {reason}"
      | .ok text =>
        match Options.ofToml text with
        | .error error => throw error.message
        | .ok options => pure options
  return if i.has .strictTypes then { options with defaultActionReturnType := none } else options

def readFile (files : Files) (path : String) : Except String String :=
  match files path with
  | .error reason => .error s!"failed to read '{path}': {reason}"
  | .ok text => .ok text

def openSession (files : Files) (i : Invocation) : Except Outcome Session := do
  let options ← (readOptions files i).mapError (failed i "")
  let source ← (i.value? .source).mapM fun path => (readFile files path).mapError (failed i "")
  let text ← (readFile files i.input).mapError (failed i "")
  match Grammar.load text with
  | .ok grammar => return ⟨i,grammar,options,source⟩
  | .error error =>
    let log := ({} : Diagnostics).emitError error.message error.location
    throw (failed i (shownErrors i source log) "could not load grammar")

def override (i : Invocation) (options : Options) : Options where
  package := i.value? .package <|> options.package
  className := (i.value? .className).getD options.className
  baseClassName := i.value? .baseClass <|> options.baseClassName
  useFullyQualifiedNames := i.has .fullNames || options.useFullyQualifiedNames
  allowedStartRules :=
    let rules := i.values .startRule
    if rules.isEmpty then options.allowedStartRules else rules
  defaultActionReturnType := options.defaultActionReturnType
  indent := options.indent

def runGenerate (s : Session) : Outcome :=
  let i := s.invocation
  let (result,log) := compile s.grammar (override i s.options)
  let shown := shownErrors i s.source log
  match result with
  | .error error => failed i shown error.message
  | .ok (.error fault) => { exitCode := 101, stderr := fault.message ++ "\n" }
  | .ok (.ok text) =>
    match i.value? .output with
    | some path => { stderr := shown, output := some ⟨path,text⟩ }
    | none => { stdout := text, stderr := shown }

def typeLine (i : Invocation) (rule : Rule) (ty : Ty) : String :=
  if i.has .json then
    (Json.object [("rule",.string rule.name),("type",.string ty.display),
      ("primitive",.bool ty.isPrimitive)]).compact ++ "\n"
  else s!"{rule.name}: {ty.display}\n"

def runTypes (s : Session) : Outcome :=
  let i := s.invocation
  let typing := check s.grammar s.options.defaultActionReturnType
  let shown := shownErrors i s.source typing.log
  if typing.isOk then
    let lines := s.grammar.rules.zipIdx.filterMap fun (rule,index) =>
      (typing.table.rule index).map (typeLine i rule)
    { stdout := String.join lines, stderr := shown }
  else failed i shown s!"type inference failed with {typing.errors.length} error(s)"

def usage : String :=
  "Java parser generator for PEG grammars\n\n" ++
  "Usage: pegjc <COMMAND>\n\n" ++
  "Commands:\n" ++
  "  generate  Generate a Java parser from a grammar AST\n" ++
  "  types     Print the inferred return type of every rule\n" ++
  "  help      Print this message or the help of the given subcommand(s)\n\n" ++
  "Options:\n" ++
  "  -h, --help     Print help\n" ++
  "  -V, --version  Print version\n"

def Invocation.run (files : Files) (i : Invocation) : Outcome :=
  match openSession files i with
  | .error outcome => outcome
  | .ok session =>
    match i.subcommand with
    | .generate => runGenerate session
    | .types => runTypes session

def run (files : Files) (words : List String) : Outcome :=
  match Request.ofWords words with
  | .run invocation => invocation.run files
  | .help => { stdout := usage }
  | .version => { stdout := "pegjc 0.1.0\n" }
  | .misuse => { exitCode := 2, stderr := usage }

def runUnwritten (words : List String) (path reason : String) : Outcome :=
  match Request.ofWords words with
  | .run invocation => writeFailed invocation path reason
  | _ => {}

end PegCompiler.Command
