import PegCompiler.Grammar.Basic
import PegCompiler.Lowering.ConstantPool
import PegCompiler.Lowering.Error
import PegCompiler.Lowering.Instr
import PegCompiler.Lowering.Locals
import PegCompiler.Lowering.Scope
import PegCompiler.Target.Imports
import PegCompiler.Text.Lowercase
import PegCompiler.Types.Table

/-! Lowering of rules to code. Every expression leaves its result in the first free value
local and gives all other locals back. Constants and user code are registered on the way, and
stay registered when a later part of the rule fails. -/
namespace PegCompiler

open Target

structure Registries where
  patterns : ConstantPool
  expected : ConstantPool
  userCode : UserCode := {}

namespace Registries

def fresh (imports : Imports) : Except Fault Registries := do
  let pattern ← imports.resolve "Pattern"
  let expected ← imports.resolve "Expected"
  return {
    patterns := { letter := patternLetter, type := pattern }
    expected := { letter := expectedLetter, type := expected } }

end Registries

namespace Lowering

structure Setting where
  imports : Imports
  types : TypeTable

structure State where
  values : Locals
  positions : Locals
  registries : Registries

abbrev Lower := ExceptT GenerateError (StateM State)

def ofFault {α : Type} : Except Fault α → Lower α
  | .ok a => pure a
  | .error fault => throw (.internal fault)

def assignNext (value : Value) : Lower Step := do
  let s ← get
  let (slot,values) := s.values.push
  set { s with values }
  return .assign slot value

def pushValue (value : Value) : Lower Instr := do
  return .step (← assignNext value)

def popValue : Lower Nat := do
  let s ← get
  let (slot,values) ← ofFault s.values.pop
  set { s with values }
  return slot

def popValues (n : Nat) : Lower (List Nat) := do
  let s ← get
  let (slots,values) ← ofFault (s.values.popMany n)
  set { s with values }
  return slots

def replaceValue (value : Value) : Lower Instr := do
  let s ← get
  let (slot,values) ← ofFault s.values.replace
  set { s with values }
  return .step (.assign slot value)

def topValue : Lower Nat := do
  ofFault (← get).values.top

def savePosition : Lower Instr := do
  let s ← get
  let (position,positions) := s.positions.push
  set { s with positions }
  return .step (.save position)

def popPosition : Lower Nat := do
  let s ← get
  let (position,positions) ← ofFault s.positions.pop
  set { s with positions }
  return position

def restorePosition : Lower Instr := do
  return .step (.restore (← popPosition))

def markPosition : Lower Instr := do
  return .step (.mark (← popPosition))

def reclaimPosition : Lower Unit :=
  modify fun s => { s with positions := s.positions.reclaim }

def addPattern (initializer : String) : Lower Nat := do
  let s ← get
  let (index,patterns) := s.registries.patterns.add initializer
  set { s with registries := { s.registries with patterns } }
  return index

def addExpected (initializer : String) : Lower Nat := do
  let s ← get
  let (index,expected) := s.registries.expected.add initializer
  set { s with registries := { s.registries with expected } }
  return index

def addMethod (kind : MethodKind) (method : UserMethod) : Lower Nat := do
  let s ← get
  let (index,userCode) := s.registries.userCode.add kind method
  set { s with registries := { s.registries with userCode } }
  return index

def expectBase (kind : Kind) (base : Nat) : Lower Unit := do
  if (← get).values.occupied = base then pure () else throw (.internal (.misplaced kind.name))

def typeOf (cfg : Setting) (kind : Kind) (site : Site) : Lower Ty :=
  match cfg.types.node site.id with
  | some ty => pure ty
  | none => throw (.untyped kind.name site.location)

def arguments (cfg : Setting) (scope : Scope) : Lower (List Passed) :=
  scope.mapM fun b => do
    return ⟨b.label,← ofFault (cfg.imports.render b.type),b.slot⟩

def methodFor (ns : Option String) (type body : String) (passed : List Passed) : UserMethod :=
  ⟨ns,type,body,passed.map fun p => (p.param,p.type)⟩

def actionCall (cfg : Setting) (site : Site) (action : Action) (passed : List Passed) :
    Lower Value := do
  let type ← ofFault (cfg.imports.render (← typeOf cfg .action site))
  return .callAction (← addMethod .action (methodFor action.ns type action.code passed)) passed

def classBody (parts : List ClassPart) : String :=
  String.ofList (parts.flatMap fun
    | .single c => classChar c
    | .range lo hi => classChar lo ++ '-' :: classChar hi)

def classPattern (parts : List ClassPart) : String :=
  if parts.isEmpty then "(?!)" else "[" ++ classBody parts ++ "]"

def lowerLiteral (cfg : Setting) (value : String) (ignoreCase : Bool) : Lower (List Instr) := do
  let className ← ofFault (cfg.imports.resolve "Expected")
  let sought := if ignoreCase then Text.lowercase value else value
  let expected ←
    addExpected (expectedInitializer className .literal (some sought) (some (stringLiteral value)))
  return [← pushValue (.matchLiteral value expected ignoreCase)]

def lowerClass (cfg : Setting) (parts : List ClassPart) (inverted ignoreCase : Bool)
    (rawText : String) : Lower (List Instr) := do
  let patternClass ← ofFault (cfg.imports.resolve "Pattern")
  let expectedClass ← ofFault (cfg.imports.resolve "Expected")
  let shown := "[" ++ (if inverted then "^" else "") ++ classBody parts ++ "]"
  let pattern ← addPattern (patternInitializer patternClass (classPattern parts) ignoreCase)
  let expected ←
    addExpected (expectedInitializer expectedClass .pattern (some shown) (some rawText))
  return [← pushValue (.matchClass pattern expected inverted)]

def lowerPredicate (cfg : Setting) (isNegative : Bool) (code : String) (ns : Option String)
    (scope : Scope) : Lower (List Instr) := do
  let passed ← arguments cfg scope
  let method ← addMethod .predicate (methodFor ns "boolean" code passed)
  let yes ← pushValue .null
  let no ← replaceValue .failed
  return [.ifElse (.holds isNegative method passed) [yes] [no]]

def lowerNamed (cfg : Setting) (name : String) (body : Lower (List Instr × Scope)) :
    Lower (List Instr × Scope) := do
  let className ← ofFault (cfg.imports.resolve "Expected")
  let expected ← addExpected (expectedInitializer className .rule none (some name))
  let (code,scope) ← body
  let top ← topValue
  let fail ← replaceValue (.reportFailure expected)
  return ([.step .silence,.blank] ++ code ++
    [.blank,.step .unsilence,.ifThen (.failed top) [fail]],scope)

def lowerText (body : Lower (List Instr)) : Lower (List Instr) := do
  let saved ← savePosition
  let code ← body
  let result ← popValue
  let start ← popPosition
  let taken ← pushValue (.textFrom start)
  return [saved] ++ code ++ [.ifThen (.matched result) [taken]]

def lowerOptional (body : Lower (List Instr)) : Lower (List Instr) := do
  let code ← body
  let result ← popValue
  let absent ← assignNext .null
  return code ++ [.brief (.failed result) absent]

def lowerLookahead (isNegative : Bool) (body : Lower (List Instr)) : Lower (List Instr) := do
  let saved ← savePosition
  let code ← body
  let restored ← restorePosition
  let around := [saved,.step .silence] ++ code ++ [.step .unsilence,restored]
  if isNegative then
    let result ← popValue
    let fail ← pushValue .failed
    let pass ← replaceValue .null
    return around ++ [.ifElse (.matched result) [fail] [pass]]
  else return around

def boundOf (scope : Scope) (location : Location) : Boundary → Lower Bound
  | .count n => pure (.count n)
  | .label name =>
    match scope.find name with
    | some binding => pure (.slot binding.slot)
    | none => throw (.unboundLabel name location)

def needsRollback : Boundary → Bool
  | .count n => 1 < n
  | .label _ => true

def canFail : Boundary → Bool
  | .count n => 0 < n
  | .label _ => true

def lowerRepeated (repetition : Repetition) (scope : Scope) (location : Location)
    (body : Lower (List Instr)) : Lower (List Instr) := do
  let min := repetition.min
  let least ← boundOf scope location min
  let most ← repetition.max.mapM (boundOf scope location)
  let saved ← if needsRollback min then pure [← savePosition] else pure []
  let start ← pushValue (.array [])
  let list ← topValue
  let code ← body
  let item ← popValue
  let full := most.toList.map fun bound => Instr.brief (.atLeast list bound) .leave
  let loop := Instr.block .range
    (full ++ code ++ [.brief (.failed item) .leave,.step (.append list item)])
  if canFail min then
    let restored ← if needsRollback min then pure [← restorePosition] else pure []
    let fail ← replaceValue .failed
    return saved ++ [start,loop,.ifThen (.fewer list least) (restored ++ [fail])]
  else return saved ++ [start,loop]

def closeSequence (cfg : Setting) (caller : Option (Site × Action)) (count : Nat)
    (scope : Scope) : Lower (List Instr) := do
  let slots ← popValues count
  match caller with
  | some (site,action) => do
    let passed ← arguments cfg scope
    let marked ← markPosition
    let call ← actionCall cfg site action passed
    return [marked,← pushValue call]
  | none => do
    let bundle ← pushValue (.array slots)
    if 0 < count then
      let _ ← popPosition
    return [bundle]

/-- Leaving a sequence at a failed element: behind the first one the position is undone and
the first local marks the failure. -/
def abandon (index first : Nat) : Lower (List Instr) := do
  if index = 0 then return [.step .leave]
  else
    let restored ← restorePosition
    reclaimPosition
    return [restored,.step (.assign first .failed),.step .leave]

def lowerAction (cfg : Setting) (site : Site) (action : Action)
    (body : Lower (List Instr × Scope)) : Lower (List Instr) := do
  let saved ← savePosition
  let (code,scope) ← body
  let passed ← arguments cfg scope
  let call ← actionCall cfg site action passed
  let top ← topValue
  let marked ← markPosition
  let result ← replaceValue call
  return [saved,.blank] ++ code ++ [.blank,.ifThen (.matched top) [marked,result]]

mutual

/-- Lowers an expression above `base` taken value locals. `caller` is an action directly
around, which a sequence calls in place of listing its values. Gives the code and the labels
in scope behind the expression. -/
def lower (cfg : Setting) :
    Expr → (base : Nat) → (caller : Option (Site × Action)) → Scope → Lower (List Instr × Scope)
  | .named _ name body, base, _, scope => do
    expectBase .named base
    lowerNamed cfg name (lower cfg body base none scope)
  | .choice _ alternatives, base, _, scope => do
    expectBase .choice base
    if alternatives.isEmpty then return ([← pushValue .failed],scope)
    else return ([.block .choice (← lowerAlternatives cfg alternatives base 1 scope)],scope)
  | .action site action body, base, _, scope => do
    expectBase .action base
    if body.isSequence then
      let (code,_) ← lower cfg body base (some (site,action)) scope
      return (code,scope)
    else return (← lowerAction cfg site action (lower cfg body base none scope),scope)
  | .sequence _ elements, base, caller, scope => do
    expectBase .sequence base
    let saved ←
      if !elements.isEmpty || caller.isSome then pure [← savePosition] else pure []
    let (code,inner) ← lowerElements cfg elements base 0 base scope
    let close ← closeSequence cfg caller elements.length inner
    if elements.isEmpty then return (saved ++ close,scope)
    else return (saved ++ [.block .sequence (code ++ close)],scope)
  | .labeled _ label body, base, _, scope => do
    expectBase .labeled base
    let type ← typeOf cfg body.kind body.site
    let (code,_) ← lower cfg body base none scope
    return (code,scope.bind ⟨label,base,type⟩)
  | .text _ body, base, _, scope => do
    expectBase .text base
    return (← lowerText (Prod.fst <$> lower cfg body base none scope),scope)
  | .optional _ body, base, _, scope => do
    expectBase .optional base
    return (← lowerOptional (Prod.fst <$> lower cfg body base none scope),scope)
  | .repeated site repetition body, base, _, scope => do
    expectBase (Expr.repeated site repetition body).kind base
    return (← lowerRepeated repetition scope body.location
      (Prod.fst <$> lower cfg body (base + 1) none scope),scope)
  | .lookahead _ isNegative body, base, _, scope => do
    expectBase (if isNegative then .simpleNot else .simpleAnd) base
    return (← lowerLookahead isNegative (Prod.fst <$> lower cfg body base none scope),scope)
  | .predicate _ isNegative code ns, base, _, scope => do
    expectBase (if isNegative then .semanticNot else .semanticAnd) base
    return (← lowerPredicate cfg isNegative code ns scope,scope)
  | .ruleRef _ name, base, _, scope => do
    expectBase .ruleRef base
    return ([← pushValue (.callRule name)],scope)
  | .literal _ value ignoreCase, base, _, scope => do
    expectBase .literal base
    return (← lowerLiteral cfg value ignoreCase,scope)
  | .charClass _ parts inverted ignoreCase rawText, base, _, scope => do
    expectBase .charClass base
    return (← lowerClass cfg parts inverted ignoreCase rawText,scope)
  | .any _, base, _, scope => do
    expectBase .any base
    return ([← pushValue .matchAny],scope)

def lowerAlternatives (cfg : Setting) :
    List Expr → (base n : Nat) → Scope → Lower (List Instr)
  | [], _, _, _ => pure []
  | e :: rest, base, n, scope => do
    let (code,_) ← lower cfg e base none scope
    if rest.isEmpty then return .alternative n :: code
    else
      let result ← popValue
      let others ← lowerAlternatives cfg rest base (n + 1) scope
      return .alternative n :: code ++ [.brief (.matched result) .leave,.blank] ++ others

/-- Lowers the elements of a sequence from the one at `index` on; `first` is the local of the
first element. Labels of earlier elements are in scope at later ones. -/
def lowerElements (cfg : Setting) :
    List Expr → (base index first : Nat) → Scope → Lower (List Instr × Scope)
  | [], _, _, _, scope => pure ([],scope)
  | e :: rest, base, index, first, scope => do
    let (code,scope) ← lower cfg e (base + index) none scope
    let top ← topValue
    let first := if index = 0 then top else first
    let onFail ← abandon index first
    let (others,scope) ← lowerElements cfg rest base (index + 1) first scope
    return (.element (index + 1) :: code ++ [.ifThen (.failed top) onFail,.blank] ++ others,
      scope)

end

end Lowering

structure Subroutine where
  name : String
  isStart : Bool
  values : Locals
  positions : Locals
  body : List Instr

namespace Subroutine

def toStmts (sub : Subroutine) (imports : Imports) : Except Fault (List Stmt) := do
  let annotation ← imports.resolve "Rule"
  let object ← imports.resolve "Object"
  let spelling : Spelling := ⟨← imports.resolve "List",← imports.resolve "Number"⟩
  let declarations := (sub.values.declaration.toList ++ sub.positions.declaration.toList).map
    Stmt.line
  let body := declarations ++ [.blank] ++ Instr.toStmts spelling sub.body ++
    [.blank,.line s!"return {valueName 0};"]
  return [
    .line s!"@{annotation}(name={stringLiteral sub.name}, isStart={sub.isStart})",
    .block ("private " ++ object ++ " " ++ subroutineName sub.name ++ "() \x7b") body "\x7d"]

end Subroutine

namespace Lowering

def lowerBody (cfg : Setting) (rule : Rule) (isStart : Bool) : Lower Subroutine := do
  let (body,_) ← lower cfg rule.body 0 none []
  let s ← get
  if s.values.occupied = 1 ∧ s.positions.occupied = 0 then
    return ⟨rule.name,isStart,s.values,s.positions,body⟩
  else throw (.internal (.unbalanced rule.name))

def lowerRule (cfg : Setting) (rule : Rule) (isStart : Bool) (registries : Registries) :
    Except GenerateError Subroutine × Registries :=
  match cfg.imports.resolve "Object", cfg.imports.resolve "Position" with
  | .ok object, .ok position =>
    let start : State := {
      values := { letter := valueLetter, type := object }
      positions := { letter := positionLetter, type := position }
      registries }
    let (result,s) := (lowerBody cfg rule isStart).run.run start
    (result,s.registries)
  | .error fault, _ => (.error (.internal fault),registries)
  | _, .error fault => (.error (.internal fault),registries)

end Lowering

end PegCompiler
