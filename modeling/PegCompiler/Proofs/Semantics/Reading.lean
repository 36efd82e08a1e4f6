import PegCompiler.Proofs.Semantics.Execution
import PegCompiler.Proofs.Target.Scanning
import PegCompiler.Proofs.Target.Spelling

/-! Code as it is read from statements. A reader knows how classes are spelled and which methods are
declared; everything else it finds in the text of the statements. What it makes of the statements of
a rule is what runs. -/
namespace PegCompiler

inductive Alias where
  | pattern (index : Nat)
  | expected (index : Nat)
  | method (kind : MethodKind) (index : Nat)
deriving DecidableEq

structure Reference where
  target : Alias
  arguments : List Passed := []
deriving DecidableEq

@[simp] def Value.references : Value → List Reference
  | .matchLiteral _ expected _ => [⟨.expected expected,[]⟩]
  | .matchClass pattern expected _ => [⟨.pattern pattern,[]⟩,⟨.expected expected,[]⟩]
  | .reportFailure expected => [⟨.expected expected,[]⟩]
  | .callAction method arguments => [⟨.method .action method,arguments⟩]
  | _ => []

@[simp] def Test.references : Test → List Reference
  | .holds _ method arguments => [⟨.method .predicate method,arguments⟩]
  | _ => []

@[simp] def Step.references : Step → List Reference
  | .assign _ value => value.references
  | _ => []

namespace Instr

mutual

@[simp] def references : Instr → List Reference
  | .step s => s.references
  | .brief test s => test.references ++ s.references
  | .ifThen test body => test.references ++ referencesAll body
  | .ifElse test body otherwise =>
    test.references ++ referencesAll body ++ referencesAll otherwise
  | .block _ body => referencesAll body
  | .alternative _ => []
  | .element _ => []
  | .blank => []

@[simp] def referencesAll : List Instr → List Reference
  | [] => []
  | instr :: rest => instr.references ++ referencesAll rest

end

@[simp] theorem referencesAll_append (first second : List Instr) :
    referencesAll (first ++ second) = referencesAll first ++ referencesAll second := by
  induction first with
  | nil => rfl
  | cons instr rest ih => simp [ih]

end Instr

namespace Semantics

open Target Target.Scan

def Declared (code : Registries) (reference : Reference) : Prop :=
  ∀ kind index, reference.target = .method kind index →
    ∃ method, (code.userCode.methods kind).get? index = some method ∧
      method.params = reference.arguments.map fun p => (p.param,p.type)

section Readers

variable (imports : Imports) (code : Registries)

@[simp] def readSlot : List Char → Option (Nat × List Char) :=
  numbered 'r'

@[simp] def readPosition : List Char → Option (Nat × List Char) :=
  numbered 'l'

def readArguments : List (String × String) → List Char → Option (List Passed × List Char)
  | [], text => (words ")" text).map fun rest => ([],rest)
  | (param,type) :: params, text => do
    let rest ← words "(" text
    let rest ← words type rest
    let rest ← words ")" rest
    let (slot,rest) ← readSlot rest
    let rest ← if params.isEmpty then some rest else words ", " rest
    let (others,rest) ← readArguments params rest
    return (⟨param,type,slot⟩ :: others,rest)

@[simp] def readCall (kind : MethodKind) (text : List Char) : Option (Nat × List Passed × List Char) := do
  let rest ← words (match kind with | .predicate => "uc.is" | .action => "uc.f") text
  let (index,rest) ← number rest
  let method ← (code.userCode.methods kind).get? index
  let rest ← words "(" rest
  let (arguments,rest) ← readArguments method.params rest
  return (index,arguments,rest)

@[simp] def readArray (text : List Char) : Option Value := do
  let rest ← words "newArray(" text
  let inner ← before ")" rest
  return .array (← names 'r' inner)

@[simp] def readTextFrom (text : List Char) : Option Value := do
  let rest ← words "super.toText(" text
  let (position,rest) ← readPosition rest
  ends ")" rest
  return .textFrom position

@[simp] def readRuleCall (text : List Char) : Option Value := do
  let rest ← words "parse$" text
  let rule ← before "()" rest
  return .callRule (String.ofList rule)

@[simp] def readLiteralMatch (text : List Char) : Option Value := do
  let rest ← words "super.parseLiteral(" text
  let (value,rest) ← quoted rest
  let rest ← words ", " rest
  let (expected,rest) ← numbered 'e' rest
  let rest ← words ", " rest
  let (ignoreCase,rest) ← boolean rest
  ends ")" rest
  return .matchLiteral value expected ignoreCase

@[simp] def readClassMatch (text : List Char) : Option Value := do
  let rest ← words "super.parsePattern(" text
  let (pattern,rest) ← numbered 'p' rest
  let rest ← words ", " rest
  let (expected,rest) ← numbered 'e' rest
  let rest ← words ", " rest
  let (inverted,rest) ← boolean rest
  ends ")" rest
  return .matchClass pattern expected inverted

@[simp] def readFailure (text : List Char) : Option Value := do
  let rest ← words "super.fail(" text
  let (expected,rest) ← numbered 'e' rest
  ends ")" rest
  return .reportFailure expected

@[simp] def readActionCall (text : List Char) : Option Value := do
  let (index,arguments,rest) ← readCall code .action text
  ends "" rest
  return .callAction index arguments

@[simp] def readValue (text : List Char) : Option Value :=
  (ends "FAILED" text).map (fun _ => .failed) <|> (ends "null" text).map (fun _ => .null) <|>
    (ends "super.parseAny()" text).map (fun _ => .matchAny) <|> readArray text <|>
    readTextFrom text <|> readRuleCall text <|> readLiteralMatch text <|> readClassMatch text <|>
    readFailure text <|> readActionCall code text

@[simp] def readCount (text : List Char) : Option (Bound × List Char) := do
  let (n,rest) ← number text
  if n < UInt32.size then some (.count (.ofNat n),rest) else none

@[simp] def readCoerced (text : List Char) : Option (Bound × List Char) := do
  let rest ← words "((" text
  let rest ← words (imports.className "Number") rest
  let rest ← words ")" rest
  let (slot,rest) ← readSlot rest
  let rest ← words ").intValue()" rest
  return (.slot slot,rest)

@[simp] def readBound (text : List Char) : Option (Bound × List Char) :=
  readCount text <|> readCoerced imports text

@[simp] def readList (text : List Char) : Option (Nat × List Char) := do
  let rest ← words "((" text
  let rest ← words (imports.className "List") rest
  let rest ← words ")" rest
  let (slot,rest) ← readSlot rest
  let rest ← words ")" rest
  return (slot,rest)

@[simp] def readOutcome (text : List Char) : Option (Test × List Char) := do
  let (slot,rest) ← readSlot text
  (words " == FAILED" rest).map (fun rest => (.failed slot,rest)) <|>
    (words " != FAILED" rest).map fun rest => (.matched slot,rest)

@[simp] def readAtLeast (text : List Char) : Option (Test × List Char) := do
  let (slot,rest) ← readList imports text
  let rest ← words ".size() >= " rest
  let (bound,rest) ← readBound imports rest
  return (.atLeast slot bound,rest)

@[simp] def readFewer (text : List Char) : Option (Test × List Char) := do
  let (slot,rest) ← readList imports text
  let rest ← words ".size() < " rest
  let (bound,rest) ← readBound imports rest
  return (.fewer slot bound,rest)

@[simp] def readHolds (text : List Char) : Option (Test × List Char) := do
  let (index,arguments,rest) ← readCall code .predicate text
  return (.holds false index arguments,rest)

@[simp] def readHoldsNot (text : List Char) : Option (Test × List Char) := do
  let rest ← words "!" text
  let (index,arguments,rest) ← readCall code .predicate rest
  return (.holds true index arguments,rest)

@[simp] def readTest (text : List Char) : Option (Test × List Char) :=
  readOutcome text <|> readAtLeast imports text <|> readFewer imports text <|>
    readHolds code text <|> readHoldsNot code text

@[simp] def readAssignment (text : List Char) : Option Step := do
  let (slot,rest) ← readSlot text
  let rest ← words " = " rest
  let value ← before ";" rest
  return .assign slot (← readValue code value)

@[simp] def readSave (text : List Char) : Option Step := do
  let (position,rest) ← readPosition text
  ends " = super.current.clone();" rest
  return .save position

@[simp] def readRestore (text : List Char) : Option Step := do
  let rest ← words "super.current = " text
  let (position,rest) ← readPosition rest
  ends ";" rest
  return .restore position

@[simp] def readMark (text : List Char) : Option Step := do
  let rest ← words "super.mark = " text
  let (position,rest) ← readPosition rest
  ends ";" rest
  return .mark position

@[simp] def readAppend (text : List Char) : Option Step := do
  let (list,rest) ← readList imports text
  let rest ← words ".add(" rest
  let (item,rest) ← readSlot rest
  ends ");" rest
  return .append list item

@[simp] def readStep (text : List Char) : Option Step :=
  (ends "++super.silent;" text).map (fun _ => .silence) <|>
    (ends "--super.silent;" text).map (fun _ => .unsilence) <|>
    (ends "break;" text).map (fun _ => .leave) <|> readAssignment code text <|> readSave text <|>
    readRestore text <|> readMark text <|> readAppend imports text

@[simp] def readRemark (text : List Char) : Option Instr :=
  (do
    let rest ← words "/*alternative " text
    let (n,rest) ← number rest
    ends "*/" rest
    return .alternative n) <|>
  (do
    let rest ← words "/*element " text
    let (n,rest) ← number rest
    ends "*/" rest
    return .element n)

@[simp] def readBrief (text : List Char) : Option Instr := do
  let rest ← words "if (" text
  let (test,rest) ← readTest imports code rest
  let rest ← words ") \x7b " rest
  let step ← before " \x7d" rest
  return .brief test (← readStep imports code step)

@[simp] def readLine (text : List Char) : Option Instr :=
  readRemark text <|> readBrief imports code text <|> (readStep imports code text).map .step

@[simp] def readCondition (text : String) : Option Test := do
  let (test,rest) ← readTest imports code text.toList
  ends "" rest
  return test

def readKind (header footer : String) : Option BlockKind :=
  if header = "do \x7b/*choice*/" ∧ footer = "\x7d while (false);/*choice*/" then some .choice
  else if header = "do \x7b/*sequence*/" ∧ footer = "\x7d while (false);/*sequence*/" then
    some .sequence
  else if header = "do \x7b/*range*/" ∧ footer = "\x7d while (true);/*range*/" then some .range
  else none

mutual

def readStmt : Stmt → Option Instr
  | .line text => readLine imports code text.toList
  | .blank => some .blank
  | .block header body footer => do
    let kind ← readKind header footer
    return .block kind (← readStmts body)
  | .ifThen condition body => do
    let test ← readCondition imports code condition
    return .ifThen test (← readStmts body)
  | .ifElse condition body otherwise => do
    let test ← readCondition imports code condition
    return .ifElse test (← readStmts body) (← readStmts otherwise)

def readStmts : List Stmt → Option (List Instr)
  | [] => some []
  | stmt :: rest => do
    let instr ← readStmt stmt
    return instr :: (← readStmts rest)

end

def readLocals (type : String) (letter : Char) (text : String) : Option (List Nat) := do
  let rest ← words type text.toList
  let rest ← words " " rest
  let rest ← before ";" rest
  names letter rest

def takeLocals (type : String) (letter : Char) (stmts : List Stmt) : List Nat × List Stmt :=
  match stmts with
  | .line text :: rest =>
    match readLocals type letter text with
    | some slots => (slots,rest)
    | none => ([],stmts)
  | _ => ([],stmts)

def readReturn (text : String) : Option Nat := do
  let rest ← words "return " text.toList
  let (slot,rest) ← readSlot rest
  ends ";" rest
  return slot

def readBody : List Stmt → Option (List Instr × Nat)
  | .blank :: rest =>
    match rest.drop (rest.length - 2) with
    | [.blank,.line text] => do
      let body ← readStmts imports code (rest.take (rest.length - 2))
      return (body,← readReturn text)
    | _ => none
  | _ => none

def readHeader (text : String) : Option String := do
  let rest ← words "private " text.toList
  let rest ← words (imports.className "Object") rest
  let rest ← words " parse$" rest
  return String.ofList (← before "() \x7b" rest)

def readRoutine : List Stmt → Option Routine
  | [.line _,.block header body "\x7d"] => do
    let name ← readHeader imports header
    let (values,rest) := takeLocals (imports.className "Object") 'r' body
    let (positions,rest) := takeLocals (imports.className "Position") 'l' rest
    let (body,result) ← readBody imports code rest
    return ⟨name,values,positions,body,result⟩
  | _ => none

end Readers

end Semantics

end PegCompiler
