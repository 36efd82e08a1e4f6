import PegCompiler.Lowering.UserCode
import PegCompiler.Target.Names
import PegCompiler.Target.Stmt
import PegCompiler.Target.StringLiteral

/-! The code of a rule. Results live in value locals, where a failed match is a value of its
own; saved positions of the input live in locals of their own. Shared constants and hoisted
methods appear by their numbers. Each piece of code has one spelling as a statement. -/
namespace PegCompiler

open Target

structure Passed where
  param : String
  type : String
  slot : Nat
deriving DecidableEq, Repr

inductive Value where
  | failed
  | null
  | array (slots : List Nat)
  | textFrom (position : Nat)
  | callRule (name : String)
  | matchLiteral (value : String) (expected : Nat) (ignoreCase : Bool)
  | matchClass (pattern expected : Nat) (inverted : Bool)
  | matchAny
  | reportFailure (expected : Nat)
  | callAction (method : Nat) (arguments : List Passed)
deriving DecidableEq, Repr

inductive Bound where
  | count (n : UInt32)
  | slot (n : Nat)
deriving DecidableEq, Repr

inductive Test where
  | failed (slot : Nat)
  | matched (slot : Nat)
  | atLeast (slot : Nat) (bound : Bound)
  | fewer (slot : Nat) (bound : Bound)
  | holds (isNegative : Bool) (method : Nat) (arguments : List Passed)
deriving DecidableEq, Repr

inductive Step where
  | assign (slot : Nat) (value : Value)
  | save (position : Nat)
  | restore (position : Nat)
  | mark (position : Nat)
  | silence
  | unsilence
  | append (list item : Nat)
  | leave
deriving DecidableEq, Repr

inductive BlockKind where
  | choice
  | sequence
  | range
deriving DecidableEq, Repr

inductive Instr where
  | step (s : Step)
  | brief (test : Test) (s : Step)
  | ifThen (test : Test) (body : List Instr)
  | ifElse (test : Test) (body otherwise : List Instr)
  | block (kind : BlockKind) (body : List Instr)
  | alternative (n : Nat)
  | element (n : Nat)
  | blank
deriving Inhabited

structure Spelling where
  list : String
  number : String

def valueLetter : String := "r"

def positionLetter : String := "l"

def patternLetter : String := "p"

def expectedLetter : String := "e"

def valueName (slot : Nat) : String := s!"{valueLetter}{slot}"

def positionName (position : Nat) : String := s!"{positionLetter}{position}"

namespace Passed

def toArgument (p : Passed) : String × String := (p.type,valueName p.slot)

end Passed

namespace Value

def text : Value → String
  | .failed => "FAILED"
  | .null => "null"
  | .array slots => "newArray(" ++ ", ".intercalate (slots.map valueName) ++ ")"
  | .textFrom position => s!"super.toText({positionName position})"
  | .callRule name => subroutineName name ++ "()"
  | .matchLiteral value expected ignoreCase =>
    s!"super.parseLiteral({stringLiteral value}, {expectedLetter}{expected}, {ignoreCase})"
  | .matchClass pattern expected inverted =>
    s!"super.parsePattern({patternLetter}{pattern}, {expectedLetter}{expected}, {inverted})"
  | .matchAny => "super.parseAny()"
  | .reportFailure expected => s!"super.fail({expectedLetter}{expected})"
  | .callAction method arguments =>
    "uc." ++ UserCode.call .action method (arguments.map Passed.toArgument)

end Value

namespace Bound

def text (spelling : Spelling) : Bound → String
  | .count n => toString n.toNat
  | .slot n => s!"(({spelling.number}){valueName n}).intValue()"

end Bound

def listText (spelling : Spelling) (slot : Nat) : String :=
  s!"(({spelling.list}){valueName slot})"

namespace Test

def text (spelling : Spelling) : Test → String
  | .failed slot => s!"{valueName slot} == FAILED"
  | .matched slot => s!"{valueName slot} != FAILED"
  | .atLeast slot bound => s!"{listText spelling slot}.size() >= {bound.text spelling}"
  | .fewer slot bound => s!"{listText spelling slot}.size() < {bound.text spelling}"
  | .holds isNegative method arguments =>
    (if isNegative then "!" else "") ++ "uc." ++
      UserCode.call .predicate method (arguments.map Passed.toArgument)

end Test

namespace Step

def text (spelling : Spelling) : Step → String
  | .assign slot value => s!"{valueName slot} = {value.text};"
  | .save position => s!"{positionName position} = super.current.clone();"
  | .restore position => s!"super.current = {positionName position};"
  | .mark position => s!"super.mark = {positionName position};"
  | .silence => "++super.silent;"
  | .unsilence => "--super.silent;"
  | .append list item => s!"{listText spelling list}.add({valueName item});"
  | .leave => "break;"

end Step

namespace BlockKind

def label : BlockKind → String
  | .choice => "/*choice*/"
  | .sequence => "/*sequence*/"
  | .range => "/*range*/"

def repeats : BlockKind → Bool
  | .range => true
  | _ => false

def header (kind : BlockKind) : String := "do \x7b" ++ kind.label

def footer (kind : BlockKind) : String :=
  "\x7d while (" ++ (if kind.repeats then "true" else "false") ++ ");" ++ kind.label

end BlockKind

namespace Instr

mutual

def toStmt (spelling : Spelling) : Instr → Stmt
  | .step s => .line (s.text spelling)
  | .brief test s =>
    .line ("if (" ++ test.text spelling ++ ") \x7b " ++ s.text spelling ++ " \x7d")
  | .ifThen test body => .ifThen (test.text spelling) (toStmts spelling body)
  | .ifElse test body otherwise =>
    .ifElse (test.text spelling) (toStmts spelling body) (toStmts spelling otherwise)
  | .block kind body => .block kind.header (toStmts spelling body) kind.footer
  | .alternative n => .line s!"/*alternative {n}*/"
  | .element n => .line s!"/*element {n}*/"
  | .blank => .blank

def toStmts (spelling : Spelling) : List Instr → List Stmt
  | [] => []
  | instr :: rest => instr.toStmt spelling :: toStmts spelling rest

end

end Instr

end PegCompiler
