import PegCompiler.Grammar.Basic
import PegCompiler.Json.Parser
import PegCompiler.Json.Printer

/-! Grammars from JSON. Keys may come in any order, unknown keys are skipped and a known key
must not be repeated. Records are also accepted as arrays of their fields in order, where
fields with a default may be cut off at the end; expressions are always objects. At most 127
arrays and objects may be nested, values under unknown keys of plain records aside. -/
namespace PegCompiler

inductive BoundaryError where
  | notNumeric (value : String)
  | numeric (value : UInt32)
  | noValue
deriving DecidableEq, Repr

namespace BoundaryError

def message : BoundaryError → String
  | .notNumeric value => s!"constant boundary has non-numeric value `{value}`"
  | .numeric value => s!"label boundary has numeric value `{value.toNat}`"
  | .noValue => "boundary has no value"

end BoundaryError

inductive DecodeError where
  | incomplete
  | malformed
  | mismatch
  | boundary (error : BoundaryError)
deriving DecidableEq, Repr

namespace DecodeError

def message : DecodeError → String
  | .incomplete => "malformed grammar AST: the text ends too early"
  | .malformed => "malformed grammar AST: the text is not JSON"
  | .mismatch => "malformed grammar AST: the text is not a grammar"
  | .boundary error => "malformed grammar AST: " ++ error.message

end DecodeError

namespace Json

mutual

def fits (levels : Nat) : Json → Bool
  | .array items => 0 < levels && fitsAll (levels - 1) items
  | .object members => 0 < levels && fitsMembers (levels - 1) members
  | .unreadable => false
  | _ => true

def fitsAll (levels : Nat) : List Json → Bool
  | [] => true
  | item :: rest => item.fits levels && fitsAll levels rest

def fitsMembers (levels : Nat) : List (String × Json) → Bool
  | [] => true
  | (_,value) :: rest => value.fits levels && fitsMembers levels rest

end

end Json

namespace Decode

/-- How a value is met: on the way through the text, with so many levels of nesting left, or
inside a part that was taken in as a whole. -/
inductive Access where
  | passing (levels : Nat)
  | held
deriving DecidableEq, Repr

namespace Access

def enter : Access → Except DecodeError Access
  | .passing 0 => .error .malformed
  | .passing (levels + 1) => .ok (.passing levels)
  | .held => .ok .held

def surplus : Access → DecodeError
  | .passing _ => .malformed
  | .held => .mismatch

end Access

def wrong {α : Type} : Json → Except DecodeError α
  | .unreadable => .error .malformed
  | _ => .error .mismatch

def text : Json → Except DecodeError String
  | .string s => .ok s
  | other => wrong other

def bool : Json → Except DecodeError Bool
  | .bool b => .ok b
  | other => wrong other

def word : Json → Except DecodeError UInt32
  | .number (.natural n) =>
    if n < UInt32.size then .ok (UInt32.ofNat n) else .error .mismatch
  | other => wrong other

def nullable {α : Type} (read : Json → Except DecodeError α) : Json → Except DecodeError (Option α)
  | .null => .ok none
  | other => some <$> read other

def listOf {α : Type} (read : Access → Json → Except DecodeError α) (access : Access) :
    Json → Except DecodeError (List α)
  | .array items => do
    let inner ← access.enter
    items.mapM (read inner)
  | other => wrong other

def required {α : Type} : Option α → Except DecodeError α
  | some a => .ok a
  | none => .error .mismatch

def readMembers {σ : Type} (keys : List String)
    (read : σ → String → Json → Except DecodeError σ) (seen : List String) (draft : σ) :
    List (String × Json) → Except DecodeError σ
  | [] => .ok draft
  | (key,value) :: rest =>
    if keys.contains key then
      if seen.contains key then .error .mismatch
      else do
        let draft ← read draft key value
        readMembers keys read (key :: seen) draft rest
    else readMembers keys read seen draft rest

def readFields {σ : Type} (surplus : DecodeError)
    (read : σ → String → Json → Except DecodeError σ) :
    σ → List String → List Json → Except DecodeError σ
  | draft, _, [] => .ok draft
  | _, [], _ :: _ => .error surplus
  | draft, key :: keys, value :: rest => do
    let draft ← read draft key value
    readFields surplus read draft keys rest

def record {σ : Type} (keys : List String)
    (read : Access → σ → String → Json → Except DecodeError σ) (draft : σ) (access : Access) :
    Json → Except DecodeError σ
  | .object members => do
    let inner ← access.enter
    readMembers keys (read inner) [] draft members
  | .array items => do
    let inner ← access.enter
    readFields inner.surplus (read inner) draft keys items
  | other => wrong other

structure PositionDraft where
  offset : Option UInt32 := none
  line : Option UInt32 := none
  column : Option UInt32 := none

def positionField (_ : Access) (draft : PositionDraft) (key : String) (value : Json) :
    Except DecodeError PositionDraft := do
  let n ← word value
  return if key = "offset" then { draft with offset := some n }
    else if key = "line" then { draft with line := some n }
    else { draft with column := some n }

def position (access : Access) (json : Json) : Except DecodeError Position := do
  let draft ← record ["offset","line","column"] positionField {} access json
  return ⟨← required draft.offset,← required draft.line,← required draft.column⟩

structure LocationDraft where
  start : Option Position := none
  stop : Option Position := none

def locationField (access : Access) (draft : LocationDraft) (key : String) (value : Json) :
    Except DecodeError LocationDraft := do
  let p ← position access value
  return if key = "start" then { draft with start := some p } else { draft with stop := some p }

def location (access : Access) (json : Json) : Except DecodeError Location := do
  let draft ← record ["start","end"] locationField {} access json
  return ⟨← required draft.start,← required draft.stop⟩

def param (access : Access) (json : Json) : Except DecodeError String :=
  let admitted :=
    match access with
    | .passing levels => json.fits levels
    | .held => true
  if admitted then
    match json with
    | .string s => .ok s
    | other => .ok other.compact
  else .error .malformed

structure AnnotationDraft where
  name : Option String := none
  params : Option (List String) := none
  location : Option Location := none

def annotationField (access : Access) (draft : AnnotationDraft) (key : String) (value : Json) :
    Except DecodeError AnnotationDraft := do
  if key = "name" then return { draft with name := some (← text value) }
  else if key = "params" then return { draft with params := some (← listOf param access value) }
  else return { draft with location := some (← location access value) }

def annotation (access : Access) (json : Json) : Except DecodeError Annotation := do
  let draft ← record ["name","params","location"] annotationField {} access json
  return ⟨← required draft.name,draft.params.getD [],draft.location.getD {}⟩

structure BoundaryDraft where
  constant : Option Bool := none
  value : Option (Option (UInt32 ⊕ String)) := none

def boundaryValue : Json → Except DecodeError (UInt32 ⊕ String)
  | .string s => .ok (.inr s)
  | other => .inl <$> word other

def boundaryField (_ : Access) (draft : BoundaryDraft) (key : String) (value : Json) :
    Except DecodeError BoundaryDraft := do
  if key = "constant" then return { draft with constant := some (← bool value) }
  else return { draft with value := some (← nullable boundaryValue value) }

def openBoundary (access : Access) (json : Json) : Except DecodeError (Option Boundary) := do
  let draft ← record ["constant","value"] boundaryField {} access json
  let constant ← required draft.constant
  match constant, draft.value.getD none with
  | _, none => return none
  | true, some (.inl n) => return some (.count n)
  | false, some (.inr label) => return some (.label label)
  | true, some (.inr label) => .error (.boundary (.notNumeric label))
  | false, some (.inl n) => .error (.boundary (.numeric n))

def lowerBound (json : Json) : Except DecodeError Boundary := do
  match ← openBoundary .held json with
  | some boundary => return boundary
  | none => .error (.boundary .noValue)

def upperBound (json : Json) : Except DecodeError (Option Boundary) := do
  return (← nullable (openBoundary .held) json).join

def char (json : Json) : Except DecodeError Char := do
  match (← text json).toList with
  | [c] => return c
  | _ => .error .mismatch

def classPart : Json → Except DecodeError ClassPart
  | .array [lo,hi] => return .range (← char lo) (← char hi)
  | .array _ => .error .mismatch
  | single => return .single (← char single)

structure ExprDraft where
  name : Option String := none
  label : Option String := none
  code : Option String := none
  ns : Option (Option String) := none
  annotations : Option (List Annotation) := none
  expression : Option Expr := none
  alternatives : Option (List Expr) := none
  elements : Option (List Expr) := none
  min : Option Boundary := none
  max : Option (Option Boundary) := none
  value : Option String := none
  ignoreCase : Option Bool := none
  parts : Option (List ClassPart) := none
  inverted : Option Bool := none
  rawText : Option String := none

def fieldsOf : Kind → List String
  | .named => ["name","expression"]
  | .choice => ["alternatives"]
  | .action => ["expression","code","namespace","annotations"]
  | .sequence => ["elements"]
  | .labeled => ["label","expression"]
  | .text => ["expression"]
  | .optional => ["expression"]
  | .zeroOrMore => ["expression"]
  | .oneOrMore => ["expression"]
  | .range => ["min","max","expression"]
  | .simpleAnd => ["expression"]
  | .simpleNot => ["expression"]
  | .semanticAnd => ["code","namespace"]
  | .semanticNot => ["code","namespace"]
  | .ruleRef => ["name"]
  | .literal => ["value","ignoreCase"]
  | .charClass => ["parts","inverted","ignoreCase","rawText"]
  | .any => []

def exprField (read : Json → Except DecodeError Expr) (draft : ExprDraft) (key : String)
    (value : Json) : Except DecodeError ExprDraft := do
  if key = "name" then return { draft with name := some (← text value) }
  else if key = "label" then return { draft with label := some (← text value) }
  else if key = "code" then return { draft with code := some (← text value) }
  else if key = "namespace" then return { draft with ns := some (← nullable text value) }
  else if key = "annotations" then
    return { draft with annotations := some (← listOf annotation .held value) }
  else if key = "expression" then return { draft with expression := some (← read value) }
  else if key = "alternatives" then
    return { draft with alternatives := some (← listOf (fun _ => read) .held value) }
  else if key = "elements" then
    return { draft with elements := some (← listOf (fun _ => read) .held value) }
  else if key = "min" then return { draft with min := some (← lowerBound value) }
  else if key = "max" then return { draft with max := some (← upperBound value) }
  else if key = "value" then return { draft with value := some (← text value) }
  else if key = "ignoreCase" then return { draft with ignoreCase := some (← bool value) }
  else if key = "parts" then
    return { draft with parts := some (← listOf (fun _ => classPart) .held value) }
  else if key = "inverted" then return { draft with inverted := some (← bool value) }
  else return { draft with rawText := some (← text value) }

def finish (site : Site) (draft : ExprDraft) : Kind → Except DecodeError Expr
  | .named => return .named site (← required draft.name) (← required draft.expression)
  | .choice => return .choice site (← required draft.alternatives)
  | .action => do
    let body ← required draft.expression
    let code ← required draft.code
    return .action site ⟨code,draft.ns.getD none,draft.annotations.getD []⟩ body
  | .sequence => return .sequence site (← required draft.elements)
  | .labeled => return .labeled site (← required draft.label) (← required draft.expression)
  | .text => return .text site (← required draft.expression)
  | .optional => return .optional site (← required draft.expression)
  | .zeroOrMore => return .repeated site .zeroOrMore (← required draft.expression)
  | .oneOrMore => return .repeated site .oneOrMore (← required draft.expression)
  | .range => do
    let min ← required draft.min
    let body ← required draft.expression
    return .repeated site (.range min (draft.max.getD none)) body
  | .simpleAnd => return .lookahead site false (← required draft.expression)
  | .simpleNot => return .lookahead site true (← required draft.expression)
  | .semanticAnd => return .predicate site false (← required draft.code) (draft.ns.getD none)
  | .semanticNot => return .predicate site true (← required draft.code) (draft.ns.getD none)
  | .ruleRef => return .ruleRef site (← required draft.name)
  | .literal => return .literal site (← required draft.value) (draft.ignoreCase.getD false)
  | .charClass =>
    return .charClass site (← required draft.parts) (draft.inverted.getD false)
      (draft.ignoreCase.getD false) (draft.rawText.getD "")
  | .any => return .any site

def tag : Json → Except DecodeError Kind
  | .string s => required (Kind.all.find? fun kind => kind.name == s)
  | .number (.natural n) => required Kind.all[n]?
  | other => wrong other

def splitLocation (access : Access) (levels : Nat) (found : Option Location) :
    List (String × Json) → Except DecodeError (Option Location × List (String × Json))
  | [] => .ok (found,[])
  | (key,value) :: rest =>
    if key = "location" then
      if found.isSome then .error .mismatch
      else do splitLocation access levels (some (← location access value)) rest
    else if access = .held ∨ value.fits levels then do
      let (found,others) ← splitLocation access levels found rest
      return (found,(key,value) :: others)
    else .error .malformed

def splitTag (found : Option Kind) :
    List (String × Json) → Except DecodeError (Option Kind × List (String × Json))
  | [] => .ok (found,[])
  | (key,value) :: rest =>
    if key = "type" then
      if found.isSome then .error .mismatch
      else do splitTag (some (← tag value)) rest
    else do
      let (found,others) ← splitTag found rest
      return (found,(key,value) :: others)

def expr : (levels : Nat) → (isHeld : Bool) → Json → Except DecodeError Expr
  | 0, _, .object _ => .error .malformed
  | levels + 1, isHeld, .object members => do
    let access := if isHeld then .held else .passing levels
    let (found,others) ← splitLocation access levels none members
    let (kind,entries) ← splitTag none others
    let kind ← required kind
    let draft ← readMembers (fieldsOf kind) (exprField (expr levels true)) [] {} entries
    finish { location := found.getD {} } draft kind
  | _, _, other => wrong other

def exprAt (access : Access) (json : Json) : Except DecodeError Expr :=
  match access with
  | .passing levels => expr levels false json
  | .held => .error .mismatch

structure RuleDraft where
  name : Option String := none
  expression : Option Expr := none
  annotations : Option (List Annotation) := none
  location : Option Location := none

def ruleField (access : Access) (draft : RuleDraft) (key : String) (value : Json) :
    Except DecodeError RuleDraft := do
  if key = "name" then return { draft with name := some (← text value) }
  else if key = "expression" then
    return { draft with expression := some (← exprAt access value) }
  else if key = "annotations" then
    return { draft with annotations := some (← listOf annotation access value) }
  else return { draft with location := some (← location access value) }

def rule (access : Access) (json : Json) : Except DecodeError Rule := do
  let draft ← record ["name","expression","annotations","location"] ruleField {} access json
  return ⟨← required draft.name,← required draft.expression,draft.annotations.getD [],
    draft.location.getD {}⟩

structure InitializerDraft where
  code : Option String := none
  ns : Option (Option String) := none
  annotations : Option (List Annotation) := none
  location : Option Location := none

def initializerField (access : Access) (draft : InitializerDraft) (key : String)
    (value : Json) : Except DecodeError InitializerDraft := do
  if key = "code" then return { draft with code := some (← text value) }
  else if key = "namespace" then return { draft with ns := some (← nullable text value) }
  else if key = "annotations" then
    return { draft with annotations := some (← listOf annotation access value) }
  else return { draft with location := some (← location access value) }

def initializer (access : Access) (json : Json) : Except DecodeError Initializer := do
  let draft ←
    record ["code","namespace","annotations","location"] initializerField {} access json
  return ⟨← required draft.code,draft.ns.getD none,draft.annotations.getD [],
    draft.location.getD {}⟩

structure GrammarDraft where
  initializers : Option (List Initializer) := none
  single : Option (Option Initializer) := none
  rules : Option (List Rule) := none
  location : Option Location := none

def grammarField (access : Access) (draft : GrammarDraft) (key : String) (value : Json) :
    Except DecodeError GrammarDraft := do
  if key = "initializers" then
    return { draft with initializers := some (← listOf initializer access value) }
  else if key = "initializer" then
    return { draft with single := some (← nullable (initializer access) value) }
  else if key = "rules" then return { draft with rules := some (← listOf rule access value) }
  else return { draft with location := some (← location access value) }

def grammar (access : Access) (json : Json) : Except DecodeError Grammar := do
  let draft ←
    record ["initializers","initializer","rules","location"] grammarField {} access json
  let rules ← required draft.rules
  return ⟨(draft.single.getD none).toList ++ draft.initializers.getD [],rules,
    draft.location.getD {}⟩

def nestingLimit : Nat := 127

end Decode

inductive LoadError where
  | decode (error : DecodeError)
  | invalid (error : GrammarError)
deriving DecidableEq, Repr

namespace LoadError

def message : LoadError → String
  | .decode error => error.message
  | .invalid error => error.message

def location : LoadError → Option Location
  | .decode _ => none
  | .invalid error => some error.location

end LoadError

namespace Grammar

def decode (source : String) : Except DecodeError Grammar :=
  match Json.parse source with
  | .error .incomplete => .error .incomplete
  | .error .malformed => .error .malformed
  | .ok json => numbered <$> Decode.grammar (.passing Decode.nestingLimit) json

def load (source : String) : Except LoadError Grammar :=
  match decode source with
  | .error error => .error (.decode error)
  | .ok g =>
    match g.validate with
    | .error error => .error (.invalid error)
    | .ok () => .ok g

end Grammar

end PegCompiler
