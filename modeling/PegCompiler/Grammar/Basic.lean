import PegCompiler.Grammar.Expr

/-! Grammars: initializers and rules. The nodes of all rules are numbered together, from 0
in the order of traversal. A valid grammar has rules with distinct names, and every reference
names one of them. -/
namespace PegCompiler

structure Initializer where
  code : String
  ns : Option String := none
  annotations : List Annotation := []
  location : Location := {}
deriving DecidableEq, Repr

structure Rule where
  name : String
  body : Expr
  annotations : List Annotation := []
  location : Location := {}
deriving Inhabited

structure Grammar where
  initializers : List Initializer := []
  rules : List Rule
  location : Location := {}

inductive GrammarError where
  | duplicateRule (name : String) (location : Location)
  | unknownRule (name : String) (location : Location)
deriving DecidableEq, Repr

namespace GrammarError

def message : GrammarError → String
  | .duplicateRule name _ => s!"rule `{name}` is defined more than once"
  | .unknownRule name _ => s!"referenced rule `{name}` does not exist"

def location : GrammarError → Location
  | .duplicateRule _ location => location
  | .unknownRule _ location => location

end GrammarError

namespace Grammar

def numberRules (next : Nat) : List Rule → List Rule
  | [] => []
  | rule :: rest =>
    let (body,after) := rule.body.number next
    { rule with body } :: numberRules after rest

def numbered (g : Grammar) : Grammar :=
  { g with rules := numberRules 0 g.rules }

def ofRules (initializers : List Initializer) (rules : List Rule) : Grammar :=
  numbered { initializers, rules }

def nodes (g : Grammar) : List Expr :=
  g.rules.flatMap fun rule => rule.body.nodes

def nodeCount (g : Grammar) : Nat :=
  g.nodes.length

def ruleIndex (g : Grammar) (name : String) : Option Nat :=
  g.rules.findIdx? fun rule => rule.name == name

def findRule (g : Grammar) (name : String) : Option Rule :=
  g.rules.find? fun rule => rule.name == name

def firstDuplicate (seen : List String) : List Rule → Option Rule
  | [] => none
  | rule :: rest =>
    if seen.contains rule.name then some rule else firstDuplicate (rule.name :: seen) rest

def danglingRef (names : List String) : Expr → Option (String × Location)
  | .ruleRef site name => if names.contains name then none else some (name,site.location)
  | _ => none

def validate (g : Grammar) : Except GrammarError Unit :=
  match firstDuplicate [] g.rules with
  | some rule => .error (.duplicateRule rule.name rule.location)
  | none =>
    match g.nodes.findSome? (danglingRef (g.rules.map (·.name))) with
    | some (name,location) => .error (.unknownRule name location)
    | none => .ok ()

end Grammar

end PegCompiler
