import PegCompiler.Source.Location

/-! Parsing expressions. Every node carries its number and its range of the grammar text;
traversals visit a node before its children and children in order. -/
namespace PegCompiler

structure Annotation where
  name : String
  params : List String := []
  location : Location := {}
deriving DecidableEq, Repr

structure Site where
  id : Nat := 0
  location : Location := {}
deriving DecidableEq, Repr, Inhabited

inductive Boundary where
  | count (n : UInt32)
  | label (name : String)
deriving DecidableEq, Repr

inductive Repetition where
  | zeroOrMore
  | oneOrMore
  | range (min : Boundary) (max : Option Boundary)
deriving DecidableEq, Repr

namespace Repetition

def min : Repetition → Boundary
  | .zeroOrMore => .count 0
  | .oneOrMore => .count 1
  | .range min _ => min

def max : Repetition → Option Boundary
  | .zeroOrMore => none
  | .oneOrMore => none
  | .range _ max => max

end Repetition

inductive ClassPart where
  | single (c : Char)
  | range (lo hi : Char)
deriving DecidableEq, Repr

structure Action where
  code : String
  ns : Option String := none
  annotations : List Annotation := []
deriving DecidableEq, Repr, Inhabited

namespace Action

def returnAnnotation : String := "Return"

def declaredType (action : Action) : Option String :=
  (action.annotations.find? (·.name == returnAnnotation)).bind (·.params.head?)

end Action

inductive Expr where
  | named (site : Site) (name : String) (body : Expr)
  | choice (site : Site) (alternatives : List Expr)
  | action (site : Site) (action : Action) (body : Expr)
  | sequence (site : Site) (elements : List Expr)
  | labeled (site : Site) (label : String) (body : Expr)
  | text (site : Site) (body : Expr)
  | optional (site : Site) (body : Expr)
  | repeated (site : Site) (repetition : Repetition) (body : Expr)
  | lookahead (site : Site) (isNegative : Bool) (body : Expr)
  | predicate (site : Site) (isNegative : Bool) (code : String) (ns : Option String)
  | ruleRef (site : Site) (name : String)
  | literal (site : Site) (value : String) (ignoreCase : Bool)
  | charClass (site : Site) (parts : List ClassPart) (inverted ignoreCase : Bool)
      (rawText : String)
  | any (site : Site)
deriving Inhabited

inductive Kind where
  | named | choice | action | sequence | labeled | text | optional
  | zeroOrMore | oneOrMore | range | simpleAnd | simpleNot | semanticAnd | semanticNot
  | ruleRef | literal | charClass | any
deriving DecidableEq, Repr

namespace Kind

def all : List Kind :=
  [.named,.choice,.action,.sequence,.labeled,.text,.optional,.zeroOrMore,.oneOrMore,
    .range,.simpleAnd,.simpleNot,.semanticAnd,.semanticNot,.ruleRef,.literal,.charClass,
    .any]

def name : Kind → String
  | .named => "named"
  | .choice => "choice"
  | .action => "action"
  | .sequence => "sequence"
  | .labeled => "labeled"
  | .text => "text"
  | .optional => "optional"
  | .zeroOrMore => "zero_or_more"
  | .oneOrMore => "one_or_more"
  | .range => "range"
  | .simpleAnd => "simple_and"
  | .simpleNot => "simple_not"
  | .semanticAnd => "semantic_and"
  | .semanticNot => "semantic_not"
  | .ruleRef => "rule_ref"
  | .literal => "literal"
  | .charClass => "class"
  | .any => "any"

end Kind

namespace Expr

def site : Expr → Site
  | .named site _ _ => site
  | .choice site _ => site
  | .action site _ _ => site
  | .sequence site _ => site
  | .labeled site _ _ => site
  | .text site _ => site
  | .optional site _ => site
  | .repeated site _ _ => site
  | .lookahead site _ _ => site
  | .predicate site _ _ _ => site
  | .ruleRef site _ => site
  | .literal site _ _ => site
  | .charClass site _ _ _ _ => site
  | .any site => site

def id (e : Expr) : Nat := e.site.id

def location (e : Expr) : Location := e.site.location

def withSite (site : Site) : Expr → Expr
  | .named _ name body => .named site name body
  | .choice _ alternatives => .choice site alternatives
  | .action _ act body => .action site act body
  | .sequence _ elements => .sequence site elements
  | .labeled _ label body => .labeled site label body
  | .text _ body => .text site body
  | .optional _ body => .optional site body
  | .repeated _ repetition body => .repeated site repetition body
  | .lookahead _ isNegative body => .lookahead site isNegative body
  | .predicate _ isNegative code ns => .predicate site isNegative code ns
  | .ruleRef _ name => .ruleRef site name
  | .literal _ value ignoreCase => .literal site value ignoreCase
  | .charClass _ parts inverted ignoreCase rawText =>
    .charClass site parts inverted ignoreCase rawText
  | .any _ => .any site

def withLocation (location : Location) (e : Expr) : Expr :=
  e.withSite { e.site with location }

def kind : Expr → Kind
  | .named .. => .named
  | .choice .. => .choice
  | .action .. => .action
  | .sequence .. => .sequence
  | .labeled .. => .labeled
  | .text .. => .text
  | .optional .. => .optional
  | .repeated _ .zeroOrMore _ => .zeroOrMore
  | .repeated _ .oneOrMore _ => .oneOrMore
  | .repeated _ (.range _ _) _ => .range
  | .lookahead _ isNegative _ => if isNegative then .simpleNot else .simpleAnd
  | .predicate _ isNegative _ _ => if isNegative then .semanticNot else .semanticAnd
  | .ruleRef .. => .ruleRef
  | .literal .. => .literal
  | .charClass .. => .charClass
  | .any .. => .any

def children : Expr → List Expr
  | .named _ _ body => [body]
  | .choice _ alternatives => alternatives
  | .action _ _ body => [body]
  | .sequence _ elements => elements
  | .labeled _ _ body => [body]
  | .text _ body => [body]
  | .optional _ body => [body]
  | .repeated _ _ body => [body]
  | .lookahead _ _ body => [body]
  | .predicate .. => []
  | .ruleRef .. => []
  | .literal .. => []
  | .charClass .. => []
  | .any .. => []

def isSequence : Expr → Bool
  | .sequence .. => true
  | _ => false

mutual

def nodes : Expr → List Expr
  | .named site name body => .named site name body :: body.nodes
  | .choice site alternatives => .choice site alternatives :: nodesAll alternatives
  | .action site act body => .action site act body :: body.nodes
  | .sequence site elements => .sequence site elements :: nodesAll elements
  | .labeled site label body => .labeled site label body :: body.nodes
  | .text site body => .text site body :: body.nodes
  | .optional site body => .optional site body :: body.nodes
  | .repeated site repetition body => .repeated site repetition body :: body.nodes
  | .lookahead site isNegative body => .lookahead site isNegative body :: body.nodes
  | .predicate site isNegative code ns => [.predicate site isNegative code ns]
  | .ruleRef site name => [.ruleRef site name]
  | .literal site value ignoreCase => [.literal site value ignoreCase]
  | .charClass site parts inverted ignoreCase rawText =>
    [.charClass site parts inverted ignoreCase rawText]
  | .any site => [.any site]

def nodesAll : List Expr → List Expr
  | [] => []
  | e :: rest => e.nodes ++ nodesAll rest

end

mutual

def number (next : Nat) : Expr → Expr × Nat
  | .named site name body =>
    let (body,after) := body.number (next + 1)
    (.named { site with id := next } name body,after)
  | .choice site alternatives =>
    let (alternatives,after) := numberAll (next + 1) alternatives
    (.choice { site with id := next } alternatives,after)
  | .action site act body =>
    let (body,after) := body.number (next + 1)
    (.action { site with id := next } act body,after)
  | .sequence site elements =>
    let (elements,after) := numberAll (next + 1) elements
    (.sequence { site with id := next } elements,after)
  | .labeled site label body =>
    let (body,after) := body.number (next + 1)
    (.labeled { site with id := next } label body,after)
  | .text site body =>
    let (body,after) := body.number (next + 1)
    (.text { site with id := next } body,after)
  | .optional site body =>
    let (body,after) := body.number (next + 1)
    (.optional { site with id := next } body,after)
  | .repeated site repetition body =>
    let (body,after) := body.number (next + 1)
    (.repeated { site with id := next } repetition body,after)
  | .lookahead site isNegative body =>
    let (body,after) := body.number (next + 1)
    (.lookahead { site with id := next } isNegative body,after)
  | .predicate site isNegative code ns =>
    (.predicate { site with id := next } isNegative code ns,next + 1)
  | .ruleRef site name => (.ruleRef { site with id := next } name,next + 1)
  | .literal site value ignoreCase =>
    (.literal { site with id := next } value ignoreCase,next + 1)
  | .charClass site parts inverted ignoreCase rawText =>
    (.charClass { site with id := next } parts inverted ignoreCase rawText,next + 1)
  | .any site => (.any { site with id := next },next + 1)

def numberAll (next : Nat) : List Expr → List Expr × Nat
  | [] => ([],next)
  | e :: rest =>
    let (e,middle) := e.number next
    let (rest,after) := numberAll middle rest
    (e :: rest,after)

end

end Expr

end PegCompiler
