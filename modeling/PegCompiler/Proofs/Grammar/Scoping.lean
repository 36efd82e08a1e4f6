import PegCompiler.Proofs.Grammar.Induction

/-! Lexical scoping of labels, read off the tree. A labelled expression, possibly under names,
hands its label to the elements behind it in a sequence; nothing else binds a label, and every
part of any other expression sees what the expression itself sees. -/
namespace PegCompiler

structure Labelled where
  label : String
  body : Expr
  slot : Nat

/-- A node of an expression: how many values lie below its own, and the labels bound in front of
it, in the order of binding. -/
structure Visit where
  node : Expr
  base : Nat
  bound : List Labelled

namespace Expr

def exports (base : Nat) : Expr → List Labelled
  | .labeled _ label body => [⟨label,body,base⟩]
  | .named _ _ body => body.exports base
  | _ => []

def exportsAll (base : Nat) : List Expr → List Labelled
  | [] => []
  | e :: rest => e.exports base ++ exportsAll (base + 1) rest

def handed (base : Nat) : Expr → List Labelled
  | .sequence _ elements => exportsAll base elements
  | e => e.exports base

mutual

def visits (base : Nat) (bound : List Labelled) (e : Expr) : List Visit :=
  (match e with
    | .named _ _ body => body.visits base bound
    | .choice _ alternatives => visitsAlternatives base bound alternatives
    | .action _ _ body => body.visits base bound
    | .sequence _ elements => visitsElements base bound elements
    | .labeled _ _ body => body.visits base bound
    | .text _ body => body.visits base bound
    | .optional _ body => body.visits base bound
    -- the items are gathered in a list, which lies below each of them
    | .repeated _ _ body => body.visits (base + 1) bound
    | .lookahead _ _ body => body.visits base bound
    | .predicate .. => []
    | .ruleRef .. => []
    | .literal .. => []
    | .charClass .. => []
    | .any .. => []) ++ [⟨e,base,bound⟩]

def visitsAlternatives (base : Nat) (bound : List Labelled) : List Expr → List Visit
  | [] => []
  | e :: rest => e.visits base bound ++ visitsAlternatives base bound rest

def visitsElements (base : Nat) (bound : List Labelled) : List Expr → List Visit
  | [] => []
  | e :: rest => e.visits base bound ++ visitsElements (base + 1) (bound ++ e.exports base) rest

end

mutual

def outline (base : Nat) (bound : List Labelled) (e : Expr) : List Visit :=
  ⟨e,base,bound⟩ :: match e with
    | .named _ _ body => body.outline base bound
    | .choice _ alternatives => outlineAlternatives base bound alternatives
    | .action _ _ body => body.outline base bound
    | .sequence _ elements => outlineElements base bound elements
    | .labeled _ _ body => body.outline base bound
    | .text _ body => body.outline base bound
    | .optional _ body => body.outline base bound
    | .repeated _ _ body => body.outline (base + 1) bound
    | .lookahead _ _ body => body.outline base bound
    | .predicate .. => []
    | .ruleRef .. => []
    | .literal .. => []
    | .charClass .. => []
    | .any .. => []

def outlineAlternatives (base : Nat) (bound : List Labelled) : List Expr → List Visit
  | [] => []
  | e :: rest => e.outline base bound ++ outlineAlternatives base bound rest

def outlineElements (base : Nat) (bound : List Labelled) : List Expr → List Visit
  | [] => []
  | e :: rest => e.outline base bound ++ outlineElements (base + 1) (bound ++ e.exports base) rest

end

end Expr

end PegCompiler
