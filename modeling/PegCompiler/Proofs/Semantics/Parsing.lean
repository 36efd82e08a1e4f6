import PegCompiler.Grammar.Basic
import PegCompiler.Proofs.Grammar.Induction

/-! The meaning of parsing expressions, as big-step rules. An evaluation starts at a position with
labels in scope and ends in an outcome at a position. What single characters, literals and code of
the author do is left open by `Meaning`; the rules of a grammar call each other by name. -/
namespace PegCompiler.Semantics

inductive Datum (ω : Type) where
  | null
  | char (c : Char)
  | text (s : String)
  | list (items : List (Datum ω))
  | object (x : ω)

inductive Outcome (ω : Type) where
  | failed
  | matched (d : Datum ω)

namespace Outcome

def isFailed {ω : Type} : Outcome ω → Bool
  | .failed => true
  | .matched _ => false

def elim {ω : Type} {α : Sort u} (failed : α) (matched : Datum ω → α) : Outcome ω → α
  | .failed => failed
  | .matched d => matched d

end Outcome

structure Label (ω : Type) where
  name : String
  node : Nat
  value : Datum ω

abbrev Labels (ω : Type) := List (Label ω)

namespace Labels

def bind {ω : Type} (labels : Labels ω) (label : Label ω) : Labels ω :=
  match labels with
  | [] => [label]
  | first :: rest => if first.name = label.name then label :: rest else first :: bind rest label

def find {ω : Type} (labels : Labels ω) (name : String) : Option (Label ω) :=
  labels.find? fun l => l.name == name

end Labels

abbrev Parser (ω π : Type) := π → Outcome ω → π → Prop

structure Meaning (ω π : Type) where
  literal : (value : String) → (ignoreCase : Bool) → Parser ω π
  charClass : List ClassPart → (inverted ignoreCase : Bool) → Parser ω π
  any : Parser ω π
  slice : (start stop : π) → String
  number : Datum ω → Option Int
  predicate : (code : String) → (ns : Option String) → Labels ω → π → Bool → Prop
  action : Site → Action → Labels ω → (start stop : π) → Datum ω → Prop

variable {ω π : Type}

/-- The labels in scope behind an expression that has matched. Only a labelled expression,
possibly under names, adds to those in front of it. -/
def exports (labels : Labels ω) (d : Datum ω) : Expr → Labels ω
  | .labeled _ label body => labels.bind ⟨label,body.id,d⟩
  | .named _ _ body => exports labels d body
  | _ => labels

-- Counts are values of the target's `int`.
def maxInt : Nat := 2147483647

namespace Meaning

def count (μ : Meaning ω π) (labels : Labels ω) : Boundary → Option Int
  | .count n => if n.toNat ≤ maxInt then some n.toNat else none
  | .label name => (labels.find name).bind fun l => μ.number l.value

end Meaning

def Full (limit : Option Int) (count : Nat) : Prop :=
  ∃ most, limit = some most ∧ most ≤ count

mutual

/-- `Eval μ call e labels p o q`: at `p`, with `labels` in scope, `e` has the outcome `o` and
leaves the input at `q`; `call` says what rules do. -/
inductive Eval (μ : Meaning ω π) (call : String → Parser ω π) :
    Expr → Labels ω → π → Outcome ω → π → Prop
  | named {site name body ls p o q} : Eval μ call body ls p o q →
      Eval μ call (.named site name body) ls p o q
  | choice {site alternatives ls p o q} : Choose μ call alternatives ls p o q →
      Eval μ call (.choice site alternatives) ls p o q
  | action_matched {site act body ls p d q result} (plain : body.isSequence = false) :
      Eval μ call body ls p (.matched d) q → μ.action site act (exports ls d body) p q result →
      Eval μ call (.action site act body) ls p (.matched result) q
  | action_sequence {site act inner elements ls p ds ls' q result} :
      All μ call elements ls p ds ls' q → μ.action site act ls' p q result →
      Eval μ call (.action site act (.sequence inner elements)) ls p (.matched result) q
  | action_failed {site act body ls p q} : Eval μ call body ls p .failed q →
      Eval μ call (.action site act body) ls p .failed q
  | sequence_matched {site elements ls p ds ls' q} : All μ call elements ls p ds ls' q →
      Eval μ call (.sequence site elements) ls p (.matched (.list ds)) q
  | sequence_failed {site elements ls p} : Broken μ call elements ls p →
      Eval μ call (.sequence site elements) ls p .failed p
  | labeled {site label body ls p o q} : Eval μ call body ls p o q →
      Eval μ call (.labeled site label body) ls p o q
  | text_matched {site body ls p d q} : Eval μ call body ls p (.matched d) q →
      Eval μ call (.text site body) ls p (.matched (.text (μ.slice p q))) q
  | text_failed {site body ls p q} : Eval μ call body ls p .failed q →
      Eval μ call (.text site body) ls p .failed q
  | optional_present {site body ls p d q} : Eval μ call body ls p (.matched d) q →
      Eval μ call (.optional site body) ls p (.matched d) q
  | optional_absent {site body ls p q} : Eval μ call body ls p .failed q →
      Eval μ call (.optional site body) ls p (.matched .null) p
  | repeated_matched {site repetition body ls p ds q least limit}
      (min : μ.count ls repetition.min = some least)
      (max : repetition.max.mapM (μ.count ls) = some limit) :
      Repeat μ call body ls limit 0 p ds q → least ≤ ds.length →
      Eval μ call (.repeated site repetition body) ls p (.matched (.list ds)) q
  | repeated_failed {site repetition body ls p ds q least limit}
      (min : μ.count ls repetition.min = some least)
      (max : repetition.max.mapM (μ.count ls) = some limit) :
      Repeat μ call body ls limit 0 p ds q → (ds.length : Int) < least →
      Eval μ call (.repeated site repetition body) ls p .failed p
  | and {site body ls p o q} : Eval μ call body ls p o q →
      Eval μ call (.lookahead site false body) ls p o p
  | not_matched {site body ls p q} : Eval μ call body ls p .failed q →
      Eval μ call (.lookahead site true body) ls p (.matched .null) p
  | not_failed {site body ls p d q} : Eval μ call body ls p (.matched d) q →
      Eval μ call (.lookahead site true body) ls p .failed p
  | predicate_matched {site isNegative code ns ls p} : μ.predicate code ns ls p (!isNegative) →
      Eval μ call (.predicate site isNegative code ns) ls p (.matched .null) p
  | predicate_failed {site isNegative code ns ls p} : μ.predicate code ns ls p isNegative →
      Eval μ call (.predicate site isNegative code ns) ls p .failed p
  | ruleRef {site name ls p o q} : call name p o q → Eval μ call (.ruleRef site name) ls p o q
  | literal {site value ignoreCase ls p o q} : μ.literal value ignoreCase p o q →
      Eval μ call (.literal site value ignoreCase) ls p o q
  | charClass {site parts inverted ignoreCase rawText ls p o q} :
      μ.charClass parts inverted ignoreCase p o q →
      Eval μ call (.charClass site parts inverted ignoreCase rawText) ls p o q
  | any {site ls p o q} : μ.any p o q → Eval μ call (.any site) ls p o q

inductive Choose (μ : Meaning ω π) (call : String → Parser ω π) :
    List Expr → Labels ω → π → Outcome ω → π → Prop
  | none {ls p} : Choose μ call [] ls p .failed p
  | first {e rest ls p d q} : Eval μ call e ls p (.matched d) q →
      Choose μ call (e :: rest) ls p (.matched d) q
  | next {e rest ls p q o r} : Eval μ call e ls p .failed q → Choose μ call rest ls p o r →
      Choose μ call (e :: rest) ls p o r

inductive All (μ : Meaning ω π) (call : String → Parser ω π) :
    List Expr → Labels ω → π → List (Datum ω) → Labels ω → π → Prop
  | nil {ls p} : All μ call [] ls p [] ls p
  | cons {e rest ls p d q ds ls' r} : Eval μ call e ls p (.matched d) q →
      All μ call rest (exports ls d e) q ds ls' r → All μ call (e :: rest) ls p (d :: ds) ls' r

inductive Broken (μ : Meaning ω π) (call : String → Parser ω π) :
    List Expr → Labels ω → π → Prop
  | here {e rest ls p q} : Eval μ call e ls p .failed q → Broken μ call (e :: rest) ls p
  | later {e rest ls p d q} : Eval μ call e ls p (.matched d) q →
      Broken μ call rest (exports ls d e) q → Broken μ call (e :: rest) ls p

inductive Repeat (μ : Meaning ω π) (call : String → Parser ω π) :
    Expr → Labels ω → Option Int → Nat → π → List (Datum ω) → π → Prop
  | full {e ls limit count p} : Full limit count → Repeat μ call e ls limit count p [] p
  | stop {e ls limit count p q} : ¬Full limit count → Eval μ call e ls p .failed q →
      Repeat μ call e ls limit count p [] p
  | more {e ls limit count p d q ds r} : ¬Full limit count →
      Eval μ call e ls p (.matched d) q → Repeat μ call e ls limit (count + 1) q ds r →
      Repeat μ call e ls limit count p (d :: ds) r

end

/-- The rules of a grammar as parsers, with references nested less than `depth` deep. Of several
rules with one name the first counts. -/
def ruleWithin (μ : Meaning ω π) (rules : List Rule) : (depth : Nat) → String → Parser ω π
  | 0, _, _, _, _ => False
  | depth + 1, name, p, o, q => ∃ rule, (rules.find? fun r => r.name == name) = some rule ∧
      Eval μ (ruleWithin μ rules depth) rule.body [] p o q

def ruleParser (μ : Meaning ω π) (rules : List Rule) : String → Parser ω π :=
  fun name p o q => ∃ depth, ruleWithin μ rules depth name p o q

def FailsInPlace (parser : Parser ω π) : Prop :=
  ∀ p q, parser p .failed q → q = p

structure Meaning.Stays (μ : Meaning ω π) : Prop where
  literal : ∀ value ignoreCase, FailsInPlace (μ.literal value ignoreCase)
  charClass : ∀ parts inverted ignoreCase, FailsInPlace (μ.charClass parts inverted ignoreCase)
  any : FailsInPlace μ.any

section Failure

variable {μ : Meaning ω π} {call : String → Parser ω π}

private theorem choose_failsInPlace {alternatives : List Expr} {ls : Labels ω} :
    FailsInPlace (Choose μ call alternatives ls) := by
  induction alternatives with
  | nil =>
    intro p q chosen
    cases chosen
    rfl
  | cons e rest ih =>
    intro p q chosen
    cases chosen with
    | next _ others => exact ih p q others

/-- An expression that fails leaves the input where it was, if what it calls does. -/
theorem eval_failsInPlace (stays : μ.Stays) (called : ∀ name, FailsInPlace (call name)) (e : Expr)
    (ls : Labels ω) : FailsInPlace (Eval μ call e ls) := by
  induction e using Expr.induction generalizing ls with
  | named site name body ih =>
    intro p q failed
    cases failed with
    | named inner => exact ih ls p q inner
  | choice site alternatives _ =>
    intro p q failed
    cases failed with
    | choice chosen => exact choose_failsInPlace p q chosen
  | action site act body ih =>
    intro p q failed
    cases failed with
    | action_failed inner => exact ih ls p q inner
  | sequence site elements _ =>
    intro p q failed
    cases failed
    rfl
  | labeled site label body ih =>
    intro p q failed
    cases failed with
    | labeled inner => exact ih ls p q inner
  | text site body ih =>
    intro p q failed
    cases failed with
    | text_failed inner => exact ih ls p q inner
  | optional site body ih =>
    intro p q failed
    cases failed
  | repeated site repetition body _ =>
    intro p q failed
    cases failed
    rfl
  | lookahead site isNegative body _ =>
    intro p q failed
    cases failed <;> rfl
  | predicate site isNegative code ns =>
    intro p q failed
    cases failed
    rfl
  | ruleRef site name =>
    intro p q failed
    cases failed with
    | ruleRef failed => exact called name p q failed
  | literal site value ignoreCase =>
    intro p q failed
    cases failed with
    | literal failed => exact stays.literal value ignoreCase p q failed
  | charClass site parts inverted ignoreCase rawText =>
    intro p q failed
    cases failed with
    | charClass failed => exact stays.charClass parts inverted ignoreCase p q failed
  | any site =>
    intro p q failed
    cases failed with
    | any failed => exact stays.any p q failed

theorem ruleWithin_failsInPlace (stays : μ.Stays) (rules : List Rule) (depth : Nat)
    (name : String) : FailsInPlace (ruleWithin μ rules depth name) := by
  induction depth generalizing name with
  | zero =>
    intro p q failed
    exact failed.elim
  | succ depth ih =>
    rintro p q ⟨rule,-,failed⟩
    exact eval_failsInPlace stays ih rule.body [] p q failed

theorem ruleParser_failsInPlace (stays : μ.Stays) (rules : List Rule) (name : String) :
    FailsInPlace (ruleParser μ rules name) := by
  rintro p q ⟨depth,failed⟩
  exact ruleWithin_failsInPlace stays rules depth name p q failed

end Failure

end PegCompiler.Semantics
