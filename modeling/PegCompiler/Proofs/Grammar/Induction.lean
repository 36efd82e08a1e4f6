import PegCompiler.Grammar.Expr

/-! Induction over parsing expressions. Alternatives and elements come as lists, so the
hypothesis of a choice or a sequence speaks of every member of its list. -/
namespace PegCompiler.Expr

@[elab_as_elim]
theorem induction {P : Expr → Prop}
    (named : ∀ site name body, P body → P (.named site name body))
    (choice : ∀ site alternatives, (∀ e ∈ alternatives, P e) → P (.choice site alternatives))
    (action : ∀ site act body, P body → P (.action site act body))
    (sequence : ∀ site elements, (∀ e ∈ elements, P e) → P (.sequence site elements))
    (labeled : ∀ site label body, P body → P (.labeled site label body))
    (text : ∀ site body, P body → P (.text site body))
    (optional : ∀ site body, P body → P (.optional site body))
    (repeated : ∀ site repetition body, P body → P (.repeated site repetition body))
    (lookahead : ∀ site isNegative body, P body → P (.lookahead site isNegative body))
    (predicate : ∀ site isNegative code ns, P (.predicate site isNegative code ns))
    (ruleRef : ∀ site name, P (.ruleRef site name))
    (literal : ∀ site value ignoreCase, P (.literal site value ignoreCase))
    (charClass : ∀ site parts inverted ignoreCase rawText,
      P (.charClass site parts inverted ignoreCase rawText))
    (any : ∀ site, P (.any site)) (e : Expr) : P e := by
  refine @Expr.rec P (fun es => ∀ e ∈ es, P e) named choice action sequence labeled text optional
    repeated lookahead predicate ruleRef literal charClass any ?_ ?_ e
  · intro e member
    simp at member
  · intro e rest head tail
    simpa using ⟨head,tail⟩

/-- Induction from the direct parts of an expression to the expression. -/
@[elab_as_elim]
theorem children_induction {P : Expr → Prop}
    (parts : ∀ e, (∀ child ∈ e.children, P child) → P e) (e : Expr) : P e := by
  induction e using Expr.induction with
  | named site name body ih => exact parts _ (by simpa [children] using ih)
  | choice site alternatives ih => exact parts _ ih
  | action site act body ih => exact parts _ (by simpa [children] using ih)
  | sequence site elements ih => exact parts _ ih
  | labeled site label body ih => exact parts _ (by simpa [children] using ih)
  | text site body ih => exact parts _ (by simpa [children] using ih)
  | optional site body ih => exact parts _ (by simpa [children] using ih)
  | repeated site repetition body ih => exact parts _ (by simpa [children] using ih)
  | lookahead site isNegative body ih => exact parts _ (by simpa [children] using ih)
  | predicate site isNegative code ns => exact parts _ (by simp [children])
  | ruleRef site name => exact parts _ (by simp [children])
  | literal site value ignoreCase => exact parts _ (by simp [children])
  | charClass site parts' inverted ignoreCase rawText => exact parts _ (by simp [children])
  | any site => exact parts _ (by simp [children])

end PegCompiler.Expr
