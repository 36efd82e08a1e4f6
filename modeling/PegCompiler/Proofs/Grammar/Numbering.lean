import PegCompiler.Grammar.Basic
import PegCompiler.Proofs.Grammar.Induction
import Mathlib.Data.List.Nodup

/-! Numbering gives the nodes of a grammar the numbers from 0 on, in the order of traversal. Hence
a node of a numbered grammar is known by its number. -/
namespace PegCompiler

namespace Expr

private structure Numbers (next size : Nat) (nodes : List Expr) (after : Nat) : Prop where
  ids : nodes.map Expr.id = List.range' next size
  after : after = next + size

private theorem Numbers.node {next size after : Nat} {nodes : List Expr} {e : Expr}
    (parts : Numbers (next + 1) size nodes after) (here : e.id = next) :
    Numbers next (size + 1) (e :: nodes) after where
  ids := by rw [List.map_cons,here,parts.ids,List.range'_succ]
  after := by
    rw [parts.after]
    omega

private theorem Numbers.leaf {next : Nat} {e : Expr} (here : e.id = next) :
    Numbers next 1 [e] (next + 1) := by
  have none : Numbers (next + 1) 0 [] (next + 1) := ⟨rfl,rfl⟩
  exact none.node here

private theorem numberAll_numbers {es : List Expr}
    (all : ∀ e ∈ es, ∀ next, Numbers next e.nodes.length (e.number next).1.nodes (e.number next).2)
    (next : Nat) : Numbers next (nodesAll es).length (nodesAll (numberAll next es).1)
      (numberAll next es).2 := by
  induction es generalizing next with
  | nil => exact ⟨rfl,rfl⟩
  | cons e rest ih =>
    have first := all e List.mem_cons_self next
    have others := ih (fun e member => all e (List.mem_cons_of_mem _ member)) (e.number next).2
    constructor
    · simp only [numberAll,nodesAll,List.map_append,List.length_append]
      rw [first.ids,others.ids,first.after]
      exact List.range'_append_1
    · simp only [numberAll,nodesAll,List.length_append]
      rw [others.after,first.after]
      omega

private theorem number_numbers (e : Expr) (next : Nat) :
    Numbers next e.nodes.length (e.number next).1.nodes (e.number next).2 := by
  induction e using Expr.induction generalizing next with
  | named site name body ih => exact (ih (next + 1)).node rfl
  | choice site alternatives ih => exact (numberAll_numbers ih (next + 1)).node rfl
  | action site act body ih => exact (ih (next + 1)).node rfl
  | sequence site elements ih => exact (numberAll_numbers ih (next + 1)).node rfl
  | labeled site label body ih => exact (ih (next + 1)).node rfl
  | text site body ih => exact (ih (next + 1)).node rfl
  | optional site body ih => exact (ih (next + 1)).node rfl
  | repeated site repetition body ih => exact (ih (next + 1)).node rfl
  | lookahead site isNegative body ih => exact (ih (next + 1)).node rfl
  | predicate site isNegative code ns => exact .leaf rfl
  | ruleRef site name => exact .leaf rfl
  | literal site value ignoreCase => exact .leaf rfl
  | charClass site parts inverted ignoreCase rawText => exact .leaf rfl
  | any site => exact .leaf rfl

/-- The next free number lies behind those of the nodes. -/
theorem number_after (e : Expr) (next : Nat) : (e.number next).2 = next + e.nodes.length :=
  (number_numbers e next).after

/-- The root comes first in the traversal. -/
theorem mem_nodes_self (e : Expr) : e ∈ e.nodes := by
  cases e <;> simp [nodes]

theorem mem_nodesAll {es : List Expr} {node : Expr} :
    node ∈ nodesAll es ↔ ∃ e ∈ es, node ∈ e.nodes := by
  induction es with
  | nil => simp [nodesAll]
  | cons e rest ih => simp [nodesAll,ih]

theorem nodes_eq (e : Expr) : e.nodes = e :: nodesAll e.children := by
  cases e <;> simp [nodes,children,nodesAll]

theorem nodes_of_child {e child node : Expr} (part : child ∈ e.children)
    (member : node ∈ child.nodes) : node ∈ e.nodes := by
  rw [nodes_eq]
  exact List.mem_cons_of_mem _ (mem_nodesAll.mpr ⟨child,part,member⟩)

/-- The parts of a node are nodes of the expression around it. -/
theorem children_mem_nodes {e node child : Expr} (member : node ∈ e.nodes)
    (part : child ∈ node.children) : child ∈ e.nodes := by
  induction e using Expr.children_induction generalizing node child with
  | parts e ih =>
    rw [nodes_eq] at member
    rcases List.mem_cons.mp member with rfl | inside
    · exact nodes_of_child part child.mem_nodes_self
    · obtain ⟨top,topPart,below⟩ := mem_nodesAll.mp inside
      exact nodes_of_child topPart (ih top topPart below part)

end Expr

namespace Grammar

private theorem numberRules_ids (rules : List Rule) (next : Nat) :
    ((numberRules next rules).flatMap fun rule => rule.body.nodes).map Expr.id =
      List.range' next (rules.flatMap fun rule => rule.body.nodes).length := by
  induction rules generalizing next with
  | nil => rfl
  | cons rule rest ih =>
    have first := Expr.number_numbers rule.body next
    simp only [numberRules,List.flatMap_cons,List.map_append,List.length_append]
    rw [first.ids,ih,first.after]
    exact List.range'_append_1

/-- The nodes of a numbered grammar have the numbers from 0 on, in order. -/
theorem numbered_ids (g : Grammar) : g.numbered.nodes.map Expr.id = List.range g.nodeCount := by
  have ids := numberRules_ids g.rules 0
  rw [List.range_eq_range']
  exact ids

theorem numbered_nodup (g : Grammar) : (g.numbered.nodes.map Expr.id).Nodup := by
  rw [numbered_ids]
  exact List.nodup_range

def DistinctIds (g : Grammar) : Prop :=
  ∀ first ∈ g.nodes, ∀ second ∈ g.nodes, first.id = second.id → first = second

theorem numbered_distinct (g : Grammar) : g.numbered.DistinctIds := by
  intro first member second other same
  exact List.inj_on_of_nodup_map g.numbered_nodup member other same

theorem body_mem_nodes {g : Grammar} {rule : Rule} (declared : rule ∈ g.rules) {e : Expr}
    (member : e ∈ rule.body.nodes) : e ∈ g.nodes :=
  List.mem_flatMap.mpr ⟨rule,declared,member⟩

theorem rule_mem_nodes {g : Grammar} {index : Nat} {rule : Rule}
    (declared : g.rules[index]? = some rule) : rule.body ∈ g.nodes :=
  body_mem_nodes (List.mem_of_getElem? declared) rule.body.mem_nodes_self

theorem child_mem_nodes {g : Grammar} {e child : Expr} (member : e ∈ g.nodes)
    (part : child ∈ e.children) : child ∈ g.nodes := by
  obtain ⟨rule,declared,inside⟩ := List.mem_flatMap.mp member
  exact body_mem_nodes declared (Expr.children_mem_nodes inside part)

end Grammar

end PegCompiler
