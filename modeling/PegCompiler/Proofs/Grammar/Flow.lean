import PegCompiler.Proofs.Grammar.Numbering
import Mathlib.Data.Finset.Card
import Mathlib.Logic.Relation
import Mathlib.Order.Lattice.Nat

/-! Where the types of rules come from. The type of an expression depends on the rules that it
refers to, except for references inside an action, a text or a lookahead, whose types are fixed.
Along the other references types flow from rule to rule. If they do not flow in a cycle, then the
paths of flow have a longest one, and rules can be taken by the length of the paths behind them. -/
namespace PegCompiler

namespace Expr

mutual

def flowRefs : Expr → List String
  | .named _ _ body => body.flowRefs
  | .choice _ alternatives => flowRefsAll alternatives
  | .action .. => []
  | .sequence _ elements => flowRefsAll elements
  | .labeled _ _ body => body.flowRefs
  | .text .. => []
  | .optional _ body => body.flowRefs
  | .repeated _ _ body => body.flowRefs
  | .lookahead .. => []
  | .predicate .. => []
  | .ruleRef _ name => [name]
  | .literal .. => []
  | .charClass .. => []
  | .any .. => []

def flowRefsAll : List Expr → List String
  | [] => []
  | e :: rest => e.flowRefs ++ flowRefsAll rest

end

theorem mem_flowRefsAll {es : List Expr} {name : String} :
    name ∈ flowRefsAll es ↔ ∃ e ∈ es, name ∈ e.flowRefs := by
  induction es with
  | nil => simp [flowRefsAll]
  | cons e rest ih => simp [flowRefsAll,ih]

private theorem flowRefsAll_number {es : List Expr}
    (all : ∀ e ∈ es, ∀ next, (e.number next).1.flowRefs = e.flowRefs) (next : Nat) :
    flowRefsAll (numberAll next es).1 = flowRefsAll es := by
  induction es generalizing next with
  | nil => rfl
  | cons e rest ih =>
    have others := ih (fun e member => all e (List.mem_cons_of_mem _ member)) (e.number next).2
    simp only [numberAll,flowRefsAll,all e List.mem_cons_self next,others]

@[simp] theorem flowRefs_number (e : Expr) (next : Nat) :
    (e.number next).1.flowRefs = e.flowRefs := by
  induction e using Expr.induction generalizing next with
  | choice site alternatives ih => exact flowRefsAll_number ih (next + 1)
  | sequence site elements ih => exact flowRefsAll_number ih (next + 1)
  | named | labeled | optional | repeated =>
    rename_i ih
    exact ih (next + 1)
  | action | text | lookahead | predicate | ruleRef | literal | charClass | any => rfl

end Expr

namespace Grammar

def Declares (g : Grammar) (name : String) : Prop :=
  ∃ rule ∈ g.rules, rule.name = name

def FlowsTo (g : Grammar) (a b : String) : Prop :=
  (∃ rule ∈ g.rules, rule.name = a ∧ b ∈ rule.body.flowRefs) ∧ g.Declares b

inductive FlowPath (g : Grammar) : String → Nat → Prop
  | stop {name : String} : g.Declares name → FlowPath g name 0
  | step {a b : String} {edges : Nat} : g.FlowsTo a b → FlowPath g b edges →
      FlowPath g a (edges + 1)

variable {g : Grammar} {a b name : String}

theorem FlowsTo.declares (flows : g.FlowsTo a b) : g.Declares a := by
  obtain ⟨⟨rule,declared,named,-⟩,-⟩ := flows
  exact ⟨rule,declared,named⟩

private noncomputable def upstream (g : Grammar) (name : String) : Finset String := by
  classical
  exact (g.rules.map (·.name)).toFinset.filter (Relation.ReflTransGen g.FlowsTo name)

private theorem mem_upstream {other : String} : other ∈ g.upstream name ↔
    g.Declares other ∧ Relation.ReflTransGen g.FlowsTo name other := by
  simp [upstream,Declares]

/-- Without cycles, every step of a path leaves a rule behind. -/
private theorem path_bound (acyclic : ∀ name, ¬Relation.TransGen g.FlowsTo name name) {edges : Nat}
    (path : g.FlowPath name edges) : edges < (g.upstream name).card := by
  induction path with
  | stop declared =>
    exact Finset.card_pos.mpr ⟨_,mem_upstream.mpr ⟨declared,.refl⟩⟩
  | @step a b edges flows path ih =>
    refine Nat.lt_of_le_of_lt ih (Finset.card_lt_card ?_)
    rw [Finset.ssubset_iff_of_subset]
    -- the rule that is left is not upstream of its source, or types would flow in a cycle
    · refine ⟨a,mem_upstream.mpr ⟨flows.declares,.refl⟩,fun back => ?_⟩
      exact acyclic a (Relation.TransGen.head' flows (mem_upstream.mp back).2)
    · intro other behind
      obtain ⟨declared,reached⟩ := mem_upstream.mp behind
      exact mem_upstream.mpr ⟨declared,reached.head flows⟩

theorem path_lt_rules (acyclic : ∀ name, ¬Relation.TransGen g.FlowsTo name name) {edges : Nat}
    (path : g.FlowPath name edges) : edges < g.rules.length := by
  classical
  calc edges < (g.upstream name).card := path_bound acyclic path
    _ ≤ (g.rules.map (·.name)).toFinset.card := Finset.card_le_card (by simp [upstream])
    _ ≤ (g.rules.map (·.name)).length := List.toFinset_card_le _
    _ = g.rules.length := List.length_map _

theorem longest_path (acyclic : ∀ name, ¬Relation.TransGen g.FlowsTo name name)
    (some : g.rules ≠ []) :
    ∃ height, IsGreatest {edges | ∃ name, g.FlowPath name edges} height := by
  have bounded : BddAbove {edges | ∃ name, g.FlowPath name edges} := by
    refine ⟨g.rules.length,?_⟩
    rintro edges ⟨name,path⟩
    exact Nat.le_of_lt (path_lt_rules acyclic path)
  obtain ⟨rule,declared⟩ := List.exists_mem_of_ne_nil _ some
  have start : (0 : Nat) ∈ {edges | ∃ name, g.FlowPath name edges} :=
    ⟨rule.name,.stop ⟨rule,declared,rfl⟩⟩
  exact ⟨_,Nat.sSup_mem ⟨0,start⟩ bounded,fun edges path => le_csSup bounded path⟩

def Shallow (g : Grammar) (depth : Nat) (name : String) : Prop :=
  ∀ edges, g.FlowPath name edges → edges ≤ depth

theorem Shallow.mono {depth more : Nat} (shallow : g.Shallow depth name) (deeper : depth ≤ more) :
    g.Shallow more name :=
  fun edges path => Nat.le_trans (shallow edges path) deeper

theorem Shallow.source {depth : Nat} (shallow : g.Shallow (depth + 1) a) (flows : g.FlowsTo a b) :
    g.Shallow depth b :=
  fun edges path => Nat.le_of_succ_le_succ (shallow (edges + 1) (.step flows path))

theorem Shallow.noSource (shallow : g.Shallow 0 a) : ¬g.FlowsTo a b := by
  intro flows
  have short := shallow 1 (.step flows (.stop flows.2))
  omega

/-- If paths are bounded then some rule has no path behind it. -/
theorem exists_shallow {height : Nat} (bounded : ∀ name, g.Shallow height name)
    (some : g.rules ≠ []) : ∃ rule ∈ g.rules, g.Shallow 0 rule.name := by
  -- otherwise every rule has a source, and paths can be made as long as one likes
  by_contra deep
  push Not at deep
  have longer (edges : Nat) : ∀ rule ∈ g.rules, g.FlowPath rule.name edges := by
    induction edges with
    | zero => exact fun rule declared => .stop ⟨rule,declared,rfl⟩
    | succ edges ih =>
      intro rule declared
      obtain ⟨n,path,positive⟩ : ∃ n, g.FlowPath rule.name n ∧ 0 < n := by
        simpa [Shallow,Nat.pos_iff_ne_zero] using deep rule declared
      cases path with
      | stop => exact absurd positive (Nat.lt_irrefl 0)
      | step flows _ =>
        obtain ⟨source,declared',rfl⟩ := flows.2
        exact .step flows (ih source declared')
  obtain ⟨rule,declared⟩ := List.exists_mem_of_ne_nil _ some
  have long := bounded rule.name (height + 1) (longer (height + 1) rule declared)
  omega

end Grammar

end PegCompiler
