import PegCompiler.Proofs.Grammar.Traversal
import PegCompiler.Proofs.Lowering.Consultation
import PegCompiler.Proofs.Types.Passes

/-! Types and code fit together. Checking gives a type to every node or reports why not, so that
lowering finds every type it asks for. -/
namespace PegCompiler

open Target Lowering

namespace Grammar

inductive Built : Grammar → Prop
  | ofRules (initializers : List Initializer) (rules : List Rule) : Built (.ofRules initializers rules)
  | decoded {source : String} {g : Grammar} : decode source = .ok g → Built g

theorem Built.numbered {g : Grammar} (built : g.Built) : ∃ draft : Grammar, g = draft.numbered := by
  cases built with
  | ofRules initializers rules => exact ⟨_,rfl⟩
  | decoded ok =>
    obtain ⟨json,draft,-,-,same⟩ := decode_draft ok
    exact ⟨draft,same⟩

theorem Built.distinct {g : Grammar} (built : g.Built) : g.DistinctIds := by
  obtain ⟨draft,rfl⟩ := built.numbered
  exact draft.numbered_distinct

end Grammar

theorem Grammar.load_built {source : String} {g : Grammar} (ok : load source = .ok g) : g.Built :=
  .decoded (load_decoded ok)

section Checking

variable {g : Grammar} {default : Option String} {log : Diagnostics}

theorem check_of_seeded (clean : ((Inference.start g log).seedAll default g).errors = []) :
    check g default log =
      let settled := (((Inference.start g log).seedAll default g).resolveAll g).settle g
        (sweepCap g.rules.length) 0
      settled.1.finish settled.2 := by
  change (if ((Inference.start g log).seedAll default g).errors.isEmpty then _ else _) = _
  rw [clean]
  rfl

theorem check_of_missing (missing : ((Inference.start g log).seedAll default g).errors ≠ []) :
    check g default log = ((Inference.start g log).seedAll default g).finish 0 := by
  change (if ((Inference.start g log).seedAll default g).errors.isEmpty then _ else _) = _
  rw [if_neg (by simpa using missing)]
  rfl

theorem seedAll_decided (distinct : g.DistinctIds)
    (clean : ((Inference.start g log).seedAll default g).errors = []) :
    Inference.Decided g ((Inference.start g log).seedAll default g) := by
  intro site act body member
  obtain ⟨ty,-,found⟩ := Inference.seedAll_lookup distinct clean member
  simp [found]

/-- What checking reports: a missing type, an unknown rule, or that types diverge. -/
theorem check_errors (distinct : g.DistinctIds) {error : TypeError}
    (member : error ∈ (check g default log).errors) :
    (∃ location, error = .missingReturnType location) ∨
      (∃ name location, error = .unknownRule name location) ∨
      ∃ sweeps names, error = .diverged sweeps names := by
  by_cases clean : ((Inference.start g log).seedAll default g).errors = []
  · have decided := seedAll_decided distinct clean
    obtain ⟨seeds,first⟩ := (Inference.reporting g).resolveAll_moves
      ((Inference.start g log).seedAll default g)
    rw [check_of_seeded clean] at member
    have later : Inference.Decided g (((Inference.start g log).seedAll default g).resolveAll g) := by
      intro site act body inside
      rw [seeds]
      exact decided site act body inside
    rcases Inference.settle_errors later member with earlier | other
    · rcases first decided error earlier with seeded | unknown
      · rw [clean] at seeded
        exact nomatch seeded
      · exact .inr (.inl unknown)
    · exact .inr other
  · rw [check_of_missing clean] at member
    exact .inl (Inference.seedAll_errors member)

theorem check_complete (distinct : g.DistinctIds) (ok : (check g default log).isOk) :
    (check g default log).table.IsFixpoint g default := by
  have none : (check g default log).errors = [] := List.isEmpty_iff.mp ok
  exact check_isFixpoint distinct (by simp [none]) (by simp [none])

end Checking

/-- Generation misses no type in a table that has types for all rules and nodes. -/
theorem generate_typed {g : Grammar} {table : TypeTable} (options : Options)
    (rules : ∀ index < g.rules.length, (table.rule index).isSome)
    (nodes : ∀ e ∈ g.nodes, (table.expr e).isSome) (kind : String) (location : Location) :
    generate g table options ≠ .error (.untyped kind location) := by
  intro failed
  rcases generate_untyped failed with ⟨index,rule,place,missing,-⟩ | ⟨node,consulted,missing,-⟩
  · have given := rules index (List.getElem?_eq_some_iff.mp place).1
    simp [missing] at given
  · have given := nodes node consulted.mem_nodes
    simp [missing] at given

/-- Checking and generation fit together. For a grammar that was built, no action is found without
a decided type, generation never misses a type, and a table without errors has types for all rules
and all nodes. -/
theorem phases_fit_together (g : Grammar) (built : g.Built) (log : Diagnostics) :
    (∀ default location, .actionTypeUndefined location ∉ (check g default log).errors) ∧
    (∀ options kind location,
      (compile g options log).1 ≠ .error (.generate (.untyped kind location))) ∧
    ∀ default, (check g default log).isOk →
      (check g default log).table.isComplete g.rules.length ∧
      (∀ index < g.rules.length, ((check g default log).table.rule index).isSome) ∧
      ∀ e ∈ g.nodes, ((check g default log).table.expr e).isSome := by
  have types (default : Option String) (ok : (check g default log).isOk) :
      (check g default log).table.isComplete g.rules.length ∧
      (∀ index < g.rules.length, ((check g default log).table.rule index).isSome) ∧
      ∀ e ∈ g.nodes, ((check g default log).table.expr e).isSome := by
    have fixpoint := check_complete built.distinct ok
    refine ⟨fixpoint.complete,fun index inside => ?_,fun e member => ?_⟩
    · obtain ⟨ty,found,-⟩ := fixpoint.rules index _ (List.getElem?_eq_getElem inside)
      simp [found]
    · obtain ⟨ty,found,-⟩ := fixpoint.nodes e member
      simp [found]
  refine ⟨fun default location member => ?_,fun options kind location failed => ?_,types⟩
  · rcases check_errors built.distinct member with ⟨_,same⟩ | ⟨_,_,same⟩ | ⟨_,_,same⟩ <;>
      exact nomatch same
  · unfold compile at failed
    dsimp only at failed
    split at failed
    next ok =>
      obtain ⟨-,rules,nodes⟩ := types options.defaultActionReturnType ok
      split at failed
      · exact nomatch failed
      next error raised =>
        cases failed
        exact generate_typed options rules nodes kind location raised
    next => exact nomatch failed

def echoGrammar : Grammar := .ofRules [] [
  { name := "echo", body := .action {} { code := "return x;" } (.labeled {} "x" (.any {})) }]

theorem echoGrammar_typed : (check echoGrammar (some "String") {}).isOk = true ∧
    ∀ e ∈ echoGrammar.nodes, ((check echoGrammar (some "String") {}).table.expr e).isSome := by
  have ok : (check echoGrammar (some "String") {}).isOk = true := by decide +kernel
  exact ⟨ok,((phases_fit_together echoGrammar (.ofRules _ _) {}).2.2 (some "String") ok).2.2⟩

end PegCompiler
