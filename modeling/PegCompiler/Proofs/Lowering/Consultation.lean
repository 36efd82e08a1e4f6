import PegCompiler.Proofs.Lowering.Registration
import PegCompiler.Proofs.Types.Inference

/-! What generation asks of the type table. Besides the types of the rules it asks for those of actions
and of the expressions directly under labels. Tables that agree on these are as good as one another, and
where no type is found, one of these is missing. -/
namespace PegCompiler

open Target Lowering

inductive Consulted (nodes : List Expr) : Expr → Prop
  | action {site : Site} {act : Action} {body : Expr} : .action site act body ∈ nodes →
      Consulted nodes (.action site act body)
  | labeled {site : Site} {label : String} {body : Expr} : .labeled site label body ∈ nodes →
      Consulted nodes body

theorem Consulted.mono {nodes more : List Expr} (covered : nodes ⊆ more) {node : Expr}
    (consulted : Consulted nodes node) : Consulted more node := by
  cases consulted with
  | action member => exact .action (covered member)
  | labeled member => exact .labeled (covered member)

theorem Consulted.mem_nodes {g : Grammar} {node : Expr} (consulted : Consulted g.nodes node) :
    node ∈ g.nodes := by
  cases consulted with
  | action member => exact member
  | labeled member => exact Grammar.child_mem_nodes member List.mem_cons_self

namespace TypeTable

def AgreeOn (nodes : List Expr) (t u : TypeTable) : Prop :=
  ∀ node, Consulted nodes node → t.expr node = u.expr node

structure Agree (g : Grammar) (t u : TypeTable) : Prop where
  rules : ∀ index < g.rules.length, t.rule index = u.rule index
  nodes : AgreeOn g.nodes t u

variable {nodes more : List Expr} {t u : TypeTable}

theorem AgreeOn.mono (agree : AgreeOn more t u) (covered : nodes ⊆ more) : AgreeOn nodes t u :=
  fun node consulted => agree node (consulted.mono covered)

theorem AgreeOn.part {e child : Expr} (agree : AgreeOn e.nodes t u) (part : child ∈ e.children) :
    AgreeOn child.nodes t u :=
  agree.mono fun _ member => Expr.nodes_of_child part member

end TypeTable

namespace Lowering

open TypeTable (AgreeOn)

variable {imports : Imports} {t u : TypeTable}

private theorem typeOf_congr {kind : Kind} {site : Site} (same : t.node site.id = u.node site.id) :
    typeOf ⟨imports,t⟩ kind site = typeOf ⟨imports,u⟩ kind site := by
  simp only [typeOf,same]

private theorem actionCall_congr {site : Site} (same : t.node site.id = u.node site.id) (act : Action)
    (passed : List Passed) :
    actionCall ⟨imports,t⟩ site act passed = actionCall ⟨imports,u⟩ site act passed := by
  simp only [actionCall,typeOf_congr same]

private theorem lowerAction_congr {site : Site} (same : t.node site.id = u.node site.id) (act : Action)
    (body : Lower (List Instr × Scope)) :
    lowerAction ⟨imports,t⟩ site act body = lowerAction ⟨imports,u⟩ site act body := by
  simp only [lowerAction,actionCall_congr same]
  rfl

private theorem closeSequence_congr {caller : Option (Site × Action)}
    (called : ∀ call ∈ caller, t.node call.1.id = u.node call.1.id) (count : Nat)
    (scope : Scope) :
    closeSequence ⟨imports,t⟩ caller count scope = closeSequence ⟨imports,u⟩ caller count scope := by
  cases caller with
  | none => rfl
  | some action =>
    simp only [closeSequence,actionCall_congr (called action rfl)]
    rfl

private theorem alternatives_congr {alternatives : List Expr}
    (all : ∀ e ∈ alternatives, ∀ base scope,
      lower ⟨imports,t⟩ e base none scope = lower ⟨imports,u⟩ e base none scope)
    (base n : Nat) (scope : Scope) :
    lowerAlternatives ⟨imports,t⟩ alternatives base n scope =
      lowerAlternatives ⟨imports,u⟩ alternatives base n scope := by
  induction alternatives generalizing n with
  | nil => rfl
  | cons e rest ih =>
    have others := ih fun e member => all e (List.mem_cons_of_mem _ member)
    simp only [lowerAlternatives,all e List.mem_cons_self,others]

private theorem elements_congr {elements : List Expr}
    (all : ∀ e ∈ elements, ∀ base scope,
      lower ⟨imports,t⟩ e base none scope = lower ⟨imports,u⟩ e base none scope)
    (base index first : Nat) (scope : Scope) :
    lowerElements ⟨imports,t⟩ elements base index first scope =
      lowerElements ⟨imports,u⟩ elements base index first scope := by
  induction elements generalizing index first scope with
  | nil => rfl
  | cons e rest ih =>
    have others := ih fun e member => all e (List.mem_cons_of_mem _ member)
    simp only [lowerElements,all e List.mem_cons_self,others]

/-- Lowering an expression is the same computation under tables that agree on its nodes. -/
theorem lower_congr (imports : Imports) {e : Expr} (agree : AgreeOn e.nodes t u) (base : Nat)
    (caller : Option (Site × Action)) (called : ∀ call ∈ caller, t.node call.1.id = u.node call.1.id)
    (scope : Scope) :
    lower ⟨imports,t⟩ e base caller scope = lower ⟨imports,u⟩ e base caller scope := by
  induction e using Expr.induction generalizing base caller scope with
  | choice site alternatives ih =>
    have parts := alternatives_congr fun e part base scope =>
      ih e part (agree.part part) base none (by simp) scope
    simp only [lower,parts]
  | action site act body ih =>
    have same : t.node site.id = u.node site.id := agree _ (.action List.mem_cons_self)
    have inner : AgreeOn body.nodes t u := agree.part List.mem_cons_self
    have calling := ih inner base (some (site,act)) (by simpa using same) scope
    have plain := ih inner base none (by simp) scope
    simp only [lower,calling,plain,lowerAction_congr same]
  | sequence site elements ih =>
    have parts := elements_congr fun e part base scope =>
      ih e part (agree.part part) base none (by simp) scope
    simp only [lower,parts,closeSequence_congr called]
  | labeled site label body ih =>
    have same : t.node body.site.id = u.node body.site.id := agree body (.labeled List.mem_cons_self)
    have inner := ih (agree.part List.mem_cons_self) base none (by simp) scope
    simp only [lower,typeOf_congr same,inner]
  | repeated site repetition body ih =>
    have inner := ih (agree.part List.mem_cons_self) (base + 1) none (by simp) scope
    simp only [lower,inner]
  | named site name body ih =>
    have inner := ih (agree.part List.mem_cons_self) base none (by simp) scope
    simp only [lower,inner]
    rfl
  | text | optional | lookahead =>
    rename_i ih
    have inner := ih (agree.part List.mem_cons_self) base none (by simp) scope
    simp only [lower,inner]
  | predicate | ruleRef | literal | charClass | any => rfl

private theorem lowerBody_congr (imports : Imports) {rule : Rule} (agree : AgreeOn rule.body.nodes t u)
    (isStart : Bool) : lowerBody ⟨imports,t⟩ rule isStart = lowerBody ⟨imports,u⟩ rule isStart := by
  rw [lowerBody,lowerBody,lower_congr imports agree 0 none (by simp) []]

theorem lowerRule_congr (imports : Imports) {rule : Rule} (agree : AgreeOn rule.body.nodes t u)
    (isStart : Bool) (before : Registries) :
    lowerRule ⟨imports,t⟩ rule isStart before = lowerRule ⟨imports,u⟩ rule isStart before := by
  rw [lowerRule_from,lowerRule_from,lowerBody_congr imports agree]

theorem lowerRules_congr (imports : Imports) {rules : List Rule}
    (agree : ∀ rule ∈ rules, AgreeOn rule.body.nodes t u) (starts : List String) (before : Registries) :
    lowerRules ⟨imports,t⟩ starts before rules = lowerRules ⟨imports,u⟩ starts before rules := by
  induction rules generalizing before with
  | nil => rfl
  | cons rule rest ih =>
    have first := lowerRule_congr imports (agree rule List.mem_cons_self)
    have others := ih fun rule member => agree rule (List.mem_cons_of_mem _ member)
    rw [lowerRules,lowerRules,first]
    cases lowerRule ⟨imports,u⟩ rule (starts.contains rule.name) before with
    | mk result after =>
      dsimp only
      rw [others]

end Lowering

section Agreeing

variable {g : Grammar} {t u : TypeTable}

private theorem firstUntyped_congr {rules : List Rule} {first : Nat}
    (same : ∀ index < rules.length, t.rule (first + index) = u.rule (first + index)) :
    firstUntyped t first rules = firstUntyped u first rules := by
  induction rules generalizing first with
  | nil => rfl
  | cons rule rest ih =>
    have here : t.rule first = u.rule first := same 0 (Nat.succ_pos _)
    have later : firstUntyped t (first + 1) rest = firstUntyped u (first + 1) rest := by
      apply ih
      intro index inside
      rw [Nat.add_right_comm]
      exact same (index + 1) (Nat.succ_lt_succ inside)
    rw [firstUntyped,firstUntyped,here,later]

private theorem startEntries_congr (agree : TypeTable.Agree g t u) (entries : List Entry)
    (names : List String) : startEntries g t entries names = startEntries g u entries names := by
  induction names generalizing entries with
  | nil => rfl
  | cons name rest ih =>
    cases found : g.ruleIndex name with
    | none => simp only [startEntries,found]
    | some index =>
      have same := agree.rules index (Inference.ruleIndex_lt found)
      simp only [startEntries,found,same,ih]

private theorem parserClass_congr (agree : TypeTable.Agree g t u) (options : Options) :
    parserClass g t options = parserClass g u options := by
  have typed : firstUntyped t 0 g.rules = firstUntyped u 0 g.rules :=
    firstUntyped_congr (by simpa using agree.rules)
  have bodies (rule : Rule) (declared : rule ∈ g.rules) : TypeTable.AgreeOn rule.body.nodes t u :=
    agree.nodes.mono fun _ member => Grammar.body_mem_nodes declared member
  simp only [parserClass,typed,startEntries_congr agree,lowerRules_congr _ bodies]

theorem generate_congr (agree : TypeTable.Agree g t u) (options : Options) :
    generate g t options = generate g u options := by
  simp only [generate,generateStmts,parserClass_congr agree]

end Agreeing

/-! What is missing when generation finds no type. -/

private theorem visitsAlternatives_nodes {alternatives : List Expr} {base : Nat}
    {bound : List Labelled}
    (all : ∀ e ∈ alternatives, ∀ base bound, ∀ visit ∈ e.visits base bound, visit.node ∈ e.nodes) :
    ∀ visit ∈ Expr.visitsAlternatives base bound alternatives,
      visit.node ∈ Expr.nodesAll alternatives := by
  induction alternatives with
  | nil => exact fun visit member => nomatch member
  | cons e rest ih =>
    intro visit member
    rcases List.mem_append.mp member with here | later
    · exact List.mem_append_left _ (all e List.mem_cons_self base bound visit here)
    · exact List.mem_append_right _
        (ih (fun e inside => all e (List.mem_cons_of_mem _ inside)) visit later)

private theorem visitsElements_nodes {elements : List Expr} {base : Nat} {bound : List Labelled}
    (all : ∀ e ∈ elements, ∀ base bound, ∀ visit ∈ e.visits base bound, visit.node ∈ e.nodes) :
    ∀ visit ∈ Expr.visitsElements base bound elements, visit.node ∈ Expr.nodesAll elements := by
  induction elements generalizing base bound with
  | nil => exact fun visit member => nomatch member
  | cons e rest ih =>
    intro visit member
    rcases List.mem_append.mp member with here | later
    · exact List.mem_append_left _ (all e List.mem_cons_self base bound visit here)
    · exact List.mem_append_right _
        (ih (fun e inside => all e (List.mem_cons_of_mem _ inside)) visit later)

theorem Expr.visits_nodes (e : Expr) (base : Nat) (bound : List Labelled) :
    ∀ visit ∈ e.visits base bound, visit.node ∈ e.nodes := by
  induction e using Expr.induction generalizing base bound with
  | choice site alternatives ih =>
    simp only [visits,nodes,List.forall_mem_append,List.forall_mem_singleton]
    exact ⟨fun visit member => List.mem_cons_of_mem _ (visitsAlternatives_nodes ih visit member),
      List.mem_cons_self⟩
  | sequence site elements ih =>
    simp only [visits,nodes,List.forall_mem_append,List.forall_mem_singleton]
    exact ⟨fun visit member => List.mem_cons_of_mem _ (visitsElements_nodes ih visit member),
      List.mem_cons_self⟩
  | predicate | ruleRef | literal | charClass | any => simp [visits,nodes]
  | named | action | labeled | text | optional | repeated | lookahead =>
    rename_i ih
    simp only [visits,nodes,List.forall_mem_append,List.forall_mem_singleton]
    exact ⟨fun visit member => List.mem_cons_of_mem _ (ih _ _ visit member),List.mem_cons_self⟩

def Unanswered (table : TypeTable) (nodes : List Expr) (kind : String) (location : Location) : Prop :=
  ∃ node, Consulted nodes node ∧ table.expr node = none ∧ kind = node.kind.name ∧
    location = node.location

namespace Lowering

variable {cfg : Setting}

private def consulting (cfg : Setting) (nodes : List Expr) : Policy cfg where
  moves _ _ := True
  raises error := ∀ kind location, error = .untyped kind location →
    Unanswered cfg.types nodes kind location
  knows _ _ := True
  refl _ := trivial
  trans _ _ := trivial
  fault _ := nofun
  bind _ _ := trivial

private theorem consulting_permits {e : Expr} {visit : Visit} (member : visit ∈ e.visits 0 []) :
    (consulting cfg e.nodes).Permits visit := by
  have inside := e.visits_nodes 0 [] visit member
  have looks {node : Expr} (consulted : Consulted e.nodes node) :
      (consulting cfg e.nodes).Looks node.kind node.site := by
    rintro missing _ _ ⟨⟩
    exact ⟨node,consulted,missing,rfl,rfl⟩
  obtain ⟨node,base,bound⟩ := visit
  cases node with
  | action site act body => exact ⟨looks (.action inside),fun _ _ _ _ _ => trivial⟩
  | labeled site label body => exact looks (.labeled inside)
  | repeated site repetition body => exact ⟨fun _ _ _ _ _ => nofun,fun _ _ _ _ _ _ _ => nofun⟩
  | predicate site isNegative code ns => exact fun _ _ _ => trivial
  | charClass site parts inverted ignoreCase rawText => exact ⟨fun _ => trivial,fun _ => trivial⟩
  | named | literal => exact fun _ => trivial
  | _ => trivial

theorem lowerRule_untyped {rule : Rule} {isStart : Bool} {before : Registries} {kind : String}
    {location : Location}
    (failed : (lowerRule cfg rule isStart before).1 = .error (.untyped kind location)) :
    Unanswered cfg.types rule.body.nodes kind location :=
  ((consulting cfg rule.body.nodes).keeps_rule trivial (fun _ => consulting_permits) isStart before).2
    _ failed kind location rfl

end Lowering

theorem firstUntyped_none {table : TypeTable} {rules : List Rule} {first : Nat}
    (given : ∀ index < rules.length, (table.rule (first + index)).isSome) :
    firstUntyped table first rules = none := by
  induction rules generalizing first with
  | nil => rfl
  | cons rule rest ih =>
    have here := given 0 (by simp)
    have later : firstUntyped table (first + 1) rest = none := by
      apply ih
      intro index inside
      have there := given (index + 1) (by simpa using inside)
      rwa [Nat.add_comm index,← Nat.add_assoc] at there
    rw [firstUntyped,if_neg,later]
    simpa [Option.isSome_iff_ne_none] using here

theorem firstUntyped_some {table : TypeTable} {rules : List Rule} {first : Nat} {rule : Rule}
    (found : firstUntyped table first rules = some rule) :
    ∃ index, rules[index]? = some rule ∧ table.rule (first + index) = none := by
  induction rules generalizing first with
  | nil => exact nomatch found
  | cons other rest ih =>
    rw [firstUntyped] at found
    split at found
    next missing =>
      cases found
      exact ⟨0,rfl,Option.isNone_iff_eq_none.mp missing⟩
    next =>
      obtain ⟨index,place,missing⟩ := ih found
      exact ⟨index + 1,place,by rwa [Nat.add_right_comm] at missing⟩

theorem bind_eq_error {ε α β : Type} {x : Except ε α} {f : α → Except ε β} {error : ε} :
    x >>= f = .error error ↔ x = .error error ∨ ∃ a, x = .ok a ∧ f a = .error error := by
  cases x with
  | error e => simp [bind,Except.bind]
  | ok a => simp [bind,Except.bind]

/-- An error of lowering rules is that of lowering one of them. -/
theorem lowerRules_error {cfg : Setting} {starts : List String} {before : Registries}
    {rules : List Rule} {error : GenerateError}
    (failed : lowerRules cfg starts before rules = .error error) :
    ∃ rule ∈ rules, ∃ isStart before, (lowerRule cfg rule isStart before).1 = .error error := by
  induction rules generalizing before with
  | nil => cases failed
  | cons rule rest ih =>
    rw [lowerRules] at failed
    cases run : lowerRule cfg rule (starts.contains rule.name) before with
    | mk result middle =>
      rw [run] at failed
      simp only [bind_eq_error] at failed
      rcases failed with here | ⟨sub,-,later | ⟨others,-,done⟩⟩
      · exact ⟨rule,List.mem_cons_self,_,before,by rw [run]; exact here⟩
      · obtain ⟨other,inside,raised⟩ := ih later
        exact ⟨other,List.mem_cons_of_mem _ inside,raised⟩
      · cases done

private theorem startEntries_error {g : Grammar} {table : TypeTable} {entries : List Entry}
    {names : List String} {kind : String} {location : Location} :
    startEntries g table entries names ≠ .error (.untyped kind location) := by
  fun_induction startEntries g table entries names <;> simp_all

private theorem internalError_fault {α : Type} {x : Except Fault α} {kind : String}
    {location : Location} : internalError x ≠ .error (.untyped kind location) := by
  cases x <;> exact nofun

section Missing

variable {g : Grammar} {table : TypeTable} {options : Options} {kind : String} {location : Location}

def TypeTable.Misses (g : Grammar) (table : TypeTable) (kind : String) (location : Location) : Prop :=
  (∃ index rule, g.rules[index]? = some rule ∧ table.rule index = none ∧ kind = "rule" ∧
    location = rule.location) ∨ Unanswered table g.nodes kind location

private theorem parserClass_untyped
    (failed : parserClass g table options = .error (.untyped kind location)) :
    table.Misses g kind location := by
  unfold parserClass at failed
  cases typed : firstUntyped table 0 g.rules with
  | some rule =>
    rw [typed] at failed
    obtain ⟨index,place,missing⟩ := firstUntyped_some typed
    rw [Nat.zero_add] at missing
    cases failed
    exact .inl ⟨index,rule,place,missing,rfl,rfl⟩
  | none =>
    rw [typed] at failed
    dsimp only at failed
    split at failed
    · exact nomatch failed
    · simp only [bind_eq_error] at failed
      rcases failed with entries | ⟨_,-,fresh | ⟨_,-,lowering | ⟨_,-,done⟩⟩⟩
      · exact absurd entries startEntries_error
      · exact absurd fresh internalError_fault
      · obtain ⟨rule,declared,isStart,before,raised⟩ := lowerRules_error lowering
        obtain ⟨node,consulted,missing⟩ := lowerRule_untyped raised
        refine .inr ⟨node,consulted.mono ?_,missing⟩
        exact fun _ member => Grammar.body_mem_nodes declared member
      · exact nomatch done

theorem generate_untyped (failed : generate g table options = .error (.untyped kind location)) :
    table.Misses g kind location := by
  simp only [generate,generateStmts,bind_eq_error] at failed
  rcases failed with (laid | ⟨p,-,printed⟩) | ⟨stmts,-,done⟩
  · exact parserClass_untyped laid
  · exact absurd printed internalError_fault
  · exact nomatch done

end Missing

/-- Generation depends on the type table only where it must. Tables with the same types for the rules
that answer alike for every action and for every expression directly under a label give the same
source or the same error, however else they differ; and a type is missed only where a rule or one of
these nodes has none in the table, of which the error tells the kind and the place. -/
theorem generation_asks_only (g : Grammar) (options : Options) :
    (∀ t u, TypeTable.Agree g t u → generate g t options = generate g u options) ∧
    ∀ table kind location, generate g table options = .error (.untyped kind location) →
      table.Misses g kind location :=
  ⟨fun _ _ agree => generate_congr agree options,fun _ _ _ => generate_untyped⟩

def wordsGrammar : Grammar where
  rules := [
    { name := "words",
      body := .action ⟨0,{}⟩ { code := "return left;" } (.sequence ⟨1,{}⟩ [
        .labeled ⟨2,{}⟩ "left" (.ruleRef ⟨3,{}⟩ "word"),.ruleRef ⟨4,{}⟩ "word"]) },
    { name := "word",body := .text ⟨5,{}⟩ (.any ⟨6,{}⟩) }]

def wordsTable : TypeTable where
  nodes := [(0,.named "Words"),(3,.slice)]
  rules := [some (.named "Words"),some .slice]

/-- Types of the other nodes and of a third rule change nothing; without that of the first word,
generation stops there. -/
theorem wordsTable_suffices :
    (generate wordsGrammar wordsTable {}).toOption.isSome ∧
    generate wordsGrammar wordsTable {} = generate wordsGrammar
      { nodes := [(3,.slice),(1,.object),(0,.named "Words"),(6,.char)],
        rules := wordsTable.rules ++ [none],sweeps := 4 } {} ∧
    TypeTable.Misses wordsGrammar { wordsTable with nodes := [(0,.named "Words")] } "rule_ref" {} := by
  obtain ⟨same,missed⟩ := generation_asks_only wordsGrammar {}
  refine ⟨by decide +kernel,same _ _ ⟨by decide,?_⟩,missed _ _ _ (by decide +kernel)⟩
  intro node consulted
  cases consulted with
  | action member =>
    simp [wordsGrammar,Grammar.nodes,Expr.nodes,Expr.nodesAll] at member
    obtain ⟨rfl,-⟩ := member
    rfl
  | labeled member =>
    simp [wordsGrammar,Grammar.nodes,Expr.nodes,Expr.nodesAll] at member
    obtain ⟨-,-,rfl⟩ := member
    rfl

end PegCompiler
