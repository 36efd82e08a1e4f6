import PegCompiler.Proofs.Grammar.Flow
import PegCompiler.Proofs.Types.Fixpoint

/-! The typing equations of a grammar: every rule has the type that its body gets from the types
of the rules. They speak of rules by name, so neither the numbers of nodes nor the order of rules
matters to them. Where types do not flow in a cycle the equations have one solution at most, and
every fixpoint is that solution. -/
namespace PegCompiler

namespace Ty

theorem hasPhantom_union {types : List Ty} (clean : ∀ ty ∈ types, ty.hasPhantom = false) :
    (union types).hasPhantom = false := by
  have fold (rest : List Ty) : ∀ first : Ty, first.hasPhantom = false →
      (∀ ty ∈ rest, ty.hasPhantom = false) →
      (rest.foldl (fun acc t => if acc = t then acc else .object) first).hasPhantom = false := by
    induction rest with
    | nil => exact fun first here _ => here
    | cons ty rest ih =>
      intro first here others
      rw [List.foldl_cons]
      apply ih _ _ fun ty member => others ty (List.mem_cons_of_mem _ member)
      split
      · exact here
      · rfl
  cases types with
  | nil => rfl
  | cons first rest =>
    exact fold rest first (clean first List.mem_cons_self) fun ty member =>
      clean ty (List.mem_cons_of_mem _ member)

theorem hasPhantom_ofName (name : String) : (ofName name).hasPhantom = false := by
  unfold ofName
  dsimp only
  split_ifs <;> rfl

end Ty

theorem Action.hasPhantom_seedType {default : Option String} {act : Action} {ty : Ty}
    (decided : act.seedType default = some ty) : ty.hasPhantom = false := by
  unfold seedType at decided
  split at decided
  · cases decided
    exact Ty.hasPhantom_ofName _
  · cases decided
    exact Ty.hasPhantom_ofName _
  · exact nomatch decided

namespace Expr

mutual

def typeBy (default : Option String) (types : String → Ty) : Expr → Ty
  | .named _ _ body => body.typeBy default types
  | .choice _ alternatives => .union (typeByAll default types alternatives)
  | .action _ act _ => (act.seedType default).getD .object
  | .sequence _ elements => .tuple (typeByAll default types elements)
  | .labeled _ _ body => body.typeBy default types
  | .text .. => .slice
  | .optional _ body => .option (body.typeBy default types)
  | .repeated _ _ body => .list (body.typeBy default types)
  | .lookahead .. => .object
  | .predicate .. => .object
  | .ruleRef _ name => types name
  | .literal .. => .slice
  | .charClass .. => .char
  | .any _ => .char

def typeByAll (default : Option String) (types : String → Ty) : List Expr → List Ty
  | [] => []
  | e :: rest => e.typeBy default types :: typeByAll default types rest

end

variable {default : Option String} {types other : String → Ty}

theorem typeByAll_eq (es : List Expr) :
    typeByAll default types es = es.map (typeBy default types) := by
  induction es with
  | nil => rfl
  | cons e rest ih => rw [typeByAll,ih,List.map_cons]

/-- The type depends only on the rules that flow into the expression. -/
theorem typeBy_congr {e : Expr} (same : ∀ name ∈ e.flowRefs, types name = other name) :
    e.typeBy default types = e.typeBy default other := by
  have inside {es : List Expr} (same : ∀ name ∈ flowRefsAll es, types name = other name) {e : Expr}
      (member : e ∈ es) : ∀ name ∈ e.flowRefs, types name = other name :=
    fun name reference => same name (mem_flowRefsAll.mpr ⟨e,member,reference⟩)
  induction e using Expr.induction with
  | named site name body ih => exact ih same
  | choice site alternatives ih =>
    simp only [typeBy,typeByAll_eq]
    rw [List.map_congr_left fun e member => ih e member (inside same member)]
  | sequence site elements ih =>
    simp only [typeBy,typeByAll_eq]
    rw [List.map_congr_left fun e member => ih e member (inside same member)]
  | labeled site label body ih => exact ih same
  | optional site body ih => rw [typeBy,typeBy,ih same]
  | repeated site repetition body ih => rw [typeBy,typeBy,ih same]
  | ruleRef site name => exact same name List.mem_cons_self
  | action | text | lookahead | predicate | literal | charClass | any => rfl

private theorem typeByAll_number {es : List Expr}
    (all : ∀ e ∈ es, ∀ next, (e.number next).1.typeBy default types = e.typeBy default types)
    (next : Nat) : typeByAll default types (numberAll next es).1 = typeByAll default types es := by
  induction es generalizing next with
  | nil => rfl
  | cons e rest ih =>
    have others := ih (fun e member => all e (List.mem_cons_of_mem _ member)) (e.number next).2
    simp only [numberAll,typeByAll,all e List.mem_cons_self next,others]

@[simp] theorem typeBy_number (e : Expr) (next : Nat) :
    (e.number next).1.typeBy default types = e.typeBy default types := by
  induction e using Expr.induction generalizing next with
  | choice site alternatives ih => exact congrArg Ty.union (typeByAll_number ih (next + 1))
  | sequence site elements ih => exact congrArg Ty.tuple (typeByAll_number ih (next + 1))
  | optional site body ih => exact congrArg Ty.option (ih (next + 1))
  | repeated site repetition body ih => exact congrArg Ty.list (ih (next + 1))
  | named | labeled =>
    rename_i ih
    exact ih (next + 1)
  | action | text | lookahead | predicate | ruleRef | literal | charClass | any => rfl

private theorem actionsAll_number {es : List Expr}
    (all : ∀ e ∈ es, ∀ next, (e.number next).1.actions.map (·.2) = e.actions.map (·.2))
    (next : Nat) : (actionsAll (numberAll next es).1).map (·.2) = (actionsAll es).map (·.2) := by
  induction es generalizing next with
  | nil => rfl
  | cons e rest ih =>
    have others := ih (fun e member => all e (List.mem_cons_of_mem _ member)) (e.number next).2
    simp only [numberAll,actionsAll,List.map_append,all e List.mem_cons_self next,others]

@[simp] theorem actions_number (e : Expr) (next : Nat) :
    (e.number next).1.actions.map (·.2) = e.actions.map (·.2) := by
  induction e using Expr.induction generalizing next with
  | choice site alternatives ih => exact actionsAll_number ih (next + 1)
  | sequence site elements ih => exact actionsAll_number ih (next + 1)
  | action site act body ih => simp [number,actions,ih (next + 1)]
  | named | labeled | text | optional | repeated | lookahead =>
    rename_i ih
    exact ih (next + 1)
  | predicate | ruleRef | literal | charClass | any => rfl

theorem hasPhantom_typeBy {e : Expr}
    (clean : ∀ name ∈ e.flowRefs, (types name).hasPhantom = false) :
    (e.typeBy default types).hasPhantom = false := by
  have union {es : List Expr}
      (ih : ∀ e ∈ es, (∀ name ∈ e.flowRefs, (types name).hasPhantom = false) →
        (e.typeBy default types).hasPhantom = false)
      (clean : ∀ name ∈ flowRefsAll es, (types name).hasPhantom = false) :
      (Ty.union (typeByAll default types es)).hasPhantom = false := by
    apply Ty.hasPhantom_union
    rw [typeByAll_eq]
    intro ty member
    obtain ⟨e,inside,rfl⟩ := List.mem_map.mp member
    exact ih e inside fun name reference => clean name (mem_flowRefsAll.mpr ⟨e,inside,reference⟩)
  induction e using Expr.induction with
  | choice site alternatives ih => exact union ih clean
  | sequence site elements ih => exact union ih clean
  | action site act body ih =>
    rw [typeBy]
    cases decided : act.seedType default with
    | none => rfl
    | some ty => exact Action.hasPhantom_seedType decided
  | ruleRef site name => exact clean name List.mem_cons_self
  | named | labeled | optional | repeated =>
    rename_i ih
    exact ih clean
  | text | lookahead | predicate | literal | charClass | any => rfl

end Expr

namespace Grammar

def typeOf (g : Grammar) (slots : Nat → Option Ty) (name : String) : Ty :=
  match g.ruleIndex name with
  | some index => (slots index).getD .object
  | none => .object

def Seeded (g : Grammar) (default : Option String) : Prop :=
  ∀ rule ∈ g.rules, ∀ act ∈ rule.body.actions.map (·.2), (act.seedType default).isSome

structure Solves (g : Grammar) (default : Option String) (types : String → Ty) : Prop where
  rules : ∀ rule ∈ g.rules, types rule.name = rule.body.typeBy default types
  others : ∀ name, ¬g.Declares name → types name = .object

variable {g : Grammar} {default : Option String} {types other : String → Ty} {height : Nat}

/-- What holds of a rule when it holds of the rules that flow into it, holds of all rules. -/
theorem flow_induction (bounded : ∀ name, g.Shallow height name) {P : String → Prop}
    (others : ∀ name, ¬g.Declares name → P name)
    (step : ∀ rule ∈ g.rules, (∀ name ∈ rule.body.flowRefs, P name) → P rule.name) (name : String) :
    P name := by
  -- by the depth of flow; rules without sources have depth 0
  have all (depth : Nat) : ∀ name, g.Shallow depth name → P name := by
    induction depth with
    | zero =>
      intro name shallow
      by_cases declared : g.Declares name
      · obtain ⟨rule,inside,rfl⟩ := declared
        apply step rule inside
        intro source reference
        apply others
        exact fun known => shallow.noSource ⟨⟨rule,inside,rfl,reference⟩,known⟩
      · exact others name declared
    | succ depth ih =>
      intro name shallow
      by_cases declared : g.Declares name
      · obtain ⟨rule,inside,rfl⟩ := declared
        apply step rule inside
        intro source reference
        by_cases known : g.Declares source
        · exact ih source (shallow.source ⟨⟨rule,inside,rfl,reference⟩,known⟩)
        · exact others source known
      · exact others name declared
  exact all height name (bounded name)

theorem Solves.unique (bounded : ∀ name, g.Shallow height name) (first : g.Solves default types)
    (second : g.Solves default other) : types = other := by
  funext name
  induction name using flow_induction bounded with
  | others name undeclared => rw [first.others name undeclared,second.others name undeclared]
  | step rule declared ih =>
    rw [first.rules rule declared,second.rules rule declared,Expr.typeBy_congr ih]

theorem Solves.hasPhantom (bounded : ∀ name, g.Shallow height name)
    (solves : g.Solves default types) (name : String) : (types name).hasPhantom = false := by
  induction name using flow_induction bounded with
  | others name undeclared =>
    rw [solves.others name undeclared]
    rfl
  | step rule declared ih =>
    rw [solves.rules rule declared]
    exact Expr.hasPhantom_typeBy ih

theorem ruleIndex_rule (distinct : (g.rules.map (·.name)).Nodup) {index : Nat} {rule : Rule}
    (declared : g.rules[index]? = some rule) : g.ruleIndex rule.name = some index := by
  obtain ⟨inside,rfl⟩ := List.getElem?_eq_some_iff.mp declared
  refine List.findIdx?_eq_some_iff_getElem.mpr ⟨inside,by simp,?_⟩
  intro earlier before same
  have names : (g.rules.map (·.name))[earlier]? = (g.rules.map (·.name))[index]? := by
    simpa [inside,Nat.lt_trans before inside] using same
  have place := (List.nodup_iff_getElem?_ne_getElem?.mp distinct) earlier index before (by simpa)
  exact place names

theorem ruleIndex_some {name : String} {index : Nat} (found : g.ruleIndex name = some index) :
    ∃ rule, g.rules[index]? = some rule ∧ rule.name = name := by
  obtain ⟨inside,named,-⟩ := List.findIdx?_eq_some_iff_getElem.mp found
  exact ⟨_,List.getElem?_eq_getElem inside,by simpa using named⟩

theorem ruleIndex_none {name : String} : g.ruleIndex name = none ↔ ¬g.Declares name := by
  simp [ruleIndex,List.findIdx?_eq_none_iff,Declares]

end Grammar

namespace TypeTable

variable {g : Grammar} {default : Option String} {table : TypeTable}

/-- The nodes of a fixpoint have the types that come of the types of its rules. -/
theorem IsFixpoint.expr_eq (fixpoint : table.IsFixpoint g default) {e : Expr}
    (member : e ∈ g.nodes) : table.expr e = some (e.typeBy default (g.typeOf table.rule)) := by
  induction e using Expr.children_induction with
  | parts e ih =>
    have parts (child : Expr) (part : child ∈ e.children) :
        table.expr child = some (child.typeBy default (g.typeOf table.rule)) :=
      ih child part (Grammar.child_mem_nodes member part)
    obtain ⟨ty,found,explained⟩ := fixpoint.nodes e member
    rw [found,← explained]
    cases e with
    | named site name body => exact parts body List.mem_cons_self
    | choice site alternatives =>
      have types : alternatives.mapM table.expr = _ := mapM_expr parts
      rw [localType,types,Expr.typeBy,Expr.typeByAll_eq]
      rfl
    | action site act body =>
      have decided : act.seedType default = some ty := explained
      rw [localType,Expr.typeBy,decided]
      rfl
    | sequence site elements =>
      have types : elements.mapM table.expr = _ := mapM_expr parts
      rw [localType,types,Expr.typeBy,Expr.typeByAll_eq]
      rfl
    | labeled site label body => exact parts body List.mem_cons_self
    | optional site body =>
      rw [localType,parts body List.mem_cons_self]
      rfl
    | repeated site repetition body =>
      rw [localType,parts body List.mem_cons_self]
      rfl
    | ruleRef site name =>
      rw [localType] at explained ⊢
      rw [Expr.typeBy,Grammar.typeOf]
      cases place : g.ruleIndex name with
      | none => rfl
      | some index =>
        rw [place] at explained
        have given : table.rule index = some ty := explained
        simp only [given,Option.getD_some]
    | text | lookahead | predicate | literal | charClass | any => rfl

theorem IsFixpoint.rule_eq (distinct : (g.rules.map (·.name)).Nodup)
    (fixpoint : table.IsFixpoint g default) {index : Nat} {rule : Rule}
    (declared : g.rules[index]? = some rule) :
    table.rule index = some (g.typeOf table.rule rule.name) := by
  obtain ⟨ty,given,-⟩ := fixpoint.rules index rule declared
  rw [Grammar.typeOf,Grammar.ruleIndex_rule distinct declared]
  simp only [given,Option.getD_some]

theorem IsFixpoint.solves (distinct : (g.rules.map (·.name)).Nodup)
    (fixpoint : table.IsFixpoint g default) : g.Solves default (g.typeOf table.rule) where
  rules rule member := by
    obtain ⟨index,declared⟩ := List.mem_iff_getElem?.mp member
    obtain ⟨ty,given,body⟩ := fixpoint.rules index rule declared
    have node := fixpoint.expr_eq (Grammar.rule_mem_nodes declared)
    apply Option.some.inj
    rw [← fixpoint.rule_eq distinct declared,← node,given,body]
  others name undeclared := by
    rw [Grammar.typeOf,Grammar.ruleIndex_none.mpr undeclared]

end TypeTable

def Inference.ActionsTyped (g : Grammar) (default : Option String) (seeds : List (Nat × Ty)) : Prop :=
  ∀ site act body, Expr.action site act body ∈ g.nodes → ∃ ty,
    act.seedType default = some ty ∧ seeds.lookup site.id = some ty

theorem Inference.typed_eq {g : Grammar} {default : Option String} {seeds : List (Nat × Ty)}
    (actions : ActionsTyped g default seeds) (slots : Nat → Option Ty) {e : Expr}
    (member : e ∈ g.nodes) :
    typed g seeds slots e = e.typeBy default (g.typeOf slots) := by
  have inside {e child : Expr} (member : e ∈ g.nodes) (part : child ∈ e.children) :=
    Grammar.child_mem_nodes member part
  induction e using Expr.induction with
  | choice site alternatives ih =>
    simp only [typed,typedAll_eq,Expr.typeBy,Expr.typeByAll_eq]
    rw [List.map_congr_left fun e part => ih e part (inside member part)]
  | action site act body ih =>
    obtain ⟨ty,given,found⟩ := actions site act body member
    rw [typed,Expr.typeBy,given,found]
  | sequence site elements ih =>
    simp only [typed,typedAll_eq,Expr.typeBy,Expr.typeByAll_eq]
    rw [List.map_congr_left fun e part => ih e part (inside member part)]
  | named | labeled | optional | repeated =>
    rename_i ih
    rw [typed,Expr.typeBy,ih (inside member List.mem_cons_self)]
  | text | lookahead | predicate | ruleRef | literal | charClass | any => rfl

namespace Grammar

section Rearranging

variable {g g' : Grammar} {default : Option String} {types : String → Ty}

/-- Numbering and the order of rules do not matter to what is said of some rule. -/
theorem exists_numbered (perm : g'.rules.Perm g.rules) {P : Rule → Prop}
    (same : ∀ rule next, P { rule with body := (rule.body.number next).1 } ↔ P rule) :
    (∃ rule ∈ g'.numbered.rules, P rule) ↔ ∃ rule ∈ g.rules, P rule := by
  have numbered (rules : List Rule) (next : Nat) :
      (∃ rule ∈ numberRules next rules, P rule) ↔ ∃ rule ∈ rules, P rule := by
    induction rules generalizing next with
    | nil => exact Iff.rfl
    | cons rule rest ih => simp [numberRules,same,ih]
  calc (∃ rule ∈ g'.numbered.rules, P rule) ↔ ∃ rule ∈ g'.rules, P rule := numbered g'.rules 0
    _ ↔ ∃ rule ∈ g.rules, P rule := by simp only [perm.mem_iff]

theorem forall_numbered (perm : g'.rules.Perm g.rules) {P : Rule → Prop}
    (same : ∀ rule next, P { rule with body := (rule.body.number next).1 } ↔ P rule) :
    (∀ rule ∈ g'.numbered.rules, P rule) ↔ ∀ rule ∈ g.rules, P rule := by
  have negated := exists_numbered perm (P := fun rule => ¬P rule) fun rule next =>
    not_congr (same rule next)
  simpa using not_congr negated

theorem numbered_names (g : Grammar) :
    g.numbered.rules.map (·.name) = g.rules.map (·.name) := by
  have numbered (rules : List Rule) (next : Nat) :
      (numberRules next rules).map (·.name) = rules.map (·.name) := by
    induction rules generalizing next with
    | nil => rfl
    | cons rule rest ih => simp [numberRules,ih]
  exact numbered g.rules 0

theorem declares_numbered (perm : g'.rules.Perm g.rules) {name : String} :
    g'.numbered.Declares name ↔ g.Declares name :=
  exists_numbered perm fun _ _ => Iff.rfl

theorem flowsTo_numbered (perm : g'.rules.Perm g.rules) {a b : String} :
    g'.numbered.FlowsTo a b ↔ g.FlowsTo a b :=
  and_congr (exists_numbered perm fun rule next => by simp) (declares_numbered perm)

theorem Shallow.numbered (perm : g'.rules.Perm g.rules) {depth : Nat} {name : String}
    (shallow : g.Shallow depth name) : g'.numbered.Shallow depth name := by
  have path {name : String} {edges : Nat} (path : g'.numbered.FlowPath name edges) :
      g.FlowPath name edges := by
    induction path with
    | stop declared => exact .stop ((declares_numbered perm).mp declared)
    | step flows path ih => exact .step ((flowsTo_numbered perm).mp flows) ih
  exact fun edges numbered => shallow edges (path numbered)

theorem solves_numbered (perm : g'.rules.Perm g.rules) :
    g'.numbered.Solves default types ↔ g.Solves default types := by
  have rules := forall_numbered perm
    (P := fun rule => types rule.name = rule.body.typeBy default types) fun rule next => by simp
  have others : (∀ name, ¬g'.numbered.Declares name → types name = .object) ↔
      ∀ name, ¬g.Declares name → types name = .object := by
    simp only [declares_numbered perm]
  exact ⟨fun solves => ⟨rules.mp solves.rules,others.mp solves.others⟩,
    fun solves => ⟨rules.mpr solves.rules,others.mpr solves.others⟩⟩

theorem Seeded.numbered (perm : g'.rules.Perm g.rules) (seeded : g.Seeded default) :
    g'.numbered.Seeded default := by
  refine (forall_numbered perm fun rule next => ?_).mpr seeded
  rw [Expr.actions_number]

end Rearranging

end Grammar

end PegCompiler
