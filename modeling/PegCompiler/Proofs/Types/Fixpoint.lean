import PegCompiler.Proofs.Types.Inference

/-! Inference ends in a fixpoint. Each sweep types every node anew, so what it records is a
fixpoint as soon as it notes no change; the first pass types every node too, and needs no sweep if
it notes none. The run of sweeps stops at such a pass or reports that the types diverge. -/
namespace PegCompiler

namespace Action

def seedType (default : Option String) (act : Action) : Option Ty :=
  match act.decide default with
  | .declared name => some (.ofName name)
  | .default name => some (.ofName name)
  | .missing => none

end Action

namespace TypeTable

def localType (table : TypeTable) (g : Grammar) (default : Option String) : Expr → Option Ty
  | .named _ _ body => table.expr body
  | .choice _ alternatives => (alternatives.mapM table.expr).map .union
  | .action _ act _ => act.seedType default
  | .sequence _ elements => (elements.mapM table.expr).map fun types => .list (.union types)
  | .labeled _ _ body => table.expr body
  | .text .. => some .slice
  | .optional _ body => (table.expr body).map .option
  | .repeated _ _ body => (table.expr body).map .list
  | .lookahead .. => some .object
  | .predicate .. => some .object
  | .ruleRef _ name =>
    match g.ruleIndex name with
    | some index => table.rule index
    | none => some .object
  | .literal .. => some .slice
  | .charClass .. => some .char
  | .any _ => some .char

structure IsFixpoint (table : TypeTable) (g : Grammar) (default : Option String) : Prop where
  complete : table.isComplete g.rules.length
  rules : ∀ index rule, g.rules[index]? = some rule →
    ∃ ty, table.rule index = some ty ∧ table.expr rule.body = some ty
  nodes : ∀ e ∈ g.nodes, ∃ ty, table.expr e = some ty ∧ table.localType g default e = some ty

theorem mapM_expr {table : TypeTable} {type : Expr → Ty} {es : List Expr}
    (all : ∀ e ∈ es, table.expr e = some (type e)) : es.mapM table.expr = some (es.map type) := by
  induction es with
  | nil => rfl
  | cons e rest ih =>
    have first := all e List.mem_cons_self
    have others := ih fun e member => all e (List.mem_cons_of_mem _ member)
    rw [List.mapM_cons,first,others]
    rfl

end TypeTable

theorem lookup_eq {entries : List (Nat × Ty)} {key : Nat} {ty : Ty}
    (present : key ∈ entries.map (·.1)) (same : ∀ entry ∈ entries, entry.1 = key → entry.2 = ty) :
    entries.lookup key = some ty := by
  induction entries with
  | nil => simp at present
  | cons entry rest ih =>
    rw [List.lookup_cons]
    by_cases here : key = entry.1
    · rw [beq_iff_eq.mpr here,same entry List.mem_cons_self here.symm]
    · have below : key ∈ rest.map (·.1) := by simpa [here] using present
      rw [beq_eq_false_iff_ne.mpr here]
      exact ih below fun entry member => same entry (List.mem_cons_of_mem _ member)

namespace Inference

variable {g : Grammar} {s t : Inference}

section Seeding

variable {default : Option String}

def seedEntry (default : Option String) (entry : Site × Action) : Option (Nat × Ty) :=
  (entry.2.seedType default).map (entry.1.id,·)

structure Seeds (default : Option String) (entries : List (Site × Action))
    (s t : Inference) : Prop where
  seeded : t.seeded = s.seeded ++ entries.filterMap (seedEntry default)
  slots : t.slots = s.slots
  changed : t.changed = s.changed
  errors : t.errors = s.errors ++ (entries.filter fun entry =>
    (entry.2.seedType default).isNone).map fun entry => .missingReturnType entry.1.location

private theorem seed_seeds (s : Inference) (entry : Site × Action) :
    Seeds default [entry] s (seed default s entry) := by
  cases decision : entry.2.decide default with
  | declared name => constructor <;> simp [seed,seedEntry,Action.seedType,decision]
  | default name => constructor <;> simp [seed,seedEntry,Action.seedType,decision]
  | missing => constructor <;> simp [seed,seedEntry,Action.seedType,decision,report]

private theorem seeds_fold (entries : List (Site × Action)) (s : Inference) :
    Seeds default entries s (entries.foldl (seed default) s) := by
  induction entries generalizing s with
  | nil => constructor <;> simp
  | cons entry rest ih =>
    have first : Seeds default [entry] s (seed default s entry) := seed_seeds s entry
    have others := ih (seed default s entry)
    rw [List.foldl_cons]
    constructor
    · rw [others.seeded,first.seeded,List.append_assoc,← List.filterMap_append]
      rfl
    · rw [others.slots,first.slots]
    · rw [others.changed,first.changed]
    · rw [others.errors,first.errors,List.append_assoc,← List.map_append,← List.filter_append]
      rfl

private theorem mem_actionsAll {es : List Expr} {site : Site} {act : Action}
    (all : ∀ e ∈ es, ((site,act) ∈ e.actions ↔ ∃ body, Expr.action site act body ∈ e.nodes)) :
    (site,act) ∈ Expr.actionsAll es ↔ ∃ body, Expr.action site act body ∈ Expr.nodesAll es := by
  induction es with
  | nil => simp [Expr.actionsAll,Expr.nodesAll]
  | cons e rest ih =>
    have first := all e List.mem_cons_self
    have others := ih fun e member => all e (List.mem_cons_of_mem _ member)
    simp only [Expr.actionsAll,Expr.nodesAll,List.mem_append,first,others]
    exact exists_or.symm

private theorem mem_actions {e : Expr} {site : Site} {act : Action} :
    (site,act) ∈ e.actions ↔ ∃ body, Expr.action site act body ∈ e.nodes := by
  induction e using Expr.induction with
  | choice _ alternatives ih => simpa [Expr.actions,Expr.nodes] using mem_actionsAll ih
  | sequence _ elements ih => simpa [Expr.actions,Expr.nodes] using mem_actionsAll ih
  | action here this body ih =>
    simp only [Expr.actions,Expr.nodes,List.mem_append,List.mem_cons,ih]
    constructor
    · rintro (⟨inner,below⟩ | last)
      · exact ⟨inner,.inr below⟩
      · obtain ⟨rfl,rfl⟩ : site = here ∧ act = this := by simpa using last
        exact ⟨body,.inl rfl⟩
    · rintro ⟨inner,root | below⟩
      · simp only [Expr.action.injEq] at root
        exact .inr (by simp [root])
      · exact .inl ⟨inner,below⟩
  | _ => simp_all [Expr.actions,Expr.nodes]

def start (g : Grammar) (log : Diagnostics) : Inference :=
  { slots := g.rules.map fun _ => none, log }

theorem seedAll_seeds (g : Grammar) (default : Option String) (log : Diagnostics) :
    Seeds default (g.rules.flatMap fun rule => rule.body.actions) (start g log)
      ((start g log).seedAll default g) :=
  seeds_fold _ _

theorem seedAll_slot (g : Grammar) (default : Option String) (log : Diagnostics)
    (index : Nat) : ((start g log).seedAll default g).slot index = none := by
  rw [slot,(seedAll_seeds g default log).slots]
  simp only [start,List.map_const']
  rw [List.getElem?_replicate]
  split <;> rfl

theorem seedAll_errors {log : Diagnostics} {error : TypeError}
    (member : error ∈ ((start g log).seedAll default g).errors) :
    ∃ location, error = .missingReturnType location := by
  rw [(seedAll_seeds g default log).errors] at member
  obtain ⟨entry,-,rfl⟩ := List.mem_map.mp member
  exact ⟨entry.1.location,rfl⟩

theorem mem_grammar_actions {site : Site} {act : Action} :
    (site,act) ∈ (g.rules.flatMap fun rule => rule.body.actions) ↔
      ∃ body, Expr.action site act body ∈ g.nodes := by
  simp only [List.mem_flatMap,mem_actions,Grammar.nodes]
  exact ⟨fun ⟨rule,declared,body,inside⟩ => ⟨body,rule,declared,inside⟩,
    fun ⟨body,rule,declared,inside⟩ => ⟨rule,declared,body,inside⟩⟩

/-- Seeding without an error gives every action its type. -/
theorem seedAll_lookup (distinct : g.DistinctIds) {log : Diagnostics}
    (clean : ((start g log).seedAll default g).errors = []) {site : Site} {act : Action}
    {body : Expr} (member : Expr.action site act body ∈ g.nodes) : ∃ ty,
      act.seedType default = some ty ∧
      ((start g log).seedAll default g).seeded.lookup site.id = some ty := by
  have seeds := seedAll_seeds g default log
  have here := mem_grammar_actions.mpr ⟨body,member⟩
  have given : act.seedType default ≠ none := by
    intro missing
    have none := seeds.errors.symm.trans clean
    simp only [start,List.nil_append,List.map_eq_nil_iff,List.filter_eq_nil_iff] at none
    exact none (site,act) here (by simp [missing])
  obtain ⟨ty,decided⟩ := Option.ne_none_iff_exists'.mp given
  refine ⟨ty,decided,?_⟩
  rw [seeds.seeded]
  change List.lookup site.id (List.filterMap (seedEntry default) _) = some ty
  apply lookup_eq
  · apply List.mem_map.mpr
    refine ⟨(site.id,ty),?_,rfl⟩
    exact List.mem_filterMap.mpr ⟨(site,act),here,by simp [seedEntry,decided]⟩
  · intro entry inside same
    obtain ⟨⟨other,act'⟩,there,left⟩ := List.mem_filterMap.mp inside
    obtain ⟨body',member'⟩ := mem_grammar_actions.mp there
    obtain ⟨ty',decided',rfl⟩ := Option.map_eq_some_iff.mp left
    have node := distinct _ member' _ member same
    simp only [Expr.action.injEq] at node
    rw [node.2.1,decided] at decided'
    exact (Option.some.inj decided').symm

end Seeding

section Sweeps

structure Fixed (g : Grammar) (s : Inference) : Prop where
  rules : ∀ index rule, g.rules[index]? = some rule →
    s.slot index = some (typed g s.seeded s.slot rule.body)
  nodes : ∀ e ∈ g.nodes, s.nodes.lookup e.id = some (typed g s.seeded s.slot e)

structure Stage (g : Grammar) (s : Inference) : Prop where
  length : s.slots.length = g.rules.length
  given : ∀ index < g.rules.length, (s.slot index).isSome
  fixed : s.changed = [] → Fixed g s

theorem ready_of_length {s : Inference} (length : s.slots.length = g.rules.length) :
    Ready g g.rules.length s := by
  refine ⟨length,?_⟩
  calc (s.pending g).card ≤ (Finset.range g.rules.length).card :=
        Finset.card_le_card (Finset.filter_subset _ _)
    _ = g.rules.length := Finset.card_range _

theorem rule_inside {index : Nat} {rule : Rule} (declared : g.rules[index]? = some rule) :
    index < g.rules.length := by
  obtain ⟨inside,-⟩ := List.getElem?_eq_some_iff.mp declared
  exact inside

private theorem mem_rule_nodes {e : Expr} (member : e ∈ g.nodes) :
    ∃ (index : Nat) (rule : Rule), g.rules[index]? = some rule ∧ e ∈ rule.body.nodes := by
  obtain ⟨rule,declared,part⟩ := List.mem_flatMap.mp member
  obtain ⟨index,place⟩ := List.mem_iff_getElem?.mp declared
  exact ⟨index,rule,place,part⟩

/-- A quiet pass over all nodes that types every rule leaves a fixpoint. -/
private theorem fixed_of_quiet (distinct : g.DistinctIds) (advance : Advance g s t g.nodes)
    (quiet : t.changed = s.changed) (rules : ∀ index rule, g.rules[index]? = some rule →
      t.slot index = some (typed g s.seeded t.slot rule.body)) : Fixed g t := by
  refine ⟨fun index rule declared => advance.seeded ▸ rules index rule declared,?_⟩
  intro e member
  obtain ⟨new,log,covers,-,right⟩ := advance.logged
  have found : new.lookup e.id = some (typed g s.seeded t.slot e) := by
    apply lookup_eq (covers e member)
    intro entry inside same
    obtain ⟨node,nodeMember,id,type⟩ := right quiet t.slot (fun _ _ found => found) entry inside
    rw [type,distinct node nodeMember e member (id.trans same)]
  rw [log,List.lookup_append,found,advance.seeded]
  rfl

private theorem resolve_fold {indices : List Nat}
    (inside : ∀ index ∈ indices, index < g.rules.length) (ready : Ready g g.rules.length s)
    {t : Inference}
    (result : indices.foldl (fun s index => (ruleType g g.rules.length index s).2) s = t) :
    Advance g s t [] ∧ ∀ index ∈ indices, (t.slot index).isSome := by
  induction indices generalizing s with
  | nil =>
    subst result
    exact ⟨.refl g s,by simp⟩
  | cons index rest ih =>
    obtain ⟨advance,slot⟩ := ruleType_resolves g _ index (inside index List.mem_cons_self) s ready
    obtain ⟨others,given⟩ := ih (fun i member => inside i (List.mem_cons_of_mem _ member))
      (ready.advance advance) result
    refine ⟨advance.trans others,?_⟩
    intro i member
    rcases List.mem_cons.mp member with rfl | later
    · exact others.some_kept i (by simp [slot])
    · exact given i later

theorem resolveAll_given (length : s.slots.length = g.rules.length) {index : Nat}
    (inside : index < g.rules.length) : ((s.resolveAll g).slot index).isSome := by
  obtain ⟨-,given⟩ := resolve_fold (fun _ member => List.mem_range.mp member)
    (ready_of_length length) (rfl : _ = s.resolveAll g)
  exact given index (List.mem_range.mpr inside)

/-- The first pass types every node. -/
theorem resolveAll_advance (length : s.slots.length = g.rules.length)
    (empty : ∀ index, s.slot index = none) : Advance g s (s.resolveAll g) g.nodes := by
  obtain ⟨advance,given⟩ := resolve_fold (fun _ member => List.mem_range.mp member)
    (ready_of_length length) (rfl : _ = s.resolveAll g)
  apply advance.covering
  intro e member
  -- no rule had a type before, so each got one on the way and all its nodes were typed
  obtain ⟨index,rule,declared,part⟩ := mem_rule_nodes member
  have filled : Filled s (s.resolveAll g) index :=
    ⟨empty index,given index (List.mem_range.mpr (rule_inside declared))⟩
  exact .inr ⟨index,rule,declared,filled,part⟩

/-- The first pass gives every rule its type. -/
theorem resolveAll_stage (distinct : g.DistinctIds) (length : s.slots.length = g.rules.length)
    (empty : ∀ index, s.slot index = none) (fresh : s.changed = []) :
    Stage g (s.resolveAll g) ∧ (s.resolveAll g).seeded = s.seeded := by
  have whole := resolveAll_advance length empty
  refine ⟨⟨whole.length.trans length,fun index inside => resolveAll_given length inside,?_⟩,
    whole.seeded⟩
  intro quiet
  have same := quiet.trans fresh.symm
  apply fixed_of_quiet distinct whole same
  intro index rule declared
  exact whole.filled same _ (fun _ _ found => found) index rule declared
    ⟨empty index,resolveAll_given length (rule_inside declared)⟩

private theorem sweep_fold {indices : List Nat} (inside : ∀ index ∈ indices, index < g.rules.length)
    (given : ∀ index < g.rules.length, (s.slot index).isSome)
    (ready : Ready g g.rules.length s) {t : Inference}
    (result : indices.foldl
      (fun s index => (inferRule g (ruleType g g.rules.length) index s).2) s = t) :
    ∃ covered, Advance g s t covered ∧ ∀ index ∈ indices, ∀ rule, g.rules[index]? = some rule →
      (∀ e ∈ rule.body.nodes, e ∈ covered) ∧ (t.changed = s.changed → ∀ slots, Agrees slots t →
        slots index = some (typed g s.seeded slots rule.body)) := by
  induction indices generalizing s with
  | nil =>
    subst result
    exact ⟨[],.refl g s,by simp⟩
  | cons index rest ih =>
    have place := inside index List.mem_cons_self
    obtain ⟨body,slot⟩ := inferRule_typed (ruleType_resolves g _)
      (List.getElem?_eq_getElem place) (given index place) ready
    obtain ⟨covered,others,typedRest⟩ := ih
      (fun i member => inside i (List.mem_cons_of_mem _ member))
      (fun i small => body.advance.some_kept i (given i small)) (ready.advance body.advance) result
    refine ⟨_,body.advance.trans others,?_⟩
    intro i member rule declared
    rcases List.mem_cons.mp member with rfl | later
    · obtain rfl : g.rules[i] = rule :=
        Option.some.inj ((List.getElem?_eq_getElem place).symm.trans declared)
      refine ⟨fun e part => List.mem_append_left _ part,?_⟩
      intro same slots final
      obtain ⟨early,late⟩ := body.advance.quiet others same
      have middle := others.agrees late final
      rw [middle i _ slot,body.type early slots middle]
    · obtain ⟨covers,types⟩ := typedRest i later rule declared
      refine ⟨fun e part => List.mem_append_right _ (covers e part),?_⟩
      intro same slots final
      obtain ⟨early,late⟩ := body.advance.quiet others same
      have type := types late slots final
      rwa [body.advance.seeded] at type

/-- A sweep types every node; where it notes no change, every rule has the type of its body. -/
theorem sweep_advance (length : s.slots.length = g.rules.length)
    (given : ∀ index < g.rules.length, (s.slot index).isSome) :
    Advance g { s with changed := [] } (s.sweep g) g.nodes ∧
      ((s.sweep g).changed = [] → ∀ index rule, g.rules[index]? = some rule →
        (s.sweep g).slot index = some (typed g s.seeded (s.sweep g).slot rule.body)) := by
  let quiet : Inference := { s with changed := [] }
  obtain ⟨covered,advance,typedRules⟩ := sweep_fold (s := quiet)
    (fun _ member => List.mem_range.mp member) given (ready_of_length length)
    (rfl : _ = s.sweep g)
  have place {index : Nat} {rule : Rule} (declared : g.rules[index]? = some rule) :=
    List.mem_range.mpr (rule_inside declared)
  constructor
  · apply advance.covering
    intro e member
    obtain ⟨index,rule,declared,part⟩ := mem_rule_nodes member
    exact .inl ((typedRules index (place declared) rule declared).1 e part)
  · intro same index rule declared
    exact (typedRules index (place declared) rule declared).2 same _ fun _ _ found => found

theorem Stage.sweep (distinct : g.DistinctIds) (stage : Stage g s) :
    Stage g (s.sweep g) ∧ (s.sweep g).seeded = s.seeded := by
  obtain ⟨whole,rules⟩ := sweep_advance stage.length stage.given
  refine ⟨⟨whole.length.trans stage.length,
    fun index inside => whole.some_kept index (stage.given index inside),?_⟩,whole.seeded⟩
  intro same
  exact fixed_of_quiet distinct whole same (rules same)

/-- A run of sweeps that does not report divergence ends in a fixpoint. -/
theorem Stage.settle (distinct : g.DistinctIds) {left sweeps : Nat} (stage : Stage g s)
    (stable : ∀ count names, .diverged count names ∉ (s.settle g left sweeps).1.errors) :
    Stage g (s.settle g left sweeps).1 ∧ Fixed g (s.settle g left sweeps).1 ∧
      (s.settle g left sweeps).1.seeded = s.seeded := by
  induction left generalizing s sweeps with
  | zero =>
    unfold Inference.settle at stable ⊢
    split
    next quiet => exact ⟨stage,stage.fixed (List.isEmpty_iff.mp quiet),rfl⟩
    next moving =>
      -- no sweep is left, and the error that says so is excluded
      exfalso
      rw [if_neg moving] at stable
      apply stable sweeps ((s.sweep g).changedNames g)
      simp [report]
  | succ left ih =>
    unfold Inference.settle at stable ⊢
    split
    next quiet => exact ⟨stage,stage.fixed (List.isEmpty_iff.mp quiet),rfl⟩
    next moving =>
      rw [if_neg moving] at stable
      obtain ⟨next,seeded⟩ := stage.sweep distinct
      obtain ⟨last,fixed,same⟩ := ih next stable
      exact ⟨last,fixed,same.trans seeded⟩

end Sweeps

private theorem Fixed.localType_eq (fixed : Fixed g s) {default : Option String} {sweeps : Nat}
    (seeds : ∀ site act body, Expr.action site act body ∈ g.nodes → ∃ ty,
      act.seedType default = some ty ∧ s.seeded.lookup site.id = some ty)
    {e : Expr} (member : e ∈ g.nodes) :
    (s.finish sweeps).table.localType g default e = some (typed g s.seeded s.slot e) := by
  have parts (child : Expr) (part : child ∈ e.children) :
      (s.finish sweeps).table.expr child = some (typed g s.seeded s.slot child) :=
    fixed.nodes child (Grammar.child_mem_nodes member part)
  cases e with
  | named site name body => exact parts body List.mem_cons_self
  | choice site alternatives =>
    have types : alternatives.mapM (s.finish sweeps).table.expr = _ := TypeTable.mapM_expr parts
    rw [TypeTable.localType,types,typed,typedAll_eq]
    rfl
  | action site act body =>
    obtain ⟨ty,decided,found⟩ := seeds site act body member
    rw [TypeTable.localType,typed,decided,found]
    rfl
  | sequence site elements =>
    have types : elements.mapM (s.finish sweeps).table.expr = _ := TypeTable.mapM_expr parts
    rw [TypeTable.localType,types,typed,typedAll_eq]
    rfl
  | labeled site label body => exact parts body List.mem_cons_self
  | optional site body =>
    rw [TypeTable.localType,parts body List.mem_cons_self]
    rfl
  | repeated site repetition body =>
    rw [TypeTable.localType,parts body List.mem_cons_self]
    rfl
  | ruleRef site name =>
    rw [TypeTable.localType,typed]
    cases found : g.ruleIndex name with
    | none => rfl
    | some index =>
      have rule := fixed.rules index _ (List.getElem?_eq_getElem (ruleIndex_lt found))
      change s.slot index = some ((s.slot index).getD .object)
      rw [rule]
      rfl
  | text | lookahead | predicate | literal | charClass | any => rfl

private theorem Stage.isFixpoint (stage : Stage g s) (fixed : Fixed g s) {default : Option String}
    (seeds : ∀ site act body, Expr.action site act body ∈ g.nodes → ∃ ty,
      act.seedType default = some ty ∧ s.seeded.lookup site.id = some ty) (sweeps : Nat) :
    (s.finish sweeps).table.IsFixpoint g default := by
  refine ⟨?_,?_,?_⟩
  · change (s.slots.length == g.rules.length && s.slots.all (·.isSome)) = true
    simp only [stage.length,beq_self_eq_true,Bool.true_and,List.all_eq_true]
    intro slot member
    obtain ⟨index,inside,rfl⟩ := List.getElem_of_mem member
    have given := stage.given index (stage.length ▸ inside)
    simpa [slot,inside] using given
  · intro index rule declared
    have body := Grammar.body_mem_nodes (List.mem_of_getElem? declared) rule.body.mem_nodes_self
    exact ⟨_,fixed.rules index rule declared,fixed.nodes rule.body body⟩
  · intro e member
    exact ⟨_,fixed.nodes e member,fixed.localType_eq seeds member⟩

end Inference

/-- Checking ends in a fixpoint, unless it reports a missing type or that types diverge. -/
theorem check_isFixpoint {g : Grammar} (distinct : g.DistinctIds) {default : Option String}
    {log : Diagnostics}
    (decided : ∀ location, .missingReturnType location ∉ (check g default log).errors)
    (stable : ∀ sweeps names, .diverged sweeps names ∉ (check g default log).errors) :
    (check g default log).table.IsFixpoint g default := by
  have seeds := Inference.seedAll_seeds g default log
  let seeded := (Inference.start g log).seedAll default g
  by_cases clean : seeded.errors = []
  · let settled := (seeded.resolveAll g).settle g (sweepCap g.rules.length) 0
    have run : check g default log = settled.1.finish settled.2 := by
      change (if seeded.errors.isEmpty then _ else _) = _
      rw [clean]
      rfl
    rw [run] at stable ⊢
    have length : seeded.slots.length = g.rules.length := by
      rw [seeds.slots]
      exact List.length_map _
    obtain ⟨first,kept⟩ := Inference.resolveAll_stage distinct length
      (Inference.seedAll_slot g default log) seeds.changed
    obtain ⟨last,fixed,same⟩ := first.settle distinct stable
    apply last.isFixpoint fixed
    intro site act body member
    rw [same,kept]
    exact Inference.seedAll_lookup distinct clean member
  · exfalso
    have stop : check g default log = seeded.finish 0 := by
      change (if seeded.errors.isEmpty then _ else _) = _
      rw [if_neg (by simpa using clean)]
      rfl
    obtain ⟨error,member⟩ := List.exists_mem_of_ne_nil _ clean
    obtain ⟨location,rfl⟩ := Inference.seedAll_errors member
    apply decided location
    rw [stop]
    exact member

/-- The types that checking reports for a grammar are a fixpoint. -/
theorem reported_types_form_fixpoint (g : Grammar) (default : Option String) (log : Diagnostics)
    (decided : ∀ location, .missingReturnType location ∉ (check g.numbered default log).errors)
    (stable : ∀ sweeps names, .diverged sweeps names ∉ (check g.numbered default log).errors) :
    (check g.numbered default log).table.IsFixpoint g.numbered default :=
  check_isFixpoint g.numbered_distinct decided stable

def itemsGrammar : Grammar where
  rules := [
    { name := "items",
      body := .sequence {} [.ruleRef {} "item",
        .optional {} (.sequence {} [.literal {} "," false,.ruleRef {} "items"])] },
    { name := "item",
      body := .choice {} [
        .action {} { code := "", annotations := [⟨"Return",["Node"],{}⟩] } (.any {}),
        .ruleRef {} "absent"] }]

/-- Inference settles on the types of the items. -/
theorem itemsGrammar_fixpoint :
    (check itemsGrammar.numbered none {}).errors = [.unknownRule "absent" {}] ∧
      (check itemsGrammar.numbered none {}).table.rules = [some (.list .object),some .object] ∧
      (check itemsGrammar.numbered none {}).table.IsFixpoint itemsGrammar.numbered none := by
  have errors : (check itemsGrammar.numbered none {}).errors = [.unknownRule "absent" {}] := by
    decide +kernel
  refine ⟨errors,by decide +kernel,reported_types_form_fixpoint itemsGrammar none {} ?_ ?_⟩
  · simp [errors]
  · simp [errors]

end PegCompiler
