import PegCompiler.Proofs.Grammar.Numbering

/-! Grammars up to the numbers of their nodes. Numbering changes nothing but the numbers, and whether
a grammar is valid does not depend on them; validation accepts just the valid ones, and tells the first
defect of the others. -/
namespace PegCompiler

namespace Expr

mutual

def unnumbered : Expr → Expr
  | .named site name body => .named { site with id := 0 } name body.unnumbered
  | .choice site alternatives => .choice { site with id := 0 } (unnumberedAll alternatives)
  | .action site act body => .action { site with id := 0 } act body.unnumbered
  | .sequence site elements => .sequence { site with id := 0 } (unnumberedAll elements)
  | .labeled site label body => .labeled { site with id := 0 } label body.unnumbered
  | .text site body => .text { site with id := 0 } body.unnumbered
  | .optional site body => .optional { site with id := 0 } body.unnumbered
  | .repeated site repetition body => .repeated { site with id := 0 } repetition body.unnumbered
  | .lookahead site isNegative body => .lookahead { site with id := 0 } isNegative body.unnumbered
  | .predicate site isNegative code ns => .predicate { site with id := 0 } isNegative code ns
  | .ruleRef site name => .ruleRef { site with id := 0 } name
  | .literal site value ignoreCase => .literal { site with id := 0 } value ignoreCase
  | .charClass site parts inverted ignoreCase rawText =>
    .charClass { site with id := 0 } parts inverted ignoreCase rawText
  | .any site => .any { site with id := 0 }

def unnumberedAll : List Expr → List Expr
  | [] => []
  | e :: rest => e.unnumbered :: unnumberedAll rest

end

theorem unnumberedAll_eq (es : List Expr) : unnumberedAll es = es.map unnumbered := by
  induction es with
  | nil => rfl
  | cons e rest ih => rw [unnumberedAll,ih,List.map_cons]

private theorem unnumberedAll_number {es : List Expr}
    (all : ∀ e ∈ es, ∀ next, (e.number next).1.unnumbered = e.unnumbered) (next : Nat) :
    unnumberedAll (numberAll next es).1 = unnumberedAll es := by
  induction es generalizing next with
  | nil => rfl
  | cons e rest ih =>
    have others := ih (fun e member => all e (List.mem_cons_of_mem _ member)) (e.number next).2
    simp only [numberAll,unnumberedAll,all e List.mem_cons_self next,others]

theorem unnumbered_number (e : Expr) (next : Nat) :
    (e.number next).1.unnumbered = e.unnumbered := by
  induction e using Expr.induction generalizing next with
  | choice site alternatives ih =>
    simp only [number,unnumbered,unnumberedAll_number ih]
  | sequence site elements ih =>
    simp only [number,unnumbered,unnumberedAll_number ih]
  | named | action | labeled | text | optional | repeated | lookahead =>
    rename_i ih
    simp only [number,unnumbered,ih]
  | predicate | ruleRef | literal | charClass | any => rfl

theorem unnumbered_unnumbered (e : Expr) : e.unnumbered.unnumbered = e.unnumbered := by
  induction e using Expr.induction with
  | choice site alternatives ih | sequence site alternatives ih =>
    have all := List.map_congr_left ih
    simp only [unnumbered,unnumberedAll_eq,List.map_map]
    exact congrArg _ all
  | named | action | labeled | text | optional | repeated | lookahead =>
    rename_i ih
    simp only [unnumbered,ih]
  | predicate | ruleRef | literal | charClass | any => rfl

private theorem nodesAll_unnumbered {es : List Expr}
    (all : ∀ e ∈ es, e.unnumbered.nodes = e.nodes.map unnumbered) :
    nodesAll (unnumberedAll es) = (nodesAll es).map unnumbered := by
  induction es with
  | nil => rfl
  | cons e rest ih =>
    have others := ih fun e member => all e (List.mem_cons_of_mem _ member)
    simp only [unnumberedAll,nodesAll,List.map_append,all e List.mem_cons_self,others]

theorem nodes_unnumbered (e : Expr) : e.unnumbered.nodes = e.nodes.map unnumbered := by
  induction e using Expr.induction with
  | choice site alternatives ih | sequence site alternatives ih =>
    simp only [unnumbered,nodes,nodesAll_unnumbered ih,List.map_cons]
  | named | action | labeled | text | optional | repeated | lookahead =>
    rename_i ih
    simp only [unnumbered,nodes,ih,List.map_cons]
  | predicate | ruleRef | literal | charClass | any => rfl

end Expr

namespace Grammar

def unnumbered (g : Grammar) : Grammar :=
  { g with rules := g.rules.map fun rule => { rule with body := rule.body.unnumbered } }

theorem unnumbered_numbered (g : Grammar) : g.numbered.unnumbered = g.unnumbered := by
  have rules (rules : List Rule) (next : Nat) :
      ((numberRules next rules).map fun rule => { rule with body := rule.body.unnumbered }) =
        rules.map fun rule => { rule with body := rule.body.unnumbered } := by
    induction rules generalizing next with
    | nil => rfl
    | cons rule rest ih => simp only [numberRules,List.map_cons,Expr.unnumbered_number,ih]
  simp only [unnumbered,numbered,rules]

theorem unnumbered_unnumbered (g : Grammar) : g.unnumbered.unnumbered = g.unnumbered := by
  simp [unnumbered,Expr.unnumbered_unnumbered]

theorem nodes_unnumbered (g : Grammar) : g.unnumbered.nodes = g.nodes.map Expr.unnumbered := by
  simp [unnumbered,nodes,List.flatMap_map,List.map_flatMap,Expr.nodes_unnumbered]

structure Valid (g : Grammar) : Prop where
  distinct : (g.rules.map (·.name)).Nodup
  resolved : ∀ site name, .ruleRef site name ∈ g.nodes → name ∈ g.rules.map (·.name)

theorem Valid.renumbered {g h : Grammar} (valid : g.Valid)
    (same : h.unnumbered.rules = g.unnumbered.rules) : h.Valid := by
  have names : h.rules.map (·.name) = g.rules.map (·.name) := by
    have listed := congrArg (List.map (·.name)) same
    simpa [unnumbered,Function.comp_def] using listed
  have nodes : h.nodes.map Expr.unnumbered = g.nodes.map Expr.unnumbered := by
    have listed := congrArg (List.flatMap fun rule => rule.body.nodes) same
    rwa [← nodes_unnumbered,← nodes_unnumbered]
  constructor
  · rw [names]
    exact valid.distinct
  · intro site name member
    have renumbered : (Expr.ruleRef site name).unnumbered ∈ g.nodes.map Expr.unnumbered := by
      rw [← nodes]
      exact List.mem_map_of_mem member
    obtain ⟨node,inside,alike⟩ := List.mem_map.mp renumbered
    rw [names]
    -- only a reference becomes a reference
    cases node with
    | ruleRef other target =>
      simp only [Expr.unnumbered,Expr.ruleRef.injEq] at alike
      rw [← alike.2]
      exact valid.resolved other target inside
    | _ => simp [Expr.unnumbered] at alike

theorem firstDuplicate_none_iff {seen : List String} {rules : List Rule} :
    firstDuplicate seen rules = none ↔
      (rules.map (·.name)).Nodup ∧ ∀ rule ∈ rules, rule.name ∉ seen := by
  induction rules generalizing seen with
  | nil => simp [firstDuplicate]
  | cons rule rest ih =>
    have apart : (∀ other ∈ rest, other.name ∉ rule.name :: seen) ↔
        rule.name ∉ rest.map (·.name) ∧ ∀ other ∈ rest, other.name ∉ seen := by
      simp only [List.mem_cons,not_or,List.mem_map,not_exists,not_and]
      exact forall₂_and
    rw [firstDuplicate,List.map_cons,List.nodup_cons,List.forall_mem_cons]
    split
    next repeated => simp_all
    next new =>
      rw [ih,apart]
      simp_all only [List.contains_iff_mem]
      tauto

/-- The first repeated name is one that was seen, or that stands in front; before it none is
repeated. -/
theorem firstDuplicate_some_iff {seen : List String} {rules : List Rule} {rule : Rule} :
    firstDuplicate seen rules = some rule ↔
      ∃ before after, rules = before ++ rule :: after ∧ firstDuplicate seen before = none ∧
        (rule.name ∈ seen ∨ rule.name ∈ before.map (·.name)) := by
  induction rules generalizing seen with
  | nil => simp [firstDuplicate]
  | cons first rest ih =>
    rw [firstDuplicate]
    split
    next repeated =>
      constructor
      · rintro ⟨⟩
        exact ⟨[],rest,rfl,rfl,.inl (List.contains_iff_mem.mp repeated)⟩
      · rintro ⟨before,after,split,none,-⟩
        rcases List.cons_eq_append_iff.mp split with ⟨-,same⟩ | ⟨middle,rfl,-⟩
        · rw [(List.cons.inj same).1]
        · rw [firstDuplicate,if_pos repeated] at none
          exact nomatch none
    next new =>
      have seen_or (names : List String) (name : String) :
          name ∈ seen ∨ name ∈ first.name :: names ↔ name ∈ first.name :: seen ∨ name ∈ names := by
        simp only [List.mem_cons]
        tauto
      rw [ih]
      constructor
      · rintro ⟨before,after,rfl,none,known⟩
        refine ⟨first :: before,after,rfl,by rw [firstDuplicate,if_neg new,none],?_⟩
        exact (seen_or _ _).mpr known
      · rintro ⟨before,after,split,none,known⟩
        rcases List.cons_eq_append_iff.mp split with ⟨rfl,same⟩ | ⟨middle,rfl,rfl⟩
        · obtain ⟨rfl,-⟩ := List.cons.inj same
          simp [List.contains_iff_mem.not.mp new] at known
        · rw [firstDuplicate,if_neg new] at none
          exact ⟨middle,after,rfl,none,(seen_or _ _).mp known⟩

theorem danglingRef_none_iff {names : List String} {e : Expr} :
    danglingRef names e = none ↔ ∀ site name, e = .ruleRef site name → name ∈ names := by
  cases e with
  | ruleRef site name => simp [danglingRef]
  | _ => simp [danglingRef]

theorem danglingRef_some_iff {names : List String} {e : Expr} {name : String} {location : Location} :
    danglingRef names e = some (name,location) ↔
      ∃ site, e = .ruleRef site name ∧ name ∉ names ∧ location = site.location := by
  cases e with
  | ruleRef site other =>
    simp only [danglingRef,List.contains_iff_mem,Expr.ruleRef.injEq]
    split
    next declared => grind
    next undeclared => grind
  | _ => simp [danglingRef]

/-- What makes a grammar invalid: a rule whose name is repeated, or else a reference to a rule that is
not declared. The first of its kind is told. -/
inductive Defect (g : Grammar) : GrammarError → Prop
  | duplicate {before after : List Rule} {rule : Rule} : g.rules = before ++ rule :: after →
      (before.map (·.name)).Nodup → rule.name ∈ before.map (·.name) →
      Defect g (.duplicateRule rule.name rule.location)
  | dangling {before after : List Expr} {site : Site} {name : String} :
      (g.rules.map (·.name)).Nodup → g.nodes = before ++ .ruleRef site name :: after →
      (∀ other target, .ruleRef other target ∈ before → target ∈ g.rules.map (·.name)) →
      name ∉ g.rules.map (·.name) → Defect g (.unknownRule name site.location)

section Validating

variable {g : Grammar}

private theorem duplicate_iff {rule : Rule} :
    firstDuplicate [] g.rules = some rule ↔ ∃ before after, g.rules = before ++ rule :: after ∧
      (before.map (·.name)).Nodup ∧ rule.name ∈ before.map (·.name) := by
  simp [firstDuplicate_some_iff,firstDuplicate_none_iff]

private theorem distinct_iff :
    firstDuplicate [] g.rules = none ↔ (g.rules.map (·.name)).Nodup := by
  simp [firstDuplicate_none_iff]

private theorem dangling_iff {name : String} {location : Location} :
    g.nodes.findSome? (danglingRef (g.rules.map (·.name))) = some (name,location) ↔
      ∃ before site after, g.nodes = before ++ .ruleRef site name :: after ∧
        (∀ other target, .ruleRef other target ∈ before → target ∈ g.rules.map (·.name)) ∧
        name ∉ g.rules.map (·.name) ∧ location = site.location := by
  simp only [List.findSome?_eq_some_iff,danglingRef_some_iff,danglingRef_none_iff]
  constructor
  · rintro ⟨before,_,after,split,⟨site,rfl,undeclared,place⟩,declared⟩
    exact ⟨before,site,after,split,fun other target member => declared _ member other target rfl,
      undeclared,place⟩
  · rintro ⟨before,site,after,split,declared,undeclared,place⟩
    refine ⟨before,_,after,split,⟨site,rfl,undeclared,place⟩,?_⟩
    rintro _ member other target rfl
    exact declared other target member

private theorem resolved_iff :
    g.nodes.findSome? (danglingRef (g.rules.map (·.name))) = none ↔
      ∀ site name, .ruleRef site name ∈ g.nodes → name ∈ g.rules.map (·.name) := by
  simp only [List.findSome?_eq_none_iff,danglingRef_none_iff]
  exact ⟨fun all site name member => all _ member site name rfl,
    fun all e member site name same => all site name (same ▸ member)⟩

theorem Defect.validate {error : GrammarError} (defect : g.Defect error) :
    g.validate = .error error := by
  cases defect with
  | duplicate split distinct known =>
    rw [Grammar.validate,duplicate_iff.mpr ⟨_,_,split,distinct,known⟩]
  | dangling distinct split declared undeclared =>
    rw [Grammar.validate,distinct_iff.mpr distinct]
    simp only [dangling_iff.mpr ⟨_,_,_,split,declared,undeclared,rfl⟩]

theorem Valid.validate (valid : g.Valid) : g.validate = .ok () := by
  rw [Grammar.validate,distinct_iff.mpr valid.distinct]
  simp only [resolved_iff.mpr valid.resolved]

theorem valid_or_defect (g : Grammar) : g.Valid ∨ ∃ error, g.Defect error := by
  cases repeated : firstDuplicate [] g.rules with
  | some rule =>
    obtain ⟨before,after,split,distinct,known⟩ := duplicate_iff.mp repeated
    exact .inr ⟨_,.duplicate split distinct known⟩
  | none =>
    have distinct := distinct_iff.mp repeated
    cases dangling : g.nodes.findSome? (danglingRef (g.rules.map (·.name))) with
    | some found =>
      obtain ⟨before,site,after,split,declared,undeclared,-⟩ := dangling_iff.mp dangling
      exact .inr ⟨_,.dangling distinct split declared undeclared⟩
    | none => exact .inl ⟨distinct,resolved_iff.mp dangling⟩

theorem validate_error_iff {error : GrammarError} : g.validate = .error error ↔ g.Defect error := by
  refine ⟨fun failed => ?_,Defect.validate⟩
  rcases g.valid_or_defect with valid | ⟨other,defect⟩
  · cases valid.validate.symm.trans failed
  · cases defect.validate.symm.trans failed
    exact defect

theorem validate_ok_iff : g.validate = .ok () ↔ g.Valid := by
  refine ⟨fun passed => ?_,Valid.validate⟩
  rcases g.valid_or_defect with valid | ⟨error,defect⟩
  · exact valid
  · cases defect.validate.symm.trans passed

end Validating

end Grammar

end PegCompiler
