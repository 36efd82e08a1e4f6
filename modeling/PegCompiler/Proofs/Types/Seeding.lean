import PegCompiler.Proofs.Types.Divergence
import PegCompiler.Proofs.Types.Reporting

/-! Seeding. The types of actions are decided before anything is typed, inner actions first, and for
each action one diagnostic says how. Where some action gets no type, checking ends with just these
errors and nothing typed; otherwise all that is said later are the errors of typing. -/
namespace PegCompiler

namespace Expr

mutual

def postorder : Expr → List Expr
  | .named site name body => body.postorder ++ [.named site name body]
  | .choice site alternatives => postorderAll alternatives ++ [.choice site alternatives]
  | .action site act body => body.postorder ++ [.action site act body]
  | .sequence site elements => postorderAll elements ++ [.sequence site elements]
  | .labeled site label body => body.postorder ++ [.labeled site label body]
  | .text site body => body.postorder ++ [.text site body]
  | .optional site body => body.postorder ++ [.optional site body]
  | .repeated site repetition body => body.postorder ++ [.repeated site repetition body]
  | .lookahead site isNegative body => body.postorder ++ [.lookahead site isNegative body]
  | .predicate site isNegative code ns => [.predicate site isNegative code ns]
  | .ruleRef site name => [.ruleRef site name]
  | .literal site value ignoreCase => [.literal site value ignoreCase]
  | .charClass site parts inverted ignoreCase rawText =>
    [.charClass site parts inverted ignoreCase rawText]
  | .any site => [.any site]

def postorderAll : List Expr → List Expr
  | [] => []
  | e :: rest => e.postorder ++ postorderAll rest

end

def action? : Expr → Option (Site × Action)
  | .action site act _ => some (site,act)
  | _ => none

private theorem actionsAll_eq {es : List Expr}
    (all : ∀ e ∈ es, e.actions = e.postorder.filterMap action?) :
    actionsAll es = (postorderAll es).filterMap action? := by
  induction es with
  | nil => rfl
  | cons e rest ih =>
    rw [actionsAll,postorderAll,List.filterMap_append,all e List.mem_cons_self,
      ih fun e member => all e (List.mem_cons_of_mem _ member)]

theorem actions_eq (e : Expr) : e.actions = e.postorder.filterMap action? := by
  induction e using Expr.induction with
  | choice site alternatives ih => simp [actions,postorder,action?,actionsAll_eq ih]
  | sequence site elements ih => simp [actions,postorder,action?,actionsAll_eq ih]
  | action site act body ih => simp [actions,postorder,action?,ih]
  | named | labeled | text | optional | repeated | lookahead =>
    rename_i ih
    simp [actions,postorder,action?,ih]
  | predicate | ruleRef | literal | charClass | any => rfl

end Expr

namespace Action

def typeText (default : Option String) (act : Action) : Option String :=
  act.declaredType.or default

theorem seedType_eq (default : Option String) (act : Action) :
    act.seedType default = (act.typeText default).map .ofName := by
  unfold seedType typeText decide
  cases act.declaredType with
  | some name => rfl
  | none => cases default <;> rfl

def decision (default : Option String) (site : Site) (act : Action) : Diagnostic :=
  match act.declaredType, default with
  | some name, _ =>
    ⟨.info,s!"using type `{name}` for action from @Return annotation",some site.location⟩
  | none, some name => ⟨.info,s!"using default type `{name}` for action",some site.location⟩
  | none, none => (TypeError.missingReturnType site.location).diagnostic

end Action

namespace Grammar

def actions (g : Grammar) : List (Site × Action) :=
  (g.rules.flatMap fun rule => rule.body.postorder).filterMap Expr.action?

def untypedActions (g : Grammar) (default : Option String) : List TypeError :=
  (g.actions.filter fun entry => (entry.2.typeText default).isNone).map fun entry =>
    .missingReturnType entry.1.location

theorem actions_eq (g : Grammar) : g.actions = g.rules.flatMap fun rule => rule.body.actions := by
  simp only [actions,List.filterMap_flatMap,Expr.actions_eq]

end Grammar

namespace Inference

variable {g : Grammar} {default : Option String} {log : Diagnostics} {s t u : Inference}

private structure Tells (default : Option String) (entries : List (Site × Action))
    (s t : Inference) : Prop where
  log : t.log.items = s.log.items ++ entries.map fun entry => entry.2.decision default entry.1
  nodes : t.nodes = s.nodes

private theorem seed_tells (s : Inference) (entry : Site × Action) :
    Tells default [entry] s (seed default s entry) := by
  unfold seed Action.decide
  cases declared : entry.2.declaredType with
  | some name =>
    constructor <;> simp [Action.decision,declared,Diagnostics.emitInfo,Diagnostics.push]
  | none =>
    cases default with
    | some name =>
      constructor <;> simp [Action.decision,declared,Diagnostics.emitInfo,Diagnostics.push]
    | none =>
      constructor <;> simp [Action.decision,declared,report,TypeError.diagnostic,
        Diagnostics.emitError,Diagnostics.push]

private theorem seeds_tell (entries : List (Site × Action)) (s : Inference) :
    Tells default entries s (entries.foldl (seed default) s) := by
  induction entries generalizing s with
  | nil => constructor <;> simp
  | cons entry rest ih =>
    have first : Tells default [entry] s (seed default s entry) := seed_tells s entry
    have others := ih (seed default s entry)
    rw [List.foldl_cons]
    constructor
    · rw [others.log,first.log,List.append_assoc]
      rfl
    · rw [others.nodes,first.nodes]

/-- What the log says at the end of seeding, and which errors are noted then. -/
theorem seedAll_tells (g : Grammar) (default : Option String) (log : Diagnostics) :
    ((start g log).seedAll default g).log.items =
        log.items ++ g.actions.map (fun entry => entry.2.decision default entry.1) ∧
      ((start g log).seedAll default g).nodes = [] ∧
      ((start g log).seedAll default g).errors = g.untypedActions default := by
  have told : Tells default g.actions (start g log) ((start g log).seedAll default g) := by
    rw [Grammar.actions_eq]
    exact seeds_tell _ _
  have seeds := seedAll_seeds g default log
  refine ⟨told.log,told.nodes,?_⟩
  rw [seeds.errors,Grammar.untypedActions,Grammar.actions_eq]
  simp only [start,List.nil_append,Action.seedType_eq,Option.isNone_map]

/-! Behind seeding the log takes the errors that are noted and nothing else. -/

private def Voices (s t : Inference) : Prop :=
  ∃ errors, t.errors = s.errors ++ errors ∧
    t.log.items = s.log.items ++ errors.map (·.diagnostic)

namespace Voices

private theorem of_same (errors : t.errors = s.errors) (log : t.log = s.log) : Voices s t :=
  ⟨[],by simp [errors],by simp [log]⟩

private theorem trans (first : Voices s t) (second : Voices t u) : Voices s u := by
  obtain ⟨errors,noted,logged⟩ := first
  obtain ⟨errors',noted',logged'⟩ := second
  refine ⟨errors ++ errors',?_,?_⟩
  · rw [noted',noted,List.append_assoc]
  · rw [logged',logged,List.map_append,List.append_assoc]

private theorem report (s : Inference) (error : TypeError) : Voices s (s.report error) :=
  ⟨[error],rfl,rfl⟩

private theorem reportOnce (s : Inference) (error : TypeError) : Voices s (s.reportOnce error) := by
  unfold Inference.reportOnce
  split
  · exact of_same rfl rfl
  · exact report s error

end Voices

private def voicing (g : Grammar) : Motion g where
  moves s t := t.seeded = s.seeded ∧ Voices s t
  refl s := ⟨rfl,.of_same rfl rfl⟩
  trans first second := ⟨second.1.trans first.1,first.2.trans second.2⟩
  seeded moved := moved.1
  record s id ty := ⟨rfl,.of_same rfl rfl⟩
  unknown s site name _ _ := ⟨(reportOnce_kept s _).1,.reportOnce s _⟩
  action s site act body member := by
    refine ⟨(actionType_kept s site).1,?_⟩
    unfold actionType
    split
    · exact .of_same rfl rfl
    · exact .reportOnce s _
  fill := by
    intro s t index rule ty declared missing moved closed
    obtain ⟨errors,same⟩ := store_errors t index ty
    have marked : Voices s (s.mark index rule) := .of_same rfl rfl
    exact ⟨same.trans moved.1,(marked.trans moved.2).trans (.of_same errors (store_log t index ty))⟩

private theorem sweep_voices (s : Inference) : Voices s (s.sweep g) := by
  have moved : (voicing g).moves s (s.sweep g) := by
    apply Motion.sweep_moves
    · intro s index ty
      obtain ⟨errors,same⟩ := store_errors s index ty
      exact ⟨same,.of_same errors (store_log s index ty)⟩
    · exact fun s => ⟨rfl,.of_same rfl rfl⟩
  exact moved.2

private theorem settle_voices (left sweeps : Nat) (s : Inference) :
    Voices s (s.settle g left sweeps).1 := by
  induction left generalizing sweeps s with
  | zero =>
    unfold settle
    split
    · exact .of_same rfl rfl
    · exact (sweep_voices s).trans (.report _ _)
  | succ left ih =>
    unfold settle
    split
    · exact .of_same rfl rfl
    · exact (sweep_voices s).trans (ih (sweeps + 1) (s.sweep g))

end Inference

section Checking

open Inference

variable {g : Grammar} {default : Option String} {log : Diagnostics}

/-- With an action that has no type, checking stops behind seeding. -/
theorem check_untyped (log : Diagnostics) (missing : g.untypedActions default ≠ []) :
    (check g default log).log.items =
        log.items ++ g.actions.map (fun entry => entry.2.decision default entry.1) ∧
      (check g default log).errors = g.untypedActions default ∧
      (check g default log).table =
        { nodes := [], rules := g.rules.map fun _ => none, sweeps := 0 } := by
  obtain ⟨logged,nodes,errors⟩ := seedAll_tells g default log
  rw [check_of_missing (errors.symm ▸ missing)]
  refine ⟨logged,errors,?_⟩
  rw [finish,nodes,(seedAll_seeds g default log).slots]
  rfl

/-- With types for all actions, the log takes the errors of typing behind what seeding says. -/
theorem check_voices (typed : g.untypedActions default = []) :
    (check g default log).log.items =
      log.items ++ g.actions.map (fun entry => entry.2.decision default entry.1) ++
        (check g default log).errors.map (·.diagnostic) := by
  obtain ⟨logged,-,errors⟩ := seedAll_tells g default log
  have clean := errors.trans typed
  rw [check_of_seeded clean]
  have resolving := ((voicing g).resolveAll_moves ((start g log).seedAll default g)).2
  obtain ⟨later,noted,added⟩ := resolving.trans (settle_voices (sweepCap g.rules.length) 0 _)
  rw [clean,List.nil_append] at noted
  rw [logged,← noted] at added
  exact added

end Checking

open Inference in
/-- Seeding is exact and failing is clean, for every grammar, default type and log. Checking first
says one thing of each action, rule by rule and inner actions first: the type that its author
declares, else the default, else that a type is missing. If some types are missing, that is all that
checking says and reports: no sweep is made, and no rule and no node has a type. Otherwise only
errors of typing follow, and each action is seeded with the type that the text names; its node has
that type in the end, unless types diverge. -/
theorem seeding_exact (g : Grammar) (default : Option String) (log : Diagnostics) :
    ∃ later, (check g default log).log.items =
        log.items ++ g.actions.map (fun entry => entry.2.decision default entry.1) ++ later ∧
      (g.untypedActions default ≠ [] → later = [] ∧
        (check g default log).errors = g.untypedActions default ∧
        (check g default log).table =
          { nodes := [], rules := g.rules.map fun _ => none, sweeps := 0 }) ∧
      (g.untypedActions default = [] →
        later = (check g default log).errors.map (·.diagnostic) ∧
        (g.Built → ∀ site act body, .action site act body ∈ g.nodes → ∃ text,
          act.typeText default = some text ∧
          ((start g log).seedAll default g).seeded.lookup site.id = some (.ofName text) ∧
          ((∀ sweeps names, .diverged sweeps names ∉ (check g default log).errors) →
            (check g default log).table.node site.id = some (.ofName text)))) := by
  by_cases typed : g.untypedActions default = []
  · refine ⟨_,check_voices typed,fun missing => absurd typed missing,fun _ => ⟨rfl,?_⟩⟩
    intro built site act body member
    have clean := (seedAll_tells g default log).2.2.trans typed
    obtain ⟨ty,seeded,found⟩ := seedAll_lookup built.distinct clean member
    obtain ⟨text,named,rfl⟩ : ∃ text, act.typeText default = some text ∧ .ofName text = ty := by
      rwa [Action.seedType_eq,Option.map_eq_some_iff] at seeded
    refine ⟨text,named,found,fun stable => ?_⟩
    -- the table explains the type of an action by what its node is seeded with
    obtain ⟨_,given,explained⟩ :=
      (check_isFixpoint built.distinct (check_decided.mpr clean) stable).nodes _ member
    have same := explained.symm.trans seeded
    rw [← same]
    exact given
  · obtain ⟨logged,errors,table⟩ := check_untyped log typed
    exact ⟨[],by simpa using logged,fun _ => ⟨rfl,errors,table⟩,fun none => absurd none typed⟩

def pairGrammar : Grammar := .ofRules [] [
  { name := "pair",
    body := .action {} { code := "", annotations := [⟨"Return",["Pair"],{}⟩] }
      (.sequence {} [.any {},.action {} { code := "" } (.any {})]) }]

/-- Without a default the inner action is an error, said of before the outer one; with a default it
is seeded with that, and the outer action with its own type. -/
theorem pairGrammar_seeded :
    ((check pairGrammar none {}).errors = [.missingReturnType {}] ∧
      (check pairGrammar none {}).table = { nodes := [], rules := [none], sweeps := 0 } ∧
      (check pairGrammar none {}).log.items.map (·.severity) = [.error,.info]) ∧
    (check pairGrammar (some "char") {}).table.node 0 = some (.ofName "Pair") ∧
      (check pairGrammar (some "char") {}).table.node 3 = some (.ofName "char") := by
  constructor
  · obtain ⟨later,said,failing,-⟩ := seeding_exact pairGrammar none {}
    obtain ⟨rfl,errors,table⟩ := failing (by decide +kernel)
    refine ⟨errors.trans (by decide +kernel),table,?_⟩
    rw [said]
    decide +kernel
  · obtain ⟨_,-,-,typing⟩ := seeding_exact pairGrammar (some "char") {}
    obtain ⟨-,seeded⟩ := typing (by decide +kernel)
    have ends : (check pairGrammar (some "char") {}).errors = [] := by decide +kernel
    have stable (sweeps : Nat) (names : List String) :
        .diverged sweeps names ∉ (check pairGrammar (some "char") {}).errors := by
      rw [ends]
      exact List.not_mem_nil
    obtain ⟨outer,named,-,given⟩ := seeded (.ofRules _ _) _ _ _ (List.mem_of_getElem? (i := 0) rfl)
    obtain ⟨inner,named',-,given'⟩ :=
      seeded (.ofRules _ _) _ _ _ (List.mem_of_getElem? (i := 3) rfl)
    cases named
    cases named'
    exact ⟨given stable,given' stable⟩

end PegCompiler
