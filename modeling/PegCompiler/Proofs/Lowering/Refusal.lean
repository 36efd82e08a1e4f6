import PegCompiler.Proofs.Types.Divergence
import PegCompiler.Proofs.Types.Reporting

/-! Why a checked grammar is refused. Lowering meets the nodes of a rule in front of their parts,
and where all types are known it stops at the first bound of a repetition whose label is not in
scope, or at nothing. So the outcome of compiling is read off the scopes in the tree. -/
namespace PegCompiler

open Target Lowering

structure Stray where
  label : String
  location : Location
deriving DecidableEq

def Stray.error (stray : Stray) : GenerateError :=
  .unboundLabel stray.label stray.location

def Boundary.strays (bound : List Labelled) (location : Location) : Boundary → List Stray
  | .count _ => []
  | .label name => if name ∈ bound.map (·.label) then [] else [⟨name,location⟩]

def Repetition.strays (bound : List Labelled) (location : Location) (repetition : Repetition) :
    List Stray :=
  repetition.min.strays bound location ++
    repetition.max.toList.flatMap fun boundary => boundary.strays bound location

def Visit.strays (visit : Visit) : List Stray :=
  match visit.node with
  | .repeated _ repetition body => repetition.strays visit.bound body.location
  | _ => []

def Expr.strays (base : Nat) (bound : List Labelled) (e : Expr) : List Stray :=
  (e.outline base bound).flatMap Visit.strays

def Grammar.strays (g : Grammar) : List Stray :=
  g.rules.flatMap fun rule => rule.body.strays 0 []

private theorem Boundary.mem_strays {bound : List Labelled} {location : Location}
    {boundary : Boundary} {stray : Stray} : stray ∈ boundary.strays bound location ↔
      boundary = .label stray.label ∧ stray.label ∉ bound.map (·.label) ∧
        stray.location = location := by
  cases boundary with
  | count n => simp [strays]
  | label name =>
    obtain ⟨label,place⟩ := stray
    rw [strays,Boundary.label.injEq]
    by_cases inside : name ∈ bound.map (·.label)
    · rw [if_pos inside]
      constructor
      · exact fun member => nomatch member
      · rintro ⟨rfl,outside,-⟩
        exact absurd inside outside
    · rw [if_neg inside,List.mem_singleton,Stray.mk.injEq]
      constructor
      · rintro ⟨rfl,rfl⟩
        exact ⟨rfl,inside,rfl⟩
      · rintro ⟨rfl,-,rfl⟩
        exact ⟨rfl,rfl⟩

/-- Only a range with a bound by a label that is not in scope has stray labels. -/
theorem Visit.mem_strays {visit : Visit} {stray : Stray} : stray ∈ visit.strays ↔
    ∃ site min max body, visit.node = .repeated site (.range min max) body ∧
      (min = .label stray.label ∨ max = some (.label stray.label)) ∧
      stray.label ∉ visit.bound.map (·.label) ∧ stray.location = body.location := by
  obtain ⟨node,base,bound⟩ := visit
  cases node with
  | repeated site repetition body =>
    cases repetition with
    | zeroOrMore => simp [strays,Repetition.strays,Repetition.min,Repetition.max,Boundary.strays]
    | oneOrMore => simp [strays,Repetition.strays,Repetition.min,Repetition.max,Boundary.strays]
    | range min max =>
      have upper : stray ∈ (max.toList.flatMap fun boundary =>
          boundary.strays bound body.location) ↔ max = some (.label stray.label) ∧
            stray.label ∉ bound.map (·.label) ∧ stray.location = body.location := by
        cases max with
        | none => simp
        | some boundary =>
          rw [Option.toList_some,List.flatMap_singleton,Boundary.mem_strays,Option.some.injEq]
      simp only [strays,Repetition.strays,Repetition.min,Repetition.max,List.mem_append,
        Boundary.mem_strays,upper,← or_and_right]
      constructor
      · rintro ⟨named,outside,place⟩
        exact ⟨site,min,max,body,rfl,named,outside,place⟩
      · rintro ⟨_,_,_,_,⟨⟩,named,outside,place⟩
        exact ⟨named,outside,place⟩
  | _ => simp [strays]

inductive Verdict {α : Type} : List Stray → Except GenerateError α → Prop
  | accepted (a : α) : Verdict [] (.ok a)
  | refused (first : Stray) (rest : List Stray) : Verdict (first :: rest) (.error first.error)

namespace Verdict

variable {α β : Type} {strays others : List Stray} {x : Except GenerateError α}
  {f : α → Except GenerateError β}

theorem bind (before : Verdict strays x) (next : ∀ a, Verdict others (f a)) :
    Verdict (strays ++ others) (x >>= f) := by
  cases before with
  | accepted a => exact next a
  | refused first rest => exact .refused first (rest ++ others)

theorem closed (before : Verdict strays x) (next : ∀ a, ∃ b, f a = .ok b) :
    Verdict strays (x >>= f) := by
  have whole : Verdict (strays ++ []) (x >>= f) := by
    refine before.bind fun a => ?_
    obtain ⟨b,ok⟩ := next a
    rw [ok]
    exact .accepted b
  rwa [List.append_nil] at whole

end Verdict

namespace Lowering

variable {cfg : Setting} {α β : Type}

/-- In every state `x` succeeds only if there are no stray labels, and otherwise it fails with the
first of them. Faults are left open. -/
def Answers (strays : List Stray) (x : Lower α) (post : α → Prop) : Prop :=
  ∀ s : State, match (outcome x s).1 with
    | .ok a => strays = [] ∧ post a
    | .error error => (∃ fault, error = .internal fault) ∨
      ∃ first, strays.head? = some first ∧ error = first.error

namespace Answers

theorem pure {post : α → Prop} {a : α} (done : post a) : Answers [] (Pure.pure a) post :=
  fun _ => ⟨rfl,done⟩

theorem bind {strays others : List Stray} {x : Lower α} {f : α → Lower β} {middle : α → Prop}
    {post : β → Prop} (first : Answers strays x middle)
    (next : ∀ a, middle a → Answers others (f a) post) :
    Answers (strays ++ others) (x >>= f) post := by
  intro s
  have before := first s
  rw [outcome_bind]
  cases run : outcome x s with
  | mk result t =>
    rw [run] at before
    cases result with
    | ok a =>
      obtain ⟨none,held⟩ := before
      rw [none]
      exact next a held t
    | error error =>
      refine before.imp_right ?_
      rintro ⟨stray,found,raised⟩
      exact ⟨stray,by rw [List.head?_append,found,Option.some_or],raised⟩

/-- What comes behind has no stray labels. -/
theorem closed {strays : List Stray} {x : Lower α} {f : α → Lower β} {middle : α → Prop}
    {post : β → Prop} (first : Answers strays x middle)
    (next : ∀ a, middle a → Answers [] (f a) post) : Answers strays (x >>= f) post := by
  have whole := first.bind next
  rwa [List.append_nil] at whole

theorem map {strays : List Stray} {x : Lower α} {f : α → β} {post : α → Prop}
    (answers : Answers strays x post) : Answers strays (f <$> x) fun _ => True := by
  rw [map_eq_pure_bind]
  exact answers.closed fun _ _ => .pure trivial

end Answers

private theorem Quiet.answers {x : Lower α} (quiet : Quiet x) : Answers [] x fun _ => True := by
  intro s
  split
  next => exact ⟨rfl,trivial⟩
  next error raised => exact .inl ((quiet s).2 error raised)

theorem Quiet.next {strays : List Stray} {x : Lower α} {f : α → Lower β} {post : β → Prop}
    (quiet : Quiet x) (next : ∀ a, Answers strays (f a) post) : Answers strays (x >>= f) post :=
  quiet.answers.bind fun a _ => next a

private theorem answers_addPattern (initializer : String) :
    Answers [] (addPattern initializer) fun _ => True := fun _ => ⟨rfl,trivial⟩

private theorem answers_addExpected (initializer : String) :
    Answers [] (addExpected initializer) fun _ => True := fun _ => ⟨rfl,trivial⟩

private theorem answers_addMethod (kind : MethodKind) (method : UserMethod) :
    Answers [] (addMethod kind method) fun _ => True := fun _ => ⟨rfl,trivial⟩

private theorem answers_typeOf (kind : Kind) {site : Site} (typed : (cfg.types.node site.id).isSome) :
    Answers [] (typeOf cfg kind site) fun _ => True := by
  obtain ⟨ty,found⟩ := Option.isSome_iff_exists.mp typed
  rw [typeOf,found]
  exact .pure trivial

def Visible (scope : Scope) (bound : List Labelled) : Prop :=
  ∀ label, (scope.find label).isSome ↔ label ∈ bound.map (·.label)

private theorem Visible.nil : Visible [] [] := by
  simp [Visible,Scope.find]

private theorem find_bind (scope : Scope) (binding : Binding) (label : String) :
    ((scope.bind binding).find label).isSome ↔ (scope.find label).isSome ∨ binding.label = label := by
  induction scope with
  | nil => simp [Scope.bind,Scope.find]
  | cons first rest ih =>
    simp only [Scope.find,List.find?_isSome,Scope.bind,beq_iff_eq] at ih ⊢
    split
    next same => simp only [List.mem_cons,exists_eq_or_imp,same,or_right_comm,or_self]
    next => simp only [List.mem_cons,exists_eq_or_imp,ih,or_assoc]

private theorem Visible.bind {scope : Scope} {bound : List Labelled} (visible : Visible scope bound)
    (l : Labelled) (ty : Ty) : Visible (scope.bind ⟨l.label,l.slot,ty⟩) (bound ++ [l]) := by
  intro label
  rw [find_bind,visible label]
  simp [eq_comm]

variable {scope : Scope} {bound : List Labelled} {base : Nat} {location : Location}

private theorem answers_boundOf (visible : Visible scope bound) (boundary : Boundary) :
    Answers (boundary.strays bound location) (boundOf scope location boundary) fun _ => True := by
  cases boundary with
  | count n => exact .pure trivial
  | label name =>
    have known := visible name
    rw [boundOf,Boundary.strays]
    cases found : scope.find name with
    | some binding =>
      rw [if_pos (known.mp (by simp [found]))]
      exact .pure trivial
    | none =>
      rw [if_neg fun inside => by simpa [found] using known.mpr inside]
      exact fun s => .inr ⟨⟨name,location⟩,rfl,rfl⟩

private theorem answers_boundsOf (visible : Visible scope bound) (boundary : Option Boundary) :
    Answers (boundary.toList.flatMap fun limit => limit.strays bound location)
      (boundary.mapM (boundOf scope location)) fun _ => True := by
  cases boundary with
  | none => exact .pure trivial
  | some limit =>
    rw [Option.toList_some,List.flatMap_singleton]
    exact (answers_boundOf visible limit).map

/-! One lemma for each kind of node. -/

private theorem answers_lowerLiteral (value : String) (ignoreCase : Bool) :
    Answers [] (lowerLiteral cfg value ignoreCase) fun _ => True := by
  rw [lowerLiteral,ofFault_expected,pure_bind]
  exact (answers_addExpected _).closed fun _ _ => (quiet_pushValue _).next fun _ => .pure trivial

private theorem answers_lowerClass (parts : List ClassPart) (inverted ignoreCase : Bool)
    (rawText : String) :
    Answers [] (lowerClass cfg parts inverted ignoreCase rawText) fun _ => True := by
  rw [lowerClass,ofFault_pattern,pure_bind,ofFault_expected,pure_bind]
  exact (answers_addPattern _).closed fun _ _ => (answers_addExpected _).closed fun _ _ =>
    (quiet_pushValue _).next fun _ => .pure trivial

private theorem answers_lowerPredicate (isNegative : Bool) (code : String) (ns : Option String) :
    Answers [] (lowerPredicate cfg isNegative code ns scope) fun _ => True := by
  simp only [lowerPredicate,arguments_eq,pure_bind]
  exact (answers_addMethod _ _).closed fun _ _ => (quiet_pushValue _).next fun _ =>
    (quiet_replaceValue _).next fun _ => .pure trivial

private theorem answers_actionCall {site : Site} (act : Action) (passed : List Passed)
    (typed : (cfg.types.node site.id).isSome) :
    Answers [] (actionCall cfg site act passed) fun _ => True := by
  unfold actionCall
  refine (answers_typeOf .action typed).closed fun ty _ => ?_
  simp only [cfg.imports.render_eq,ofFault,pure_bind]
  exact (answers_addMethod _ _).closed fun _ _ => .pure trivial

variable {strays : List Stray}

private theorem answers_lowerNamed (name : String) {body : Lower (List Instr × Scope)}
    (inner : Answers strays body fun result => Visible result.2 bound) :
    Answers strays (lowerNamed cfg name body) fun result => Visible result.2 bound := by
  rw [lowerNamed,ofFault_expected,pure_bind]
  exact (answers_addExpected _).bind fun _ _ => inner.closed fun _ held =>
    quiet_topValue.next fun _ => (quiet_replaceValue _).next fun _ => .pure held

private theorem answers_lowerText {body : Lower (List Instr)}
    (inner : Answers strays body fun _ => True) : Answers strays (lowerText body) fun _ => True :=
  quiet_savePosition.next fun _ => inner.closed fun _ _ => quiet_popValue.next fun _ =>
    quiet_popPosition.next fun _ => (quiet_pushValue _).next fun _ => .pure trivial

private theorem answers_lowerOptional {body : Lower (List Instr)}
    (inner : Answers strays body fun _ => True) :
    Answers strays (lowerOptional body) fun _ => True :=
  inner.closed fun _ _ => quiet_popValue.next fun _ => (quiet_assignNext _).next fun _ =>
    .pure trivial

private theorem answers_lowerLookahead (isNegative : Bool) {body : Lower (List Instr)}
    (inner : Answers strays body fun _ => True) :
    Answers strays (lowerLookahead isNegative body) fun _ => True := by
  refine quiet_savePosition.next fun _ => inner.closed fun _ _ =>
    quiet_restorePosition.next fun _ => ?_
  cases isNegative with
  | true =>
    exact quiet_popValue.next fun _ => (quiet_pushValue _).next fun _ =>
      (quiet_replaceValue _).next fun _ => .pure trivial
  | false => exact .pure trivial

private theorem answers_lowerAction {site : Site} (act : Action) {body : Lower (List Instr × Scope)}
    (typed : (cfg.types.node site.id).isSome) {post : List Instr × Scope → Prop}
    (inner : Answers strays body post) :
    Answers strays (lowerAction cfg site act body) fun _ => True := by
  refine quiet_savePosition.next fun _ => inner.closed fun result _ => ?_
  simp only [arguments_eq,pure_bind]
  exact (answers_actionCall act _ typed).closed fun _ _ => quiet_topValue.next fun _ =>
    quiet_markPosition.next fun _ => (quiet_replaceValue _).next fun _ => .pure trivial

/-- Both bounds are looked up in front of the body. -/
private theorem answers_lowerRepeated (repetition : Repetition) {body : Lower (List Instr)}
    (visible : Visible scope bound) (inner : Answers strays body fun _ => True) :
    Answers (repetition.strays bound location ++ strays)
      (lowerRepeated repetition scope location body) fun _ => True := by
  rw [Repetition.strays,List.append_assoc]
  refine (answers_boundOf visible _).bind fun least _ => ?_
  refine (answers_boundsOf visible _).bind fun most _ => ?_
  dsimp only
  split
  · refine quiet_savePosition.next fun _ => (quiet_pure _).next fun _ => ?_
    refine (quiet_pushValue _).next fun _ => quiet_topValue.next fun _ => inner.closed fun _ _ => ?_
    refine quiet_popValue.next fun _ => ?_
    split
    · exact quiet_restorePosition.next fun _ => (quiet_pure _).next fun _ =>
        (quiet_replaceValue _).next fun _ => .pure trivial
    · exact .pure trivial
  · refine (quiet_pure _).next fun _ => (quiet_pushValue _).next fun _ => ?_
    refine quiet_topValue.next fun _ => inner.closed fun _ _ => quiet_popValue.next fun _ => ?_
    split
    · exact (quiet_pure _).next fun _ => (quiet_replaceValue _).next fun _ => .pure trivial
    · exact .pure trivial

private theorem answers_closeSequence {caller : Option (Site × Action)} (count : Nat)
    (called : ∀ site act, caller = some (site,act) → (cfg.types.node site.id).isSome) :
    Answers [] (closeSequence cfg caller count scope) fun _ => True := by
  refine (quiet_popValues count).next fun slots => ?_
  cases caller with
  | some call =>
    simp only [arguments_eq,pure_bind]
    exact quiet_markPosition.next fun _ => (answers_actionCall _ _ (called _ _ rfl)).closed fun _ _ =>
      (quiet_pushValue _).next fun _ => .pure trivial
  | none =>
    refine (quiet_pushValue _).next fun bundle => ?_
    by_cases some : 0 < count
    · rw [if_pos some]
      exact quiet_popPosition.next fun _ => .pure trivial
    · rw [if_neg some]
      exact .pure trivial

private def Decides (cfg : Setting) (e : Expr) : Prop :=
  ∀ {base caller scope bound}, Visible scope bound →
    (∀ node ∈ e.nodes, (cfg.types.expr node).isSome) →
    (∀ site act, caller = some (site,act) → (cfg.types.node site.id).isSome) →
    Answers (e.strays base bound) (lower cfg e base caller scope) fun result =>
      Visible result.2 (bound ++ e.exports base)

private theorem answers_alternatives {alternatives : List Expr}
    (all : ∀ e ∈ alternatives, Decides cfg e) (n : Nat) (visible : Visible scope bound)
    (typed : ∀ node ∈ Expr.nodesAll alternatives, (cfg.types.expr node).isSome) :
    Answers ((Expr.outlineAlternatives base bound alternatives).flatMap Visit.strays)
      (lowerAlternatives cfg alternatives base n scope) fun _ => True := by
  induction alternatives generalizing n with
  | nil =>
    rw [lowerAlternatives]
    exact .pure trivial
  | cons e rest ih =>
    rw [Expr.nodesAll,List.forall_mem_append] at typed
    have first : Answers (e.strays base bound) (lower cfg e base none scope) _ :=
      all e List.mem_cons_self visible typed.1 (by simp)
    have others := ih (fun e member => all e (List.mem_cons_of_mem _ member)) (n + 1) typed.2
    rw [lowerAlternatives,Expr.outlineAlternatives,List.flatMap_append]
    refine first.bind fun result _ => ?_
    dsimp only
    split
    next last =>
      rw [List.isEmpty_iff.mp last]
      exact .pure trivial
    next => exact quiet_popValue.next fun _ => others.closed fun _ _ => .pure trivial

private theorem answers_elements {elements : List Expr} (all : ∀ e ∈ elements, Decides cfg e)
    (base index first : Nat) (visible : Visible scope bound)
    (typed : ∀ node ∈ Expr.nodesAll elements, (cfg.types.expr node).isSome) :
    Answers ((Expr.outlineElements (base + index) bound elements).flatMap Visit.strays)
      (lowerElements cfg elements base index first scope) fun _ => True := by
  induction elements generalizing index first scope bound with
  | nil =>
    rw [lowerElements]
    exact .pure trivial
  | cons e rest ih =>
    rw [Expr.nodesAll,List.forall_mem_append] at typed
    have here : Answers (e.strays (base + index) bound) (lower cfg e (base + index) none scope) _ :=
      all e List.mem_cons_self visible typed.1 (by simp)
    rw [lowerElements,Expr.outlineElements,List.flatMap_append]
    refine here.bind fun result behind => ?_
    refine quiet_topValue.next fun top => (quiet_abandon _ _).next fun onFail => ?_
    exact (ih (fun e member => all e (List.mem_cons_of_mem _ member)) (index + 1) _ behind
      typed.2).closed fun _ _ => .pure trivial

private theorem visible_same {e : Expr} (none : e.exports base = []) (visible : Visible scope bound) :
    Visible scope (bound ++ e.exports base) := by
  rwa [none,List.append_nil]

private theorem decides (e : Expr) : Decides cfg e := by
  induction e using Expr.induction with
  | named site name body ih =>
    intro base caller scope bound visible typed _
    rw [Expr.nodes,List.forall_mem_cons] at typed
    rw [lower]
    exact (quiet_expectBase _ _).next fun _ =>
      answers_lowerNamed name (ih visible typed.2 (by simp))
  | choice site alternatives ih =>
    intro base caller scope bound visible typed _
    rw [Expr.nodes,List.forall_mem_cons] at typed
    rw [lower]
    refine (quiet_expectBase _ _).next fun _ => ?_
    split
    next empty =>
      rw [List.isEmpty_iff.mp empty]
      exact (quiet_pushValue _).next fun _ => .pure (visible_same rfl visible)
    next =>
      exact (answers_alternatives ih 1 visible typed.2).closed fun _ _ =>
        .pure (visible_same rfl visible)
  | action site act body ih =>
    intro base caller scope bound visible typed _
    rw [Expr.nodes,List.forall_mem_cons] at typed
    rw [lower]
    refine (quiet_expectBase _ _).next fun _ => ?_
    split
    next =>
      have called : ∀ site' act', some (site,act) = some (site',act') →
          (cfg.types.node site'.id).isSome := by
        rintro _ _ ⟨⟩
        exact typed.1
      exact (ih visible typed.2 called).closed fun _ _ => .pure (visible_same rfl visible)
    next =>
      exact (answers_lowerAction act typed.1 (ih visible typed.2 (by simp))).closed fun _ _ =>
        .pure (visible_same rfl visible)
  | sequence site elements ih =>
    intro base caller scope bound visible typed called
    rw [Expr.nodes,List.forall_mem_cons] at typed
    rw [lower]
    refine (quiet_expectBase _ _).next fun _ => ?_
    have inside := answers_elements ih base 0 base visible typed.2
    have ending : ∀ saved : List Instr, Answers ((Expr.sequence site elements).strays base bound) (do
        let inside ← lowerElements cfg elements base 0 base scope
        let close ← closeSequence cfg caller elements.length inside.2
        if elements.isEmpty then return (saved ++ close,scope)
        else return (saved ++ [.block .sequence (inside.1 ++ close)],scope)) fun result =>
          Visible result.2 (bound ++ (Expr.sequence site elements).exports base) := by
      intro saved
      refine inside.closed fun result _ => ?_
      refine (answers_closeSequence _ called).closed fun close _ => ?_
      split <;> exact .pure (visible_same rfl visible)
    dsimp only
    split
    · exact quiet_savePosition.next fun _ => (quiet_pure _).next ending
    · exact (quiet_pure _).next ending
  | labeled site label body ih =>
    intro base caller scope bound visible typed _
    rw [Expr.nodes,List.forall_mem_cons] at typed
    have known : (cfg.types.node body.site.id).isSome := typed.2 body body.mem_nodes_self
    rw [lower]
    refine (quiet_expectBase _ _).next fun _ => (answers_typeOf _ known).bind fun ty _ => ?_
    exact (ih visible typed.2 (by simp)).closed fun result _ =>
      .pure (visible.bind ⟨label,body,base⟩ ty)
  | text site body ih =>
    intro base caller scope bound visible typed _
    rw [Expr.nodes,List.forall_mem_cons] at typed
    rw [lower]
    exact (quiet_expectBase _ _).next fun _ =>
      (answers_lowerText (ih visible typed.2 (by simp)).map).closed fun _ _ =>
        .pure (visible_same rfl visible)
  | optional site body ih =>
    intro base caller scope bound visible typed _
    rw [Expr.nodes,List.forall_mem_cons] at typed
    rw [lower]
    exact (quiet_expectBase _ _).next fun _ =>
      (answers_lowerOptional (ih visible typed.2 (by simp)).map).closed fun _ _ =>
        .pure (visible_same rfl visible)
  | repeated site repetition body ih =>
    intro base caller scope bound visible typed _
    rw [Expr.nodes,List.forall_mem_cons] at typed
    rw [lower]
    exact (quiet_expectBase _ _).next fun _ =>
      (answers_lowerRepeated repetition visible (ih visible typed.2 (by simp)).map).closed
        fun _ _ => .pure (visible_same rfl visible)
  | lookahead site isNegative body ih =>
    intro base caller scope bound visible typed _
    rw [Expr.nodes,List.forall_mem_cons] at typed
    rw [lower]
    exact (quiet_expectBase _ _).next fun _ =>
      (answers_lowerLookahead isNegative (ih visible typed.2 (by simp)).map).closed fun _ _ =>
        .pure (visible_same rfl visible)
  | predicate site isNegative code ns =>
    intro base caller scope bound visible _ _
    rw [lower]
    exact (quiet_expectBase _ _).next fun _ =>
      (answers_lowerPredicate isNegative code ns).closed fun _ _ => .pure (visible_same rfl visible)
  | ruleRef site name =>
    intro base caller scope bound visible _ _
    rw [lower]
    exact (quiet_expectBase _ _).next fun _ => (quiet_pushValue _).next fun _ =>
      .pure (visible_same rfl visible)
  | literal site value ignoreCase =>
    intro base caller scope bound visible _ _
    rw [lower]
    exact (quiet_expectBase _ _).next fun _ =>
      (answers_lowerLiteral value ignoreCase).closed fun _ _ => .pure (visible_same rfl visible)
  | charClass site parts inverted ignoreCase rawText =>
    intro base caller scope bound visible _ _
    rw [lower]
    exact (quiet_expectBase _ _).next fun _ =>
      (answers_lowerClass parts inverted ignoreCase rawText).closed fun _ _ =>
        .pure (visible_same rfl visible)
  | any site =>
    intro base caller scope bound visible _ _
    rw [lower]
    exact (quiet_expectBase _ _).next fun _ => (quiet_pushValue _).next fun _ =>
      .pure (visible_same rfl visible)

theorem lowerRule_verdict {rule : Rule}
    (typed : ∀ node ∈ rule.body.nodes, (cfg.types.expr node).isSome) (isStart : Bool)
    (before : Registries) :
    Verdict (rule.body.strays 0 []) (lowerRule cfg rule isStart before).1 := by
  have body : Answers (rule.body.strays 0 []) (lowerBody cfg rule isStart) fun _ => True := by
    refine (decides rule.body .nil typed (by simp)).closed fun result _ => ?_
    intro s
    rw [outcome_bind,outcome_get]
    dsimp only
    by_cases balanced : s.values.occupied = 1 ∧ s.positions.occupied = 0
    · rw [if_pos balanced]
      exact ⟨rfl,trivial⟩
    · rw [if_neg balanced]
      exact .inl ⟨_,rfl⟩
  obtain ⟨object,position,run⟩ := lowerRule_eq cfg rule isStart before
  have faultless := lowerRule_faultless cfg rule isStart before
  have answer := body (startState object position before)
  rw [run] at faultless ⊢
  cases result : (outcome (lowerBody cfg rule isStart) (startState object position before)).1 with
  | ok sub =>
    rw [result] at answer
    rw [answer.1]
    exact .accepted sub
  | error error =>
    rw [result] at answer faultless
    rcases answer with ⟨fault,rfl⟩ | ⟨first,found,rfl⟩
    · exact absurd rfl (faultless fault)
    · obtain ⟨rest,strays⟩ := List.head?_eq_some_iff.mp found
      rw [strays]
      exact .refused first rest

end Lowering

theorem lowerRules_verdict {cfg : Setting} {rules : List Rule}
    (typed : ∀ rule ∈ rules, ∀ node ∈ rule.body.nodes, (cfg.types.expr node).isSome)
    (starts : List String) (before : Registries) :
    Verdict (rules.flatMap fun rule => rule.body.strays 0 []) (lowerRules cfg starts before rules) := by
  induction rules generalizing before with
  | nil => exact .accepted _
  | cons rule rest ih =>
    have here := lowerRule_verdict (typed rule List.mem_cons_self) (starts.contains rule.name) before
    rw [lowerRules,List.flatMap_cons]
    cases run : lowerRule cfg rule (starts.contains rule.name) before with
    | mk result middle =>
      rw [run] at here
      have others := ih (fun rule inside => typed rule (List.mem_cons_of_mem _ inside)) middle
      exact here.bind fun sub => others.closed fun lowered => ⟨_,rfl⟩

/-! Start rules. -/

def Apart (names : List String) : Prop :=
  ∀ a ∈ names, ∀ b ∈ names, upperSnake a = upperSnake b → a = b

private theorem Apart.congr {names others : List String} (same : ∀ name, name ∈ names ↔ name ∈ others) :
    Apart names ↔ Apart others := by
  simp only [Apart,same]

private theorem Apart.snoc {names : List String} {name : String} (apart : Apart names)
    (new : ∀ a ∈ names, upperSnake a ≠ upperSnake name) : Apart (names ++ [name]) := by
  intro a left b right same
  rw [List.mem_append,List.mem_singleton] at left right
  rcases left with left | rfl
  · rcases right with right | rfl
    · exact apart a left b right same
    · exact absurd same (new a left)
  · rcases right with right | rfl
    · exact absurd same.symm (new b right)
    · rfl

theorem startEntries_ok_iff {g : Grammar} {table : TypeTable} {entries : List Entry}
    {names : List String} (spelled : ∀ e ∈ entries, e.constant = upperSnake e.rule)
    (apart : Apart (entries.map (·.rule))) :
    (∃ all, startEntries g table entries names = .ok all) ↔
      (∀ name ∈ names, g.Declares name) ∧ Apart (entries.map (·.rule) ++ names) := by
  induction names generalizing entries with
  | nil => simp [startEntries,apart]
  | cons name rest ih =>
    rw [startEntries,List.forall_mem_cons]
    cases found : g.ruleIndex name with
    | none => simp [Grammar.ruleIndex_none.mp found]
    | some index =>
      have declared : g.Declares name := by
        by_contra missing
        simp [Grammar.ruleIndex_none.mpr missing] at found
      simp only [declared,true_and]
      cases earlier : entries.find? fun e => e.constant == upperSnake name with
      | some entry =>
        have member := List.mem_of_find?_eq_some earlier
        have same : upperSnake entry.rule = upperSnake name := by
          rw [← spelled entry member]
          simpa using List.find?_some earlier
        have listed : entry.rule ∈ entries.map (·.rule) := List.mem_map_of_mem member
        dsimp only
        split
        next again =>
          subst again
          rw [ih spelled apart]
          refine and_congr_right fun _ => Apart.congr fun other => ?_
          rw [List.mem_append,List.mem_append,List.mem_cons]
          constructor
          · exact fun inside => inside.imp_right .inr
          · rintro (inside | rfl | inside)
            · exact .inl inside
            · exact .inl listed
            · exact .inr inside
        next other =>
          simp only [reduceCtorEq,exists_false,false_iff,not_and]
          intro _ all
          exact other (all _ (List.mem_append_left _ listed) _
            (List.mem_append_right _ List.mem_cons_self) same)
      | none =>
        have new : ∀ a ∈ entries.map (·.rule), upperSnake a ≠ upperSnake name := by
          intro a listed same
          obtain ⟨entry,member,rfl⟩ := List.mem_map.mp listed
          have other := List.find?_eq_none.mp earlier entry member
          rw [spelled entry member,same] at other
          exact other (beq_self_eq_true _)
        let entry : Entry := ⟨name,upperSnake name,(table.rule index).getD .object⟩
        have added : ∀ e ∈ entries ++ [entry], e.constant = upperSnake e.rule :=
          List.forall_mem_append.mpr ⟨spelled,List.forall_mem_singleton.mpr rfl⟩
        have grown := ih added (by simpa using apart.snoc new)
        simpa using grown

structure Options.Accepted (options : Options) (g : Grammar) : Prop where
  some : options.startRules (g.rules.head?.map (·.name)) ≠ []
  declared : ∀ name ∈ options.startRules (g.rules.head?.map (·.name)), g.Declares name
  apart : Apart (options.startRules (g.rules.head?.map (·.name)))

theorem Options.accepted_iff {options : Options} {g : Grammar} (table : TypeTable) :
    options.Accepted g ↔ options.startRules (g.rules.head?.map (·.name)) ≠ [] ∧
      ∃ all, startEntries g table [] (options.startRules (g.rules.head?.map (·.name))) = .ok all := by
  rw [startEntries_ok_iff (by simp) (by simp [Apart])]
  exact ⟨fun accepted => ⟨accepted.some,accepted.declared,accepted.apart⟩,
    fun ⟨listed,declared,apart⟩ => ⟨listed,declared,apart⟩⟩

variable {g : Grammar} {table : TypeTable} {options : Options}

theorem parserClass_verdict (accepted : options.Accepted g)
    (rules : ∀ index < g.rules.length, (table.rule index).isSome)
    (nodes : ∀ e ∈ g.nodes, (table.expr e).isSome) :
    Verdict g.strays (parserClass g table options) := by
  have typed : firstUntyped table 0 g.rules = none := firstUntyped_none (by simpa using rules)
  obtain ⟨some,entries,started⟩ := (Options.accepted_iff table).mp accepted
  obtain ⟨registries,fresh⟩ := fresh_ok ⟨options.useFullyQualifiedNames⟩
  have prepared : internalError (Registries.fresh ⟨options.useFullyQualifiedNames⟩) = .ok registries := by
    rw [fresh,internalError]
  unfold parserClass
  rw [typed]
  dsimp only
  cases starts : options.startRules (g.rules.head?.map (·.name)) with
  | nil => exact absurd starts some
  | cons defaultRule others =>
    rw [starts] at started
    simp only [started,prepared]
    refine (lowerRules_verdict ?_ _ _).closed fun lowered => ⟨_,rfl⟩
    exact fun rule declared node inside => nodes node (Grammar.body_mem_nodes declared inside)

theorem generate_verdict (accepted : options.Accepted g)
    (rules : ∀ index < g.rules.length, (table.rule index).isSome)
    (nodes : ∀ e ∈ g.nodes, (table.expr e).isSome) :
    Verdict g.strays (generate g table options) := by
  have laid : Verdict g.strays (generateStmts g table options) := by
    refine (parserClass_verdict accepted rules nodes).closed fun p => ?_
    obtain ⟨stmts,spelled⟩ := ParserClass.toStmts_ok p
    exact ⟨stmts,by rw [spelled,internalError]⟩
  exact laid.closed fun stmts => ⟨_,rfl⟩

theorem Grammar.strays_iff : g.strays ≠ [] ↔
    ∃ rule ∈ g.rules, ∃ visit ∈ rule.body.outline 0 [], ∃ site min max body label,
      visit.node = .repeated site (.range min max) body ∧
      (min = .label label ∨ max = some (.label label)) ∧ label ∉ visit.bound.map (·.label) := by
  have member {stray : Stray} : stray ∈ g.strays ↔ ∃ rule ∈ g.rules,
      ∃ visit ∈ rule.body.outline 0 [], stray ∈ visit.strays := by
    simp only [strays,Expr.strays,List.mem_flatMap]
  constructor
  · intro some
    obtain ⟨stray,present⟩ := List.exists_mem_of_ne_nil _ some
    obtain ⟨rule,declared,visit,inside,here⟩ := member.mp present
    obtain ⟨site,min,max,body,node,named,outside,-⟩ := Visit.mem_strays.mp here
    exact ⟨rule,declared,visit,inside,site,min,max,body,stray.label,node,named,outside⟩
  · rintro ⟨rule,declared,visit,inside,site,min,max,body,label,node,named,outside⟩
    have here : ⟨label,body.location⟩ ∈ visit.strays :=
      Visit.mem_strays.mpr ⟨site,min,max,body,node,named,outside,rfl⟩
    exact List.ne_nil_of_mem (member.mpr ⟨rule,declared,visit,inside,here⟩)

/-- For every grammar that type-checks and all options whose start rules are accepted: compiling
fails just when a bound of some range names a label that is not in scope there, and then it fails
with the first such label, over rules in order of declaration, nodes in front of their parts and
lower bounds in front of upper ones, at the place of the repeated expression. -/
theorem unbound_labels_decide (g : Grammar) (options : Options) (log : Diagnostics)
    (checked : (check g options.defaultActionReturnType log).isOk) (accepted : options.Accepted g) :
    ((∃ error, (compile g options log).1 = .error error) ↔
      ∃ rule ∈ g.rules, ∃ visit ∈ rule.body.outline 0 [], ∃ site min max body label,
        visit.node = .repeated site (.range min max) body ∧
        (min = .label label ∨ max = some (.label label)) ∧ label ∉ visit.bound.map (·.label)) ∧
    ∀ error, (compile g options log).1 = .error error → ∃ first, g.strays.head? = some first ∧
      error = .generate (.unboundLabel first.label first.location) := by
  obtain ⟨rules,nodes⟩ := check_covered checked
  have verdict := generate_verdict accepted rules nodes
  rw [← Grammar.strays_iff]
  unfold compile
  rw [if_pos checked]
  generalize strays : g.strays = all at verdict ⊢
  generalize generate g (check g options.defaultActionReturnType log).table options = result at verdict ⊢
  cases verdict with
  | accepted source => simp
  | refused first rest =>
    refine ⟨⟨fun _ => List.cons_ne_nil first rest,fun _ => ⟨_,rfl⟩⟩,?_⟩
    rintro _ ⟨⟩
    exact ⟨first,rfl,rfl⟩

def lineGrammar : Grammar := .ofRules [] [
  { name := "line",
    body := .sequence {} [.named {} "length" (.labeled {} "n" (.ruleRef {} "number")),
      .repeated {} (.range (.label "n") (some (.label "n"))) (.any {})] },
  { name := "number",
    body := .sequence {} [.labeled {} "sign" (.optional {} (.literal {} "-" false)),
      .action {} { code := "return d;" } (.labeled {} "d" (.any {})),
      .repeated {} (.range (.label "sign") (some (.label "d")))
        (.any { location := ⟨⟨40,2,10⟩,⟨41,2,11⟩⟩ })] }]

theorem lineGrammar_refused : (check lineGrammar (some "int") {}).isOk ∧
    (compile lineGrammar { defaultActionReturnType := some "int" } {}).1 =
      .error (.generate (.unboundLabel "d" ⟨⟨40,2,10⟩,⟨41,2,11⟩⟩)) := by
  have checked : (check lineGrammar (some "int") {}).isOk := by decide +kernel
  have accepted : ({ defaultActionReturnType := some "int" } : Options).Accepted lineGrammar :=
    ⟨by decide +kernel,by unfold Grammar.Declares; decide +kernel,by unfold Apart; decide +kernel⟩
  have strays : lineGrammar.strays = [⟨"d",⟨⟨40,2,10⟩,⟨41,2,11⟩⟩⟩] := by decide +kernel
  obtain ⟨fails,first⟩ := unbound_labels_decide lineGrammar { defaultActionReturnType := some "int" }
    {} checked accepted
  obtain ⟨error,failed⟩ := fails.mpr (Grammar.strays_iff.mp (by simp [strays]))
  obtain ⟨stray,found,rfl⟩ := first error failed
  rw [strays,List.head?_cons,Option.some.injEq] at found
  subst found
  exact ⟨checked,failed⟩

end PegCompiler
