import PegCompiler.Proofs.Grammar.Scoping
import PegCompiler.Proofs.Lowering.Labels
import PegCompiler.Proofs.Lowering.Shape
import PegCompiler.Proofs.Semantics.Reading
import Mathlib.Data.List.Forall2
import Mathlib.Data.List.Induction
import Mathlib.Data.List.Nodup

/-! What the code of a rule names by number. The constants and methods that code refers to are, in
order, those that the nodes of the rule's expression need, and a method is handed the labels that
are lexically in scope where its code stands. -/
namespace PegCompiler

def Registries.lookup (registries : Registries) : Alias → Option Resource
  | .pattern index => (registries.patterns.values.get? index).map .pattern
  | .expected index => (registries.expected.values.get? index).map .expected
  | .method kind index => ((registries.userCode.methods kind).get? index).map (.method kind)

structure Need where
  resource : Resource
  bound : List Labelled := []

namespace Lowering

open Semantics (labelType)

def latest (bound : List Labelled) (label : String) : Option Labelled :=
  bound.reverse.find? fun l => l.label == label

/-- The parameters of a method that sees these labels: each label once, in the order of first
binding, with the type of the expression that it names last. -/
def paramsFor (cfg : Setting) (bound : List Labelled) : List (String × String) :=
  (bound.map (·.label)).eraseDups.map fun label =>
    (label,((latest bound label).map fun l => labelType cfg l.body.id).getD "")

def actionNeed (cfg : Setting) (site : Site) (act : Action) (bound : List Labelled) : Need :=
  ⟨.method .action ⟨act.ns,labelType cfg site.id,act.code,paramsFor cfg bound⟩,bound⟩

def needs (cfg : Setting) (visit : Visit) : List Need :=
  match visit.node with
  | .named _ name _ => [⟨.expected (expectation cfg .rule none (some name)),[]⟩]
  | .literal _ value ignoreCase => [⟨.expected (expectation cfg .literal
      (some (if ignoreCase then Text.lowercase value else value))
      (some (Target.stringLiteral value))),[]⟩]
  | .charClass _ parts inverted ignoreCase rawText =>
    [⟨.pattern (patternInitializer (cfg.imports.className "Pattern") (classPattern parts)
        ignoreCase),[]⟩,
      ⟨.expected (expectation cfg .pattern (some (classShown parts inverted)) (some rawText)),[]⟩]
  | .predicate _ _ code ns =>
    [⟨.method .predicate ⟨ns,"boolean",code,paramsFor cfg visit.bound⟩,visit.bound⟩]
  | .action site act body => [actionNeed cfg site act (visit.bound ++ body.handed visit.base)]
  | _ => []

def needsOf (cfg : Setting) (visits : List Visit) : List Need :=
  visits.flatMap (needs cfg)

inductive Within (piece : List Instr) : List Instr → Prop
  | here (before after : List Instr) : Within piece (before ++ piece ++ after)
  | block {kind : BlockKind} {body : List Instr} (before after : List Instr) :
      Within piece body → Within piece (before ++ .block kind body :: after)

theorem Within.split {piece code : List Instr} (before after : List Instr)
    (split : code = before ++ piece ++ after) : Within piece code :=
  split ▸ .here before after

theorem Within.append {piece code : List Instr} (inside : Within piece code)
    (before after : List Instr) : Within piece (before ++ code ++ after) := by
  cases inside with
  | here front back =>
    refine .split (before ++ front) (back ++ after) ?_
    simp only [List.append_assoc]
  | @block kind body front back inner =>
    have whole : before ++ (front ++ .block kind body :: back) ++ after =
        (before ++ front) ++ .block kind body :: (back ++ after) := by simp
    rw [whole]
    exact .block _ _ inner

theorem Within.trans {piece middle code : List Instr} (inner : Within piece middle)
    (outer : Within middle code) : Within piece code := by
  induction outer with
  | here before after => exact inner.append before after
  | block before after _ ih => exact .block before after ih

structure Shows (cfg : Setting) (Placed : Labelled → Prop) (scope : Scope)
    (bound : List Labelled) : Prop where
  labels : scope.map (·.label) = (bound.map (·.label)).eraseDups
  each : ∀ b ∈ scope, ∃ l, latest bound b.label = some l ∧ b.slot = l.slot ∧
    cfg.types.expr l.body = some b.type ∧ Placed l

section EraseDups

variable {α : Type} [BEq α] [LawfulBEq α]

theorem eraseDups_snoc (values : List α) (value : α) :
    (values ++ [value]).eraseDups =
      if value ∈ values then values.eraseDups else values.eraseDups ++ [value] := by
  rw [List.eraseDups_append]
  by_cases known : value ∈ values
  · simp [List.removeAll,known]
  · simp [List.removeAll,known,List.eraseDups_cons]

theorem eraseDups_nodup (values : List α) : values.eraseDups.Nodup := by
  induction values using List.reverseRecOn with
  | nil => simp
  | append_singleton values value ih =>
    rw [eraseDups_snoc]
    split
    next => exact ih
    next fresh =>
      have absent : value ∉ values.eraseDups := by rwa [List.mem_eraseDups]
      simpa using ih.concat absent

end EraseDups

section Scopes

variable {cfg : Setting} {Placed : Labelled → Prop} {scope : Scope} {bound : List Labelled}

theorem latest_snoc (bound : List Labelled) (l : Labelled) (label : String) :
    latest (bound ++ [l]) label = if l.label = label then some l else latest bound label := by
  unfold latest
  rw [List.reverse_append,List.reverse_singleton,List.singleton_append,List.find?_cons]
  by_cases same : l.label = label
  · simp [same]
  · simp [same,beq_eq_false_iff_ne.mpr same]

private theorem bind_labels (scope : Scope) (b : Binding) : (scope.bind b).map (·.label) =
    if b.label ∈ scope.map (·.label) then scope.map (·.label)
    else scope.map (·.label) ++ [b.label] := by
  induction scope with
  | nil => rfl
  | cons first rest ih =>
    rw [Scope.bind]
    by_cases here : first.label = b.label
    · simp [here]
    · have other : b.label ≠ first.label := Ne.symm here
      rw [if_neg here,List.map_cons,ih]
      by_cases later : b.label ∈ rest.map (·.label) <;> simp [later,other]

/-- Binding a label leaves all others as they were. -/
private theorem mem_bind {b other : Binding} (distinct : (scope.map (·.label)).Nodup)
    (member : other ∈ scope.bind b) : other = b ∨ other ∈ scope ∧ other.label ≠ b.label := by
  induction scope with
  | nil => exact .inl (List.mem_singleton.mp member)
  | cons first rest ih =>
    rw [List.map_cons,List.nodup_cons] at distinct
    rw [Scope.bind] at member
    split at member
    next here =>
      rcases List.mem_cons.mp member with rfl | later
      · exact .inl rfl
      · refine .inr ⟨List.mem_cons_of_mem _ later,fun same => distinct.1 ?_⟩
        rw [here,← same]
        exact List.mem_map_of_mem later
    next elsewhere =>
      rcases List.mem_cons.mp member with rfl | later
      · exact .inr ⟨List.mem_cons_self,elsewhere⟩
      · rcases ih distinct.2 later with same | ⟨inside,differs⟩
        · exact .inl same
        · exact .inr ⟨List.mem_cons_of_mem _ inside,differs⟩

theorem Shows.nil : Shows cfg Placed [] [] := ⟨rfl,by simp⟩

theorem Shows.distinct (shown : Shows cfg Placed scope bound) : (scope.map (·.label)).Nodup := by
  rw [shown.labels]
  exact eraseDups_nodup _

/-- Binding a label in the scope is one more binding. -/
theorem Shows.bind {l : Labelled} {ty : Ty} (shown : Shows cfg Placed scope bound)
    (typed : cfg.types.expr l.body = some ty) (placed : Placed l) :
    Shows cfg Placed (scope.bind ⟨l.label,l.slot,ty⟩) (bound ++ [l]) := by
  constructor
  · rw [bind_labels,List.map_append,List.map_singleton,eraseDups_snoc,shown.labels]
    simp only [List.mem_eraseDups]
  · intro b member
    rcases mem_bind shown.distinct member with rfl | ⟨inside,differs⟩
    · exact ⟨l,by simp [latest_snoc],rfl,typed,placed⟩
    · obtain ⟨found,last,rest⟩ := shown.each b inside
      refine ⟨found,?_,rest⟩
      rw [latest_snoc,if_neg (Ne.symm differs)]
      exact last

theorem Shows.params (shown : Shows cfg Placed scope bound) :
    (scope.map (passedFor cfg)).map (fun p => (p.param,p.type)) = paramsFor cfg bound := by
  unfold paramsFor
  rw [← shown.labels,List.map_map,List.map_map]
  apply List.map_congr_left
  intro b member
  obtain ⟨l,last,-,typed,-⟩ := shown.each b member
  have node : cfg.types.node l.body.id = some b.type := typed
  simp [passedFor,last,labelType,node]

end Scopes

structure Serves (cfg : Setting) (final : Registries) (Placed : Labelled → Prop)
    (reference : Reference) (need : Need) : Prop where
  found : final.lookup reference.target = some need.resource
  names : reference.arguments.map (·.param) = (need.bound.map (·.label)).eraseDups
  passed : ∀ p ∈ reference.arguments, ∃ l, latest need.bound p.param = some l ∧ p.slot = l.slot ∧
    p.type = labelType cfg l.body.id ∧ (cfg.types.expr l.body).isSome ∧ Placed l
  params : ∀ kind method, need.resource = .method kind method →
    method.params = reference.arguments.map fun p => (p.param,p.type)

theorem related {α β : Type} {R : α → β → Prop} {xs : List α} {ys : List β}
    (all : List.Forall₂ R xs ys) {a : α} (member : a ∈ xs) : ∃ b ∈ ys, R a b := by
  induction all with
  | nil => exact nomatch member
  | @cons x y xs ys head _ ih =>
    rcases List.mem_cons.mp member with rfl | inside
    · exact ⟨y,List.mem_cons_self,head⟩
    · obtain ⟨b,present,relation⟩ := ih inside
      exact ⟨b,List.mem_cons_of_mem _ present,relation⟩

section Tracing

variable {cfg : Setting} {final : Registries} {Placed : Labelled → Prop} {scope : Scope}
  {bound : List Labelled} {code : List Instr}

def Places (cfg : Setting) (final : Registries) (Placed : Labelled → Prop) (code : List Instr) :
    Prop :=
  ∀ l depth scope piece inner, Emits cfg final l.body l.slot depth none scope piece inner →
    Within piece code → Placed l

theorem Places.part {piece : List Instr} (places : Places cfg final Placed code)
    (inside : Within piece code) : Places cfg final Placed piece :=
  fun l depth scope piece inner emitted part =>
    places l depth scope piece inner emitted (part.trans inside)

private theorem Shows.passed (shown : Shows cfg Placed scope bound) {p : Passed}
    (member : p ∈ scope.map (passedFor cfg)) : ∃ l, latest bound p.param = some l ∧
      p.slot = l.slot ∧ p.type = labelType cfg l.body.id ∧ (cfg.types.expr l.body).isSome ∧
      Placed l := by
  obtain ⟨b,inside,rfl⟩ := List.mem_map.mp member
  obtain ⟨l,last,slot,typed,placed⟩ := shown.each b inside
  have node : cfg.types.node l.body.id = some b.type := typed
  refine ⟨l,last,slot,?_,by simp [typed],placed⟩
  simp [passedFor,labelType,node]

/-- A call that is handed the scope serves a need of the labels bound. -/
private theorem Shows.serves (shown : Shows cfg Placed scope bound) {kind : MethodKind}
    {index : Nat} {ns : Option String} {type body : String}
    (registered : (final.userCode.methods kind).get? index =
      some (methodFor ns type body (scope.map (passedFor cfg)))) :
    Serves cfg final Placed ⟨.method kind index,scope.map (passedFor cfg)⟩
      ⟨.method kind ⟨ns,type,body,paramsFor cfg bound⟩,bound⟩ where
  found := by
    rw [Registries.lookup,registered,methodFor,shown.params]
    rfl
  names := by
    rw [← shown.labels,List.map_map]
    rfl
  passed _ member := shown.passed member
  params kind method same := by
    cases same
    exact shown.params.symm

private theorem Shows.serves_action (shown : Shows cfg Placed scope bound) {site : Site}
    {act : Action} {index : Nat} (registered : ActionAt cfg final site act scope index) :
    Serves cfg final Placed ⟨.method .action index,scope.map (passedFor cfg)⟩
      (actionNeed cfg site act bound) := by
  obtain ⟨ty,typed,found⟩ := registered
  have type : labelType cfg site.id = cfg.imports.spelling ty := by simp [labelType,typed]
  rw [actionNeed,type]
  exact shown.serves found

private theorem serves_expected {index : Nat} {initializer : String}
    (found : final.expected.values.get? index = some initializer) :
    Serves cfg final Placed ⟨.expected index,[]⟩ ⟨.expected initializer,[]⟩ :=
  ⟨by simp [Registries.lookup,found],rfl,by simp,nofun⟩

private theorem serves_pattern {index : Nat} {initializer : String}
    (found : final.patterns.values.get? index = some initializer) :
    Serves cfg final Placed ⟨.pattern index,[]⟩ ⟨.pattern initializer,[]⟩ :=
  ⟨by simp [Registries.lookup,found],rfl,by simp,nofun⟩

private def called (cfg : Setting) (caller : Option (Site × Action)) (e : Expr) (base : Nat)
    (bound : List Labelled) : List Need :=
  if e.isSequence then
    caller.toList.map fun c => actionNeed cfg c.1 c.2 (bound ++ e.handed base)
  else []

private def Traced (cfg : Setting) (final : Registries) (e : Expr) : Prop :=
  ∀ ⦃Placed base depth caller scope code inner bound⦄,
    Emits cfg final e base depth caller scope code inner → Places cfg final Placed code →
    Shows cfg Placed scope bound →
    List.Forall₂ (Serves cfg final Placed) (Instr.referencesAll code)
      (needsOf cfg (e.visits base bound) ++ called cfg caller e base bound) ∧
    Shows cfg Placed inner (bound ++ e.exports base)

@[simp] theorem referencesAll_abandoned (base depth index : Nat) :
    Instr.referencesAll (abandoned base depth index) = [] := by
  unfold abandoned
  split <;> rfl

@[simp] theorem referencesAll_shortage (min : Boundary) (base depth : Nat) (least : Bound) :
    Instr.referencesAll (shortage min base depth least) = [] := by
  unfold shortage undone
  cases canFail min <;> cases needsRollback min <;> rfl

@[simp] theorem referencesAll_negated (isNegative : Bool) (base : Nat) :
    Instr.referencesAll (negated isNegative base) = [] := by
  cases isNegative <;> rfl

@[simp] theorem referencesAll_loopBody (base : Nat) (most : Option Bound)
    (code : List Instr) :
    Instr.referencesAll (loopBody base most code) = Instr.referencesAll code := by
  cases most <;> simp [loopBody]

@[simp] private theorem needsOf_append (first second : List Visit) :
    needsOf cfg (first ++ second) = needsOf cfg first ++ needsOf cfg second :=
  List.flatMap_append

@[simp] private theorem needsOf_cons (visit : Visit) (rest : List Visit) :
    needsOf cfg (visit :: rest) = needs cfg visit ++ needsOf cfg rest :=
  List.flatMap_cons ..

@[simp] private theorem needsOf_nil : needsOf cfg [] = [] := rfl

private theorem Traced.part {e : Expr} {base depth : Nat} {piece : List Instr} {inner : Scope}
    (traced : Traced cfg final e) (emitted : Emits cfg final e base depth none scope piece inner)
    (places : Places cfg final Placed code) (inside : Within piece code)
    (shown : Shows cfg Placed scope bound) :
    List.Forall₂ (Serves cfg final Placed) (Instr.referencesAll piece)
      (needsOf cfg (e.visits base bound)) ∧ Shows cfg Placed inner (bound ++ e.exports base) := by
  have whole := traced emitted (places.part inside) shown
  simpa [called] using whole

private theorem alternatives_traced {alternatives : List Expr} {base depth n : Nat}
    (all : ∀ e ∈ alternatives, Traced cfg final e)
    (emitted : EmitsAlternatives cfg final alternatives base depth n scope code)
    (places : Places cfg final Placed code) (shown : Shows cfg Placed scope bound) :
    List.Forall₂ (Serves cfg final Placed) (Instr.referencesAll code)
      (needsOf cfg (Expr.visitsAlternatives base bound alternatives)) := by
  induction alternatives generalizing n code with
  | nil => cases emitted
  | cons e rest ih =>
    cases emitted with
    | @last _ _ _ _ _ piece _ alone =>
      have first := (all e List.mem_cons_self).part alone places
        (.split [.alternative n] [] (by simp)) shown
      simpa [Expr.visitsAlternatives] using first.1
    | @cons _ _ _ _ _ _ piece _ others _ alone tail =>
      have first := (all e List.mem_cons_self).part alone places
        (.split [.alternative n] ([.brief (.matched base) .leave,.blank] ++ others) (by simp)) shown
      have later := ih (fun e member => all e (List.mem_cons_of_mem _ member)) tail
        (places.part (.split _ [] (List.append_nil _).symm))
      have both := List.rel_append first.1 later
      simpa [Expr.visitsAlternatives] using both

private theorem elements_traced {elements : List Expr} {base depth index : Nat} {inner : Scope}
    (all : ∀ e ∈ elements, Traced cfg final e)
    (emitted : EmitsElements cfg final elements base depth index scope code inner)
    (places : Places cfg final Placed code) (shown : Shows cfg Placed scope bound) :
    List.Forall₂ (Serves cfg final Placed) (Instr.referencesAll code)
      (needsOf cfg (Expr.visitsElements (base + index) bound elements)) ∧
    Shows cfg Placed inner (bound ++ Expr.exportsAll (base + index) elements) := by
  induction elements generalizing index scope bound code with
  | nil =>
    cases emitted
    exact ⟨.nil,by simpa [Expr.exportsAll] using shown⟩
  | cons e rest ih =>
    cases emitted with
    | @cons _ _ _ _ _ _ piece _ others _ alone tail =>
      have first := (all e List.mem_cons_self).part alone places (.split [.element (index + 1)]
        ([.ifThen (.failed (base + index)) (abandoned base depth index),.blank] ++ others)
        (by simp)) shown
      have later := ih (fun e member => all e (List.mem_cons_of_mem _ member)) tail
        (places.part (.split _ [] (List.append_nil _).symm)) first.2
      have both := List.rel_append first.1 later.1
      refine ⟨?_,?_⟩
      · simpa [Expr.visitsElements,Nat.add_assoc] using both
      · simpa [Expr.exportsAll,Nat.add_assoc] using later.2

private theorem closes_traced {base depth count : Nat} {caller : Option (Site × Action)}
    (closed : Closes cfg final base depth count scope caller code)
    (shown : Shows cfg Placed scope bound) :
    List.Forall₂ (Serves cfg final Placed) (Instr.referencesAll code)
      (caller.toList.map fun c => actionNeed cfg c.1 c.2 bound) := by
  cases closed with
  | bundle => exact .nil
  | call registered => exact .cons (shown.serves_action registered) .nil

private theorem expr_traced (e : Expr) : Traced cfg final e := by
  induction e using Expr.induction with
  | named site name body ih =>
    intro Placed base depth caller scope code inner bound emitted places shown
    cases emitted with
    | named found part =>
      have traced := ih.part part places (.here _ _) shown
      have both := List.rel_append traced.1 (.cons (serves_expected found) .nil)
      refine ⟨?_,traced.2⟩
      simpa [Expr.visits,needs,called,Expr.isSequence] using both
  | choice site alternatives ih =>
    intro Placed base depth caller scope code inner bound emitted places shown
    cases emitted with
    | choice_empty =>
      refine ⟨?_,by simpa [Expr.exports] using shown⟩
      simp [Expr.visits,Expr.visitsAlternatives,needs,called,Expr.isSequence]
    | choice _ parts =>
      have traced := alternatives_traced ih parts
        (places.part (.block [] [] (.split [] [] (by simp)))) shown
      refine ⟨?_,by simpa [Expr.exports] using shown⟩
      simpa [Expr.visits,needs,called,Expr.isSequence] using traced
  | action site act body ih =>
    intro Placed base depth caller scope code inner bound emitted places shown
    cases emitted with
    | action_sequence part =>
      -- the sequence makes the call, so what it needs for its caller is the need of the action
      have traced := ih part places shown
      refine ⟨?_,by simpa [Expr.exports] using shown⟩
      simpa [Expr.visits,needs,called,Expr.isSequence] using traced.1
    | action plain part registered =>
      have traced := ih.part part places (.here _ _) shown
      have seen : body.handed base = body.exports base := by
        cases body <;> first | rfl | cases plain
      have both := List.rel_append traced.1 (.cons (traced.2.serves_action registered) .nil)
      refine ⟨?_,by simpa [Expr.exports] using shown⟩
      simpa [Expr.visits,needs,called,Expr.isSequence,seen] using both
  | sequence site elements ih =>
    intro Placed base depth caller scope code inner bound emitted places shown
    refine ⟨?_,?_⟩
    · cases emitted with
      | sequence_empty closed =>
        have traced := closes_traced closed shown
        cases caller <;>
          simpa [Expr.visits,Expr.visitsElements,needs,called,Expr.isSequence,Expr.handed,
            Expr.exportsAll] using traced
      | sequence _ parts closed =>
        have traced := elements_traced ih parts
          (places.part (.block [_] [] (.split [] _ rfl))) shown
        have both := List.rel_append traced.1 (closes_traced closed traced.2)
        simpa [Expr.visits,needs,called,Expr.isSequence,Expr.handed] using both
    · cases emitted <;> simpa [Expr.exports] using shown
  | labeled site label body ih =>
    intro Placed base depth caller scope code inner bound emitted places shown
    cases emitted with
    | labeled typed part =>
      have traced := ih.part part places (.split [] [] (by simp)) shown
      have placed := places ⟨label,body,base⟩ _ _ _ _ part (.split [] [] (by simp))
      refine ⟨?_,shown.bind (l := ⟨label,body,base⟩) typed placed⟩
      simpa [Expr.visits,needs,called,Expr.isSequence] using traced.1
  | text site body ih =>
    intro Placed base depth caller scope code inner bound emitted places shown
    cases emitted with
    | text part =>
      have traced := ih.part part places (.here _ _) shown
      refine ⟨?_,by simpa [Expr.exports] using shown⟩
      simpa [Expr.visits,needs,called,Expr.isSequence] using traced.1
  | optional site body ih =>
    intro Placed base depth caller scope code inner bound emitted places shown
    cases emitted with
    | optional part =>
      have traced := ih.part part places (.split [] _ rfl) shown
      refine ⟨?_,by simpa [Expr.exports] using shown⟩
      simpa [Expr.visits,needs,called,Expr.isSequence] using traced.1
  | repeated site repetition body ih =>
    intro Placed base depth caller scope code inner bound emitted places shown
    cases emitted with
    | @repeated _ _ _ _ _ _ _ piece _ least most lower upper part =>
      -- the code of the body stands in the loop, which stands in the block of the repetition
      have loop : Within piece (loopBody base most piece) := .here _ _
      have inside := @Within.block piece .range _
        ((if needsRollback repetition.min then [.step (.save depth)] else []) ++
          [.step (.assign base (.array []))]) (shortage repetition.min base depth least) loop
      have traced := ih.part part places (by simpa using inside) shown
      refine ⟨?_,by simpa [Expr.exports] using shown⟩
      cases needsRollback repetition.min <;>
        simpa [Expr.visits,needs,called,Expr.isSequence] using traced.1
  | lookahead site isNegative body ih =>
    intro Placed base depth caller scope code inner bound emitted places shown
    cases emitted with
    | lookahead part =>
      have traced := ih.part part places (.split _ _ (List.append_assoc ..)) shown
      refine ⟨?_,by simpa [Expr.exports] using shown⟩
      simpa [Expr.visits,needs,called,Expr.isSequence] using traced.1
  | predicate site isNegative code ns =>
    intro Placed base depth caller scope code inner bound emitted places shown
    cases emitted with
    | predicate registered =>
      refine ⟨?_,by simpa [Expr.exports] using shown⟩
      have served := shown.serves registered
      simpa [Expr.visits,needs,called,Expr.isSequence] using served
  | ruleRef site name =>
    intro Placed base depth caller scope code inner bound emitted places shown
    cases emitted
    refine ⟨?_,by simpa [Expr.exports] using shown⟩
    simp [Expr.visits,needs,called,Expr.isSequence]
  | literal site value ignoreCase =>
    intro Placed base depth caller scope code inner bound emitted places shown
    cases emitted with
    | literal found =>
      refine ⟨?_,by simpa [Expr.exports] using shown⟩
      have served := @serves_expected cfg _ Placed _ _ found
      simpa [Expr.visits,needs,called,Expr.isSequence] using served
  | charClass site parts inverted ignoreCase rawText =>
    intro Placed base depth caller scope code inner bound emitted places shown
    cases emitted with
    | charClass compiled described =>
      refine ⟨?_,by simpa [Expr.exports] using shown⟩
      have first := @serves_pattern cfg _ Placed _ _ compiled
      have second := @serves_expected cfg _ Placed _ _ described
      simpa [Expr.visits,needs,called,Expr.isSequence] using ⟨first,second⟩
  | any site =>
    intro Placed base depth caller scope code inner bound emitted places shown
    cases emitted
    refine ⟨?_,by simpa [Expr.exports] using shown⟩
    simp [Expr.visits,needs,called,Expr.isSequence]

/-- The labelled expression is lowered above as many values as the label says: its code, which
leaves its result in that local, stands in `code`. -/
def LoweredIn (cfg : Setting) (final : Registries) (code : List Instr) (l : Labelled) : Prop :=
  ∃ depth scope piece inner, Emits cfg final l.body l.slot depth none scope piece inner ∧
    Within piece code

/-- The code of a whole expression refers, in order, to what its nodes need. -/
theorem emits_references {e : Expr} {depth : Nat} {inner : Scope}
    (emitted : Emits cfg final e 0 depth none [] code inner) :
    List.Forall₂ (Serves cfg final (LoweredIn cfg final code)) (Instr.referencesAll code)
      (needsOf cfg (e.visits 0 [])) := by
  have places : Places cfg final (LoweredIn cfg final code) code :=
    fun l depth scope piece inner alone inside => ⟨depth,scope,piece,inner,alone,inside⟩
  exact ((expr_traced e).part emitted places (.split [] [] (by simp)) .nil).1

end Tracing

end Lowering

end PegCompiler
