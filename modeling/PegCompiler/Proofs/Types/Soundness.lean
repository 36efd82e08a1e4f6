import PegCompiler.Proofs.Lowering.Calling
import PegCompiler.Proofs.Types.Fixpoint

/-! Recorded types are sound: a match has a value of the type recorded for its node. At a fixpoint
this holds of a node if it holds of its parts and of the rules it refers to, so it follows by
induction on the depth of references and on the expression. Hence labels have values of the types
recorded for their nodes, and the casts in front of code of the author let these values through. -/
namespace PegCompiler.Semantics

open Lowering

variable {ω π : Type}

/-- What evaluations rely on: characters and literals yield characters and text, and the actions of
the grammar values of the types decided for them. -/
structure Meaning.WellTyped (μ : Meaning ω π) (g : Grammar) (default : Option String)
    (named : String → Datum ω → Prop) : Prop where
  literal : ∀ value ignoreCase p d q, μ.literal value ignoreCase p (.matched d) q →
    ∃ s, d = .text s
  charClass : ∀ parts inverted ignoreCase p d q,
    μ.charClass parts inverted ignoreCase p (.matched d) q → ∃ c, d = .char c
  any : ∀ p d q, μ.any p (.matched d) q → ∃ c, d = .char c
  action : ∀ site act body, .action site act body ∈ g.nodes → ∀ ty,
    act.seedType default = some ty → ∀ labels start stop d,
    μ.action site act labels start stop d → Inhabits named ty d

def OfType (named : String → Datum ω → Prop) (ty : Option Ty) (d : Datum ω) : Prop :=
  ∃ known, ty = some known ∧ Inhabits named known d

section Evaluation

variable {g : Grammar} {default : Option String} {table : TypeTable}
variable {named : String → Datum ω → Prop} {μ : Meaning ω π} {call : String → Parser ω π}

def CallsTyped (g : Grammar) (table : TypeTable) (named : String → Datum ω → Prop)
    (call : String → Parser ω π) : Prop :=
  ∀ name index p d q, g.ruleIndex name = some index → call name p (.matched d) q →
    OfType named (table.rule index) d

private theorem mapM_some {es : List Expr} {types : List Ty}
    (all : es.mapM table.expr = some types) {e : Expr} (member : e ∈ es) :
    ∃ ty ∈ types, table.expr e = some ty := by
  induction es generalizing types with
  | nil => exact nomatch member
  | cons first rest ih =>
    rw [List.mapM_cons] at all
    obtain ⟨ty,found,others⟩ := Option.bind_eq_some_iff.mp all
    obtain ⟨tys,listed,whole⟩ := Option.bind_eq_some_iff.mp others
    obtain rfl := Option.some.inj whole
    rcases List.mem_cons.mp member with rfl | later
    · exact ⟨ty,List.mem_cons_self,found⟩
    · obtain ⟨other,inside,typed⟩ := ih listed later
      exact ⟨other,List.mem_cons_of_mem _ inside,typed⟩

private theorem Choose.chosen {alternatives : List Expr} {ls : Labels ω} {p q : π} {d : Datum ω}
    (chosen : Choose μ call alternatives ls p (.matched d) q) :
    ∃ e ∈ alternatives, Eval μ call e ls p (.matched d) q := by
  induction alternatives with
  | nil => exact nomatch chosen
  | cons e rest ih =>
    cases chosen with
    | first matched => exact ⟨e,List.mem_cons_self,matched⟩
    | next _ others =>
      obtain ⟨other,member,matched⟩ := ih others
      exact ⟨other,List.mem_cons_of_mem _ member,matched⟩

private theorem All.each {elements : List Expr} {ls ls' : Labels ω} {p q : π} {ds : List (Datum ω)}
    (all : All μ call elements ls p ds ls' q) {d : Datum ω} (member : d ∈ ds) :
    ∃ e ∈ elements, ∃ labels start stop, Eval μ call e labels start (.matched d) stop := by
  induction elements generalizing ls p ds with
  | nil =>
    cases all
    exact nomatch member
  | cons e rest ih =>
    cases all with
    | cons matched others =>
      rcases List.mem_cons.mp member with rfl | later
      · exact ⟨e,List.mem_cons_self,_,_,_,matched⟩
      · obtain ⟨other,inside,found⟩ := ih others later
        exact ⟨other,List.mem_cons_of_mem _ inside,found⟩

private theorem Repeat.each {e : Expr} {ls : Labels ω} {limit : Option Int} {count : Nat} {p q : π}
    {ds : List (Datum ω)} (rounds : Repeat μ call e ls limit count p ds q) {d : Datum ω}
    (member : d ∈ ds) : ∃ start stop, Eval μ call e ls start (.matched d) stop := by
  induction ds generalizing count p with
  | nil => exact nomatch member
  | cons first rest ih =>
    cases rounds with
    | more _ matched others =>
      rcases List.mem_cons.mp member with rfl | later
      · exact ⟨_,_,matched⟩
      · exact ih others later

private theorem OfType.get {d : Datum ω} {ty : Ty} {found : Option Ty}
    (typed : OfType named found d) (known : found = some ty) : Inhabits named ty d := by
  obtain ⟨other,same,inhabited⟩ := typed
  rw [same] at known
  exact Option.some.inj known ▸ inhabited

/-- A value of one of several nodes has the union of their types. -/
private theorem OfType.union {es : List Expr} {types : List Ty}
    (all : es.mapM table.expr = some types) {e : Expr} (member : e ∈ es) {d : Datum ω}
    (typed : OfType named (table.expr e) d) : Inhabits named (.union types) d := by
  obtain ⟨ty,inside,found⟩ := mapM_some all member
  exact (typed.get found).union inside

/-- Where the parts of a node match values of their types, a match of the node has a value of the
type that follows. -/
private theorem eval_local (meaning : μ.WellTyped g default named)
    (called : CallsTyped g table named call) {e : Expr} (member : e ∈ g.nodes)
    (parts : ∀ child ∈ e.children, ∀ ls p d q, Eval μ call child ls p (.matched d) q →
      OfType named (table.expr child) d) {ls : Labels ω} {p q : π} {d : Datum ω}
    (matched : Eval μ call e ls p (.matched d) q) {ty : Ty}
    (follows : table.localType g default e = some ty) : Inhabits named ty d := by
  cases matched with
  | named inner => exact (parts _ List.mem_cons_self _ _ _ _ inner).get follows
  | choice chosen =>
    obtain ⟨types,all,rfl⟩ := Option.map_eq_some_iff.mp follows
    obtain ⟨e,inside,inner⟩ := chosen.chosen
    exact (parts e inside _ _ _ _ inner).union all inside
  | action_matched _ _ result => exact meaning.action _ _ _ member ty follows _ _ _ d result
  | action_sequence _ result => exact meaning.action _ _ _ member ty follows _ _ _ d result
  | sequence_matched elements =>
    obtain ⟨types,all,rfl⟩ := Option.map_eq_some_iff.mp follows
    refine ⟨_,rfl,fun item listed => ?_⟩
    obtain ⟨e,inside,_,_,_,inner⟩ := elements.each listed
    exact (parts e inside _ _ _ _ inner).union all inside
  | labeled inner => exact (parts _ List.mem_cons_self _ _ _ _ inner).get follows
  | text_matched _ =>
    obtain rfl := Option.some.inj follows
    exact ⟨_,rfl⟩
  | optional_present inner =>
    obtain ⟨present,found,rfl⟩ := Option.map_eq_some_iff.mp follows
    exact .inr ((parts _ List.mem_cons_self _ _ _ _ inner).get found)
  | optional_absent _ =>
    obtain ⟨present,found,rfl⟩ := Option.map_eq_some_iff.mp follows
    exact .inl rfl
  | repeated_matched _ _ rounds _ =>
    obtain ⟨elem,found,rfl⟩ := Option.map_eq_some_iff.mp follows
    refine ⟨_,rfl,fun item listed => ?_⟩
    obtain ⟨_,_,inner⟩ := rounds.each listed
    exact (parts _ List.mem_cons_self _ _ _ _ inner).get found
  | and _ =>
    obtain rfl := Option.some.inj follows
    trivial
  | not_matched _ =>
    obtain rfl := Option.some.inj follows
    trivial
  | predicate_matched _ =>
    obtain rfl := Option.some.inj follows
    trivial
  | @ruleRef _ name _ _ _ _ result =>
    rw [TypeTable.localType] at follows
    split at follows
    next index found => exact (called name index p d q found result).get follows
    next =>
      obtain rfl := Option.some.inj follows
      trivial
  | literal result =>
    obtain rfl := Option.some.inj follows
    exact meaning.literal _ _ p d q result
  | charClass result =>
    obtain rfl := Option.some.inj follows
    exact meaning.charClass _ _ _ p d q result
  | any result =>
    obtain rfl := Option.some.inj follows
    exact meaning.any p d q result

/-- A match of a node has a value of the type recorded for it. -/
theorem eval_typed (fixpoint : table.IsFixpoint g default) (meaning : μ.WellTyped g default named)
    (called : CallsTyped g table named call) {e : Expr} (member : e ∈ g.nodes) {ls : Labels ω}
    {p q : π} {d : Datum ω} (matched : Eval μ call e ls p (.matched d) q) :
    OfType named (table.expr e) d := by
  induction e using Expr.children_induction generalizing ls p q d with
  | parts e ih =>
    obtain ⟨ty,found,follows⟩ := fixpoint.nodes e member
    refine ⟨ty,found,?_⟩
    apply eval_local meaning called member _ matched follows
    intro child part ls p d q inner
    exact ih child part (Grammar.child_mem_nodes member part) inner

/-- The first rule of a name stands at the place of the name. -/
private theorem find_index {name : String} {index : Nat} {rule : Rule}
    (place : g.ruleIndex name = some index)
    (found : (g.rules.find? fun r => r.name == name) = some rule) :
    g.rules[index]? = some rule := by
  rw [List.find?_eq_bind_findIdx?_getElem?] at found
  change (g.ruleIndex name).bind _ = _ at found
  rwa [place] at found

/-- Rules that refer to each other to a bounded depth match values of their types. -/
private theorem ruleWithin_typed (fixpoint : table.IsFixpoint g default)
    (meaning : μ.WellTyped g default named) (depth : Nat) :
    CallsTyped g table named (ruleWithin μ g.rules depth) := by
  induction depth with
  | zero =>
    intro name index p d q _ matched
    exact matched.elim
  | succ depth ih =>
    rintro name index p d q place ⟨rule,found,matched⟩
    have declared := find_index place found
    obtain ⟨ty,slot,body⟩ := fixpoint.rules index rule declared
    have member := Grammar.body_mem_nodes (List.mem_of_getElem? declared) rule.body.mem_nodes_self
    exact ⟨ty,slot,(eval_typed fixpoint meaning ih member matched).get body⟩

theorem ruleParser_typed (fixpoint : table.IsFixpoint g default)
    (meaning : μ.WellTyped g default named) : CallsTyped g table named (ruleParser μ g.rules) := by
  rintro name index p d q place ⟨depth,matched⟩
  exact ruleWithin_typed fixpoint meaning depth name index p d q place matched

end Evaluation

section Calls

variable {g : Grammar} {default : Option String} {table : TypeTable}
variable {named : String → Datum ω → Prop} {μ : Meaning ω π}

def LabelsTyped (table : TypeTable) (named : String → Datum ω → Prop) (labels : Labels ω) : Prop :=
  ∀ label ∈ labels, OfType named (table.node label.node) label.value

private theorem LabelsTyped.bind {labels : Labels ω} {label : Label ω}
    (scope : LabelsTyped table named labels)
    (typed : OfType named (table.node label.node) label.value) :
    LabelsTyped table named (labels.bind label) := by
  induction labels with
  | nil => simpa [LabelsTyped,Labels.bind] using typed
  | cons first rest ih =>
    obtain ⟨head,tail⟩ := List.forall_mem_cons.mp scope
    rw [Labels.bind]
    split
    · exact List.forall_mem_cons.mpr ⟨typed,tail⟩
    · exact List.forall_mem_cons.mpr ⟨head,ih tail⟩

private theorem LabelsTyped.exports (fixpoint : table.IsFixpoint g default) {e : Expr}
    (member : e ∈ g.nodes) {labels : Labels ω} (scope : LabelsTyped table named labels) {d : Datum ω}
    (typed : OfType named (table.expr e) d) : LabelsTyped table named (exports labels d e) := by
  induction e using Expr.induction with
  | named site name body ih =>
    obtain ⟨ty,found,follows⟩ := fixpoint.nodes _ member
    apply ih (Grammar.child_mem_nodes member List.mem_cons_self)
    exact ⟨ty,follows,typed.get found⟩
  | labeled site label body _ =>
    obtain ⟨ty,found,follows⟩ := fixpoint.nodes _ member
    exact scope.bind ⟨ty,follows,typed.get found⟩
  | _ => exact scope

variable (fixpoint : table.IsFixpoint g default) (meaning : μ.WellTyped g default named)
include fixpoint meaning

private theorem LabelsTyped.all {elements : List Expr} (members : ∀ e ∈ elements, e ∈ g.nodes)
    {ls ls' : Labels ω} (scope : LabelsTyped table named ls) {p q : π} {ds : List (Datum ω)}
    (all : All μ (ruleParser μ g.rules) elements ls p ds ls' q) : LabelsTyped table named ls' := by
  induction elements generalizing ls p ds with
  | nil =>
    cases all
    exact scope
  | cons e rest ih =>
    cases all with
    | cons matched others =>
      have member := members e List.mem_cons_self
      have typed := eval_typed fixpoint meaning (ruleParser_typed fixpoint meaning) member matched
      have next := scope.exports fixpoint member typed
      exact ih (fun e inside => members e (List.mem_cons_of_mem _ inside)) next others

private structure PointTyped (g : Grammar) (table : TypeTable) (named : String → Datum ω → Prop)
    (point : Point ω π) : Prop where
  member : point.expr ∈ g.nodes
  labels : LabelsTyped table named point.labels

private theorem PointTyped.enters {here next : Point ω π} (typed : PointTyped g table named here)
    (enters : Enters μ g.rules here next) : PointTyped g table named next := by
  have part {child : Expr} (inside : child ∈ here.expr.children) : child ∈ g.nodes :=
    Grammar.child_mem_nodes typed.member inside
  cases enters with
  | named => exact ⟨part List.mem_cons_self,typed.labels⟩
  | choice _ => exact ⟨part (List.mem_append_right _ List.mem_cons_self),typed.labels⟩
  | action => exact ⟨part List.mem_cons_self,typed.labels⟩
  | sequence before =>
    refine ⟨part (List.mem_append_right _ List.mem_cons_self),?_⟩
    apply typed.labels.all fixpoint meaning _ before
    intro e inside
    exact part (List.mem_append_left _ inside)
  | labeled => exact ⟨part List.mem_cons_self,typed.labels⟩
  | text => exact ⟨part List.mem_cons_self,typed.labels⟩
  | optional => exact ⟨part List.mem_cons_self,typed.labels⟩
  | repeated _ _ _ => exact ⟨part List.mem_cons_self,typed.labels⟩
  | lookahead => exact ⟨part List.mem_cons_self,typed.labels⟩
  | ruleRef found =>
    have declared := List.mem_of_find?_eq_some found
    exact ⟨Grammar.body_mem_nodes declared (Expr.mem_nodes_self _),fun _ none => nomatch none⟩

private theorem PointTyped.reaches {start here : Point ω π}
    (typed : PointTyped g table named start) (reached : Reaches μ g.rules start here) :
    PointTyped g table named here := by
  induction reached with
  | start => exact typed
  | step _ enters ih => exact ih.enters fixpoint meaning enters

private theorem PointTyped.hands {here : Point ω π} (typed : PointTyped g table named here)
    {labels : Labels ω} (handed : Hands μ g.rules here labels) :
    LabelsTyped table named labels := by
  cases handed with
  | predicate => exact typed.labels
  | action _ matched =>
    have member := Grammar.child_mem_nodes typed.member List.mem_cons_self
    have value := eval_typed fixpoint meaning (ruleParser_typed fixpoint meaning) member matched
    exact typed.labels.exports fixpoint member value
  | action_sequence all =>
    apply typed.labels.all fixpoint meaning _ all
    intro e inside
    exact Grammar.child_mem_nodes (Grammar.child_mem_nodes typed.member List.mem_cons_self) inside

end Calls

/-- An argument passes a label: it holds the value of the label, and the cast to the type recorded
for the node of the label lets this value through. -/
structure CastPasses (cfg : Setting) (named : String → Datum ω → Prop) (m : Machine ω π)
    (label : Label ω) (argument : Passed) : Prop where
  name : argument.param = label.name
  value : m.values argument.slot = .matched label.value
  cast : ∃ ty, cfg.types.node label.node = some ty ∧ argument.type = cfg.imports.spelling ty ∧
    Admits named false ty label.value

private theorem Represents.casts {cfg : Setting} {named : String → Datum ω → Prop}
    {m : Machine ω π} {scope : Scope} {labels : Labels ω} (held : Represents cfg m scope labels)
    (typed : LabelsTyped cfg.types named labels) :
    List.Forall₂ (CastPasses cfg named m) labels (scope.map (passedFor cfg)) := by
  induction held with
  | nil => exact .nil
  | cons first _ ih =>
    obtain ⟨head,tail⟩ := List.forall_mem_cons.mp typed
    refine .cons ⟨first.name,first.value,_,first.type,rfl,?_⟩ (ih tail)
    exact (head.get first.type).admits false

/-- Recorded types are sound: every match of a node has a value of the type recorded for it, and
wherever a compiled rule comes to a call of code of the author, every argument passes its cast, with
the value that parsing by the rule gives the label. -/
theorem recorded_types_sound (g : Grammar) (default : Option String) (log : Diagnostics)
    (clean : (check g.numbered default log).errors = []) (named : String → Datum ω → Prop) :
    (∀ μ : Meaning ω π, μ.WellTyped g.numbered default named → ∀ e ∈ g.numbered.nodes, ∀ ls p d q,
      Eval μ (ruleParser μ g.numbered.rules) e ls p (.matched d) q →
      ∃ ty, (check g.numbered default log).table.expr e = some ty ∧ Inhabits named ty d) ∧
    ∀ cfg (rt : Runtime ω π) methods code pieces,
      cfg.types = (check g.numbered default log).table → rt.Stays → methods.Implement rt →
      (rt.meaning cfg).WellTyped g.numbered default named →
      List.Forall₂ (Compiled cfg code) g.numbered.rules pieces →
      ∃ routines, pieces.mapM (readRoutine cfg.imports code) = some routines ∧
        List.Forall₂ (fun rule routine => ∀ m r u,
          Comes ⟨rt,methods,code,calls rt methods code routines⟩ routine.body m r u →
          r.target.isMethod = true → ∃ point labels,
            Reaches (rt.meaning cfg) g.numbered.rules ⟨rule.body,[],m.current⟩ point ∧
            Hands (rt.meaning cfg) g.numbered.rules point labels ∧
            List.Forall₂ (CastPasses cfg named u) labels r.arguments)
          g.numbered.rules routines := by
  have fixpoint : (check g.numbered default log).table.IsFixpoint g.numbered default :=
    check_isFixpoint g.numbered_distinct (by simp [clean]) (by simp [clean])
  constructor
  · intro μ meaning e member ls p d q matched
    exact eval_typed fixpoint meaning (ruleParser_typed fixpoint meaning) member matched
  · intro cfg rt methods code pieces same stays implements meaning compiled
    obtain ⟨routines,reads,passes⟩ :=
      compiled_passes cfg rt stays methods implements code g.numbered.rules pieces compiled
    refine ⟨routines,reads,((List.forall₂_and_left _ _).mpr ⟨fun _ => id,passes⟩).imp ?_⟩
    rintro rule routine ⟨declared,handed⟩ m r u comes call
    obtain ⟨point,labels,scope,reached,hands,held,passed⟩ := handed m r u comes call
    have start : PointTyped g.numbered (check g.numbered default log).table named
        (⟨rule.body,[],m.current⟩ : Point ω π) :=
      ⟨Grammar.body_mem_nodes declared (Expr.mem_nodes_self _),fun _ none => nomatch none⟩
    have typed := (start.reaches fixpoint meaning reached).hands fixpoint meaning hands
    rw [passed]
    exact ⟨point,labels,reached,hands,held.casts (same ▸ typed)⟩

def tallyAction : Action where
  code := ""
  annotations := [⟨"Return",["Tally"],{}⟩]

def tallyElements : List Expr :=
  [.labeled ⟨2,{}⟩ "first" (.any ⟨3,{}⟩),
    .labeled ⟨4,{}⟩ "rest" (.optional ⟨5,{}⟩ (.ruleRef ⟨6,{}⟩ "tally"))]

def tallyRule : Rule where
  name := "tally"
  body := .action ⟨0,{}⟩ tallyAction (.sequence ⟨1,{}⟩ tallyElements)

def tallyGrammar : Grammar where
  rules := [tallyRule]

def tallyRuntime (input : List Char) : Runtime Nat Nat where
  literal _ _ _ _ _ := False
  pattern _ _ _ _ _ := False
  any p o q :=
    match input[p]? with
    | some c => o = .matched (.char c) ∧ q = p + 1
    | none => o = .failed ∧ q = p
  slice start stop := String.ofList ((input.drop start).take (stop - start))
  number _ := none
  predicate _ _ _ _ := False
  action _ _ start stop d := d = .object (stop - start)

def tallyValue (name : String) (d : Datum Nat) : Prop :=
  name = "Tally" ∧ ∃ n, d = .object n

theorem tallyRuntime_stays (input : List Char) : (tallyRuntime input).Stays where
  literal _ _ _ _ failed := failed.elim
  pattern _ _ _ _ failed := failed.elim
  any p q failed := by
    simp only [tallyRuntime] at failed
    split at failed
    · exact nomatch failed.1
    · exact failed.2

private theorem tally_wellTyped (input : List Char) (cfg : Setting) :
    ((tallyRuntime input).meaning cfg).WellTyped tallyGrammar.numbered none tallyValue where
  literal _ _ _ _ _ matched := matched.elim
  charClass _ _ _ _ _ _ matched := matched.elim
  any p d q matched := by
    simp only [Runtime.meaning,tallyRuntime] at matched
    split at matched
    next c _ => exact ⟨c,Outcome.matched.inj matched.1⟩
    next => cases matched.1
  action site act body member ty decided labels start stop d returned := by
    have same : Expr.action site act body = tallyRule.body := by
      simpa [tallyGrammar,tallyRule,tallyElements,Grammar.numbered,Grammar.numberRules,Expr.number,
        Expr.numberAll,Grammar.nodes,Expr.nodes,Expr.nodesAll] using member
    obtain ⟨-,rfl,-⟩ := Expr.action.inj same
    have type : tallyAction.seedType none = some (.named "Tally") := by decide +kernel
    obtain rfl := Option.some.inj (decided.symm.trans type)
    obtain ⟨_,-,rfl⟩ := returned
    exact ⟨rfl,_,rfl⟩

def tallySetting : Setting := ⟨⟨false⟩,(check tallyGrammar.numbered none {}).table⟩

def tallyArguments : List Passed := [⟨"first","char",0⟩,⟨"rest","Tally",1⟩]

private theorem tally_body {code : Registries} {sub : Subroutine}
    (lowered : Lowered tallySetting code tallyRule sub) :
    ∃ index, sub.body = [.step (.save 0),.block .sequence [
      .element 1,.step (.assign 0 .matchAny),.ifThen (.failed 0) [.step .leave],.blank,
      .element 2,.step (.assign 1 (.callRule "tally")),.brief (.failed 1) (.assign 1 .null),
      .ifThen (.failed 1) [.step (.restore 0),.step (.assign 0 .failed),.step .leave],.blank,
      .step (.mark 0),.step (.assign 0 (.callAction index tallyArguments))]] := by
  obtain ⟨-,scope,emitted⟩ := lowered.emits
  generalize sub.body = body at emitted
  have first : tallySetting.types.node 3 = some .char := by decide +kernel
  have rest : tallySetting.types.node 5 = some (.option (.named "Tally")) := by decide +kernel
  have passed : ([⟨"first",0,.char⟩,⟨"rest",1,.option (.named "Tally")⟩] : Scope).map
      (passedFor tallySetting) = tallyArguments := by decide +kernel
  cases emitted with
  | action plain => exact nomatch plain
  | action_sequence inner =>
    cases inner with
    | sequence _ elements closes =>
      cases elements with
      | cons one others =>
        cases others with
        | cons two none =>
          cases none
          cases one with
          | labeled type one =>
            cases two with
            | labeled type' two =>
              cases one
              obtain rfl := Option.some.inj (first.symm.trans type)
              obtain rfl := Option.some.inj (rest.symm.trans type')
              cases two with
              | optional two =>
                cases two
                cases closes with
                | @call _ _ index _ =>
                  refine ⟨index,?_⟩
                  rw [← passed]
                  rfl

private theorem tally_type : tallySetting.types.node 0 = some (.named "Tally") := by decide +kernel

private theorem tally_rest : ruleParser ((tallyRuntime ['a','b']).meaning tallySetting) [tallyRule]
    "tally" 1 (.matched (.object 1)) 2 := by
  let call := ruleWithin ((tallyRuntime ['a','b']).meaning tallySetting) [tallyRule] 1
  have none : call "tally" 2 .failed 2 :=
    ⟨tallyRule,rfl,.action_failed (.sequence_failed (.here (.labeled (.any ⟨rfl,rfl⟩))))⟩
  have elements : All ((tallyRuntime ['a','b']).meaning tallySetting) call tallyElements [] 1
      [.char 'b',.null] [⟨"first",3,.char 'b'⟩,⟨"rest",5,.null⟩] 2 :=
    .cons (.labeled (.any ⟨rfl,rfl⟩)) (.cons (.labeled (.optional_absent (.ruleRef none))) .nil)
  exact ⟨2,tallyRule,rfl,.action_sequence elements ⟨_,tally_type,rfl⟩⟩

/-- The code of the tally rule runs on `ab` to the call of the author's action, with the first
character and the tally of the rest in its locals. -/
private theorem tally_comes {code : Registries} {sub : Subroutine}
    (lowered : Lowered tallySetting code tallyRule sub) (m : Machine Nat Nat)
    (start : m.current = 0) :
    let rt := tallyRuntime ['a','b']
    ∃ index u, Comes ⟨rt,rt.methods,code,calls rt rt.methods code [sub.routine]⟩ sub.body m
        ⟨.method .action index,tallyArguments⟩ u ∧
      u.values 0 = .matched (.char 'a') ∧ u.values 1 = .matched (.object 1) := by
  intro rt
  obtain ⟨s,called,-⟩ :=
    (calls_iff (tallyRuntime_stays _) rt.methods_implement (.cons lowered .nil) "tally"
      ⟨1,m.mark,m.silent⟩ (.matched (.object 1)) 2).mpr tally_rest
  have matched : rt.any m.current (.matched (.char 'a')) 1 := by
    rw [start]
    exact ⟨rfl,rfl⟩
  let v := ((m.savePosition 0).setValue 0 (.matched (.char 'a'))).setValue 1 (.matched (.object 1))
  obtain ⟨index,body⟩ := tally_body lowered
  refine ⟨index,{ v with toShared := { s with mark := m.current } },?_,rfl,rfl⟩
  rw [body,comes_save,comes_block rfl,comes_element]
  refine .inr ⟨_,⟨rfl,_,_,⟨1,matched,rfl⟩,rfl⟩,.inr ⟨_,.inr ⟨rfl,rfl,rfl⟩,?_⟩⟩
  rw [comes_blank,comes_element]
  refine .inr ⟨_,⟨rfl,_,_,called,rfl⟩,.inr ⟨_,.inr ⟨rfl,rfl,rfl⟩,.inr ⟨_,.inr ⟨rfl,rfl,rfl⟩,?_⟩⟩⟩
  rw [comes_blank,comes_mark]
  exact .inl ⟨List.mem_singleton_self _,rfl⟩

/-- On `ab` the rule calls the code of the author with the first character and the tally of the
rest, and both pass their casts. -/
theorem tally_ab_casts :
    OfType tallyValue (tallySetting.types.expr tallyRule.body) (.object 2) ∧
      ∃ stmts code routine, Compiled tallySetting code tallyRule stmts ∧
        readRoutine tallySetting.imports code stmts = some routine ∧
        ∀ m : Machine Nat Nat, m.current = 0 → ∃ index u labels,
          Comes ⟨tallyRuntime ['a','b'],(tallyRuntime ['a','b']).methods,code,
            calls (tallyRuntime ['a','b']) (tallyRuntime ['a','b']).methods code [routine]⟩
            routine.body m ⟨.method .action index,tallyArguments⟩ u ∧
          u.values 0 = .matched (.char 'a') ∧ u.values 1 = .matched (.object 1) ∧
          List.Forall₂ (CastPasses tallySetting tallyValue u) labels tallyArguments := by
  let rt := tallyRuntime ['a','b']
  have sound := @recorded_types_sound Nat Nat tallyGrammar none {} (by decide +kernel) tallyValue
  constructor
  · have elements : All (rt.meaning tallySetting) (ruleParser (rt.meaning tallySetting) [tallyRule])
        tallyElements [] 0 [.char 'a',.object 1] [⟨"first",3,.char 'a'⟩,⟨"rest",5,.object 1⟩] 2 :=
      .cons (.labeled (.any ⟨rfl,rfl⟩))
        (.cons (.labeled (.optional_present (.ruleRef tally_rest))) .nil)
    exact sound.1 (rt.meaning tallySetting) (tally_wellTyped _ _) tallyRule.body List.mem_cons_self []
      0 _ 2 (.action_sequence elements ⟨_,tally_type,rfl⟩)
  let before : Registries :=
    ⟨{ letter := "p", type := "Pattern" },{ letter := "e", type := "Expected" },{}⟩
  have lowers : (lowerRule tallySetting tallyRule true before).1.toOption.isSome = true := by
    decide +kernel
  cases run : lowerRule tallySetting tallyRule true before with
  | mk result after =>
    rw [run] at lowers
    cases result with
    | error _ => exact nomatch lowers
    | ok sub =>
      obtain ⟨stmts,printed⟩ := toStmts_ok sub tallySetting.imports
      have here : Compiled tallySetting after tallyRule stmts :=
        ⟨true,before,sub,after,run,printed,.refl after⟩
      obtain ⟨routines,reads,passes⟩ := sound.2 tallySetting rt rt.methods after [stmts] rfl
        (tallyRuntime_stays _) rt.methods_implement (tally_wellTyped _ _) (.cons here .nil)
      obtain ⟨sub',lowered,read⟩ := here.lowered
      obtain rfl : routines = [sub'.routine] := by
        rw [List.mapM_cons,read] at reads
        exact (Option.some.inj reads).symm
      refine ⟨stmts,after,sub'.routine,here,read,fun m start => ?_⟩
      obtain ⟨index,u,comes,first,rest⟩ := tally_comes lowered m start
      obtain ⟨_,labels,-,-,casts⟩ := (List.forall₂_cons.mp passes).1 m _ u comes rfl
      exact ⟨index,u,labels,comes,first,rest,casts⟩

end PegCompiler.Semantics
