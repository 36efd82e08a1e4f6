import PegCompiler.Proofs.Lowering.Preservation
import PegCompiler.Proofs.Semantics.Typing
import Mathlib.Logic.Relation

/-! Calls of code of the author. `Comes` says what running code refers to, and in which state, also
where the run does not end. Every call that the code of an expression comes to passes labels that an
evaluation of the expression hands over, from the locals that hold their values. -/
namespace PegCompiler

def Alias.isMethod : Alias → Bool
  | .method _ _ => true
  | _ => false

namespace Semantics

open Lowering Target

variable {ω π : Type}

mutual

def InstrComes (c : Context ω π) : Instr → Machine ω π → Reference → Machine ω π → Prop
  | .step s, m, r, u => r ∈ s.references ∧ u = m
  | .brief test s, m, r, u => (r ∈ test.references ∧ u = m) ∨
      (TestIs c m test true ∧ r ∈ s.references ∧ u = m)
  | .ifThen test body, m, r, u => (r ∈ test.references ∧ u = m) ∨
      (TestIs c m test true ∧ Comes c body m r u)
  | .ifElse test body otherwise, m, r, u => (r ∈ test.references ∧ u = m) ∨
      (TestIs c m test true ∧ Comes c body m r u) ∨
      (TestIs c m test false ∧ Comes c otherwise m r u)
  | .block kind body, m, r, u =>
      if kind.repeats then
        ∃ v, Relation.ReflTransGen (fun w w' => Runs c body w .done w') m v ∧ Comes c body v r u
      else Comes c body m r u
  | .alternative _, _, _, _ => False
  | .element _, _, _, _ => False
  | .blank, _, _, _ => False

def Comes (c : Context ω π) : List Instr → Machine ω π → Reference → Machine ω π → Prop
  | [], _, _, _ => False
  | instr :: rest, m, r, u => InstrComes c instr m r u ∨
      ∃ v, InstrRuns c instr m .done v ∧ Comes c rest v r u

end

section Coming

variable {c : Context ω π} {m u : Machine ω π} {r : Reference} {code rest : List Instr}

@[simp] theorem comes_nil : ¬Comes c [] m r u := id

theorem comes_cons {instr : Instr} : Comes c (instr :: rest) m r u ↔
    InstrComes c instr m r u ∨ ∃ v, InstrRuns c instr m .done v ∧ Comes c rest v r u := Iff.rfl

theorem comes_append : Comes c (code ++ rest) m r u ↔
    Comes c code m r u ∨ ∃ v, Runs c code m .done v ∧ Comes c rest v r u := by
  induction code generalizing m with
  | nil => simp
  | cons instr code ih =>
    simp only [List.cons_append,comes_cons,ih,runs_cons,reduceCtorEq,false_and,false_or]
    constructor
    · rintro (here | ⟨v,first,inner | ⟨w,run,behind⟩⟩)
      · exact .inl (.inl here)
      · exact .inl (.inr ⟨v,first,inner⟩)
      · exact .inr ⟨w,⟨v,first,run⟩,behind⟩
    · rintro ((here | ⟨v,first,inner⟩) | ⟨w,⟨v,first,run⟩,behind⟩)
      · exact .inl here
      · exact .inr ⟨v,first,.inl inner⟩
      · exact .inr ⟨v,first,.inr ⟨w,run,behind⟩⟩

mutual

theorem instrComes_mem {m : Machine ω π} :
    (instr : Instr) → InstrComes c instr m r u → r ∈ instr.references
  | .step s, ⟨member,_⟩ => member
  | .brief test s, .inl ⟨member,_⟩ => List.mem_append_left _ member
  | .brief test s, .inr ⟨_,member,_⟩ => List.mem_append_right _ member
  | .ifThen test body, .inl ⟨member,_⟩ => List.mem_append_left _ member
  | .ifThen test body, .inr ⟨_,inner⟩ => List.mem_append_right _ (comes_mem body inner)
  | .ifElse test body otherwise, .inl ⟨member,_⟩ =>
    List.mem_append_left _ (List.mem_append_left _ member)
  | .ifElse test body otherwise, .inr (.inl ⟨_,inner⟩) =>
    List.mem_append_left _ (List.mem_append_right _ (comes_mem body inner))
  | .ifElse test body otherwise, .inr (.inr ⟨_,inner⟩) =>
    List.mem_append_right _ (comes_mem otherwise inner)
  | .block kind body, comes => by
    rw [InstrComes] at comes
    split at comes
    · obtain ⟨v,-,inner⟩ := comes
      exact comes_mem body inner
    · exact comes_mem body comes

/-- What running code comes to stands in it. -/
theorem comes_mem {m : Machine ω π} :
    (code : List Instr) → Comes c code m r u → r ∈ Instr.referencesAll code
  | instr :: _, .inl here => List.mem_append_left _ (instrComes_mem instr here)
  | _ :: rest, .inr ⟨_,_,behind⟩ => List.mem_append_right _ (comes_mem rest behind)

end

/-- Behind code in front of code without calls there are no calls. -/
theorem comes_front (plain : ∀ r ∈ Instr.referencesAll rest, r.target.isMethod = false)
    (call : r.target.isMethod = true) (comes : Comes c (code ++ rest) m r u) :
    Comes c code m r u := by
  rcases comes_append.mp comes with inner | ⟨v,-,behind⟩
  · exact inner
  · exact nomatch (plain r (comes_mem rest behind)).symm.trans call

/-- Behind code without calls. -/
theorem comes_behind (code : List Instr)
    (plain : ∀ r ∈ Instr.referencesAll code, r.target.isMethod = false)
    (call : r.target.isMethod = true) (comes : Comes c (code ++ rest) m r u) :
    ∃ v, Runs c code m .done v ∧ Comes c rest v r u := by
  rcases comes_append.mp comes with inner | behind
  · exact nomatch (plain r (comes_mem code inner)).symm.trans call
  · exact behind

/-- An instruction that refers to nothing and ends in one state only. -/
private theorem comes_cons_of {instr : Instr} {v : Machine ω π} (silent : instr.references = [])
    (only : ∀ w, InstrRuns c instr m .done w ↔ w = v) :
    Comes c (instr :: rest) m r u ↔ Comes c rest v r u := by
  have none : ¬InstrComes c instr m r u := fun here => by
    have member := instrComes_mem instr here
    rw [silent] at member
    exact nomatch member
  simp [comes_cons,none,only]

@[simp] theorem comes_save {position : Nat} :
    Comes c (.step (.save position) :: rest) m r u ↔ Comes c rest (m.savePosition position) r u :=
  comes_cons_of rfl fun _ => and_iff_right rfl

@[simp] theorem comes_mark {position : Nat} : Comes c (.step (.mark position) :: rest) m r u ↔
    Comes c rest { m with mark := m.positions position } r u :=
  comes_cons_of rfl fun _ => and_iff_right rfl

@[simp] theorem comes_silence : Comes c (.step .silence :: rest) m r u ↔
    Comes c rest { m with silent := m.silent + 1 } r u :=
  comes_cons_of rfl fun _ => and_iff_right rfl

@[simp] theorem comes_blank : Comes c (.blank :: rest) m r u ↔ Comes c rest m r u :=
  comes_cons_of rfl fun _ => and_iff_right rfl

@[simp] theorem comes_alternative {n : Nat} :
    Comes c (.alternative n :: rest) m r u ↔ Comes c rest m r u :=
  comes_cons_of rfl fun _ => and_iff_right rfl

@[simp] theorem comes_element {n : Nat} :
    Comes c (.element n :: rest) m r u ↔ Comes c rest m r u :=
  comes_cons_of rfl fun _ => and_iff_right rfl

theorem comes_ifThen {test : Test} {body : List Instr} :
    Comes c [.ifThen test body] m r u ↔ (r ∈ test.references ∧ u = m) ∨
      (TestIs c m test true ∧ Comes c body m r u) := by
  simp [comes_cons,InstrComes]

theorem comes_block {kind : BlockKind} {body : List Instr} (once : kind.repeats = false) :
    Comes c [.block kind body] m r u ↔ Comes c body m r u := by
  simp [comes_cons,InstrComes,once]

theorem comes_loop {body : List Instr} : Comes c [.block .range body] m r u ↔
    ∃ v, Relation.ReflTransGen (fun w w' => Runs c body w .done w') m v ∧ Comes c body v r u := by
  simp [comes_cons,InstrComes,BlockKind.repeats]

end Coming

def Handed (cfg : Setting) (μ : Meaning ω π) (rules : List Rule) (start : Point ω π)
    (r : Reference) (u : Machine ω π) : Prop :=
  ∃ point labels scope, Reaches μ rules start point ∧ Hands μ rules point labels ∧
    Represents cfg u scope labels ∧ r.arguments = scope.map (passedFor cfg)

def Passes (cfg : Setting) (c : Context ω π) (rules : List Rule) (e : Expr) (scope : Scope)
    (code : List Instr) : Prop :=
  ∀ ⦃m labels⦄, Represents cfg m scope labels → ∀ ⦃r u⦄, Comes c code m r u →
    r.target.isMethod = true → Handed cfg (c.runtime.meaning cfg) rules ⟨e,labels,m.current⟩ r u

section Handing

variable {cfg : Setting} {μ : Meaning ω π} {rules : List Rule} {start next : Point ω π}
  {r : Reference} {u : Machine ω π}

private theorem Reaches.enters (entered : Enters μ rules start next) {point : Point ω π}
    (reached : Reaches μ rules next point) : Reaches μ rules start point := by
  induction reached with
  | start => exact .step .start entered
  | step _ enters ih => exact .step ih enters

private theorem Handed.enters (handed : Handed cfg μ rules next r u)
    (entered : Enters μ rules start next) : Handed cfg μ rules start r u := by
  obtain ⟨point,labels,scope,reached,hands,held,passed⟩ := handed
  exact ⟨point,labels,scope,reached.enters entered,hands,held,passed⟩

private theorem Handed.around {caller : Option (Site × Action)} {e : Expr} {labels : Labels ω}
    {p : π} (handed : Handed cfg μ rules ⟨e,labels,p⟩ r u) :
    Handed cfg μ rules ⟨around caller e,labels,p⟩ r u := by
  cases caller with
  | none => exact handed
  | some called => exact handed.enters .action

end Handing

section Expressions

variable {cfg : Setting} {c : Context ω π} {rules : List Rule} {base depth : Nat} {scope : Scope}
  {code : List Instr} {site : Site} {body : Expr}

/-- Where the position may be saved first, the labels are held and the position is the same. -/
private theorem Represents.saved {m v : Machine ω π} {labels : Labels ω} {when : Prop}
    [Decidable when] (held : Represents cfg m scope labels)
    (run : Runs c (if when then [.step (.save depth)] else []) m .done v) :
    Represents cfg v scope labels ∧ v.current = m.current := by
  split at run
  · obtain ⟨-,rfl⟩ := runs_nil.mp (runs_save.mp run)
    exact ⟨held.of_values fun _ _ => rfl,rfl⟩
  · obtain ⟨-,rfl⟩ := runs_nil.mp run
    exact ⟨held,rfl⟩

private theorem named_passes {name : String} {expected : Nat}
    (inner : Passes cfg c rules body scope code) :
    Passes cfg c rules (.named site name body) scope
      ([.step .silence,.blank] ++ code ++ [.blank,.step .unsilence,
        .ifThen (.failed base) [.step (.assign base (.reportFailure expected))]]) := by
  intro m labels held r u comes call
  simp only [List.cons_append,List.nil_append,comes_silence,comes_blank] at comes
  have held' : Represents cfg { m with silent := m.silent + 1 } scope labels :=
    held.of_values fun _ _ => rfl
  exact (inner held' (comes_front (by simp [Alias.isMethod]) call comes) call).enters .named

private theorem text_passes (inner : Passes cfg c rules body scope code) :
    Passes cfg c rules (.text site body) scope ([.step (.save depth)] ++ code ++
      [.ifThen (.matched base) [.step (.assign base (.textFrom depth))]]) := by
  intro m labels held r u comes call
  simp only [List.cons_append,List.nil_append,comes_save] at comes
  have held' : Represents cfg (m.savePosition depth) scope labels := held.of_values fun _ _ => rfl
  exact (inner held' (comes_front (by simp) call comes) call).enters .text

private theorem optional_passes (inner : Passes cfg c rules body scope code) :
    Passes cfg c rules (.optional site body) scope
      (code ++ [.brief (.failed base) (.assign base .null)]) := by
  intro m labels held r u comes call
  exact (inner held (comes_front (by simp) call comes) call).enters .optional

private theorem lookahead_passes {isNegative : Bool} (inner : Passes cfg c rules body scope code) :
    Passes cfg c rules (.lookahead site isNegative body) scope
      ([.step (.save depth),.step .silence] ++ code ++
        [.step .unsilence,.step (.restore depth)] ++ negated isNegative base) := by
  intro m labels held r u comes call
  simp only [List.append_assoc,List.cons_append,List.nil_append,comes_save,comes_silence] at comes
  have held' : Represents cfg { m.savePosition depth with silent := m.silent + 1 } scope labels :=
    held.of_values fun _ _ => rfl
  exact (inner held' (comes_front (by simp) call comes) call).enters .lookahead

/-- The call of an action is handed what is in scope. -/
private theorem call_comes {index : Nat} {u m : Machine ω π} {r : Reference}
    (comes : Comes c [.step (.mark depth),.step (.assign base (.callAction index
      (scope.map (passedFor cfg))))] m r u) :
    r.arguments = scope.map (passedFor cfg) ∧ u = { m with mark := m.positions depth } := by
  rw [comes_mark,comes_cons] at comes
  rcases comes with ⟨member,rfl⟩ | ⟨_,_,none⟩
  · rw [List.mem_singleton.mp member]
    exact ⟨rfl,rfl⟩
  · exact none.elim

private theorem action_passes {act : Action} {index : Nat} {inner : Scope}
    (plain : body.isSequence = false) (below : ScopeBelow scope base)
    (emitted : Emits cfg c.code body base (depth + 1) none scope code inner)
    (simulates : Simulates cfg c (ruleParser (c.runtime.meaning cfg) rules) body base (depth + 1)
      scope code)
    (passes : Passes cfg c rules body scope code) :
    Passes cfg c rules (.action site act body) scope
      ([.step (.save depth),.blank] ++ code ++ [.blank,.ifThen (.matched base)
        [.step (.mark depth),
          .step (.assign base (.callAction index (inner.map (passedFor cfg))))]]) := by
  intro m labels held r u comes call
  simp only [List.cons_append,List.nil_append,comes_save,comes_blank] at comes
  have held' : Represents cfg (m.savePosition depth) scope labels := held.of_values fun _ _ => rfl
  rcases comes_append.mp comes with first | ⟨v,run,behind⟩
  · exact (passes held' first call).enters .action
  · rw [comes_blank,comes_ifThen] at behind
    rcases behind with ⟨none,-⟩ | ⟨test,called⟩
    · exact nomatch none
    obtain ⟨passed,rfl⟩ := call_comes called
    obtain ⟨-,frame,ended⟩ := (simulates held').sound run
    cases value : v.values base with
    | failed => simp [TestIs,value,Outcome.isFailed] at test
    | matched d =>
      rw [value] at ended
      have exported := exports_represented emitted (held'.frame below frame) value
      exact ⟨_,_,inner,.start,.action plain ended,exported.of_values fun _ _ => rfl,passed⟩

private theorem predicate_passes {isNegative : Bool} {source : String} {ns : Option String}
    {index : Nat} : Passes cfg c rules (.predicate site isNegative source ns) scope
      [.ifElse (.holds isNegative index (scope.map (passedFor cfg)))
        [.step (.assign base .null)] [.step (.assign base .failed)]] := by
  intro m labels held r u comes call
  simp only [comes_cons,InstrComes,Test.references,Step.references,Value.references,
    List.mem_singleton,List.not_mem_nil,false_and,and_false,or_false,exists_false,comes_nil] at comes
  obtain ⟨rfl,rfl⟩ := comes
  exact ⟨_,labels,scope,.start,.predicate,held,rfl⟩

/-- Behind turns of a loop that all match one item more. -/
private theorem turns_round {max : Option Boundary} {most : Option Bound} {m v : Machine ω π}
    {labels : Labels ω}
    (simulates : Simulates cfg c (ruleParser (c.runtime.meaning cfg) rules) body (base + 1) depth
      scope code)
    (inPlace : ∀ labels,
      FailsInPlace (Eval (c.runtime.meaning cfg) (ruleParser (c.runtime.meaning cfg) rules) body
        labels))
    (below : ScopeBelow scope base) (bounded : max.map (boundIn scope) = most.map some)
    (held : Represents cfg m scope labels) (list : m.values base = .matched (.list []))
    (turns : Relation.ReflTransGen (fun w w' => Runs c (loopBody base most code) w .done w') m v) :
    Represents cfg v scope labels ∧ ∃ items, v.values base = .matched (.list items) ∧
      Rounds (c.runtime.meaning cfg) (ruleParser (c.runtime.meaning cfg) rules) body labels
        items.length m.current v.current := by
  induction turns with
  | refl => exact ⟨held,[],list,.none⟩
  | tail _ run ih =>
    obtain ⟨heldThere,items,listed,rounds⟩ := ih
    obtain ⟨frame,limit,items',limited,value,turn⟩ :=
      turn_sound simulates inPlace heldThere bounded listed run
    cases turn with
    | more free ended =>
      refine ⟨heldThere.frame below frame,_,value,?_⟩
      rw [List.length_append,List.length_singleton]
      exact .more rounds ended

private theorem repeated_passes (implements : c.methods.Implement c.runtime)
    {repetition : Repetition} {least : Bound} {most : Option Bound}
    (upper : repetition.max.map (boundIn scope) = most.map some)
    (simulates : Simulates cfg c (ruleParser (c.runtime.meaning cfg) rules) body (base + 1)
      (if needsRollback repetition.min then depth + 1 else depth) scope code)
    (inPlace : ∀ labels,
      FailsInPlace (Eval (c.runtime.meaning cfg) (ruleParser (c.runtime.meaning cfg) rules) body
        labels))
    (below : ScopeBelow scope base) (passes : Passes cfg c rules body scope code) :
    Passes cfg c rules (.repeated site repetition body) scope
      ((if needsRollback repetition.min then [.step (.save depth)] else []) ++
        [.step (.assign base (.array [])),.block .range (loopBody base most code)] ++
        shortage repetition.min base depth least) := by
  intro m labels held r u comes call
  replace comes := comes_front (by simp) call comes
  obtain ⟨v,saved,comes⟩ := comes_behind _ (by split <;> simp) call comes
  obtain ⟨held',position⟩ := held.saved saved
  obtain ⟨w,assigned,comes⟩ := comes_behind [_] (by simp) call comes
  rw [runs_assign_empty implements,runs_nil] at assigned
  obtain ⟨-,rfl⟩ := assigned
  obtain ⟨x,turns,comes⟩ := comes_loop.mp comes
  have frame : Frame base depth v (v.setValue base (.matched (.list []))) :=
    .setValue (Nat.le_refl base) _
  obtain ⟨heldThere,items,listed,rounds⟩ := turns_round simulates inPlace below upper
    (held'.frame below frame) (v.setValue_self base _) turns
  -- The test in front of an item leaves the loop where the limit is reached.
  rw [loopBody] at comes
  obtain ⟨y,limits,inside⟩ := comes_behind _ (by cases most <;> simp) call
    (comes_front (by simp) call comes)
  rw [← List.append_nil (List.map _ _),runs_limit heldThere upper listed] at limits
  obtain ⟨limit,limited,⟨-,left,-⟩ | ⟨free,-,rfl⟩⟩ := limits
  · cases left
  rw [← position]
  exact (passes heldThere inside call).enters (.repeated limited rounds free)

/-- The end of a sequence calls nothing but the action around it, which is handed what is in scope. -/
private theorem closes_hand {elements : List Expr} {count : Nat} {caller : Option (Site × Action)}
    {close : List Instr} (closes : Closes cfg c.code base depth count scope caller close)
    {v u : Machine ω π} {labels ls : Labels ω} {r : Reference} {p q : π} {ds : List (Datum ω)}
    (held : Represents cfg v scope ls) (comes : Comes c close v r u)
    (done : All (c.runtime.meaning cfg) (ruleParser (c.runtime.meaning cfg) rules) elements labels p
      ds ls q) :
    Handed cfg (c.runtime.meaning cfg) rules ⟨around caller (.sequence site elements),labels,p⟩ r
      u := by
  cases closes with
  | bundle => exact nomatch comes_mem _ comes
  | call registered =>
    obtain ⟨passed,rfl⟩ := call_comes comes
    exact ⟨_,ls,scope,.start,.action_sequence done,held.of_values fun _ _ => rfl,passed⟩

/-- All calls that code of `e` comes to pass what evaluations of `e` hand over. Code of a sequence
directly under an action does what evaluations of the action do. -/
private structure Handing (cfg : Setting) (c : Context ω π) (rules : List Rule) (e : Expr) :
    Prop where
  passes : ∀ {base depth scope code scope'}, ScopeBelow scope base →
    Emits cfg c.code e base depth none scope code scope' → Passes cfg c rules e scope code
  called : ∀ {base depth site act scope code scope'}, e.isSequence = true → ScopeBelow scope base →
    Emits cfg c.code e base depth (some (site,act)) scope code scope' →
    Passes cfg c rules (.action site act e) scope code

private theorem Handing.of_plain {e : Expr} (plain : e.isSequence = false)
    (passes : ∀ {base depth scope code scope'}, ScopeBelow scope base →
      Emits cfg c.code e base depth none scope code scope' → Passes cfg c rules e scope code) :
    Handing cfg c rules e :=
  ⟨passes,fun isSequence => absurd isSequence (by rw [plain]; exact Bool.false_ne_true)⟩

section Programs

variable (implements : c.methods.Implement c.runtime)
  (linked : ∀ name s o q, (∃ s', c.call name s o s' ∧ s'.current = q) ↔
    ruleParser (c.runtime.meaning cfg) rules name s.current o q)
  (inPlace : ∀ e labels,
    FailsInPlace (Eval (c.runtime.meaning cfg) (ruleParser (c.runtime.meaning cfg) rules) e labels))
include implements linked inPlace

private theorem alternatives_hand {alternatives : List Expr}
    (all : ∀ e ∈ alternatives, Handing cfg c rules e) {n : Nat}
    (emitted : EmitsAlternatives cfg c.code alternatives base depth n scope code)
    (below : ScopeBelow scope base) {m u : Machine ω π} {labels : Labels ω} {r : Reference}
    (held : Represents cfg m scope labels) (comes : Comes c code m r u)
    (call : r.target.isMethod = true) :
    ∃ before e after q, alternatives = before ++ e :: after ∧
      Choose (c.runtime.meaning cfg) (ruleParser (c.runtime.meaning cfg) rules) before labels
        m.current .failed q ∧
      Handed cfg (c.runtime.meaning cfg) rules ⟨e,labels,m.current⟩ r u := by
  induction alternatives generalizing n code m with
  | nil => cases emitted
  | cons e rest ih =>
    have first := all e List.mem_cons_self
    cases emitted with
    | last inner =>
      rw [comes_alternative] at comes
      exact ⟨[],e,[],_,rfl,.none,first.passes below inner held comes call⟩
    | cons _ inner others =>
      rw [List.append_assoc,List.cons_append,comes_alternative] at comes
      rcases comes_append.mp comes with here | ⟨v,run,there⟩
      · exact ⟨[],e,rest,_,rfl,.none,first.passes below inner held here call⟩
      obtain ⟨-,frame,ended⟩ :=
        (emits_simulates implements linked inPlace e below inner held).sound run
      obtain ⟨w,tried,behind⟩ := comes_behind [_,_] (by simp) call there
      rw [runs_brief,runs_ifMatched] at tried
      cases value : v.values base with
      | matched d => simp [value,Outcome.isFailed] at tried
      | failed =>
        rw [value] at ended tried
        obtain rfl : w = v := by simpa [Outcome.isFailed] using tried
        have position : w.current = m.current := inPlace _ _ _ _ ended
        obtain ⟨before,e',after,q,rfl,missed,handed⟩ :=
          ih (fun e member => all e (List.mem_cons_of_mem _ member)) others
            (held.frame below frame) behind
        rw [position] at missed handed
        exact ⟨e :: before,e',after,q,rfl,.next ended missed,handed⟩

/-- What the elements of a sequence and the code that closes it come to. -/
private theorem elements_hand {elements : List Expr}
    (all : ∀ e ∈ elements, Handing cfg c rules e) {index : Nat} {scope' : Scope}
    (emitted : EmitsElements cfg c.code elements base depth index scope code scope')
    (below : ScopeBelow scope (base + index)) {m u : Machine ω π} {labels : Labels ω}
    {r : Reference} {close : List Instr} (held : Represents cfg m scope labels)
    (comes : Comes c (code ++ close) m r u) (call : r.target.isMethod = true) :
    (∃ before e after ds ls q, elements = before ++ e :: after ∧
      All (c.runtime.meaning cfg) (ruleParser (c.runtime.meaning cfg) rules) before labels
        m.current ds ls q ∧
      Handed cfg (c.runtime.meaning cfg) rules ⟨e,ls,q⟩ r u) ∨
    ∃ v ds ls, All (c.runtime.meaning cfg) (ruleParser (c.runtime.meaning cfg) rules) elements labels
        m.current ds ls v.current ∧
      Represents cfg v scope' ls ∧ Comes c close v r u := by
  induction elements generalizing index scope code m labels with
  | nil =>
    cases emitted
    exact .inr ⟨m,[],labels,.nil,held,comes⟩
  | cons e rest ih =>
    cases emitted with
    | cons inner others =>
      have first := all e List.mem_cons_self
      rw [List.append_assoc,List.append_assoc,List.cons_append,comes_element] at comes
      rcases comes_append.mp comes with here | ⟨v,run,there⟩
      · exact .inl ⟨[],e,rest,_,_,_,rfl,.nil,first.passes below inner held here call⟩
      obtain ⟨-,frame,ended⟩ :=
        (emits_simulates implements linked inPlace e below inner held).sound run
      obtain ⟨w,tried,behind⟩ := comes_behind [_,_] (by simp) call there
      rw [runs_ifFailed] at tried
      cases value : v.values (base + index) with
      | failed =>
        simp only [value,Outcome.isFailed,if_true,abandoned] at tried
        split at tried <;> simp at tried
      | matched d =>
        rw [value] at ended
        obtain rfl : w = v := by simpa [value,Outcome.isFailed] using tried
        have exported := exports_represented inner (held.frame below frame) value
        rcases ih (fun e member => all e (List.mem_cons_of_mem _ member)) others
          (scope_below inner below) exported behind with
          ⟨before,e',after,ds,ls,q,rfl,done,handed⟩ | ⟨v,ds,ls,done,held,closes⟩
        · exact .inl ⟨e :: before,e',after,_,ls,q,rfl,.cons ended done,handed⟩
        · exact .inr ⟨v,_,ls,.cons ended done,held,closes⟩

private theorem sequence_passes {elements : List Expr} {caller : Option (Site × Action)}
    {scope' : Scope} (all : ∀ e ∈ elements, Handing cfg c rules e) (below : ScopeBelow scope base)
    (emitted : Emits cfg c.code (.sequence site elements) base depth caller scope code scope') :
    Passes cfg c rules (around caller (.sequence site elements)) scope code := by
  intro m labels held r u comes call
  cases emitted with
  | sequence_empty closes =>
    obtain ⟨v,saved,comes⟩ := comes_behind _ (by split <;> simp) call comes
    obtain ⟨held',position⟩ := held.saved saved
    rw [← position]
    exact closes_hand closes held' comes .nil
  | sequence _ inner closes =>
    rw [comes_save,comes_block rfl] at comes
    have held' : Represents cfg (m.savePosition depth) scope labels := held.of_values fun _ _ => rfl
    rcases elements_hand implements linked inPlace all inner below held' comes call with
      ⟨before,e,after,ds,ls,q,rfl,done,handed⟩ | ⟨v,ds,ls,done,there,closing⟩
    · have entered : Enters (c.runtime.meaning cfg) rules
          ⟨.sequence site (before ++ e :: after),labels,m.current⟩ ⟨e,ls,q⟩ := .sequence done
      exact (handed.enters entered).around
    · exact closes_hand closes there closing done

/-- The labels in scope are held in their locals wherever the code of an expression calls code of the
author, and the call passes them. -/
theorem emits_passes (e : Expr) {scope' : Scope} (below : ScopeBelow scope base)
    (emitted : Emits cfg c.code e base depth none scope code scope') :
    Passes cfg c rules e scope code := by
  suffices handing : Handing cfg c rules e from handing.passes below emitted
  clear below emitted
  induction e using Expr.induction with
  | named site name body ih =>
    refine .of_plain rfl fun below emitted => ?_
    cases emitted with
    | named _ inner => exact named_passes (ih.passes below inner)
  | choice site alternatives ih =>
    refine .of_plain rfl fun below emitted => ?_
    intro m labels held r u comes call
    cases emitted with
    | choice_empty => exact nomatch comes_mem _ comes
    | choice _ inner =>
      rw [comes_block rfl] at comes
      obtain ⟨before,e,after,q,rfl,missed,handed⟩ :=
        alternatives_hand implements linked inPlace ih inner below held comes call
      exact handed.enters (.choice missed)
  | action site act body ih =>
    refine .of_plain rfl fun below emitted => ?_
    cases emitted with
    | action_sequence inner => exact ih.called rfl below inner
    | action plain inner _ =>
      exact action_passes plain below inner
        (emits_simulates implements linked inPlace body below inner) (ih.passes below inner)
  | sequence site elements ih =>
    have passes {caller : Option (Site × Action)} {base depth : Nat} {scope scope' : Scope}
        {code : List Instr} (below : ScopeBelow scope base)
        (emitted : Emits cfg c.code (.sequence site elements) base depth caller scope code scope') :=
      sequence_passes implements linked inPlace ih below emitted
    exact ⟨passes,fun _ => passes⟩
  | labeled site label body ih =>
    refine .of_plain rfl fun below emitted => ?_
    cases emitted with
    | labeled _ inner =>
      intro m labels held r u comes call
      exact (ih.passes below inner held comes call).enters .labeled
  | text site body ih =>
    refine .of_plain rfl fun below emitted => ?_
    cases emitted with
    | text inner => exact text_passes (ih.passes below inner)
  | optional site body ih =>
    refine .of_plain rfl fun below emitted => ?_
    cases emitted with
    | optional inner => exact optional_passes (ih.passes below inner)
  | repeated site repetition body ih =>
    refine .of_plain rfl fun below emitted => ?_
    cases emitted with
    | repeated _ upper inner =>
      have above := below.mono (Nat.le_succ _)
      exact repeated_passes implements upper
        (emits_simulates implements linked inPlace body above inner) (inPlace body) below
        (ih.passes above inner)
  | lookahead site isNegative body ih =>
    refine .of_plain rfl fun below emitted => ?_
    cases emitted with
    | lookahead inner => exact lookahead_passes (ih.passes below inner)
  | predicate site isNegative source ns =>
    refine .of_plain rfl fun below emitted => ?_
    cases emitted with
    | predicate _ => exact predicate_passes
  | ruleRef site name =>
    refine .of_plain rfl fun below emitted m labels held r u comes call => ?_
    cases emitted
    exact nomatch comes_mem _ comes
  | literal site value ignoreCase =>
    refine .of_plain rfl fun below emitted m labels held r u comes call => ?_
    cases emitted
    rw [List.mem_singleton.mp (comes_mem _ comes)] at call
    exact nomatch call
  | charClass site parts inverted ignoreCase rawText =>
    refine .of_plain rfl fun below emitted m labels held r u comes call => ?_
    cases emitted
    have member := comes_mem _ comes
    simp only [Instr.referencesAll,Instr.references,Step.references,Value.references] at member
    rcases List.mem_cons.mp member with rfl | member
    · exact nomatch call
    rw [List.mem_singleton.mp member] at call
    exact nomatch call
  | any site =>
    refine .of_plain rfl fun below emitted m labels held r u comes call => ?_
    cases emitted
    exact nomatch comes_mem _ comes

end Programs

end Expressions

/-- Every call of code of the author that a compiled rule comes to, from any state, passes labels that
parsing by the rule hands over. -/
theorem compiled_passes (cfg : Setting) (rt : Runtime ω π) (stays : rt.Stays)
    (methods : Methods ω π) (implements : methods.Implement rt) (code : Registries)
    (rules : List Rule) (pieces : List (List Stmt))
    (compiled : List.Forall₂ (Compiled cfg code) rules pieces) :
    ∃ routines, pieces.mapM (readRoutine cfg.imports code) = some routines ∧
      List.Forall₂ (fun rule routine => ∀ m r u,
        Comes ⟨rt,methods,code,calls rt methods code routines⟩ routine.body m r u →
        r.target.isMethod = true →
        Handed cfg (rt.meaning cfg) rules ⟨rule.body,[],m.current⟩ r u) rules routines := by
  obtain ⟨subs,lowered,reads⟩ := compiled_lowered compiled
  refine ⟨_,reads,List.forall₂_map_right_iff.mpr (lowered.imp ?_)⟩
  intro rule sub lowered' m r u comes call
  obtain ⟨-,scope,emitted⟩ := lowered'.emits
  have below : ScopeBelow [] 0 := fun _ member => nomatch member
  have passes := emits_passes (c := ⟨rt,methods,code,_⟩) implements
    (calls_iff stays implements lowered)
    (eval_failsInPlace (stays.meaning cfg) (ruleParser_failsInPlace (stays.meaning cfg) rules))
    rule.body below emitted
  exact passes .nil comes call

end Semantics

end PegCompiler
