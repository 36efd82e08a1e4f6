import PegCompiler.Proofs.Lowering.Declarations
import PegCompiler.Proofs.Lowering.Preservation
import PegCompiler.Proofs.Semantics.Assignment

/-! Locals of a rule are declared and definitely assigned. A label in scope is set, and the code of an
expression sets the local of its value on every path, so each construct finds set what it reads:
the values of its parts, the positions it has saved and the labels in scope. -/
namespace PegCompiler

def Scope.Free (scope : Scope) (l : Local) : Prop :=
  ∀ b ∈ scope, .value b.slot ≠ l

def Subroutine.Declares (sub : Subroutine) : Local → Prop
  | .value slot => ∃ n, slot < n ∧ sub.values.declaration = some
      (sub.values.type ++ " " ++ ", ".intercalate ((List.range n).map valueName) ++ ";")
  | .position index => ∃ n, index < n ∧ sub.positions.declaration = some
      (sub.positions.type ++ " " ++ ", ".intercalate ((List.range n).map positionName) ++ ";")

namespace Lowering

open Instr

variable {cfg : Setting} {final : Registries} {base depth : Nat} {scope scope' : Scope}
  {code : List Instr} {l : Local}

@[simp] theorem passedFor_slot (cfg : Setting) (b : Binding) : (passedFor cfg b).slot = b.slot := rfl

/-- With the local unset in front, the code is left only at its end, reads the local only where it
is set, and sets it if it is the local of the value. -/
def Assigns (l : Local) (base : Nat) (code : List Instr) : Prop :=
  ∃ set, flowAll l code false = ⟨set,true,true⟩ ∧ (set = false → l ≠ .value base)

namespace Assigns

theorem behind {front : List Instr} (flow : flowAll l front false = ⟨false,true,true⟩)
    (inner : Assigns l base code) : Assigns l base (front ++ code) := by
  obtain ⟨set,found,other⟩ := inner
  exact ⟨set,by simp [flow,found],other⟩

/-- What stands behind finds the value set. -/
theorem append {back : List Instr} (inner : Assigns l base code)
    (flow : l ≠ .value base → flowAll l back false = ⟨false,true,true⟩) :
    Assigns l base (code ++ back) := by
  obtain ⟨set,found,other⟩ := inner
  cases set with
  | true => exact ⟨true,by simp [found],nofun⟩
  | false => exact ⟨false,by simp [found,flow (other rfl)],other⟩

theorem saved (inner : l ≠ .position depth → Assigns l base code) :
    Assigns l base (.step (.save depth) :: code) := by
  by_cases same : l = .position depth
  · exact ⟨true,by simp [same],nofun⟩
  · have unset : flowAll l [.step (.save depth)] false = ⟨false,true,true⟩ := by simp [same]
    exact behind unset (inner same)

theorem assigned {value : Value} (unread : l ∉ value.reads)
    (rest : l ≠ .value base → ∃ set, flowAll l code false = ⟨set,true,true⟩) :
    Assigns l base (.step (.assign base value) :: code) := by
  by_cases same : l = .value base
  · subst same
    exact ⟨true,by simp [unread,-Value.reads],nofun⟩
  · obtain ⟨set,flow⟩ := rest same
    exact ⟨set,by simp [unread,same,flow,-Value.reads],fun _ => same⟩

theorem assign {value : Value} (unread : l ∉ value.reads) :
    Assigns l base [.step (.assign base value)] :=
  assigned unread fun _ => ⟨false,rfl⟩

/-- A block sets the value if its end and all that leave it do. -/
theorem block {kind : BlockKind} (reads : (flowAll l code false).reads = true)
    (result : l = .value base →
      (flowAll l code false).after = true ∧ (flowAll l code false).leaving = true) :
    Assigns l base [.block kind code] := by
  refine ⟨(kind.repeats || (flowAll l code false).after) && (flowAll l code false).leaving,
    by simp [reads],fun unset same => ?_⟩
  obtain ⟨after,leaving⟩ := result same
  simp [after,leaving] at unset

end Assigns

theorem bound_unread (free : scope.Free l) {boundary : Boundary} {bound : Bound}
    (found : boundIn scope boundary = some bound) : l ∉ bound.reads := by
  cases boundary with
  | count n =>
    cases Option.some.inj found
    exact List.not_mem_nil
  | label name =>
    obtain ⟨binding,there,rfl⟩ := Option.map_eq_some_iff.mp found
    rw [Bound.reads,List.mem_singleton]
    exact (free binding (List.mem_of_find?_eq_some there)).symm

/-- Behind an expression that has not set the local no label has it either. -/
theorem emits_free {e : Expr} {caller : Option (Site × Action)}
    (emitted : Emits cfg final e base depth caller scope code scope') (free : scope.Free l)
    (other : l ≠ .value base) : scope'.Free l := by
  intro b member
  rcases emits_exports emitted member with same | inside
  · rw [same]
    exact other.symm
  · exact free b inside

private def Careful (cfg : Setting) (final : Registries) (l : Local) (e : Expr) : Prop :=
  ∀ {base depth caller scope code scope'}, Emits cfg final e base depth caller scope code scope' →
    scope.Free l → Assigns l base code

private theorem action_careful {site : Site} {act : Action} {body : Expr}
    (ih : Careful cfg final l body) : Careful cfg final l (.action site act body) := by
  intro base depth caller scope code scope' emitted free
  cases emitted with
  | action_sequence inner => exact ih inner free
  | action _ inner _ =>
    refine .saved fun kept => .append (.behind (by simp) (ih inner free)) fun other => ?_
    have labels := emits_free inner free other
    simpa [other,kept,Scope.Free] using labels

private theorem lookahead_careful {site : Site} {isNegative : Bool} {body : Expr}
    (ih : Careful cfg final l body) : Careful cfg final l (.lookahead site isNegative body) := by
  intro base depth caller scope code scope' emitted free
  cases emitted with
  | lookahead inner =>
    refine .saved fun kept =>
      .append (.append (.behind (by simp) (ih inner free)) fun other => ?_) fun other => ?_
    · simp [kept]
    · cases isNegative <;> simp [other,negated]

private theorem repeated_careful {site : Site} {repetition : Repetition} {body : Expr}
    (ih : Careful cfg final l body) : Careful cfg final l (.repeated site repetition body) := by
  intro base depth caller scope code scope' emitted free
  cases emitted with
  | @repeated _ _ _ _ _ _ _ piece _ least most lower upper inner =>
    have round (other : l ≠ .value base) :
        (flowAll l (loopBody base most piece) false).reads = true := by
      have limit : flowAll l (most.toList.map fun bound => Instr.brief (.atLeast base bound) .leave)
          false = ⟨false,most.isNone,true⟩ := by
        cases most with
        | none => simp
        | some bound =>
          obtain ⟨boundary,-,found⟩ := Option.map_eq_some_iff.mp upper
          have unread := bound_unread free found
          simpa [other,-Bound.reads] using unread
      obtain ⟨set,flow,item⟩ := ih inner free
      cases set with
      | true => simp [loopBody,limit,flow]
      | false => simp [loopBody,limit,flow,other,item rfl]
    have list (kept : needsRollback repetition.min → l ≠ .position depth) :
        Assigns l base ([.step (.assign base (.array [])),
          .block .range (loopBody base most piece)] ++ shortage repetition.min base depth least) := by
      refine .assigned (by simp) fun other => ?_
      have unread := bound_unread free lower
      have short : flowAll l (shortage repetition.min base depth least) false =
          ⟨false,true,true⟩ := by
        unfold shortage undone
        split
        · split
          next needs => simp [other,unread,kept needs,-Bound.reads]
          next => simp [other,unread,-Bound.reads]
        · simp
      -- The loop sets what is set wherever it is left, the local of an item for one.
      refine ⟨(flowAll l (loopBody base most piece) false).leaving,?_⟩
      cases left : (flowAll l (loopBody base most piece) false).leaving with
      | true => simp [BlockKind.repeats,round other,left]
      | false => simp [BlockKind.repeats,round other,left,short]
    cases rollback : needsRollback repetition.min with
    | true => exact .saved fun kept => list fun _ => kept
    | false => exact list fun needs => by simp [rollback] at needs

private theorem alternatives_careful {alternatives : List Expr} {n : Nat}
    (all : ∀ e ∈ alternatives, Careful cfg final l e)
    (emitted : EmitsAlternatives cfg final alternatives base depth n scope code)
    (free : scope.Free l) :
    (flowAll l code false).reads = true ∧ (l = .value base →
      (flowAll l code false).after = true ∧ (flowAll l code false).leaving = true) := by
  induction alternatives generalizing n code with
  | nil => exact nomatch emitted
  | cons e others ih =>
    cases emitted with
    | last here =>
      obtain ⟨set,flow,other⟩ := all e List.mem_cons_self here free
      refine ⟨by simp [flow],fun same => ?_⟩
      cases set with
      | true => simp [flow]
      | false => exact absurd same (other rfl)
    | cons _ here later =>
      obtain ⟨reads,-⟩ := ih (fun e member => all e (List.mem_cons_of_mem _ member)) later
      obtain ⟨set,flow,other⟩ := all e List.mem_cons_self here free
      cases set with
      | true => simp [flow]
      | false =>
        have other := other rfl
        exact ⟨by simp [flow,reads,other],fun same => absurd same other⟩

private theorem closes_careful {count : Nat} {caller : Option (Site × Action)} {close : List Instr}
    (closed : Closes cfg final base depth count scope caller close)
    (kept : caller.isSome → l ≠ .position depth) (free : scope.Free l)
    (others : ∀ k < count, l ≠ .value (base + k)) : Assigns l base close := by
  cases closed with
  | bundle =>
    refine .assign ?_
    simp only [Value.reads,List.mem_map,List.mem_range]
    rintro ⟨_,⟨k,inside,rfl⟩,rfl⟩
    exact others k inside rfl
  | call _ =>
    have marked : flowAll l [.step (.mark depth)] false = ⟨false,true,true⟩ := by
      simp [kept rfl]
    refine .behind marked (.assign ?_)
    simpa [Scope.Free] using free

structure Advances (l : Local) (base index count : Nat) (scope' : Scope) (flow : Flow) : Prop where
  reads : flow.reads = true
  result : l = .value base → flow.leaving = true
  others : flow.after = false → ∀ k < count, index ≤ k → l ≠ .value (base + k)
  free : flow.after = false → scope'.Free l

private theorem elements_careful {elements : List Expr} {index : Nat}
    (all : ∀ e ∈ elements, Careful cfg final l e)
    (emitted : EmitsElements cfg final elements base depth index scope code scope')
    (free : scope.Free l) (kept : l ≠ .position depth) (first : index ≠ 0 → l ≠ .value base) :
    Advances l base index (index + elements.length) scope' (flowAll l code false) := by
  induction elements generalizing index scope code with
  | nil =>
    cases emitted
    exact ⟨rfl,fun _ => rfl,fun _ k inside => by simp at inside; omega,fun _ => free⟩
  | cons e others ih =>
    cases emitted with
    | cons here later =>
      obtain ⟨set,flow,other⟩ := all e List.mem_cons_self here free
      cases set with
      | true => exact ⟨by simp [flow],by simp [flow],by simp [flow],by simp [flow]⟩
      | false =>
        have other := other rfl
        have base_unset : l ≠ .value base := by
          by_cases zero : index = 0
          · simpa [zero] using other
          · exact first zero
        have tail := ih (fun e member => all e (List.mem_cons_of_mem _ member)) later
          (emits_free here free other) fun _ => base_unset
        have failing : (flowAll l (abandoned base depth index) false).reads = true := by
          unfold abandoned
          split <;> simp [kept]
        refine ⟨by simp [flow,failing,other,tail.reads],fun same => absurd same base_unset,
          fun unset k inside behind => ?_,fun unset => tail.free (by simpa [flow] using unset)⟩
        rcases Nat.eq_or_lt_of_le behind with rfl | later
        · exact other
        · rw [List.length_cons] at inside
          exact tail.others (by simpa [flow] using unset) k (by omega) later

private theorem sequence_careful {site : Site} {elements : List Expr}
    (ih : ∀ e ∈ elements, Careful cfg final l e) : Careful cfg final l (.sequence site elements) := by
  intro base depth caller scope code scope' emitted free
  cases emitted with
  | sequence_empty closed =>
    cases caller with
    | none => exact closes_careful closed nofun free nofun
    | some called => exact .saved fun kept => closes_careful closed (fun _ => kept) free nofun
  | @sequence _ _ _ _ _ _ piece inner close nonempty parts closed =>
    refine .saved fun kept => ?_
    have advances := elements_careful ih parts free kept (by simp)
    rw [Nat.zero_add] at advances
    cases set : (flowAll l piece false).after with
    | true => exact .block (by simp [set,advances.reads]) fun same => by simp [set,advances.result same]
    | false =>
      have others (k : Nat) (inside : k < elements.length) : l ≠ .value (base + k) :=
        advances.others set k inside (Nat.zero_le k)
      obtain ⟨_,flow,-⟩ := closes_careful closed (fun _ => kept) (advances.free set) others
      refine .block (by simp [set,advances.reads,flow]) fun same => ?_
      exact absurd same (others 0 (List.length_pos_iff.mpr nonempty))

private theorem expr_careful (e : Expr) : Careful cfg final l e := by
  induction e using Expr.induction with
  | named site name body ih =>
    intro base depth caller scope code scope' emitted free
    cases emitted with
    | named _ inner =>
      exact .append (.behind (by simp) (ih inner free)) fun other => by simp [other]
  | choice site alternatives ih =>
    intro base depth caller scope code scope' emitted free
    cases emitted with
    | choice_empty => exact .assign (by simp)
    | choice _ parts =>
      obtain ⟨reads,result⟩ := alternatives_careful ih parts free
      exact .block reads result
  | action site act body ih => exact action_careful ih
  | sequence site elements ih => exact sequence_careful ih
  | labeled site label body ih =>
    intro base depth caller scope code scope' emitted free
    cases emitted with
    | labeled _ inner => exact ih inner free
  | text site body ih =>
    intro base depth caller scope code scope' emitted free
    cases emitted with
    | text inner =>
      exact .saved fun kept => .append (ih inner free) fun other => by simp [other,kept]
  | optional site body ih =>
    intro base depth caller scope code scope' emitted free
    cases emitted with
    | optional inner => exact .append (ih inner free) fun other => by simp [other]
  | repeated site repetition body ih => exact repeated_careful ih
  | lookahead site isNegative body ih => exact lookahead_careful ih
  | predicate site isNegative code ns =>
    intro base depth caller scope code scope' emitted free
    cases emitted with
    | predicate _ =>
      refine ⟨decide (l = .value base),?_,of_decide_eq_false⟩
      simpa [Scope.Free] using free
  | ruleRef | literal | charClass | any =>
    intro base depth caller scope code scope' emitted free
    cases emitted
    exact .assign (by simp)

theorem emits_assigns {e : Expr} {caller : Option (Site × Action)}
    (emitted : Emits cfg final e base depth caller scope code scope') (free : scope.Free l) :
    Assigns l base code :=
  expr_careful e emitted free

private theorem declaration_lists {s : Locals} {letter : String} (same : s.letter = letter)
    {slot : Nat} (inside : slot < s.declared) :
    ∃ n, slot < n ∧ s.declaration = some (s.type ++ " " ++
      ", ".intercalate ((List.range n).map fun k => s!"{letter}{k}") ++ ";") := by
  refine ⟨s.declared,inside,?_⟩
  rw [Locals.declaration,if_neg (by omega)]
  subst same
  rfl

/-- A rule that was lowered: the locals of its code are declared. -/
theorem lowerRule_declares {cfg : Setting} {rule : Rule} {isStart : Bool}
    {before after : Registries} {sub : Subroutine}
    (lowered : lowerRule cfg rule isStart before = (.ok sub,after)) :
    ∀ l ∈ .value 0 :: localsAll sub.body, sub.Declares l := by
  obtain ⟨object,position,t,yields,rfl⟩ := lowerRule_ok lowered
  simp only [lowerBody,yields_bind,yields_get] at yields
  obtain ⟨⟨body,scope⟩,_,run,_,_,⟨rfl,rfl⟩,done⟩ := yields
  split at done
  next =>
    obtain ⟨rfl,rfl⟩ := (yields_pure _ _ _ _).mp done
    have nothing : State.Covered (startState object position before) :=
      ⟨Nat.le_refl 0,Nat.le_refl 0⟩
    obtain ⟨grown,seen⟩ := lower_declares cfg rule.body (List.nil_subset []) run nothing
      fun _ member => absurd member List.not_mem_nil
    intro l member
    have has : t.Has l := seen l (List.cons_subset_cons _ (List.subset_append_left _ _) member)
    cases l with
    | value slot => exact declaration_lists grown.values.letter has
    | position index => exact declaration_lists grown.positions.letter has
  next => exact absurd done (yields_throw _ _ _ _)

theorem lowerRule_assigns {cfg : Setting} {rule : Rule} {isStart : Bool}
    {before after : Registries} {sub : Subroutine}
    (lowered : lowerRule cfg rule isStart before = (.ok sub,after)) (l : Local) :
    Assigns l 0 sub.body := by
  obtain ⟨-,scope,emitted⟩ := Semantics.Lowered.emits
    (⟨isStart,before,after,lowered,.refl after⟩ : Semantics.Lowered cfg after rule sub)
  exact emits_assigns emitted nofun

/-- The code of a rule touches declared locals only. Each is set wherever it is read, on every path,
and the local of the result is set at the end. -/
theorem locals_declared_and_assigned {cfg : Setting} {rule : Rule} {isStart : Bool}
    {before after : Registries} {sub : Subroutine}
    (lowered : lowerRule cfg rule isStart before = (.ok sub,after)) :
    (∀ a ∈ accessesAll sub.body, sub.Declares a.target) ∧
      (∀ l, (flowAll l sub.body false).reads = true) ∧
      sub.Declares (.value 0) ∧ (flowAll (.value 0) sub.body false).after = true ∧
      ∀ path x, Paths sub.body path x →
        (∀ l, WrittenFirst l path) ∧ (x = .done → .write (.value 0) ∈ path) := by
  obtain ⟨result,touched⟩ := List.forall_mem_cons.mp (lowerRule_declares lowered)
  have reads (l : Local) : (flowAll l sub.body false).reads = true := by
    obtain ⟨_,flow,-⟩ := lowerRule_assigns lowered l
    rw [flow]
  have set : (flowAll (.value 0) sub.body false).after = true := by
    obtain ⟨set,flow,other⟩ := lowerRule_assigns lowered (.value 0)
    rw [flow]
    cases set with
    | true => rfl
    | false => exact absurd rfl (other rfl)
  refine ⟨fun a member => touched _ (List.mem_map_of_mem member),reads,result,set,?_⟩
  intro path x taken
  exact ⟨fun l => (paths_sound l sub.body taken).reads (reads l),
    (paths_sound (.value 0) sub.body taken).after set⟩

def blockRule : Rule where
  name := "block"
  body := .action { id := 0 } { code := "return n;" } (.sequence { id := 1 } [
    .labeled { id := 2 } "n" (.ruleRef { id := 3 } "number"),
    .repeated { id := 4 } (.range (.label "n") none) (.choice { id := 5 } [
      .text { id := 6 } (.any { id := 7 }),.sequence { id := 8 } [.any { id := 9 },.any { id := 10 }]])])

def blockSetting : Setting :=
  ⟨⟨false⟩,{ nodes := [(0,.object),(3,.object)] }⟩

/-- Four values and three positions are declared, and all that is read has been set. -/
theorem blockRule_assigned : ∃ before sub after,
    lowerRule blockSetting blockRule true before = (.ok sub,after) ∧
    sub.values.declaration = some "Object r0, r1, r2, r3;" ∧
    sub.positions.declaration = some "Position l0, l1, l2;" ∧
    .read (.position 1) ∈ accessesAll sub.body ∧
    ∀ path x, Paths sub.body path x → ∀ l, WrittenFirst l path := by
  let before : Registries :=
    ⟨{ letter := "p", type := "Pattern" },{ letter := "e", type := "Expected" },{}⟩
  have found : (lowerRule blockSetting blockRule true before).1.toOption.map
      (fun sub => (sub.values.declaration,sub.positions.declaration,
        decide (Access.read (.position 1) ∈ accessesAll sub.body))) =
      some (some "Object r0, r1, r2, r3;",some "Position l0, l1, l2;",true) := by
    decide +kernel
  cases run : lowerRule blockSetting blockRule true before with
  | mk result after =>
    rw [run] at found
    cases result with
    | error _ => exact nomatch found
    | ok sub =>
      simp only [Except.toOption,Option.map_some,Option.some.injEq,Prod.mk.injEq,
        decide_eq_true_eq] at found
      obtain ⟨values,positions,read⟩ := found
      obtain ⟨-,-,-,-,paths⟩ := locals_declared_and_assigned run
      exact ⟨before,sub,after,run,values,positions,read,fun path x taken => (paths path x taken).1⟩

end Lowering

end PegCompiler
