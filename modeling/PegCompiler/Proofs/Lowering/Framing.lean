import PegCompiler.Proofs.Lowering.Labels
import PegCompiler.Proofs.Lowering.Shape
import PegCompiler.Proofs.Semantics.Accesses

/-! Frames of lowered code. The code of an expression sets only locals above those that are taken
where it stands, and of the locals below it reads those of labels in scope. So nothing in the scope
of a label overwrites the local of the label. -/
namespace PegCompiler

def Scope.Occupies (scope : Scope) (slot : Nat) : Prop :=
  ∃ b ∈ scope, b.slot = slot

theorem Scope.mem_bind {scope : Scope} {new b : Binding} (member : b ∈ scope.bind new) :
    b = new ∨ b ∈ scope := by
  induction scope with
  | nil => exact .inl (List.mem_singleton.mp member)
  | cons first rest ih =>
    rw [Scope.bind] at member
    split at member
    · exact (List.mem_cons.mp member).imp_right (List.mem_cons_of_mem first)
    · rcases List.mem_cons.mp member with rfl | later
      · exact .inr List.mem_cons_self
      · exact (ih later).imp_right (List.mem_cons_of_mem first)

theorem Scope.occupies_find {scope : Scope} {name : String} {binding : Binding}
    (found : scope.find name = some binding) : scope.Occupies binding.slot :=
  ⟨binding,List.mem_of_find?_eq_some found,rfl⟩

namespace Lowering

open Instr Semantics

variable {cfg : Setting} {final : Registries} {base depth : Nat} {scope scope' : Scope}
  {code rest : List Instr}

def Permitted (base depth : Nat) (scope : Scope) : Access → Prop
  | .write (.value slot) => base ≤ slot
  | .write (.position index) => depth ≤ index
  | .read (.value slot) => base ≤ slot ∨ scope.Occupies slot
  | .read (.position index) => depth ≤ index

@[simp] theorem permitted_setValue {slot : Nat} :
    Permitted base depth scope (.write (.value slot)) ↔ base ≤ slot := Iff.rfl

@[simp] theorem permitted_setPosition {index : Nat} :
    Permitted base depth scope (.write (.position index)) ↔ depth ≤ index := Iff.rfl

@[simp] theorem permitted_value {slot : Nat} :
    Permitted base depth scope (.read (.value slot)) ↔ base ≤ slot ∨ scope.Occupies slot := Iff.rfl

@[simp] theorem permitted_position {index : Nat} :
    Permitted base depth scope (.read (.position index)) ↔ depth ≤ index := Iff.rfl

def Framed (base depth : Nat) (scope : Scope) (code : List Instr) : Prop :=
  ∀ a ∈ accessesAll code, Permitted base depth scope a

section Pieces

@[simp] theorem framed_nil : Framed base depth scope [] := by
  simp [Framed]

@[simp] theorem framed_append : Framed base depth scope (code ++ rest) ↔
    Framed base depth scope code ∧ Framed base depth scope rest := by
  simp [Framed,or_imp,forall_and]

@[simp] theorem framed_step {s : Step} : Framed base depth scope (.step s :: rest) ↔
    ((∀ l ∈ s.reads, Permitted base depth scope (.read l)) ∧
      ∀ l ∈ s.writes, Permitted base depth scope (.write l)) ∧ Framed base depth scope rest := by
  simp only [Framed,accessesAll,accesses,Step.accesses,List.forall_mem_append,List.forall_mem_map]

@[simp] theorem framed_ifThen {test : Test} {body : List Instr} :
    Framed base depth scope (.ifThen test body :: rest) ↔
      (∀ l ∈ test.reads, Permitted base depth scope (.read l)) ∧ Framed base depth scope body ∧
        Framed base depth scope rest := by
  simp only [Framed,accessesAll,accesses,Test.accesses,List.forall_mem_append,List.forall_mem_map,
    and_assoc]

@[simp] theorem framed_brief {test : Test} {s : Step} :
    Framed base depth scope (.brief test s :: rest) ↔
      Framed base depth scope (.ifThen test [.step s] :: rest) := by
  simp only [Framed,accessesAll,accesses,List.append_nil]

@[simp] theorem framed_ifElse {test : Test} {body otherwise : List Instr} :
    Framed base depth scope (.ifElse test body otherwise :: rest) ↔
      (∀ l ∈ test.reads, Permitted base depth scope (.read l)) ∧ Framed base depth scope body ∧
        Framed base depth scope otherwise ∧ Framed base depth scope rest := by
  simp only [Framed,accessesAll,accesses,Test.accesses,List.forall_mem_append,List.forall_mem_map,
    and_assoc]

@[simp] theorem framed_block {kind : BlockKind} {body : List Instr} :
    Framed base depth scope (.block kind body :: rest) ↔
      Framed base depth scope body ∧ Framed base depth scope rest := by
  simp only [Framed,accessesAll,accesses,List.forall_mem_append]

@[simp] theorem framed_alternative {n : Nat} : Framed base depth scope (.alternative n :: rest) ↔
    Framed base depth scope rest := by
  simp [Framed]

@[simp] theorem framed_element {n : Nat} : Framed base depth scope (.element n :: rest) ↔
    Framed base depth scope rest := by
  simp [Framed]

@[simp] theorem framed_blank : Framed base depth scope (.blank :: rest) ↔
    Framed base depth scope rest := by
  simp [Framed]

end Pieces

def Above (base : Nat) (scope scope' : Scope) : Prop :=
  ∀ b ∈ scope', base ≤ b.slot ∨ scope.Occupies b.slot

theorem Above.refl (base : Nat) (scope : Scope) : Above base scope scope :=
  fun b member => .inr ⟨b,member,rfl⟩

theorem Above.trans {inner : Scope} {base' : Nat} (first : Above base scope inner)
    (second : Above base' inner scope') (le : base ≤ base') : Above base scope scope' := by
  intro b member
  rcases second b member with above | ⟨other,inside,same⟩
  · exact .inl (Nat.le_trans le above)
  · exact same ▸ first other inside

theorem Framed.mono {base' depth' : Nat} (framed : Framed base' depth' scope' code)
    (values : base ≤ base') (positions : depth ≤ depth') (above : Above base scope scope') :
    Framed base depth scope code := by
  intro a member
  have permitted := framed a member
  match a with
  | .write (.value _) => exact Nat.le_trans values permitted
  | .write (.position _) => exact Nat.le_trans positions permitted
  | .read (.position _) => exact Nat.le_trans positions permitted
  | .read (.value slot) =>
    rcases permitted with higher | ⟨b,inside,rfl⟩
    · exact .inl (Nat.le_trans values higher)
    · exact above b inside

/-- Behind an expression the labels in scope are those in front of it, and perhaps one whose value is
the value of the expression. -/
theorem emits_exports {e : Expr} {caller : Option (Site × Action)}
    (emitted : Emits cfg final e base depth caller scope code scope') {b : Binding}
    (member : b ∈ scope') : b.slot = base ∨ b ∈ scope := by
  induction e using Expr.induction generalizing depth caller code scope' with
  | named site name body ih =>
    cases emitted with
    | named _ inner => exact ih inner member
  | labeled site label body _ =>
    cases emitted with
    | labeled _ _ =>
      rcases Scope.mem_bind member with rfl | inside
      · exact .inl rfl
      · exact .inr inside
  | _ => cases emitted <;> exact .inr member

theorem emits_above {e : Expr} {caller : Option (Site × Action)}
    (emitted : Emits cfg final e base depth caller scope code scope') : Above base scope scope' := by
  intro b member
  rcases emits_exports emitted member with same | inside
  · exact .inl (Nat.le_of_eq same.symm)
  · exact .inr ⟨b,inside,rfl⟩

theorem emits_scopeBelow {e : Expr} {caller : Option (Site × Action)}
    (emitted : Emits cfg final e base depth caller scope code scope')
    (below : ScopeBelow scope base) : ScopeBelow scope' (base + 1) := by
  intro b member
  rcases emits_exports emitted member with same | inside
  · omega
  · exact Nat.lt_succ_of_lt (below b inside)

private def Tidy (cfg : Setting) (final : Registries) (e : Expr) : Prop :=
  ∀ {base depth caller scope code scope'}, Emits cfg final e base depth caller scope code scope' →
    Framed base depth scope code

/-- The labels in scope may be passed to a method. -/
private theorem permitted_arguments (cfg : Setting) (depth : Nat) (above : Above base scope scope')
    (l : Local)
    (member : l ∈ (scope'.map (passedFor cfg)).map fun p => Local.value p.slot) :
    Permitted base depth scope (.read l) := by
  obtain ⟨p,inside,rfl⟩ := List.mem_map.mp member
  obtain ⟨b,there,rfl⟩ := List.mem_map.mp inside
  exact above b there

private theorem permitted_bound (base depth : Nat) {boundary : Boundary} {bound : Bound}
    (found : boundIn scope boundary = some bound) (l : Local) (member : l ∈ bound.reads) :
    Permitted base depth scope (.read l) := by
  cases boundary with
  | count n =>
    cases Option.some.inj found
    exact nomatch member
  | label name =>
    obtain ⟨binding,there,rfl⟩ := Option.map_eq_some_iff.mp found
    rw [Bound.reads,List.mem_singleton] at member
    subst member
    exact .inr (Scope.occupies_find there)

private theorem call_framed (cfg : Setting) (depth : Nat) (above : Above base scope scope')
    (index : Nat) : Framed base depth scope [.step (.mark depth),
      .step (.assign base (.callAction index (scope'.map (passedFor cfg))))] := by
  have arguments := permitted_arguments cfg depth above
  rw [framed_step,framed_step]
  exact ⟨by simp,⟨arguments,by simp⟩,framed_nil⟩

private theorem closes_framed {count : Nat} {caller : Option (Site × Action)} {close : List Instr}
    (closed : Closes cfg final base depth count scope' caller close)
    (above : Above base scope scope') : Framed base depth scope close := by
  cases closed with
  | bundle => simp
  | call _ => exact call_framed cfg depth above _

private theorem alternatives_framed {alternatives : List Expr} {n : Nat}
    (all : ∀ e ∈ alternatives, Tidy cfg final e)
    (emitted : EmitsAlternatives cfg final alternatives base depth n scope code) :
    Framed base depth scope code := by
  induction alternatives generalizing n code with
  | nil => exact nomatch emitted
  | cons e others ih =>
    cases emitted with
    | last here => simpa using all e List.mem_cons_self here
    | cons _ here later =>
      have first := all e List.mem_cons_self here
      have behind := ih (fun e member => all e (List.mem_cons_of_mem _ member)) later
      simpa using ⟨first,behind⟩

private theorem elements_framed {elements : List Expr} {index : Nat}
    (all : ∀ e ∈ elements, Tidy cfg final e)
    (emitted : EmitsElements cfg final elements base depth index scope code scope') :
    Framed base depth scope code ∧ Above base scope scope' := by
  induction elements generalizing index scope code with
  | nil =>
    cases emitted
    exact ⟨framed_nil,.refl base _⟩
  | cons e others ih =>
    cases emitted with
    | cons here later =>
      have inside : base ≤ base + index := Nat.le_add_right base index
      have above := Above.trans (.refl base scope) (emits_above here) inside
      obtain ⟨framed,further⟩ := ih (fun e member => all e (List.mem_cons_of_mem _ member)) later
      have first := (all e List.mem_cons_self here).mono inside (Nat.le_succ depth) (.refl base scope)
      have behind := framed.mono (Nat.le_refl base) (Nat.le_refl depth) above
      have failing : Framed base depth scope (abandoned base depth index) := by
        unfold abandoned
        split <;> simp
      exact ⟨by simp [first,failing,behind],above.trans further (Nat.le_refl base)⟩

private theorem expr_framed (e : Expr) : Tidy cfg final e := by
  induction e using Expr.induction with
  | named site name body ih =>
    intro base depth caller scope code scope' emitted
    cases emitted with
    | named _ inner => simpa using ih inner
  | choice site alternatives ih =>
    intro base depth caller scope code scope' emitted
    cases emitted with
    | choice_empty => simp
    | choice _ parts => simpa using alternatives_framed ih parts
  | action site act body ih =>
    intro base depth caller scope code scope' emitted
    cases emitted with
    | action_sequence inner => exact ih inner
    | action _ inner _ =>
      have first := (ih inner).mono (Nat.le_refl base) (Nat.le_succ depth) (.refl base scope)
      have call := call_framed cfg depth (emits_above inner)
      refine framed_append.mpr ⟨framed_append.mpr ⟨by simp,first⟩,?_⟩
      exact framed_blank.mpr (framed_ifThen.mpr ⟨by simp,call _,framed_nil⟩)
  | sequence site elements ih =>
    intro base depth caller scope code scope' emitted
    cases emitted with
    | sequence_empty closed =>
      have close := closes_framed closed (.refl base scope)
      cases caller <;> simpa using close
    | sequence _ parts closed =>
      obtain ⟨framed,above⟩ := elements_framed ih parts
      have close := closes_framed closed above
      simpa using ⟨framed,close⟩
  | labeled site label body ih =>
    intro base depth caller scope code scope' emitted
    cases emitted with
    | labeled _ inner => exact ih inner
  | text site body ih =>
    intro base depth caller scope code scope' emitted
    cases emitted with
    | text inner =>
      have first := (ih inner).mono (Nat.le_refl base) (Nat.le_succ depth) (.refl base scope)
      simpa using first
  | optional site body ih =>
    intro base depth caller scope code scope' emitted
    cases emitted with
    | optional inner => simpa using ih inner
  | repeated site repetition body ih =>
    intro base depth caller scope code scope' emitted
    cases emitted with
    | @repeated _ _ _ _ _ _ _ piece _ least most lower upper inner =>
      have item : Framed base depth scope piece :=
        (ih inner).mono (Nat.le_succ base) (by split <;> omega) (.refl base scope)
      have begun : Framed base depth scope
          (if needsRollback repetition.min then [.step (.save depth)] else []) := by
        split <;> simp
      have round : Framed base depth scope (loopBody base most piece) := by
        have limit : Framed base depth scope
            (most.toList.map fun bound => Instr.brief (.atLeast base bound) .leave) := by
          cases most with
          | none => simp
          | some bound =>
            obtain ⟨boundary,-,found⟩ := Option.map_eq_some_iff.mp upper
            have read := permitted_bound base depth found
            simpa using read
        simp [loopBody,limit,item]
      have read := permitted_bound base depth lower
      have rolled : Framed base depth scope (undone repetition.min depth) := by
        unfold undone
        split <;> simp
      have short : Framed base depth scope (shortage repetition.min base depth least) := by
        unfold shortage
        split
        · simpa [rolled] using read
        · simp
      simp [begun,round,short]
  | lookahead site isNegative body ih =>
    intro base depth caller scope code scope' emitted
    cases emitted with
    | lookahead inner =>
      have first := (ih inner).mono (Nat.le_refl base) (Nat.le_succ depth) (.refl base scope)
      cases isNegative <;> simpa [negated] using first
  | predicate site isNegative code ns =>
    intro base depth caller scope code scope' emitted
    cases emitted with
    | predicate _ =>
      have arguments := permitted_arguments cfg depth (.refl base scope)
      exact framed_ifElse.mpr ⟨arguments,by simp,by simp,framed_nil⟩
  | ruleRef | literal | charClass | any =>
    intro base depth caller scope code scope' emitted
    cases emitted
    simp

def SetLast (l : Local) (code : List Instr) : Prop :=
  ∀ ⦃path x⦄, Paths code path x → .write l ∉ path.dropLast

structure SetLeaving (l : Local) (code : List Instr) : Prop where
  last : SetLast l code
  kept : ∀ ⦃path⦄, Paths code path .done → .write l ∉ path

section Setting

variable {l : Local}

private theorem dropLast_append_kept {first others : List Access} (early : .write l ∉ first)
    (late : .write l ∉ others.dropLast) : .write l ∉ (first ++ others).dropLast := by
  cases others with
  | nil =>
    rw [List.append_nil]
    exact fun member => early (List.dropLast_subset _ member)
  | cons a rest =>
    rw [List.dropLast_append_of_ne_nil (List.cons_ne_nil a rest)]
    exact fun member => (List.mem_append.mp member).elim early late

theorem SetLeaving.of_untouched (untouched : .write l ∉ accessesAll code) : SetLeaving l code where
  last _ _ taken member :=
    untouched (paths_accesses code taken (List.dropLast_subset _ member))
  kept _ taken member := untouched (paths_accesses code taken member)

theorem SetLeaving.setLast_append (first : SetLeaving l code) (second : SetLast l rest) :
    SetLast l (code ++ rest) := by
  intro path x taken
  rcases paths_append.mp taken with ⟨rfl,left⟩ | ⟨early,late,start,behind,rfl⟩
  · exact first.last left
  · exact dropLast_append_kept (first.kept start) (second behind)

theorem SetLeaving.append (first : SetLeaving l code) (second : SetLeaving l rest) :
    SetLeaving l (code ++ rest) where
  last := first.setLast_append second.last
  kept path taken := by
    rcases paths_append.mp taken with ⟨⟨⟩,_⟩ | ⟨early,late,start,behind,rfl⟩
    exact fun member => (List.mem_append.mp member).elim (first.kept start) (second.kept behind)

theorem setLast_step (s : Step) : SetLast l [.step s] := by
  intro path x taken
  have same : path = s.accesses := by
    rcases paths_cons.mp taken with ⟨-,here⟩ | ⟨first,others,here,⟨rfl,-⟩,rfl⟩
    · exact here.1
    · rw [List.append_nil]
      exact here.1
  rw [same]
  cases s <;> simp [Step.accesses,List.dropLast_append_of_ne_nil]

private theorem paths_ifThen {test : Test} {path : List Access} {x : Exit}
    (taken : Paths [.ifThen test code] path x) :
    path = test.accesses ∨ ∃ inner, Paths code inner x ∧ path = test.accesses ++ inner := by
  rcases paths_cons.mp taken with ⟨rfl,⟨-,⟨⟩⟩ | inside⟩ | ⟨first,others,here,⟨rfl,rfl⟩,rfl⟩
  · exact .inr inside
  · rw [List.append_nil]
    exact here.imp_left And.left

private theorem not_written (test : Test) : .write l ∉ test.accesses := by
  simp [Test.accesses]

theorem SetLast.ifThen (body : SetLast l code) (test : Test) : SetLast l [.ifThen test code] := by
  intro path x taken
  rcases paths_ifThen taken with rfl | ⟨inner,inside,rfl⟩
  · exact fun member => not_written test (List.dropLast_subset _ member)
  · exact dropLast_append_kept (not_written test) (body inside)

theorem SetLeaving.ifThen (body : SetLeaving l code) (test : Test) :
    SetLeaving l [.ifThen test code] where
  last := body.last.ifThen test
  kept path taken := by
    rcases paths_ifThen taken with rfl | ⟨inner,inside,rfl⟩
    · exact not_written test
    · exact fun member => (List.mem_append.mp member).elim (not_written test) (body.kept inside)

end Setting

theorem emits_framed {e : Expr} {caller : Option (Site × Action)}
    (emitted : Emits cfg final e base depth caller scope code scope') :
    Framed base depth scope code :=
  expr_framed e emitted

theorem Framed.untouched (framed : Framed base depth scope code) {slot : Nat} (below : slot < base) :
    .write (.value slot) ∉ accessesAll code :=
  fun member => Nat.not_le_of_lt below (framed _ member)

private theorem abandoned_setLeaving (l : Local) (base depth index : Nat) :
    SetLeaving l (abandoned base depth index) := by
  unfold abandoned
  split
  · exact .of_untouched (by simp [Step.accesses])
  · have restored : SetLeaving l [.step (.restore depth)] := .of_untouched (by simp [Step.accesses])
    have failed : SetLeaving l [.step (.assign base .failed),.step .leave] := by
      constructor <;> simp [SetLast,paths_cons,Instr.Path,Step.accesses]
    exact restored.append failed

/-- Elements of a sequence do not set a local below theirs, unless the sequence is left. -/
theorem elements_setLeaving {elements : List Expr} {index slot : Nat}
    (emitted : EmitsElements cfg final elements base depth index scope code scope')
    (below : slot < base + index) : SetLeaving (.value slot) code := by
  induction elements generalizing index scope code with
  | nil =>
    cases emitted
    exact .of_untouched (by simp)
  | cons e others ih =>
    cases emitted with
    | cons here later =>
      have element := SetLeaving.of_untouched ((emits_framed here).untouched below)
      have numbered : SetLeaving (.value slot) [.element (index + 1)] := .of_untouched (by simp)
      have failing := (abandoned_setLeaving (.value slot) base depth index).ifThen (.failed (base + index))
      have blank : SetLeaving (.value slot) [.blank] := .of_untouched (by simp)
      have behind := ih later (by omega)
      exact ((numbered.append element).append (failing.append blank)).append behind

theorem elements_scopeBelow {elements : List Expr} {index : Nat}
    (emitted : EmitsElements cfg final elements base depth index scope code scope')
    (below : ScopeBelow scope (base + index)) :
    ScopeBelow scope' (base + index + elements.length) := by
  induction elements generalizing index scope code with
  | nil =>
    cases emitted
    exact below
  | cons e others ih =>
    cases emitted with
    | cons here later =>
      have behind := ih later (emits_scopeBelow here below)
      rwa [List.length_cons,Nat.add_comm others.length 1,← Nat.add_assoc]

theorem call_setLast (l : Local) (position slot : Nat) (value : Value) :
    SetLast l [.step (.mark position),.step (.assign slot value)] := by
  have marked : SetLeaving l [.step (.mark position)] := .of_untouched (by simp [Step.accesses])
  exact marked.setLast_append (setLast_step _)

theorem closes_setLast {count : Nat} {caller : Option (Site × Action)} {close : List Instr}
    (closed : Closes cfg final base depth count scope caller close) (l : Local) : SetLast l close := by
  cases closed with
  | bundle => exact setLast_step _
  | call _ => exact call_setLast l depth base _

/-- What code does in the scope of these labels: no path sets the local of a label but by its last
access, which gives the sequence or action that the scope belongs to its own value. -/
def KeptToEnd (scope : Scope) (code : List Instr) : Prop :=
  ∀ b ∈ scope, SetLast (.value b.slot) code

/-- Lowering elements is lowering the first of them and then the others. -/
private theorem lowerElements_append {front others : List Expr} {index first : Nat} {s t : State}
    {result : List Instr × Scope}
    (ok : Yields (lowerElements cfg (front ++ others) base index first scope) s result t)
    (taken : s.values.occupied = base + index) (atFirst : index ≠ 0 → first = base)
    (saved : s.positions.occupied = depth + 1) :
    ∃ codeFront inner u later codeRest,
      Yields (lowerElements cfg front base index first scope) s (codeFront,inner) u ∧
      Yields (lowerElements cfg others base (index + front.length) later inner) u
        (codeRest,result.2) t ∧ result.1 = codeFront ++ codeRest ∧
      (index + front.length ≠ 0 → later = base) := by
  induction front generalizing index first scope s result with
  | nil => exact ⟨[],scope,s,first,result.1,by simp [lowerElements],by simpa using ok,rfl,atFirst⟩
  | cons e rest ih =>
    rw [List.cons_append,lowerElements,yields_bind] at ok
    obtain ⟨head,v,lowered,ok⟩ := ok
    have balanced := lower_balanced cfg lowered taken
    simp only [yields_bind,yields_topValue,yields_pure] at ok
    obtain ⟨top,v,⟨topmost,rfl⟩,onFail,w,abandons,behind,u,more,rfl,rfl⟩ := ok
    obtain rfl := Nat.add_right_cancel (balanced.1.symm.trans topmost)
    have firstLocal : (if index = 0 then base + index else first) = base := by
      split
      next zero => rw [zero,Nat.add_zero]
      next behindFirst => exact atFirst behindFirst
    have position : v.positions.occupied = depth + 1 := balanced.2.trans saved
    have same := (abandon_safe index _ (by omega)).of_yields abandons
    have values : w.values.occupied = base + (index + 1) := by
      rw [same.1,balanced.1]
      omega
    obtain ⟨codeFront,inner,x,later,codeRest,start,last,split,further⟩ :=
      ih more values (fun _ => firstLocal) (same.2.trans position)
    have length : index + (e :: rest).length = index + 1 + rest.length := by
      rw [List.length_cons]
      omega
    refine ⟨.element (index + 1) :: head.1 ++ [.ifThen (.failed (base + index)) onFail,.blank] ++
      codeFront,inner,x,later,codeRest,?_,length ▸ last,?_,fun _ => further (by omega)⟩
    · rw [lowerElements,yields_bind]
      simp only [yields_bind,yields_topValue,yields_pure]
      exact ⟨head,v,lowered,_,v,⟨topmost,rfl⟩,onFail,w,abandons,(codeFront,inner),x,start,rfl,rfl⟩
    · rw [split,← List.append_assoc]

/-- Lowering starts where the locals below `base` are taken. -/
theorem lower_at_base {e : Expr} {caller : Option (Site × Action)} {s t : State}
    {result : List Instr × Scope} (ok : Yields (lower cfg e base caller scope) s result t) :
    s.values.occupied = base := by
  cases e <;>
  · simp only [lower,yields_bind,yields_expectBase] at ok
    obtain ⟨_,_,⟨taken,-⟩,-⟩ := ok
    exact taken

/-- In a sequence the labels of its first elements are kept by all that follows. -/
theorem sequence_keeps {site : Site} {front others : List Expr} {caller : Option (Site × Action)}
    {s t : State} (some : front ≠ [])
    (ok : Yields (lower cfg (.sequence site (front ++ others)) base caller scope) s (code,scope') t)
    (below : ScopeBelow scope base) :
    ∃ codeFront inner u codeRest,
      Yields (lowerElements cfg front base 0 base scope)
        { s with positions := s.positions.reclaim } (codeFront,inner) u ∧
      code = [.step (.save s.positions.occupied),.block .sequence (codeFront ++ codeRest)] ∧
      KeptToEnd inner codeRest := by
  have taken := lower_at_base ok
  have nonempty : (front ++ others).isEmpty = false := by simp [some]
  simp only [lower,nonempty,Bool.not_false,Bool.true_or,if_true,Bool.false_eq_true,if_false,
    yields_bind,yields_expectBase,yields_savePosition,yields_pure] at ok
  obtain ⟨_,_,⟨-,rfl⟩,_,_,⟨rfl,rfl⟩,_,_,⟨rfl,rfl⟩,⟨all,after⟩,u,lowered,close,v,closed,⟨⟩,rfl⟩ := ok
  obtain ⟨codeFront,inner,w,later,codeRest,start,last,rfl,further⟩ :=
    lowerElements_append lowered taken (by simp) rfl
  have leading := lowerElements_emits cfg start taken (by simp) (fun _ => rfl) (.refl _)
  have trailing := lowerElements_emits cfg last (by simpa using leading.2.1) further
    (fun _ => leading.2.2) (.refl _)
  have count : u.values.occupied = base + (front ++ others).length := by
    rw [trailing.2.1,List.length_append]
    omega
  have closes := closeSequence_closes cfg closed count
    (fun _ => trailing.2.2.trans leading.2.2) (.refl _)
  have inside := elements_scopeBelow leading.1 below
  refine ⟨codeFront,inner,w,codeRest ++ close,start,by simp,fun b member => ?_⟩
  have slot : b.slot < base + (0 + front.length) := by simpa using inside b member
  exact (elements_setLeaving trailing.1 slot).setLast_append (closes_setLast closes _)

/-- Around anything but a sequence, an action keeps the labels of its body until it is called. -/
theorem action_keeps {site : Site} {act : Action} {body : Expr} {caller : Option (Site × Action)}
    {s t : State} (plain : body.isSequence = false)
    (ok : Yields (lower cfg (.action site act body) base caller scope) s (code,scope') t) :
    ∃ codeBody inner u codeRest,
      Yields (lower cfg body base none scope) { s with positions := s.positions.reclaim }
        (codeBody,inner) u ∧
      code = [.step (.save s.positions.occupied),.blank] ++ codeBody ++ codeRest ∧
      KeptToEnd inner codeRest := by
  simp only [lower,plain,Bool.false_eq_true,if_false,lowerAction,yields_bind,yields_expectBase,
    yields_savePosition,yields_topValue,yields_markPosition,yields_replaceValue,yields_pure] at ok
  obtain ⟨_,_,⟨-,rfl⟩,_,_,⟨_,_,⟨rfl,rfl⟩,⟨codeBody,inner⟩,u,lowered,_,_,-,value,_,-,top,_,-,_,_,
    ⟨position,-,rfl,-⟩,_,_,⟨slot,-,rfl,-⟩,rfl,-⟩,⟨⟩,-⟩ := ok
  refine ⟨codeBody,inner,u,_,lowered,rfl,fun b _ => ?_⟩
  have blank : SetLeaving (.value b.slot) [.blank] := .of_untouched (by simp)
  exact blank.setLast_append ((call_setLast _ position slot value).ifThen _)

/-- A named expression passes on the labels of its body. Behind the body it sets the local of a
label only if the body has failed. -/
theorem named_keeps {site : Site} {name : String} {body : Expr} {caller : Option (Site × Action)}
    {s t : State}
    (ok : Yields (lower cfg (.named site name body) base caller scope) s (code,scope') t) :
    ∃ start codeBody u codeRest,
      Yields (lower cfg body base none scope) start (codeBody,scope') u ∧
      code = [.step .silence,.blank] ++ codeBody ++ codeRest ∧
      ∀ {ω π : Type} {c : Context ω π} {m m' : Machine ω π} {x : Exit} {d : Datum ω},
        m.values base = .matched d → Runs c codeRest m x m' → m'.values = m.values := by
  simp only [lower,lowerNamed,expected_eq,yields_bind,yields_expectBase,yields_ofFault_ok,
    yields_addExpected] at ok
  obtain ⟨_,_,⟨taken,rfl⟩,_,_,⟨rfl,rfl⟩,expected,start,⟨rfl,rfl⟩,⟨codeBody,inner⟩,u,lowered,ok⟩ := ok
  have balanced := lower_balanced cfg lowered taken
  simp only [yields_topValue,yields_replaceValue,yields_pure,balanced.1,
    Nat.add_right_cancel_iff] at ok
  obtain ⟨_,_,⟨rfl,-⟩,_,_,⟨slot,-,rfl,-⟩,⟨⟩,-⟩ := ok
  refine ⟨_,codeBody,u,_,lowered,rfl,?_⟩
  intro ω π c m m' x d matched run
  simp only [runs_blank,runs_unsilence,runs_ifThen,TestIs] at run
  rcases run with ⟨failed,-⟩ | ⟨-,-,rfl⟩
  · simp [matched,Outcome.isFailed] at failed
  · rfl

/-- Lowered code sets only locals above those that are taken where it stands, and of these it reads
those of labels in scope. Nothing in the scope of a label overwrites its local: in a sequence and
below an action only their own value does, and behind a named expression only a failure. -/
theorem lowered_code_framed (cfg : Setting) {e : Expr} {caller : Option (Site × Action)}
    {s t : State} (ok : Yields (lower cfg e base caller scope) s (code,scope') t)
    (below : ScopeBelow scope base) :
    Framed base s.positions.occupied scope code ∧ ScopeBelow scope' (base + 1) ∧
      (∀ site front others, e = .sequence site (front ++ others) → front ≠ [] →
        ∃ codeFront inner u codeRest,
          Yields (lowerElements cfg front base 0 base scope)
            { s with positions := s.positions.reclaim } (codeFront,inner) u ∧
          code = [.step (.save s.positions.occupied),.block .sequence (codeFront ++ codeRest)] ∧
          KeptToEnd inner codeRest) ∧
      (∀ site act body, e = .action site act body → body.isSequence = false →
        ∃ codeBody inner u codeRest,
          Yields (lower cfg body base none scope) { s with positions := s.positions.reclaim }
            (codeBody,inner) u ∧
          code = [.step (.save s.positions.occupied),.blank] ++ codeBody ++ codeRest ∧
          KeptToEnd inner codeRest) ∧
      ∀ site name body, e = .named site name body →
        ∃ start codeBody u codeRest,
          Yields (lower cfg body base none scope) start (codeBody,scope') u ∧
          code = [.step .silence,.blank] ++ codeBody ++ codeRest ∧
          ∀ {ω π : Type} {c : Context ω π} {m m' : Machine ω π} {x : Exit} {d : Datum ω},
            m.values base = .matched d → Runs c codeRest m x m' → m'.values = m.values := by
  have emitted := lower_emits cfg e ok (lower_at_base ok) (.refl _)
  refine ⟨emits_framed emitted,emits_scopeBelow emitted below,?_,?_,?_⟩
  · rintro site front others rfl some
    exact sequence_keeps some ok below
  · rintro site act body rfl plain
    exact action_keeps plain ok
  · rintro site name body rfl
    exact named_keeps ok

def countedRun : Expr :=
  .sequence { id := 5 } ([.labeled { id := 0 } "open" (.any { id := 1 })] ++
    [.repeated { id := 2 } (.range (.label "n") none) (.any { id := 3 }),.any { id := 4 }])

def countedSetting : Setting :=
  ⟨⟨false⟩,{ nodes := [(1,.char)] }⟩

def countedState : State where
  values := { letter := valueLetter, type := "Object", occupied := 2, declared := 2 }
  positions := { letter := positionLetter, type := "Position", occupied := 1, declared := 1 }
  registries := ⟨{ letter := "p", type := "Pattern" },{ letter := "e", type := "Expected" },{}⟩

/-- The run and the letter behind it keep the count and the first letter. -/
theorem countedRun_keeps_labels : ∃ code scope' t codeFront codeRest,
    Yields (lower countedSetting countedRun 2 none [⟨"n",1,.object⟩]) countedState (code,scope') t ∧
    ScopeBelow [⟨"n",1,.object⟩] 2 ∧ Framed 2 1 [⟨"n",1,.object⟩] code ∧
    code = [.step (.save 1),.block .sequence (codeFront ++ codeRest)] ∧
    KeptToEnd [⟨"n",1,.object⟩,⟨"open",2,.char⟩] codeRest := by
  have below : ScopeBelow [⟨"n",1,.object⟩] 2 := by simp [ScopeBelow]
  have lowers : (outcome (lower countedSetting countedRun 2 none [⟨"n",1,.object⟩])
      countedState).1.toOption.isSome = true := by decide +kernel
  have labels : (outcome (lowerElements countedSetting
      [.labeled { id := 0 } "open" (.any { id := 1 })] 2 0 2 [⟨"n",1,.object⟩])
      { countedState with positions := countedState.positions.reclaim }).1.toOption.map Prod.snd =
        some [⟨"n",1,.object⟩,⟨"open",2,.char⟩] := by decide +kernel
  cases run : (outcome (lower countedSetting countedRun 2 none [⟨"n",1,.object⟩]) countedState).1 with
  | error _ =>
    rw [run] at lowers
    exact nomatch lowers
  | ok found =>
    have ok := Yields.of_fst run
    obtain ⟨framed,-,elements,-⟩ := lowered_code_framed countedSetting ok below
    obtain ⟨codeFront,inner,u,codeRest,start,shape,kept⟩ := elements _ _ _ rfl (List.cons_ne_nil _ _)
    rw [start.outcome_eq] at labels
    obtain rfl := Option.some.inj labels
    exact ⟨found.1,found.2,_,codeFront,codeRest,ok,below,framed,shape,kept⟩

end Lowering

end PegCompiler
