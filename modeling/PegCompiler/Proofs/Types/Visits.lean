import PegCompiler.Proofs.Types.Divergence

/-! Which bodies a pass works on. The recursion from expressions to rules and back is given without
any bound on its depth, as a relation that also says whose bodies are typed. A rule that is asked
for holds its phantom before its body is entered, so no body is entered twice and the recursion
ends: the first pass works on every body once, and a sweep on nothing but the body whose turn it
is. -/
namespace PegCompiler

namespace Inference

mutual

/-- An expression is typed from `s`, with this type and leaving `t`. On the way the bodies of the
rules at `visits` are typed, in the order in which they are entered. -/
inductive Infers (g : Grammar) : Expr → Inference → Ty → Inference → List Nat → Prop
  | named {site name body s ty t visits} :
      Infers g body s ty t visits →
      Infers g (.named site name body) s ty (t.record site.id ty).2 visits
  | choice {site alternatives s types t visits} :
      InfersAll g alternatives s types t visits →
      Infers g (.choice site alternatives) s (.union types) (t.record site.id (.union types)).2
        visits
  | action {site act body s ty t visits} :
      Infers g body s ty t visits →
      Infers g (.action site act body) s (t.actionType site).1
        ((t.actionType site).2.record site.id (t.actionType site).1).2 visits
  | sequence {site elements s types t visits} :
      InfersAll g elements s types t visits →
      Infers g (.sequence site elements) s (.tuple types) (t.record site.id (.tuple types)).2 visits
  | labeled {site label body s ty t visits} :
      Infers g body s ty t visits →
      Infers g (.labeled site label body) s ty (t.record site.id ty).2 visits
  | text {site body s ty t visits} :
      Infers g body s ty t visits →
      Infers g (.text site body) s .slice (t.record site.id .slice).2 visits
  | optional {site body s ty t visits} :
      Infers g body s ty t visits →
      Infers g (.optional site body) s (.option ty) (t.record site.id (.option ty)).2 visits
  | repeated {site repetition body s ty t visits} :
      Infers g body s ty t visits →
      Infers g (.repeated site repetition body) s (.list ty) (t.record site.id (.list ty)).2 visits
  | lookahead {site isNegative body s ty t visits} :
      Infers g body s ty t visits →
      Infers g (.lookahead site isNegative body) s .object (t.record site.id .object).2 visits
  | predicate {site isNegative code ns s} :
      Infers g (.predicate site isNegative code ns) s .object (s.record site.id .object).2 []
  | ruleRef {site name index s ty t visits} :
      g.ruleIndex name = some index → LooksUp g index s ty t visits →
      Infers g (.ruleRef site name) s ty (t.record site.id ty).2 visits
  | unknown {site name s} :
      g.ruleIndex name = none →
      Infers g (.ruleRef site name) s .object
        ((s.reportOnce (.unknownRule name site.location)).record site.id .object).2 []
  | literal {site value ignoreCase s} :
      Infers g (.literal site value ignoreCase) s .slice (s.record site.id .slice).2 []
  | charClass {site parts inverted ignoreCase rawText s} :
      Infers g (.charClass site parts inverted ignoreCase rawText) s .char
        (s.record site.id .char).2 []
  | any {site s} : Infers g (.any site) s .char (s.record site.id .char).2 []

inductive InfersAll (g : Grammar) : List Expr → Inference → List Ty → Inference → List Nat → Prop
  | nil {s} : InfersAll g [] s [] s []
  | cons {e rest s ty t types u visits later} :
      Infers g e s ty t visits → InfersAll g rest t types u later →
      InfersAll g (e :: rest) s (ty :: types) u (visits ++ later)

inductive LooksUp (g : Grammar) : Nat → Inference → Ty → Inference → List Nat → Prop
  | given {index s ty} : s.slot index = some ty → LooksUp g index s ty s []
  | demanded {index rule s ty t visits} :
      s.slot index = none → g.rules[index]? = some rule →
      InfersRule g index (s.mark index rule) ty t visits → LooksUp g index s ty t visits

inductive InfersRule (g : Grammar) : Nat → Inference → Ty → Inference → List Nat → Prop
  | body {index rule s ty t visits} :
      g.rules[index]? = some rule → Infers g rule.body s ty t visits →
      InfersRule g index s ty (t.store index ty) (index :: visits)

end

inductive Resolving (g : Grammar) : List Nat → Inference → Inference → List Nat → Prop
  | nil {s} : Resolving g [] s s []
  | cons {index rest s ty t u visits later} :
      LooksUp g index s ty t visits → Resolving g rest t u later →
      Resolving g (index :: rest) s u (visits ++ later)

inductive Sweeping (g : Grammar) : List Nat → Inference → Inference → List (List Nat) → Prop
  | nil {s} : Sweeping g [] s s []
  | cons {index rest s ty t u visits later} :
      InfersRule g index s ty t visits → Sweeping g rest t u later →
      Sweeping g (index :: rest) s u (visits :: later)

/-! A run is determined by where it starts. -/

mutual

theorem Infers.unique {g : Grammar} {e : Expr} {s t t' : Inference} {ty ty' : Ty}
    {visits visits' : List Nat} : Infers g e s ty t visits → Infers g e s ty' t' visits' →
      ty = ty' ∧ t = t' ∧ visits = visits'
  | .named part, .named part' => by
    obtain ⟨rfl,rfl,rfl⟩ := part.unique part'
    exact ⟨rfl,rfl,rfl⟩
  | .choice part, .choice part' => by
    obtain ⟨rfl,rfl,rfl⟩ := part.unique part'
    exact ⟨rfl,rfl,rfl⟩
  | .action part, .action part' => by
    obtain ⟨rfl,rfl,rfl⟩ := part.unique part'
    exact ⟨rfl,rfl,rfl⟩
  | .sequence part, .sequence part' => by
    obtain ⟨rfl,rfl,rfl⟩ := part.unique part'
    exact ⟨rfl,rfl,rfl⟩
  | .labeled part, .labeled part' => by
    obtain ⟨rfl,rfl,rfl⟩ := part.unique part'
    exact ⟨rfl,rfl,rfl⟩
  | .text part, .text part' => by
    obtain ⟨rfl,rfl,rfl⟩ := part.unique part'
    exact ⟨rfl,rfl,rfl⟩
  | .optional part, .optional part' => by
    obtain ⟨rfl,rfl,rfl⟩ := part.unique part'
    exact ⟨rfl,rfl,rfl⟩
  | .repeated part, .repeated part' => by
    obtain ⟨rfl,rfl,rfl⟩ := part.unique part'
    exact ⟨rfl,rfl,rfl⟩
  | .lookahead part, .lookahead part' => by
    obtain ⟨rfl,rfl,rfl⟩ := part.unique part'
    exact ⟨rfl,rfl,rfl⟩
  | .ruleRef found lookup, .ruleRef found' lookup' => by
    obtain rfl := Option.some.inj (found.symm.trans found')
    obtain ⟨rfl,rfl,rfl⟩ := lookup.unique lookup'
    exact ⟨rfl,rfl,rfl⟩
  | .ruleRef found _, .unknown missing => nomatch found.symm.trans missing
  | .unknown missing, .ruleRef found _ => nomatch found.symm.trans missing
  | .unknown _, .unknown _ => ⟨rfl,rfl,rfl⟩
  | .predicate, .predicate => ⟨rfl,rfl,rfl⟩
  | .literal, .literal => ⟨rfl,rfl,rfl⟩
  | .charClass, .charClass => ⟨rfl,rfl,rfl⟩
  | .any, .any => ⟨rfl,rfl,rfl⟩
termination_by structural run => run

theorem InfersAll.unique {g : Grammar} {es : List Expr} {s t t' : Inference}
    {types types' : List Ty} {visits visits' : List Nat} : InfersAll g es s types t visits →
      InfersAll g es s types' t' visits' → types = types' ∧ t = t' ∧ visits = visits'
  | .nil, .nil => ⟨rfl,rfl,rfl⟩
  | .cons head tail, .cons head' tail' => by
    obtain ⟨rfl,rfl,rfl⟩ := head.unique head'
    obtain ⟨rfl,rfl,rfl⟩ := tail.unique tail'
    exact ⟨rfl,rfl,rfl⟩
termination_by structural run => run

theorem LooksUp.unique {g : Grammar} {index : Nat} {s t t' : Inference} {ty ty' : Ty}
    {visits visits' : List Nat} : LooksUp g index s ty t visits → LooksUp g index s ty' t' visits' →
      ty = ty' ∧ t = t' ∧ visits = visits'
  | .given found, .given found' => ⟨Option.some.inj (found.symm.trans found'),rfl,rfl⟩
  | .given found, .demanded missing _ _ => nomatch found.symm.trans missing
  | .demanded missing _ _, .given found => nomatch found.symm.trans missing
  | .demanded _ declared run, .demanded _ declared' run' => by
    obtain rfl := Option.some.inj (declared.symm.trans declared')
    exact run.unique run'
termination_by structural run => run

theorem InfersRule.unique {g : Grammar} {index : Nat} {s t t' : Inference} {ty ty' : Ty}
    {visits visits' : List Nat} : InfersRule g index s ty t visits →
      InfersRule g index s ty' t' visits' → ty = ty' ∧ t = t' ∧ visits = visits'
  | .body declared run, .body declared' run' => by
    obtain rfl := Option.some.inj (declared.symm.trans declared')
    obtain ⟨rfl,rfl,rfl⟩ := run.unique run'
    exact ⟨rfl,rfl,rfl⟩
termination_by structural run => run

end

/-! A rule whose body is entered has a type from then on, so that no body is entered twice. -/

section Visited

variable {g : Grammar} {s t u : Inference} {index : Nat} {rule : Rule} {ty : Ty}
  {visits later : List Nat}

theorem mark_given (rule : Rule) (inside : index < s.slots.length) :
    ((s.mark index rule).slot index).isSome := by
  simp [mark_slot inside]

structure Visited (s t : Inference) (visits : List Nat) : Prop where
  length : t.slots.length = s.slots.length
  kept : ∀ index, (s.slot index).isSome → (t.slot index).isSome
  nodup : visits.Nodup
  filled : ∀ index, index ∈ visits ↔ Filled s t index

namespace Visited

theorem of_same (same : ∀ index, (t.slot index).isSome = (s.slot index).isSome)
    (length : t.slots.length = s.slots.length) : Visited s t [] := by
  refine ⟨length,fun index given => (same index).trans given,List.nodup_nil,fun index => ?_⟩
  simp only [List.not_mem_nil,Filled,same,false_iff]
  rintro ⟨missing,given⟩
  simp [missing] at given

theorem refl (s : Inference) : Visited s s [] :=
  of_same (fun _ => rfl) rfl

theorem trans (first : Visited s t visits) (second : Visited t u later) :
    Visited s u (visits ++ later) := by
  refine ⟨second.length.trans first.length,
    fun index given => second.kept index (first.kept index given),?_,fun index => ?_⟩
  · refine List.nodup_append'.mpr ⟨first.nodup,second.nodup,fun index early late => ?_⟩
    obtain ⟨-,given⟩ := (first.filled index).mp early
    obtain ⟨missing,-⟩ := (second.filled index).mp late
    simp [missing] at given
  · rw [List.mem_append,first.filled,second.filled]
    constructor
    · rintro (⟨missing,given⟩ | ⟨missing,given⟩)
      · exact ⟨missing,second.kept index given⟩
      · refine ⟨?_,given⟩
        by_contra present
        have still := first.kept index (Option.isSome_iff_ne_none.mpr present)
        simp [missing] at still
    · exact fun filled => filled.split

/-- What leaves the types of rules alone enters no body. -/
theorem behind (visited : Visited s t visits) (same : u.slots = t.slots) : Visited s u visits := by
  have rest : Visited t u [] := of_same (fun index => by rw [slot_congr same]) (by rw [same])
  rw [← List.append_nil visits]
  exact visited.trans rest

theorem store (visited : Visited s t visits) (given : (t.slot index).isSome) (ty : Ty) :
    Visited s (t.store index ty) visits := by
  obtain ⟨old,found⟩ := Option.isSome_iff_exists.mp given
  have slots := store_slot (slot_inside found) ty
  have rest : Visited t (t.store index ty) [] := by
    apply of_same
    · intro i
      rw [slots]
      split
      next here => rw [here,given,Option.isSome_some]
      next => rfl
    · unfold Inference.store
      split
      · rfl
      · exact List.length_set
  rw [← List.append_nil visits]
  exact visited.trans rest

/-- The rule that was asked for counts from its phantom on. -/
theorem of_mark (missing : s.slot index = none) (inside : index < s.slots.length)
    (visited : Visited (s.mark index rule) t visits) : Visited s t (index :: visits) := by
  have slots (i : Nat) : (s.mark index rule).slot i = _ := mark_slot inside i
  have marked := mark_given rule inside
  refine ⟨visited.length.trans List.length_set,fun i given => ?_,?_,fun i => ?_⟩
  · apply visited.kept
    rw [slots]
    split
    · rfl
    · exact given
  · refine List.nodup_cons.mpr ⟨fun again => ?_,visited.nodup⟩
    obtain ⟨unmarked,-⟩ := (visited.filled index).mp again
    simp [unmarked] at marked
  · rw [List.mem_cons,visited.filled]
    constructor
    · rintro (rfl | ⟨unmarked,given⟩)
      · exact ⟨missing,visited.kept i marked⟩
      · rw [slots] at unmarked
        split at unmarked
        · exact nomatch unmarked
        · exact ⟨unmarked,given⟩
    · exact fun filled => filled.after_mark inside

theorem nil_of_full (length : s.slots.length = g.rules.length) (full : Full g s)
    (visited : Visited s t visits) : visits = [] := by
  apply List.eq_nil_iff_forall_not_mem.mpr
  intro index member
  obtain ⟨missing,given⟩ := (visited.filled index).mp member
  obtain ⟨ty,found⟩ := Option.isSome_iff_exists.mp given
  have inside := visited.length ▸ slot_inside found
  have present := full index (length ▸ inside)
  simp [missing] at present

end Visited

end Visited

mutual

theorem Infers.visited {g : Grammar} {e : Expr} {s t : Inference} {ty : Ty} {visits : List Nat}
    (length : s.slots.length = g.rules.length) : Infers g e s ty t visits → Visited s t visits
  | .named part => (part.visited length).behind rfl
  | .choice parts => (parts.visited length).behind rfl
  | .action part => (part.visited length).behind (actionType_kept _ _).2.1
  | .sequence parts => (parts.visited length).behind rfl
  | .labeled part => (part.visited length).behind rfl
  | .text part => (part.visited length).behind rfl
  | .optional part => (part.visited length).behind rfl
  | .repeated part => (part.visited length).behind rfl
  | .lookahead part => (part.visited length).behind rfl
  | .ruleRef _ lookup => (lookup.visited length).behind rfl
  | .unknown _ => (Visited.refl s).behind (reportOnce_kept s _).2.1
  | .predicate => (Visited.refl s).behind rfl
  | .literal => (Visited.refl s).behind rfl
  | .charClass => (Visited.refl s).behind rfl
  | .any => (Visited.refl s).behind rfl
termination_by structural run => run

theorem InfersAll.visited {g : Grammar} {es : List Expr} {s t : Inference} {types : List Ty}
    {visits : List Nat} (length : s.slots.length = g.rules.length) :
    InfersAll g es s types t visits → Visited s t visits
  | .nil => .refl s
  | .cons head tail => by
    have first := head.visited length
    exact first.trans (tail.visited (first.length.trans length))
termination_by structural run => run

theorem LooksUp.visited {g : Grammar} {index : Nat} {s t : Inference} {ty : Ty} {visits : List Nat}
    (length : s.slots.length = g.rules.length) : LooksUp g index s ty t visits → Visited s t visits
  | .given _ => .refl s
  | .demanded missing declared run => by
    have inside : index < s.slots.length := length ▸ rule_inside declared
    obtain ⟨inner,rfl,visited⟩ := run.visited (List.length_set.trans length) (mark_given _ inside)
    exact visited.of_mark missing inside
termination_by structural run => run

/-- Typing a body enters it and, besides, the bodies of rules without types. -/
theorem InfersRule.visited {g : Grammar} {index : Nat} {s t : Inference} {ty : Ty}
    {visits : List Nat} (length : s.slots.length = g.rules.length) (given : (s.slot index).isSome) :
    InfersRule g index s ty t visits → ∃ inner, visits = index :: inner ∧ Visited s t inner
  | .body _ run => by
    have inner := run.visited length
    exact ⟨_,rfl,inner.store (inner.kept index given) _⟩
termination_by structural run => run

end

/-! The recursion ends: with a level of depth for every rule without a type, it is what the bounded
functions compute. -/

section Existence

variable {g : Grammar} {depth : Nat} {resolve : Nat → Inference → Ty × Inference} {s : Inference}

def Answers (g : Grammar) (depth : Nat) (resolve : Nat → Inference → Ty × Inference) : Prop :=
  ∀ index < g.rules.length, ∀ s, Ready g depth s →
    ∃ visits, LooksUp g index s (resolve index s).1 (resolve index s).2 visits

private theorem inferAll_infers {es : List Expr}
    (all : ∀ e ∈ es, ∀ s, Ready g depth s →
      ∃ visits, Infers g e s (infer g resolve e s).1 (infer g resolve e s).2 visits)
    (ready : Ready g depth s) :
    ∃ visits, InfersAll g es s (inferAll g resolve es s).1 (inferAll g resolve es s).2 visits := by
  induction es generalizing s with
  | nil => exact ⟨_,.nil⟩
  | cons e rest ih =>
    obtain ⟨visits,head⟩ := all e List.mem_cons_self s ready
    have visited := head.visited ready.length
    obtain ⟨later,tail⟩ := ih (fun e member => all e (List.mem_cons_of_mem _ member))
      (ready.of_kept visited.length visited.kept)
    exact ⟨_,.cons head tail⟩

theorem infer_infers (answers : Answers g depth resolve) (e : Expr) (ready : Ready g depth s) :
    ∃ visits, Infers g e s (infer g resolve e s).1 (infer g resolve e s).2 visits := by
  induction e using Expr.induction generalizing s with
  | named site name body ih =>
    obtain ⟨visits,run⟩ := ih ready
    exact ⟨visits,.named run⟩
  | choice site alternatives ih =>
    obtain ⟨visits,runs⟩ := inferAll_infers (fun e part s ready => ih e part ready) ready
    exact ⟨visits,.choice runs⟩
  | action site act body ih =>
    obtain ⟨visits,run⟩ := ih ready
    exact ⟨visits,.action run⟩
  | sequence site elements ih =>
    obtain ⟨visits,runs⟩ := inferAll_infers (fun e part s ready => ih e part ready) ready
    exact ⟨visits,.sequence runs⟩
  | labeled site label body ih =>
    obtain ⟨visits,run⟩ := ih ready
    exact ⟨visits,.labeled run⟩
  | text site body ih =>
    obtain ⟨visits,run⟩ := ih ready
    exact ⟨visits,.text run⟩
  | optional site body ih =>
    obtain ⟨visits,run⟩ := ih ready
    exact ⟨visits,.optional run⟩
  | repeated site repetition body ih =>
    obtain ⟨visits,run⟩ := ih ready
    exact ⟨visits,.repeated run⟩
  | lookahead site isNegative body ih =>
    obtain ⟨visits,run⟩ := ih ready
    exact ⟨visits,.lookahead run⟩
  | predicate site isNegative code ns => exact ⟨[],.predicate⟩
  | ruleRef site name =>
    rw [infer]
    split
    next index found =>
      obtain ⟨visits,run⟩ := answers index (ruleIndex_lt found) s ready
      exact ⟨visits,.ruleRef found run⟩
    next missing => exact ⟨[],.unknown missing⟩
  | literal site value ignoreCase => exact ⟨[],.literal⟩
  | charClass site parts inverted ignoreCase rawText => exact ⟨[],.charClass⟩
  | any site => exact ⟨[],.any⟩

theorem inferRule_infers (answers : Answers g depth resolve) {index : Nat}
    (inside : index < g.rules.length) (ready : Ready g depth s) :
    ∃ visits, InfersRule g index s (inferRule g resolve index s).1
      (inferRule g resolve index s).2 visits := by
  have declared := List.getElem?_eq_getElem inside
  obtain ⟨visits,run⟩ := infer_infers answers g.rules[index].body ready
  simp only [inferRule,declared]
  exact ⟨_,.body declared run⟩

theorem ruleType_answers (g : Grammar) (depth : Nat) : Answers g depth (ruleType g depth) := by
  induction depth with
  | zero =>
    intro index inside s ready
    obtain ⟨ty,found⟩ := ready.given inside
    rw [ruleType_given found]
    exact ⟨[],.given found⟩
  | succ depth ih =>
    intro index inside s ready
    rw [ruleType]
    split
    next ty found => exact ⟨[],.given found⟩
    next missing =>
      -- the phantom leaves one rule less without a type, so one level less is enough below
      have declared := List.getElem?_eq_getElem inside
      have less : Ready g depth (s.mark index g.rules[index]) := ready.mark inside missing
      obtain ⟨visits,run⟩ := inferRule_infers ih inside less
      simp only [declared,Option.map_some]
      exact ⟨visits,.demanded missing declared run⟩

end Existence

/-! The passes. -/

section Passes

variable {g : Grammar} {s t t' : Inference} {indices visits visits' : List Nat}

theorem Resolving.unique (run : Resolving g indices s t visits)
    (other : Resolving g indices s t' visits') : t = t' ∧ visits = visits' := by
  induction run generalizing t' visits' with
  | nil =>
    cases other
    exact ⟨rfl,rfl⟩
  | cons head tail ih =>
    cases other with
    | cons head' tail' =>
      obtain ⟨-,rfl,rfl⟩ := head.unique head'
      obtain ⟨rfl,rfl⟩ := ih tail'
      exact ⟨rfl,rfl⟩

theorem Resolving.visited (run : Resolving g indices s t visits)
    (length : s.slots.length = g.rules.length) : Visited s t visits := by
  induction run with
  | nil => exact .refl _
  | cons head tail ih =>
    have first := head.visited length
    exact first.trans (ih (first.length.trans length))

private theorem resolve_runs (inside : ∀ index ∈ indices, index < g.rules.length)
    (length : s.slots.length = g.rules.length) : ∃ visits, Resolving g indices s
      (indices.foldl (fun s index => (ruleType g g.rules.length index s).2) s) visits := by
  induction indices generalizing s with
  | nil => exact ⟨[],.nil⟩
  | cons index rest ih =>
    obtain ⟨visits,head⟩ := ruleType_answers g _ index (inside index List.mem_cons_self) s
      (ready_of_length length)
    obtain ⟨later,tail⟩ := ih (fun i member => inside i (List.mem_cons_of_mem _ member))
      ((head.visited length).length.trans length)
    exact ⟨_,.cons head tail⟩

/-- Where no rule has a type, asking for all of them has one run, and it enters every body once. -/
theorem resolveAll_visits (length : s.slots.length = g.rules.length)
    (empty : ∀ index, s.slot index = none) : ∃ visits, visits.Perm (List.range g.rules.length) ∧
      ∀ t visits', Resolving g (List.range g.rules.length) s t visits' ↔
        t = s.resolveAll g ∧ visits' = visits := by
  obtain ⟨visits,run⟩ := resolve_runs (fun _ member => List.mem_range.mp member) length
  refine ⟨visits,?_,fun t visits' => ⟨fun other => ?_,?_⟩⟩
  · have visited := run.visited length
    refine (List.perm_ext_iff_of_nodup visited.nodup List.nodup_range).mpr fun index => ?_
    rw [visited.filled,List.mem_range]
    constructor
    · rintro ⟨-,given⟩
      obtain ⟨ty,found⟩ := Option.isSome_iff_exists.mp given
      exact length ▸ visited.length ▸ slot_inside found
    · exact fun inside => ⟨empty index,resolveAll_given length inside⟩
  · exact other.unique run
  · rintro ⟨rfl,rfl⟩
    exact run

private theorem sweep_runs (inside : ∀ index ∈ indices, index < g.rules.length)
    (length : s.slots.length = g.rules.length) (full : Full g s) : Sweeping g indices s
      (indices.foldl (fun s index => (inferRule g (ruleType g g.rules.length) index s).2) s)
      (indices.map ([·])) := by
  induction indices generalizing s with
  | nil => exact .nil
  | cons index rest ih =>
    have place := inside index List.mem_cons_self
    obtain ⟨visits,head⟩ := inferRule_infers (ruleType_answers g _) place (ready_of_length length)
    obtain ⟨inner,rfl,visited⟩ := head.visited length (full index place)
    obtain rfl := visited.nil_of_full length full
    have tail := ih (fun i member => inside i (List.mem_cons_of_mem _ member))
      (visited.length.trans length) (fun i small => visited.kept i (full i small))
    exact .cons head tail

theorem Sweeping.unique {visits visits' : List (List Nat)} (run : Sweeping g indices s t visits)
    (other : Sweeping g indices s t' visits') : t = t' ∧ visits = visits' := by
  induction run generalizing t' visits' with
  | nil =>
    cases other
    exact ⟨rfl,rfl⟩
  | cons head tail ih =>
    cases other with
    | cons head' tail' =>
      obtain ⟨-,rfl,rfl⟩ := head.unique head'
      obtain ⟨rfl,rfl⟩ := ih tail'
      exact ⟨rfl,rfl⟩

/-- Where all rules have types, a sweep has one run, and typing a body enters no other. -/
theorem sweep_visits (covered : Covered g s) (t : Inference) (visits : List (List Nat)) :
    Sweeping g (List.range g.rules.length) { s with changed := [] } t visits ↔
      t = s.sweep g ∧ visits = (List.range g.rules.length).map ([·]) := by
  have run : Sweeping g (List.range g.rules.length) { s with changed := [] } (s.sweep g) _ :=
    sweep_runs (fun _ member => List.mem_range.mp member) covered.length covered.full
  constructor
  · exact fun other => other.unique run
  · rintro ⟨rfl,rfl⟩
    exact run

end Passes

/-- The recursion between rules and expressions ends and works on each body once, for every grammar,
whatever its rules refer to. The first pass has exactly one run without any bound on its depth; this
ends where the bounded pass does, the bodies that it enters are those of all rules, each once, and
every rule has a type behind it. Each sweep from then on has exactly one run as well, in which
typing the body of a rule enters no other body, and every rule has a type behind it again. -/
theorem each_body_visited_once (g : Grammar) (default : Option String) (log : Diagnostics) :
    (∃ visits, visits.Perm (List.range g.rules.length) ∧ ∀ t visits',
      Resolving g (List.range g.rules.length) ((start g log).seedAll default g) t visits' ↔
        t = pass g default log 0 ∧ visits' = visits) ∧
    (∀ k, ∀ index < g.rules.length, ((pass g default log k).slot index).isSome) ∧
    ∀ k t visits, Sweeping g (List.range g.rules.length)
        { pass g default log k with changed := [] } t visits ↔
      t = pass g default log (k + 1) ∧ visits = (List.range g.rules.length).map ([·]) := by
  refine ⟨?_,fun k => (pass_covered g default log k).full,fun k => ?_⟩
  · exact resolveAll_visits (seedAll_length g default log) (seedAll_slot g default log)
  · exact sweep_visits (pass_covered g default log k)

end Inference

end PegCompiler
