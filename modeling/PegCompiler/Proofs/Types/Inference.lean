import PegCompiler.Proofs.Grammar.Numbering
import PegCompiler.Types.Infer
import Mathlib.Data.Finset.Card

/-! What a pass of inference does. `typed` types an expression from fixed types of the rules.
A pass works with types of rules that still move, but as long as it notes no change, a type once
given to a rule stays; so whatever a quiet pass has recorded is what `typed` gives for the types
at its end. `Advance` says this of every piece of a pass. -/
namespace PegCompiler

namespace Inference

mutual

def typed (g : Grammar) (seeds : List (Nat × Ty)) (slots : Nat → Option Ty) : Expr → Ty
  | .named _ _ body => typed g seeds slots body
  | .choice _ alternatives => .union (typedAll g seeds slots alternatives)
  | .action site _ _ => (seeds.lookup site.id).getD .object
  | .sequence _ elements => .tuple (typedAll g seeds slots elements)
  | .labeled _ _ body => typed g seeds slots body
  | .text .. => .slice
  | .optional _ body => .option (typed g seeds slots body)
  | .repeated _ _ body => .list (typed g seeds slots body)
  | .lookahead .. => .object
  | .predicate .. => .object
  | .ruleRef _ name =>
    match g.ruleIndex name with
    | some index => (slots index).getD .object
    | none => .object
  | .literal .. => .slice
  | .charClass .. => .char
  | .any _ => .char

def typedAll (g : Grammar) (seeds : List (Nat × Ty)) (slots : Nat → Option Ty) :
    List Expr → List Ty
  | [] => []
  | e :: rest => typed g seeds slots e :: typedAll g seeds slots rest

end

variable {g : Grammar} {s t u : Inference}

theorem typedAll_eq {seeds : List (Nat × Ty)} {slots : Nat → Option Ty} (es : List Expr) :
    typedAll g seeds slots es = es.map (typed g seeds slots) := by
  induction es with
  | nil => rfl
  | cons e rest ih => rw [typedAll,ih,List.map_cons]

theorem slot_set {index : Nat} (inside : index < s.slots.length) (ty : Option Ty) (i : Nat) :
    ({ s with slots := s.slots.set index ty } : Inference).slot i =
      if i = index then ty else s.slot i := by
  by_cases same : i = index
  · subst same
    simp [slot,inside]
  · have other : index ≠ i := Ne.symm same
    simp [slot,same,other]

theorem slot_inside {index : Nat} {ty : Ty} (found : s.slot index = some ty) :
    index < s.slots.length := by
  by_contra outside
  simp [slot,List.getElem?_eq_none (Nat.le_of_not_lt outside)] at found

def Agrees (slots : Nat → Option Ty) (s : Inference) : Prop :=
  ∀ index ty, s.slot index = some ty → slots index = some ty

def Right (g : Grammar) (seeds : List (Nat × Ty)) (slots : Nat → Option Ty) (entry : Nat × Ty) :
    Prop :=
  ∃ e ∈ g.nodes, e.id = entry.1 ∧ entry.2 = typed g seeds slots e

def Filled (s t : Inference) (index : Nat) : Prop :=
  s.slot index = none ∧ (t.slot index).isSome

structure Advance (g : Grammar) (s t : Inference) (covered : List Expr) : Prop where
  seeded : t.seeded = s.seeded
  length : t.slots.length = s.slots.length
  some_kept : ∀ index, (s.slot index).isSome → (t.slot index).isSome
  changes : s.changed <+: t.changed
  kept : t.changed = s.changed → ∀ index ty, s.slot index = some ty → t.slot index = some ty
  logged : ∃ new, t.nodes = new ++ s.nodes ∧ (∀ e ∈ covered, e.id ∈ new.map (·.1)) ∧
    (∀ index rule, g.rules[index]? = some rule → Filled s t index →
      ∀ e ∈ rule.body.nodes, e.id ∈ new.map (·.1)) ∧
    (t.changed = s.changed → ∀ slots, Agrees slots t → ∀ entry ∈ new, Right g s.seeded slots entry)
  filled : t.changed = s.changed → ∀ slots, Agrees slots t → ∀ index rule,
    g.rules[index]? = some rule → Filled s t index →
    slots index = some (typed g s.seeded slots rule.body)

theorem Advance.refl (g : Grammar) (s : Inference) : Advance g s s [] where
  seeded := rfl
  length := rfl
  some_kept _ found := found
  changes := List.prefix_rfl
  kept _ _ _ found := found
  logged := by
    refine ⟨[],rfl,by simp,?_,by simp⟩
    rintro index rule - ⟨none,some⟩
    simp [none] at some
  filled := by
    rintro - slots - index rule - ⟨none,some⟩
    simp [none] at some

theorem Filled.split {index : Nat} (filled : Filled s u index) :
    Filled s t index ∨ Filled t u index := by
  cases middle : t.slot index with
  | none => exact .inr ⟨middle,filled.2⟩
  | some ty => exact .inl ⟨filled.1,by simp [middle]⟩

/-- Two pieces in a row note no change together only if neither does. -/
theorem Advance.quiet {first second : List Expr} (before : Advance g s t first)
    (after : Advance g t u second) (same : u.changed = s.changed) :
    t.changed = s.changed ∧ u.changed = t.changed := by
  have short : t.changed = s.changed := by
    apply (before.changes.eq_of_length _).symm
    have one := before.changes.length_le
    have two := after.changes.length_le
    rw [same] at two
    omega
  exact ⟨short,same.trans short.symm⟩

theorem Advance.agrees {covered : List Expr} (after : Advance g t u covered)
    (quiet : u.changed = t.changed) {slots : Nat → Option Ty} (final : Agrees slots u) :
    Agrees slots t :=
  fun index ty found => final index ty (after.kept quiet index ty found)

theorem Advance.trans {first second : List Expr} (before : Advance g s t first)
    (after : Advance g t u second) : Advance g s u (first ++ second) := by
  have quiet := before.quiet after
  refine ⟨after.seeded.trans before.seeded,after.length.trans before.length,
    fun index found => after.some_kept index (before.some_kept index found),
    before.changes.trans after.changes,?_,?_,?_⟩
  · intro same index ty found
    exact after.kept (quiet same).2 index ty (before.kept (quiet same).1 index ty found)
  · obtain ⟨new,log,firsts,fills,right⟩ := before.logged
    obtain ⟨new',log',seconds,fills',right'⟩ := after.logged
    refine ⟨new' ++ new,by rw [log',log,List.append_assoc],?_,?_,?_⟩
    · intro e member
      rw [List.map_append,List.mem_append]
      rcases List.mem_append.mp member with early | late
      · exact .inr (firsts e early)
      · exact .inl (seconds e late)
    · intro index rule declared filled e member
      rw [List.map_append,List.mem_append]
      rcases filled.split (t := t) with early | late
      · exact .inr (fills index rule declared early e member)
      · exact .inl (fills' index rule declared late e member)
    · intro same slots final entry member
      rcases List.mem_append.mp member with late | early
      · have there := right' (quiet same).2 slots final entry late
        rwa [before.seeded] at there
      · exact right (quiet same).1 slots (after.agrees (quiet same).2 final) entry early
  · intro same slots final index rule declared filled
    rcases filled.split (t := t) with early | late
    · have there := after.agrees (quiet same).2 final
      exact before.filled (quiet same).1 slots there index rule declared early
    · have body := after.filled (quiet same).2 slots final index rule declared late
      rwa [before.seeded] at body

/-- A piece of inference types what it goes through and all parts of the rules it gives types. -/
theorem Advance.covering {covered more : List Expr} (advance : Advance g s t covered)
    (every : ∀ e ∈ more, e ∈ covered ∨ ∃ index rule, g.rules[index]? = some rule ∧
      Filled s t index ∧ e ∈ rule.body.nodes) : Advance g s t more := by
  refine ⟨advance.seeded,advance.length,advance.some_kept,advance.changes,advance.kept,?_,
    advance.filled⟩
  obtain ⟨new,log,covers,fills,right⟩ := advance.logged
  refine ⟨new,log,?_,fills,right⟩
  intro e member
  rcases every e member with inside | ⟨index,rule,declared,filled,part⟩
  · exact covers e inside
  · exact fills index rule declared filled e part

private theorem Advance.of_report {covered : List Expr} (body : Advance g s t covered)
    (error : TypeError) : Advance g s (t.reportOnce error) covered := by
  unfold reportOnce
  split
  · exact body
  · exact ⟨body.seeded,body.length,body.some_kept,body.changes,body.kept,body.logged,body.filled⟩

private theorem Advance.record {covered : List Expr} {e : Expr} {ty : Ty}
    (body : Advance g s t covered) (member : e ∈ g.nodes)
    (type : t.changed = s.changed → ∀ slots, Agrees slots t → ty = typed g s.seeded slots e) :
    Advance g s (t.record e.id ty).2 (e :: covered) := by
  refine ⟨body.seeded,body.length,body.some_kept,body.changes,body.kept,?_,body.filled⟩
  obtain ⟨new,log,covers,fills,right⟩ := body.logged
  refine ⟨(e.id,ty) :: new,?_,?_,?_,?_⟩
  · change (e.id,ty) :: t.nodes = _
    rw [log,List.cons_append]
  · intro other inside
    rw [List.map_cons,List.mem_cons]
    rcases List.mem_cons.mp inside with rfl | below
    · exact .inl rfl
    · exact .inr (covers other below)
  · intro index rule declared filled other inside
    exact List.mem_cons_of_mem _ (fills index rule declared filled other inside)
  · intro quiet slots final entry inside
    rcases List.mem_cons.mp inside with rfl | below
    · exact ⟨e,member,rfl,type quiet slots final⟩
    · exact right quiet slots final entry below

def pending (g : Grammar) (s : Inference) : Finset Nat :=
  (Finset.range g.rules.length).filter fun index => s.slot index = none

structure Ready (g : Grammar) (depth : Nat) (s : Inference) : Prop where
  length : s.slots.length = g.rules.length
  pending : (s.pending g).card ≤ depth

theorem Ready.of_kept {depth : Nat} (ready : Ready g depth s)
    (length : t.slots.length = s.slots.length)
    (kept : ∀ index, (s.slot index).isSome → (t.slot index).isSome) : Ready g depth t := by
  refine ⟨length.trans ready.length,Nat.le_trans (Finset.card_le_card ?_) ready.pending⟩
  intro index still
  simp only [Inference.pending,Finset.mem_filter,Finset.mem_range] at still ⊢
  refine ⟨still.1,?_⟩
  cases found : s.slot index with
  | none => rfl
  | some ty =>
    have present := kept index (by simp [found])
    simp [still.2] at present

theorem Ready.advance {depth : Nat} {covered : List Expr} (ready : Ready g depth s)
    (advance : Advance g s t covered) : Ready g depth t :=
  ready.of_kept advance.length advance.some_kept

def Resolves (g : Grammar) (depth : Nat) (resolve : Nat → Inference → Ty × Inference) : Prop :=
  ∀ index < g.rules.length, ∀ s, Ready g depth s → Advance g s (resolve index s).2 [] ∧
    (resolve index s).2.slot index = some (resolve index s).1

structure Typed (g : Grammar) (s : Inference) (e : Expr) (result : Ty × Inference) : Prop where
  advance : Advance g s result.2 e.nodes
  type : result.2.changed = s.changed → ∀ slots, Agrees slots result.2 →
    result.1 = typed g s.seeded slots e

theorem ruleIndex_lt {name : String} {index : Nat} (found : g.ruleIndex name = some index) :
    index < g.rules.length := by
  obtain ⟨inside,-⟩ := List.findIdx?_eq_some_iff_getElem.mp found
  exact inside

section Expressions

variable {depth : Nat} {resolve : Nat → Inference → Ty × Inference}

private theorem Typed.record {e : Expr} {covered : List Expr} {ty : Ty}
    (body : Advance g s t covered) (nodes : e.nodes = e :: covered) (member : e ∈ g.nodes)
    (type : t.changed = s.changed → ∀ slots, Agrees slots t → ty = typed g s.seeded slots e) :
    Typed g s e (t.record e.id ty) where
  advance := nodes ▸ body.record member type
  type := type

private theorem inferAll_typed {es : List Expr}
    (all : ∀ e ∈ es, ∀ s, Ready g depth s → Typed g s e (infer g resolve e s))
    (ready : Ready g depth s) :
    Advance g s (inferAll g resolve es s).2 (Expr.nodesAll es) ∧
      ((inferAll g resolve es s).2.changed = s.changed → ∀ slots,
        Agrees slots (inferAll g resolve es s).2 →
        (inferAll g resolve es s).1 = typedAll g s.seeded slots es) := by
  induction es generalizing s with
  | nil => exact ⟨.refl g s,fun _ _ _ => rfl⟩
  | cons e rest ih =>
    have first := all e List.mem_cons_self s ready
    have others := ih (fun e member => all e (List.mem_cons_of_mem _ member))
      (ready.advance first.advance)
    refine ⟨first.advance.trans others.1,fun same slots final => ?_⟩
    obtain ⟨early,late⟩ := first.advance.quiet others.1 same
    have head := first.type early slots (others.1.agrees late final)
    have tail := others.2 late slots final
    rw [first.advance.seeded] at tail
    change _ :: _ = _ :: _
    rw [head,tail]

/-- Typing an expression of the grammar logs all its nodes, and gives its type under the types at
the end if no change is noted on the way. -/
theorem infer_typed (resolves : Resolves g depth resolve) {e : Expr} (member : e ∈ g.nodes)
    (ready : Ready g depth s) : Typed g s e (infer g resolve e s) := by
  induction e using Expr.induction generalizing s with
  | named site name body ih =>
    have part := ih (Grammar.child_mem_nodes member List.mem_cons_self) ready
    exact .record part.advance rfl member part.type
  | choice site alternatives ih =>
    have parts := inferAll_typed
      (fun e part s ready => ih e part (Grammar.child_mem_nodes member part) ready) ready
    refine .record parts.1 rfl member fun same slots final => ?_
    rw [parts.2 same slots final,typed]
  | action site act body ih =>
    have part := ih (Grammar.child_mem_nodes member List.mem_cons_self) ready
    change Typed g s _ (((infer g resolve body s).2.actionType site).2.record site.id
      ((infer g resolve body s).2.actionType site).1)
    unfold actionType
    cases decided : (infer g resolve body s).2.seeded.lookup site.id with
    | none =>
      rw [part.advance.seeded] at decided
      refine .record (part.advance.of_report _) rfl member fun _ slots _ => ?_
      rw [typed,decided]
      rfl
    | some ty =>
      rw [part.advance.seeded] at decided
      refine .record part.advance rfl member fun _ slots _ => ?_
      rw [typed,decided]
      rfl
  | sequence site elements ih =>
    have parts := inferAll_typed
      (fun e part s ready => ih e part (Grammar.child_mem_nodes member part) ready) ready
    refine .record parts.1 rfl member fun same slots final => ?_
    rw [parts.2 same slots final,typed]
  | labeled site label body ih =>
    have part := ih (Grammar.child_mem_nodes member List.mem_cons_self) ready
    exact .record part.advance rfl member part.type
  | text site body ih =>
    have part := ih (Grammar.child_mem_nodes member List.mem_cons_self) ready
    exact .record part.advance rfl member fun _ _ _ => rfl
  | optional site body ih =>
    have part := ih (Grammar.child_mem_nodes member List.mem_cons_self) ready
    refine .record part.advance rfl member fun same slots final => ?_
    rw [part.type same slots final,typed]
  | repeated site repetition body ih =>
    have part := ih (Grammar.child_mem_nodes member List.mem_cons_self) ready
    refine .record part.advance rfl member fun same slots final => ?_
    rw [part.type same slots final,typed]
  | lookahead site isNegative body ih =>
    have part := ih (Grammar.child_mem_nodes member List.mem_cons_self) ready
    exact .record part.advance rfl member fun _ _ _ => rfl
  | predicate site isNegative code ns =>
    exact .record (.refl g s) rfl member fun _ _ _ => rfl
  | ruleRef site name =>
    rw [infer]
    split
    next index found =>
      obtain ⟨advance,slot⟩ := resolves index (ruleIndex_lt found) s ready
      refine .record advance rfl member fun _ slots final => ?_
      rw [typed,found]
      simp only [final index _ slot,Option.getD_some]
    next missing =>
      refine .record ((Advance.refl g s).of_report _) rfl member fun _ slots _ => ?_
      rw [typed,missing]
  | literal site value ignoreCase =>
    exact .record (.refl g s) rfl member fun _ _ _ => rfl
  | charClass site parts inverted ignoreCase rawText =>
    exact .record (.refl g s) rfl member fun _ _ _ => rfl
  | any site => exact .record (.refl g s) rfl member fun _ _ _ => rfl

private theorem store_advance {index : Nat} (given : (t.slot index).isSome) (ty : Ty) :
    Advance g t (t.store index ty) [] ∧ (t.store index ty).slot index = some ty := by
  unfold store
  split
  next same => exact ⟨.refl g t,same⟩
  next different =>
    -- the change is noted, so nothing is claimed about types that stay
    obtain ⟨old,found⟩ := Option.isSome_iff_exists.mp given
    have inside := slot_inside found
    have slots (i : Nat) := slot_set inside (some ty) i
    have noted {P : Prop} (quiet : t.changed ++ [index] = t.changed) : P := by simp at quiet
    have unfilled (i : Nat) : ¬(t.slot i = none ∧
        (({ t with slots := t.slots.set index (some ty) } : Inference).slot i).isSome) := by
      rintro ⟨missing,present⟩
      rw [slots i] at present
      split at present
      next here => simp [here ▸ missing] at found
      next => simp [missing] at present
    refine ⟨⟨rfl,List.length_set,?_,List.prefix_append _ _,noted,?_,noted⟩,?_⟩
    · intro i present
      have after := congrArg Option.isSome (slots i)
      by_cases here : i = index
      · rw [if_pos here] at after
        exact after
      · rw [if_neg here] at after
        exact after.trans present
    · exact ⟨[],rfl,by simp,fun i _ _ filled => absurd filled (unfilled i),noted⟩
    · exact (slots index).trans (if_pos rfl)

theorem inferRule_typed (resolves : Resolves g depth resolve) {index : Nat} {rule : Rule}
    (declared : g.rules[index]? = some rule) (given : (s.slot index).isSome)
    (ready : Ready g depth s) :
    Typed g s rule.body (inferRule g resolve index s) ∧
      (inferRule g resolve index s).2.slot index = some (inferRule g resolve index s).1 := by
  have member : rule.body ∈ g.nodes :=
    Grammar.body_mem_nodes (List.mem_of_getElem? declared) rule.body.mem_nodes_self
  have body := infer_typed resolves member ready
  have stored := store_advance (g := g) (body.advance.some_kept index given)
    (infer g resolve rule.body s).1
  simp only [inferRule,declared]
  refine ⟨⟨?_,?_⟩,stored.2⟩
  · have whole := body.advance.trans stored.1
    rwa [List.append_nil] at whole
  · intro same slots final
    obtain ⟨early,late⟩ := body.advance.quiet stored.1 same
    exact body.type early slots (stored.1.agrees late final)

end Expressions

section Resolution

variable {depth index : Nat} {rule : Rule}

def mark (s : Inference) (index : Nat) (rule : Rule) : Inference :=
  { s with slots := s.slots.set index (some (.phantom rule.name)) }

theorem mark_slot (inside : index < s.slots.length) (i : Nat) :
    (s.mark index rule).slot i = if i = index then some (.phantom rule.name) else s.slot i :=
  slot_set inside _ i

theorem Ready.given (ready : Ready g 0 s) (inside : index < g.rules.length) :
    ∃ ty, s.slot index = some ty := by
  apply Option.ne_none_iff_exists'.mp
  intro missing
  have still : index ∈ s.pending g := by simp [Inference.pending,inside,missing]
  have some := Finset.card_pos.mpr ⟨index,still⟩
  have none := ready.pending
  omega

theorem Ready.mark (ready : Ready g (depth + 1) s) (inside : index < g.rules.length)
    (missing : s.slot index = none) : Ready g depth (s.mark index rule) := by
  have place : index < s.slots.length := ready.length ▸ inside
  refine ⟨List.length_set.trans ready.length,Nat.le_of_lt_succ ?_⟩
  apply Nat.lt_of_lt_of_le _ ready.pending
  apply Finset.card_lt_card
  rw [Finset.ssubset_iff_of_subset]
  · refine ⟨index,?_,?_⟩
    · simp [Inference.pending,inside,missing]
    · simp [Inference.pending,mark_slot place]
  · intro i still
    simp only [Inference.pending,Finset.mem_filter,Finset.mem_range,mark_slot place] at still ⊢
    refine ⟨still.1,?_⟩
    by_cases here : i = index
    · exact here ▸ missing
    · rw [if_neg here] at still
      exact still.2

theorem Filled.after_mark {i : Nat} (inside : index < s.slots.length)
    (filled : Filled s t i) : i = index ∨ Filled (s.mark index rule) t i := by
  by_cases here : i = index
  · exact .inl here
  · exact .inr ⟨by rw [mark_slot inside,if_neg here,filled.1],filled.2⟩

/-- A rule that got its phantom and then its type from its body got a type. -/
private theorem Typed.after_mark {result : Ty × Inference} (missing : s.slot index = none)
    (inside : index < s.slots.length) (declared : g.rules[index]? = some rule)
    (body : Typed g (s.mark index rule) rule.body result)
    (stored : result.2.slot index = some result.1) : Advance g s result.2 [] := by
  have slots (i : Nat) : (s.mark index rule).slot i = _ := mark_slot inside i
  have before {i : Nat} {ty : Ty} (found : s.slot i = some ty) :
      (s.mark index rule).slot i = some ty := by
    rw [slots i,if_neg,found]
    rintro rfl
    simp [missing] at found
  refine ⟨body.advance.seeded,body.advance.length.trans List.length_set,?_,body.advance.changes,
    ?_,?_,?_⟩
  · intro i present
    obtain ⟨ty,found⟩ := Option.isSome_iff_exists.mp present
    apply body.advance.some_kept i
    rw [before found]
    rfl
  · intro quiet i ty found
    exact body.advance.kept quiet i ty (before found)
  · obtain ⟨new,log,covers,fills,right⟩ := body.advance.logged
    refine ⟨new,log,by simp,?_,right⟩
    intro i other place filled e member
    rcases filled.after_mark inside with rfl | between
    · obtain rfl : rule = other := Option.some.inj (declared.symm.trans place)
      exact covers e member
    · exact fills i other place between e member
  · intro quiet types final i other place filled
    rcases filled.after_mark inside with rfl | between
    · obtain rfl : rule = other := Option.some.inj (declared.symm.trans place)
      rw [final i _ stored,body.type quiet types final]
      rfl
    · exact body.advance.filled quiet types final i other place between

theorem ruleType_resolves (g : Grammar) (depth : Nat) : Resolves g depth (ruleType g depth) := by
  induction depth with
  | zero =>
    intro index inside s ready
    obtain ⟨ty,found⟩ := ready.given inside
    refine ⟨.refl g s,?_⟩
    simp [ruleType,found]
  | succ depth ih =>
    intro index inside s ready
    rw [ruleType]
    split
    next ty found => exact ⟨.refl g s,found⟩
    next missing =>
      -- the phantom leaves one rule less without a type, so one level less is enough below
      have declared := List.getElem?_eq_getElem inside
      have place : index < s.slots.length := ready.length ▸ inside
      have given : ((s.mark index g.rules[index]).slot index).isSome := by simp [mark_slot place]
      have body := inferRule_typed ih declared given (ready.mark inside missing)
      simp only [declared,Option.map_some]
      exact ⟨body.1.after_mark missing place declared body.2,body.2⟩

end Resolution

end Inference

end PegCompiler
