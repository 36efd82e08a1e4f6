import PegCompiler.Proofs.Lowering.Lockstep
import PegCompiler.Proofs.Target.Definitions

/-! The order in which rules are lowered. Each rule lowers to the same subroutine whatever was
registered before, but for the numbers of constants and methods; and all orders register the same
resources. So another order of the rules is another numbering. -/
namespace PegCompiler

open Target Lowering

def Interner.renumber {α : Type} [DecidableEq α] (t u : Interner α) (index : Nat) : Nat :=
  match t.get? index with
  | some value => u.entries.idxOf value
  | none => index

def Registries.renumbering (p q : Registries) : Renumbering where
  pattern := p.patterns.values.renumber q.patterns.values
  expected := p.expected.values.renumber q.expected.values
  method kind := (p.userCode.methods kind).renumber (q.userCode.methods kind)

def Subroutine.renumber (numbers : Renumbering) (sub : Subroutine) : Subroutine :=
  { sub with body := Instr.renumberAll numbers sub.body }

theorem Interner.get?_renumber {α : Type} [DecidableEq α] {t u : Interner α} {index : Nat} {value : α}
    (found : t.get? index = some value) (member : value ∈ u.entries) :
    u.get? (t.renumber u index) = some value := by
  rw [renumber,found,get?,List.getElem?_eq_some_iff]
  exact ⟨List.idxOf_lt_length_iff.mpr member,List.getElem_idxOf _⟩

namespace Registries

variable {p q : Registries}

/-- A number and the one that replaces it stand for the same, if `q` holds what `p` does. -/
theorem renumbering_lookup (held : ∀ resource, p.Holds resource → q.Holds resource)
    {target : Alias} {resource : Resource} (found : p.lookup target = some resource) :
    q.lookup ((p.renumbering q).target target) = some resource := by
  have member := held resource (lookup_holds found)
  cases target <;>
    (obtain ⟨value,present,rfl⟩ := Option.map_eq_some_iff.mp found
     exact congrArg (Option.map _) (Interner.get?_renumber present member))

theorem renumbering_joins (distinct : q.Distinct)
    (held : ∀ resource, p.Holds resource → q.Holds resource) : (p.renumbering q).Joins p q := by
  intro first second resource left right
  exact distinct.lookup_inj (renumbering_lookup held left) right

end Registries

namespace Lowering

variable {cfg : Setting} {starts : List String}

private theorem inStep_get {α : Type} {f g : State → Lower α}
    {post : Registries → Registries → α → α → Prop}
    (next : ∀ s t, Parallel s t → InStep (f s) (g t) post) : InStep (get >>= f) (get >>= g) post :=
  fun s t parallel => next s t parallel s t parallel

private theorem lowerBody_inStep (cfg : Setting) (rule : Rule) (isStart : Bool) :
    InStep (lowerBody cfg rule isStart) (lowerBody cfg rule isStart)
      fun p q sub sub' => ∀ numbers : Renumbering, numbers.Joins p q → sub' = sub.renumber numbers := by
  refine (lower_steady cfg rule.body 0 none []).then fun code code' _ => inStep_get fun s t parallel => ?_
  rw [parallel.values,parallel.positions]
  split
  · refine .pure fun p q same numbers joins => ?_
    rw [Subroutine.renumber,same numbers joins]
  · exact fun _ _ _ => .error

/-- A rule that lowers from some registries lowers from all others, to the same subroutine with
other numbers. -/
theorem lowerRule_renumbers {rule : Rule} {isStart : Bool} {before after : Registries}
    {sub : Subroutine} (run : lowerRule cfg rule isStart before = (.ok sub,after))
    (other : Registries) : ∃ sub' after', lowerRule cfg rule isStart other = (.ok sub',after') ∧
      ∀ p q, after.Within p → after'.Within q → ∀ numbers : Renumbering, numbers.Joins p q →
        sub' = sub.renumber numbers := by
  rw [lowerRule_from] at run
  rw [lowerRule_from]
  have steps := lowerBody_inStep cfg rule isStart _ _ (⟨rfl,rfl⟩ : Parallel
    (startState (cfg.imports.className "Object") (cfg.imports.className "Position") before)
    (startState (cfg.imports.className "Object") (cfg.imports.className "Position") other))
  dsimp only at run ⊢
  revert run steps
  generalize outcome (lowerBody cfg rule isStart) _ = here
  generalize outcome (lowerBody cfg rule isStart) _ = there
  intro run steps
  cases steps with
  | error => exact nomatch congrArg Prod.fst run
  | ok parallel within within' related =>
    cases run
    exact ⟨_,_,rfl,related⟩

def LoweredAmong (cfg : Setting) (starts : List String) (final : Registries) (rule : Rule)
    (sub : Subroutine) : Prop :=
  ∃ before after, lowerRule cfg rule (starts.contains rule.name) before = (.ok sub,after) ∧
    after.Within final

/-- If each rule lowers on its own, they lower one after another. -/
theorem lowerRules_ok {rules : List Rule} {start : Registries}
    (lowers : ∀ rule ∈ rules, ∃ sub, (lowerRule cfg rule (starts.contains rule.name) start).1 = .ok sub)
    (before : Registries) : ∃ subs after, lowerRules cfg starts before rules = .ok (subs,after) ∧
      List.Forall₂ (LoweredAmong cfg starts after) rules subs := by
  induction rules generalizing before with
  | nil => exact ⟨[],before,rfl,.nil⟩
  | cons rule rest ih =>
    obtain ⟨alone,ok⟩ := lowers rule List.mem_cons_self
    generalize lowered : lowerRule cfg rule (starts.contains rule.name) start = result at ok
    obtain ⟨outcome,left⟩ := result
    cases ok
    obtain ⟨sub,middle,run,-⟩ := lowerRule_renumbers lowered before
    obtain ⟨subs,after,runs,each⟩ := ih (fun rule member => lowers rule (List.mem_cons_of_mem _ member))
      middle
    have later := (lowerRules_lowered runs).within
    refine ⟨sub :: subs,after,?_,.cons ⟨before,middle,run,later⟩ each⟩
    rw [lowerRules,run]
    change (lowerRules cfg starts middle rest >>= fun result => _) = _
    rw [runs]
    rfl

end Lowering

/-- The registries hold in the end what the rules need. -/
theorem holds_iff_needed {cfg : Setting} {before final : Registries} {rules : List Rule}
    {subs : List Subroutine} (bare : before.Bare cfg.imports)
    (all : LoweredAll cfg before final rules subs) (resource : Resource) :
    final.Holds resource ↔ ∃ rule ∈ rules, ∃ need ∈ ruleNeeds cfg rule, need.resource = resource := by
  constructor
  · intro held
    rcases all.takes.only resource held with earlier | added
    · exact absurd earlier (bare.not_holds resource)
    · obtain ⟨need,needed,same⟩ := List.mem_map.mp added
      obtain ⟨rule,declared,inside⟩ := List.mem_flatMap.mp needed
      exact ⟨rule,declared,need,inside,same⟩
  · intro ⟨rule,declared,need,inside,same⟩
    obtain ⟨sub,-,lowered⟩ := related all.each declared
    obtain ⟨reference,-,serves⟩ := related (rule_served lowered).2.flip inside
    exact same ▸ Registries.lookup_holds serves.found

theorem forall₂_getElem? {α β : Type} {R : α → β → Prop} {xs : List α} {ys : List β}
    (all : List.Forall₂ R xs ys) {i : Nat} {a : α} (found : xs[i]? = some a) :
    ∃ b, ys[i]? = some b ∧ R a b := by
  induction all generalizing i with
  | nil => simp at found
  | @cons x y xs ys head _ ih =>
    cases i with
    | zero =>
      cases Option.some.inj found
      exact ⟨y,rfl,head⟩
    | succ i => exact ih found

/-- The order of lowering only renumbers. If each rule lowers on its own, then in any two orders, each
with registries that start empty, all rules lower; the registries hold the same patterns,
expectations, predicates and actions in the end; and a rule has the same subroutine in both, its
locals included, once each number in its code is replaced by the one under which the other
registries hold the same. -/
theorem order_only_renumbers (cfg : Setting) (starts : List String) {rules first second : List Rule}
    {empty : Registries} (fresh : Registries.fresh cfg.imports = .ok empty)
    (lowers : ∀ rule ∈ rules,
      ∃ sub, (lowerRule cfg rule (starts.contains rule.name) empty).1 = .ok sub)
    (one : first.Perm rules) (other : second.Perm rules) :
    ∃ (subs subs' : List Subroutine) (p q : Registries),
      lowerRules cfg starts empty first = .ok (subs,p) ∧
      lowerRules cfg starts empty second = .ok (subs',q) ∧
      (∀ resource, p.Holds resource ↔ q.Holds resource) ∧
      ∀ (i j : Nat) (rule : Rule), first[i]? = some rule → second[j]? = some rule →
        ∃ sub sub', subs[i]? = some sub ∧ subs'[j]? = some sub' ∧
          sub' = sub.renumber (p.renumbering q) ∧
          ∀ reference ∈ Instr.referencesAll sub.body, ∃ resource,
            p.lookup reference.target = some resource ∧
            q.lookup ((p.renumbering q).target reference.target) = some resource := by
  have bare := fresh_bare fresh
  obtain ⟨subs,p,run,each⟩ := lowerRules_ok (fun rule member => lowers rule (one.mem_iff.mp member)) empty
  obtain ⟨subs',q,run',each'⟩ :=
    lowerRules_ok (fun rule member => lowers rule (other.mem_iff.mp member)) empty
  have all := lowerRules_lowered run
  have all' := lowerRules_lowered run'
  have same (resource : Resource) : p.Holds resource ↔ q.Holds resource := by
    rw [holds_iff_needed bare all,holds_iff_needed bare all']
    simp only [one.mem_iff,other.mem_iff]
  have held (resource : Resource) (present : p.Holds resource) : q.Holds resource :=
    (same resource).mp present
  have joins : (p.renumbering q).Joins p q :=
    Registries.renumbering_joins (all'.takes.distinct bare.distinct) held
  refine ⟨subs,subs',p,q,run,run',same,fun i j rule here there => ?_⟩
  obtain ⟨sub,place,before,after,lowered,within⟩ := forall₂_getElem? each here
  obtain ⟨sub',place',before',after',lowered',within'⟩ := forall₂_getElem? each' there
  refine ⟨sub,sub',place,place',?_,fun reference inside => ?_⟩
  · obtain ⟨_,_,again,renumbered⟩ := lowerRule_renumbers lowered before'
    cases again.symm.trans lowered'
    exact renumbered p q within within' _ joins
  · obtain ⟨need,-,serves⟩ := related (rule_served ⟨_,before,after,lowered,within⟩).2 inside
    exact ⟨need.resource,serves.found,Registries.renumbering_lookup held serves.found⟩

def greetingRules : List Rule := [
  { name := "greeting", body := .sequence {} [.literal {} "hello" false,.ruleRef {} "name"] },
  { name := "name", body := .named {} "a name" (.charClass {} [.range 'a' 'z'] false false "[a-z]") }]

/-- With the name first, the expectation of the greeting has the last number and not the first. -/
theorem greetingRules_reversed : ∃ empty subs subs' p q sub,
    Registries.fresh ⟨false⟩ = .ok empty ∧
    lowerRules ⟨⟨false⟩,{}⟩ ["greeting"] empty greetingRules = .ok (subs,p) ∧
    lowerRules ⟨⟨false⟩,{}⟩ ["greeting"] empty greetingRules.reverse = .ok (subs',q) ∧
    subs[0]? = some sub ∧ subs'[1]? = some (sub.renumber (p.renumbering q)) ∧
    (p.renumbering q).expected 0 = 2 := by
  let empty : Registries := { patterns := ⟨"p","Pattern",{}⟩,expected := ⟨"e","Expected",{}⟩ }
  have fresh : Registries.fresh ⟨false⟩ = .ok empty := by rfl
  have lowers : ∀ rule ∈ greetingRules, ∃ sub,
      (lowerRule ⟨⟨false⟩,{}⟩ rule (["greeting"].contains rule.name) empty).1 = .ok sub := by
    intro rule member
    have all : ∀ rule ∈ greetingRules, (lowerRule ⟨⟨false⟩,{}⟩ rule
        (["greeting"].contains rule.name) empty).1.toOption.isSome := by decide +kernel
    have ok := all rule member
    cases run : (lowerRule ⟨⟨false⟩,{}⟩ rule (["greeting"].contains rule.name) empty).1 with
    | error error =>
      rw [run] at ok
      exact nomatch ok
    | ok sub => exact ⟨sub,rfl⟩
  obtain ⟨subs,subs',p,q,run,run',-,each⟩ := order_only_renumbers ⟨⟨false⟩,{}⟩ ["greeting"] fresh lowers
    (.refl _) (List.reverse_perm _)
  obtain ⟨sub,sub',place,place',rfl,-⟩ := each 0 1 _ rfl rfl
  refine ⟨empty,subs,subs',p,q,sub,fresh,run,run',place,place',?_⟩
  have numbers : (lowerRules ⟨⟨false⟩,{}⟩ ["greeting"] empty greetingRules).toOption.bind (fun one =>
      (lowerRules ⟨⟨false⟩,{}⟩ ["greeting"] empty greetingRules.reverse).toOption.map fun other =>
        (one.2.renumbering other.2).expected 0) = some 2 := by decide +kernel
  rw [run,run'] at numbers
  exact Option.some.inj numbers

end PegCompiler
