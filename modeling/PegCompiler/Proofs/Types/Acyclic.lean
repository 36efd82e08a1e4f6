import PegCompiler.Proofs.Types.Visits

/-! Grammars without cycles of references. The type of a rule is then that of its body with all
references unfolded, and the first pass finds it, whatever the order of the rules: a rule that holds
its phantom is one whose body is being typed, and nothing that this body refers to comes back to it.
So no phantom is ever read, and the one sweep that follows finds nothing to change. -/
namespace PegCompiler

namespace Expr

theorem ruleRef_of_flowRefs {e : Expr} {name : String} (flows : name ∈ e.flowRefs) :
    ∃ site, .ruleRef site name ∈ e.nodes := by
  induction e using Expr.children_induction with
  | parts e ih =>
    have below {child : Expr} (part : child ∈ e.children) (flows : name ∈ child.flowRefs) :
        ∃ site, .ruleRef site name ∈ e.nodes := by
      obtain ⟨site,member⟩ := ih child part flows
      exact ⟨site,nodes_of_child part member⟩
    cases e with
    | named | labeled | optional | repeated => exact below List.mem_cons_self flows
    | choice | sequence =>
      obtain ⟨child,part,flows⟩ := mem_flowRefsAll.mp flows
      exact below part flows
    | ruleRef site other =>
      obtain rfl := List.mem_singleton.mp flows
      exact ⟨site,mem_nodes_self _⟩
    | action | text | lookahead | predicate | literal | charClass | any => exact nomatch flows

end Expr

namespace Grammar

def RefersTo (g : Grammar) (i j : Nat) : Prop :=
  ∃ rule site name, g.rules[i]? = some rule ∧ .ruleRef site name ∈ rule.body.nodes ∧
    g.ruleIndex name = some j

def Acyclic (g : Grammar) : Prop :=
  ∀ index, ¬Relation.TransGen g.RefersTo index index

def unfolded (g : Grammar) (default : Option String) : (depth : Nat) → (name : String) → Ty
  | 0, _ => .object
  | depth + 1, name =>
    match (g.ruleIndex name).bind fun index => g.rules[index]? with
    | some rule => rule.body.typeBy default (g.unfolded default depth)
    | none => .object

def unfoldedRule (g : Grammar) (default : Option String) (index : Nat) : Option Ty :=
  g.rules[index]?.map fun rule => rule.body.typeBy default (g.unfolded default g.rules.length)

variable {g : Grammar} {default : Option String} {name : String} {index depth : Nat} {rule : Rule}

theorem unfolded_known (found : g.ruleIndex name = some index)
    (declared : g.rules[index]? = some rule) (depth : Nat) :
    g.unfolded default (depth + 1) name = rule.body.typeBy default (g.unfolded default depth) := by
  simp only [unfolded,found,Option.bind_some,declared]

theorem unfolded_unknown (missing : g.ruleIndex name = none) (depth : Nat) :
    g.unfolded default depth name = .object := by
  cases depth with
  | zero => rfl
  | succ depth => simp only [unfolded,missing,Option.bind_none]

theorem hasPhantom_unfolded (g : Grammar) (default : Option String) (depth : Nat) (name : String) :
    (g.unfolded default depth name).hasPhantom = false := by
  induction depth generalizing name with
  | zero => rfl
  | succ depth ih =>
    rw [unfolded]
    split
    · exact Expr.hasPhantom_typeBy fun name _ => ih name
    · rfl

/-! How deep references go. -/

theorem RefersTo.inside {other : Nat} (refers : g.RefersTo index other) :
    index < g.rules.length := by
  obtain ⟨rule,-,-,declared,-⟩ := refers
  exact Inference.rule_inside declared

private noncomputable def downstream (g : Grammar) (index : Nat) : Finset Nat := by
  classical
  exact (Finset.range g.rules.length).filter (Relation.ReflTransGen g.RefersTo index)

private theorem mem_downstream {other : Nat} : other ∈ g.downstream index ↔
    other < g.rules.length ∧ Relation.ReflTransGen g.RefersTo index other := by
  simp [downstream]

private theorem downstream_le (g : Grammar) (index : Nat) :
    (g.downstream index).card ≤ g.rules.length := by
  calc (g.downstream index).card ≤ (Finset.range g.rules.length).card :=
        Finset.card_le_card (by simp [downstream])
    _ = g.rules.length := Finset.card_range _

private theorem downstream_pos (inside : index < g.rules.length) : 0 < (g.downstream index).card :=
  Finset.card_pos.mpr ⟨index,mem_downstream.mpr ⟨inside,.refl⟩⟩

/-- Without cycles, every reference leaves a rule behind. -/
private theorem Acyclic.downstream_lt (acyclic : g.Acyclic) {other : Nat}
    (refers : g.RefersTo index other) : (g.downstream other).card < (g.downstream index).card := by
  apply Finset.card_lt_card
  rw [Finset.ssubset_iff_of_subset]
  · refine ⟨index,mem_downstream.mpr ⟨refers.inside,.refl⟩,fun back => ?_⟩
    exact acyclic index (Relation.TransGen.head' refers (mem_downstream.mp back).2)
  · intro further behind
    obtain ⟨inside,reached⟩ := mem_downstream.mp behind
    exact mem_downstream.mpr ⟨inside,reached.head refers⟩

private theorem Acyclic.unfolded_stable (acyclic : g.Acyclic)
    (found : g.ruleIndex name = some index) {more : Nat} (enough : (g.downstream index).card ≤ depth)
    (enough' : (g.downstream index).card ≤ more) :
    g.unfolded default depth name = g.unfolded default more name := by
  induction depth generalizing name index more with
  | zero =>
    have positive := downstream_pos (Inference.ruleIndex_lt found)
    omega
  | succ depth ih =>
    have inside := Inference.ruleIndex_lt found
    have declared := List.getElem?_eq_getElem inside
    have positive := downstream_pos inside
    obtain ⟨more,rfl⟩ : ∃ less, more = less + 1 := ⟨more - 1,by omega⟩
    rw [unfolded_known found declared,unfolded_known found declared]
    apply Expr.typeBy_congr
    intro source flows
    cases place : g.ruleIndex source with
    | none => rw [unfolded_unknown place,unfolded_unknown place]
    | some other =>
      obtain ⟨site,member⟩ := Expr.ruleRef_of_flowRefs flows
      have less := acyclic.downstream_lt ⟨_,site,source,declared,member,place⟩
      exact ih place (by omega) (by omega)

/-- As many levels as there are rules unfold all references. -/
theorem Acyclic.unfolded_eq (acyclic : g.Acyclic) (deep : g.rules.length ≤ depth) :
    g.unfolded default depth = g.unfolded default g.rules.length := by
  funext name
  cases found : g.ruleIndex name with
  | none => rw [unfolded_unknown found,unfolded_unknown found]
  | some index =>
    have bound := g.downstream_le index
    exact acyclic.unfolded_stable found (Nat.le_trans bound deep) bound

theorem Acyclic.typeOf_unfoldedRule (acyclic : g.Acyclic) :
    g.typeOf (g.unfoldedRule default) = g.unfolded default g.rules.length := by
  funext name
  cases found : g.ruleIndex name with
  | none => simp only [typeOf,found,unfolded_unknown found]
  | some index =>
    obtain ⟨rule,declared,-⟩ := ruleIndex_some found
    rw [← acyclic.unfolded_eq (Nat.le_succ _),unfolded_known found declared]
    simp only [typeOf,found,unfoldedRule,declared,Option.map_some,Option.getD_some]

end Grammar

namespace Inference

variable {g : Grammar} {types : Nat → Option Ty} {s t u : Inference} {index : Nat} {rule : Rule}
  {ty : Ty}

structure Course (g : Grammar) (types : Nat → Option Ty) (s : Inference) : Prop where
  length : s.slots.length = g.rules.length
  rules : ∀ index rule, g.rules[index]? = some rule →
    types index = some (typed g s.seeded types rule.body)
  clean : ∀ index ty, types index = some ty → ty.hasPhantom = false

structure Settles (g : Grammar) (types : Nat → Option Ty) (s t : Inference) : Prop where
  seeded : t.seeded = s.seeded
  length : t.slots.length = s.slots.length
  slots : ∀ index, t.slot index = s.slot index ∨ s.slot index = none ∧ t.slot index = types index
  noted : ∀ index, index ∈ s.changed ∨ Filled s t index → index ∈ t.changed
  nodes : ∃ new, t.nodes = new ++ s.nodes ∧ ∀ entry ∈ new, Right g s.seeded types entry

theorem Course.settles (course : Course g types s) (settles : Settles g types s t) :
    Course g types t where
  length := settles.length.trans course.length
  rules index rule declared := settles.seeded ▸ course.rules index rule declared
  clean := course.clean

namespace Settles

theorem of_same (seeded : t.seeded = s.seeded) (slots : t.slots = s.slots)
    (changed : t.changed = s.changed) (nodes : t.nodes = s.nodes) : Settles g types s t where
  seeded := seeded
  length := by rw [slots]
  slots index := .inl (slot_congr slots index)
  noted index noted := by
    rw [changed]
    rcases noted with before | ⟨missing,given⟩
    · exact before
    · rw [slot_congr slots,missing] at given
      exact nomatch given
  nodes := ⟨[],nodes,by simp⟩

theorem refl (s : Inference) : Settles g types s s :=
  of_same rfl rfl rfl rfl

theorem trans (first : Settles g types s t) (second : Settles g types t u) :
    Settles g types s u where
  seeded := second.seeded.trans first.seeded
  length := second.length.trans first.length
  slots index := by
    rcases second.slots index with same | ⟨missing,given⟩
    · rw [same]
      exact first.slots index
    · rcases first.slots index with same | ⟨before,-⟩
      · exact .inr ⟨same.symm.trans missing,given⟩
      · exact .inr ⟨before,given⟩
  noted index noted := by
    apply second.noted
    rcases noted with before | filled
    · exact .inl (first.noted index (.inl before))
    · rcases filled.split (t := t) with early | late
      · exact .inl (first.noted index (.inr early))
      · exact .inr late
  nodes := by
    obtain ⟨new,logged,right⟩ := first.nodes
    obtain ⟨new',logged',right'⟩ := second.nodes
    refine ⟨new' ++ new,by rw [logged',logged,List.append_assoc],fun entry member => ?_⟩
    rcases List.mem_append.mp member with late | early
    · exact first.seeded ▸ right' entry late
    · exact right entry early

/-- A node gets its type. -/
theorem record {e : Expr} (settles : Settles g types s t) (member : e ∈ g.nodes)
    (type : ty = typed g s.seeded types e) :
    Settles g types s (t.record e.id ty).2 ∧ ty = typed g s.seeded types e := by
  refine ⟨settles.trans ⟨rfl,rfl,fun _ => .inl rfl,fun index noted => ?_,[(e.id,ty)],rfl,?_⟩,type⟩
  · rcases noted with before | ⟨missing,given⟩
    · exact before
    · rw [show (t.record e.id ty).2.slot index = t.slot index from rfl,missing] at given
      exact nomatch given
  · intro entry inside
    obtain rfl := List.mem_singleton.mp inside
    exact ⟨e,member,rfl,settles.seeded ▸ type⟩

theorem reportOnce (s : Inference) (error : TypeError) :
    Settles g types s (s.reportOnce error) := by
  unfold Inference.reportOnce
  split
  · exact .refl s
  · exact .of_same rfl rfl rfl rfl

theorem actionType (s : Inference) (site : Site) : Settles g types s (s.actionType site).2 := by
  unfold Inference.actionType
  split
  · exact .refl s
  · exact .reportOnce s _

/-- A rule without a type gets its phantom and then the type of its body, which is another. -/
theorem fill (course : Course g types s) (declared : g.rules[index]? = some rule)
    (missing : s.slot index = none) (body : Settles g types (s.mark index rule) t)
    (type : types index = some ty) : Settles g types s (t.store index ty) := by
  have inside : index < s.slots.length := course.length ▸ rule_inside declared
  have marks (i : Nat) : (s.mark index rule).slot i = _ := mark_slot inside i
  have phantom : t.slot index = some (.phantom rule.name) := by
    rcases body.slots index with same | ⟨unmarked,-⟩
    · rw [same,marks,if_pos rfl]
    · rw [marks,if_pos rfl] at unmarked
      exact nomatch unmarked
  have different : t.slot index ≠ some ty := by
    rw [phantom]
    rintro ⟨rfl⟩
    exact nomatch course.clean index _ type
  have changed : (t.store index ty).changed = t.changed ++ [index] := by simp [store,different]
  have slots (i : Nat) := store_slot (slot_inside phantom) ty i
  refine ⟨(store_errors t index ty).2.trans body.seeded,
    (store_kept t index ty).1.trans (body.length.trans List.length_set),?_,?_,?_⟩
  · intro i
    rw [slots]
    split
    next here =>
      subst here
      exact .inr ⟨missing,type.symm⟩
    next away =>
      have unmarked : (s.mark index rule).slot i = s.slot i := (marks i).trans (if_neg away)
      rw [← unmarked]
      exact body.slots i
  · intro i noted
    rw [changed,List.mem_append,List.mem_singleton]
    rcases noted with before | ⟨empty,given⟩
    · exact .inl (body.noted i (.inl before))
    · by_cases here : i = index
      · exact .inr here
      · rw [slots,if_neg here] at given
        exact .inl (body.noted i (.inr ⟨(marks i).trans ((if_neg here).trans empty),given⟩))
  · have same : (t.store index ty).nodes = t.nodes := by
      unfold store
      split <;> rfl
    rw [same]
    exact body.nodes

end Settles

def Reaches (g : Grammar) (e : Expr) (index : Nat) : Prop :=
  ∃ site name first, .ruleRef site name ∈ e.nodes ∧ g.ruleIndex name = some first ∧
    Relation.ReflTransGen g.RefersTo first index

def Unmarked (types : Nat → Option Ty) (s : Inference) (index : Nat) : Prop :=
  s.slot index = none ∨ s.slot index = types index

structure Entered (g : Grammar) (types : Nat → Option Ty) (s : Inference) (e : Expr) : Prop where
  course : Course g types s
  member : e ∈ g.nodes
  unmarked : ∀ index, Reaches g e index → Unmarked types s index

theorem Unmarked.settles (unmarked : Unmarked types s index) (settles : Settles g types s t) :
    Unmarked types t index := by
  rcases settles.slots index with same | ⟨-,given⟩
  · rw [Unmarked,same]
    exact unmarked
  · exact .inr given

namespace Entered

variable {e child : Expr}

theorem part (entered : Entered g types s e) (part : child ∈ e.children) :
    Entered g types s child where
  course := entered.course
  member := Grammar.child_mem_nodes entered.member part
  unmarked index reaches := by
    obtain ⟨site,name,first,member,found,path⟩ := reaches
    exact entered.unmarked index ⟨site,name,first,Expr.nodes_of_child part member,found,path⟩

theorem settles (entered : Entered g types s e) (settles : Settles g types s t) :
    Entered g types t e where
  course := entered.course.settles settles
  member := entered.member
  unmarked index reaches := (entered.unmarked index reaches).settles settles

/-- The body of a rule that just got its phantom: without cycles, nothing leads back to the rule. -/
theorem of_mark (acyclic : g.Acyclic) (course : Course g types s)
    (unmarked : ∀ i, Relation.ReflTransGen g.RefersTo index i → Unmarked types s i)
    (declared : g.rules[index]? = some rule) : Entered g types (s.mark index rule) rule.body where
  course := ⟨List.length_set.trans course.length,course.rules,course.clean⟩
  member := Grammar.rule_mem_nodes declared
  unmarked i reaches := by
    obtain ⟨site,name,first,member,found,path⟩ := reaches
    have refers : g.RefersTo index first := ⟨rule,site,name,declared,member,found⟩
    have away : i ≠ index := by
      rintro rfl
      exact acyclic i (.head' refers path)
    rw [Unmarked,mark_slot (course.length ▸ rule_inside declared),if_neg away]
    exact unmarked i (path.head refers)

end Entered

section References

variable {seeds : List (Nat × Ty)} {site : Site} {name : String}

private theorem typed_known (found : g.ruleIndex name = some index)
    (given : types index = some ty) :
    typed g seeds types (.ruleRef site name) = ty := by
  simp only [typed,found,given,Option.getD_some]

private theorem typed_unknown (missing : g.ruleIndex name = none) :
    typed g seeds types (.ruleRef site name) = .object := by
  simp only [typed,missing]

private theorem actionType_typed {act : Action} {body : Expr} (seeded : t.seeded = seeds) :
    (t.actionType site).1 = typed g seeds types (.action site act body) := by
  rw [actionType,typed,seeded]
  cases seeds.lookup site.id <;> rfl

end References

mutual

/-- Typing an expression gives it and all that it leads to the types that they keep. -/
theorem Infers.settles {g : Grammar} {types : Nat → Option Ty} (acyclic : g.Acyclic) {e : Expr}
    {s t : Inference} {ty : Ty} {visits : List Nat} (entered : Entered g types s e) :
    Infers g e s ty t visits → Settles g types s t ∧ ty = typed g s.seeded types e
  | .named part => by
    obtain ⟨settles,type⟩ := part.settles acyclic (entered.part List.mem_cons_self)
    exact settles.record entered.member type
  | .choice parts => by
    obtain ⟨settles,rfl⟩ := parts.settles acyclic fun e part => entered.part part
    exact settles.record entered.member rfl
  | .action part => by
    obtain ⟨settles,-⟩ := part.settles acyclic (entered.part List.mem_cons_self)
    exact (settles.trans (.actionType _ _)).record entered.member (actionType_typed settles.seeded)
  | .sequence parts => by
    obtain ⟨settles,rfl⟩ := parts.settles acyclic fun e part => entered.part part
    exact settles.record entered.member rfl
  | .labeled part => by
    obtain ⟨settles,type⟩ := part.settles acyclic (entered.part List.mem_cons_self)
    exact settles.record entered.member type
  | .text part => by
    obtain ⟨settles,-⟩ := part.settles acyclic (entered.part List.mem_cons_self)
    exact settles.record entered.member rfl
  | .optional part => by
    obtain ⟨settles,rfl⟩ := part.settles acyclic (entered.part List.mem_cons_self)
    exact settles.record entered.member rfl
  | .repeated part => by
    obtain ⟨settles,rfl⟩ := part.settles acyclic (entered.part List.mem_cons_self)
    exact settles.record entered.member rfl
  | .lookahead part => by
    obtain ⟨settles,-⟩ := part.settles acyclic (entered.part List.mem_cons_self)
    exact settles.record entered.member rfl
  | .ruleRef found lookup => by
    obtain ⟨settles,type⟩ := lookup.settles acyclic entered.course fun i path =>
      entered.unmarked i ⟨_,_,_,Expr.mem_nodes_self _,found,path⟩
    exact settles.record entered.member (typed_known found type).symm
  | .unknown missing =>
    (Settles.reportOnce s _).record entered.member (typed_unknown missing).symm
  | .predicate => (Settles.refl s).record entered.member rfl
  | .literal => (Settles.refl s).record entered.member rfl
  | .charClass => (Settles.refl s).record entered.member rfl
  | .any => (Settles.refl s).record entered.member rfl
termination_by structural run => run

theorem InfersAll.settles {g : Grammar} {types : Nat → Option Ty} (acyclic : g.Acyclic)
    {es : List Expr} {s t : Inference} {found : List Ty} {visits : List Nat}
    (entered : ∀ e ∈ es, Entered g types s e) : InfersAll g es s found t visits →
      Settles g types s t ∧ found = typedAll g s.seeded types es
  | .nil => ⟨.refl s,rfl⟩
  | .cons head tail => by
    obtain ⟨first,type⟩ := head.settles acyclic (entered _ List.mem_cons_self)
    obtain ⟨others,rest⟩ := tail.settles acyclic fun e member =>
      (entered e (List.mem_cons_of_mem _ member)).settles first
    rw [first.seeded] at rest
    rw [type,rest]
    exact ⟨first.trans others,rfl⟩
termination_by structural run => run

theorem LooksUp.settles {g : Grammar} {types : Nat → Option Ty} (acyclic : g.Acyclic) {index : Nat}
    {s t : Inference} {ty : Ty} {visits : List Nat} (course : Course g types s)
    (unmarked : ∀ i, Relation.ReflTransGen g.RefersTo index i → Unmarked types s i) :
    LooksUp g index s ty t visits → Settles g types s t ∧ types index = some ty
  | .given found => by
    -- what is read is no phantom, since the rule is unmarked
    rcases unmarked index .refl with missing | given
    · exact nomatch found.symm.trans missing
    · exact ⟨.refl s,given.symm.trans found⟩
  | .demanded missing declared run => by
    obtain ⟨middle,rfl,settles,type⟩ :=
      run.settles acyclic declared (.of_mark acyclic course unmarked declared)
    have own := course.rules index _ declared
    rw [show typed g s.seeded types _ = ty from type.symm] at own
    exact ⟨settles.fill course declared missing own,own⟩
termination_by structural run => run

theorem InfersRule.settles {g : Grammar} {types : Nat → Option Ty} (acyclic : g.Acyclic)
    {index : Nat} {rule : Rule} {s t : Inference} {ty : Ty} {visits : List Nat}
    (declared : g.rules[index]? = some rule) (entered : Entered g types s rule.body) :
    InfersRule g index s ty t visits → ∃ middle, t = middle.store index ty ∧
      Settles g types s middle ∧ ty = typed g s.seeded types rule.body
  | .body declared' run => by
    have same := Option.some.inj (declared.symm.trans declared')
    obtain ⟨settles,type⟩ := run.settles acyclic (same ▸ entered)
    exact ⟨_,rfl,settles,same ▸ type⟩
termination_by structural run => run

end

theorem Resolving.settles (acyclic : g.Acyclic) {indices visits : List Nat}
    (run : Resolving g indices s t visits) (course : Course g types s)
    (unmarked : ∀ index, Unmarked types s index) : Settles g types s t := by
  induction run with
  | nil => exact .refl _
  | cons head tail ih =>
    obtain ⟨first,-⟩ := head.settles acyclic course fun i _ => unmarked i
    exact first.trans (ih (course.settles first) fun i => (unmarked i).settles first)

/-- The first pass gives all rules and nodes the types that they keep. -/
theorem resolveAll_settles (acyclic : g.Acyclic) (course : Course g types s)
    (empty : ∀ index, s.slot index = none) : Settles g types s (s.resolveAll g) := by
  obtain ⟨visits,-,runs⟩ := resolveAll_visits course.length empty
  exact ((runs _ visits).mpr ⟨rfl,rfl⟩).settles acyclic course fun index => .inl (empty index)

section Passes

variable {default : Option String} {log : Diagnostics}

theorem seedAll_course (distinct : g.DistinctIds) (acyclic : g.Acyclic) (seeded : g.Seeded default)
    (log : Diagnostics) : ActionsTyped g default ((start g log).seedAll default g).seeded ∧
      Course g (g.unfoldedRule default) ((start g log).seedAll default g) := by
  have actions : ActionsTyped g default ((start g log).seedAll default g).seeded :=
    fun site act body member => seedAll_lookup distinct (seedAll_clean seeded log) member
  refine ⟨actions,seedAll_length g default log,fun index rule declared => ?_,
    fun index ty given => ?_⟩
  · rw [typed_eq actions _ (Grammar.rule_mem_nodes declared),acyclic.typeOf_unfoldedRule,
      Grammar.unfoldedRule,declared]
    rfl
  · obtain ⟨rule,-,rfl⟩ := Option.map_eq_some_iff.mp given
    exact Expr.hasPhantom_typeBy fun name _ => g.hasPhantom_unfolded default _ name

/-- Where the first pass ends: rules and nodes have their unfolded types, and a change was noted if
there are rules at all. -/
theorem firstPass_unfolded (distinct : g.DistinctIds) (acyclic : g.Acyclic)
    (seeded : g.Seeded default) (log : Diagnostics) :
    (pass g default log 0).slot = g.unfoldedRule default ∧
    (∀ e ∈ g.nodes, (pass g default log 0).nodes.lookup e.id =
      some (e.typeBy default (g.unfolded default g.rules.length))) ∧
    ∀ index < g.rules.length, index ∈ (pass g default log 0).changed := by
  obtain ⟨actions,course⟩ := seedAll_course distinct acyclic seeded log
  have empty := seedAll_slot g default log
  have settles := resolveAll_settles acyclic course empty
  have covered := pass_covered g default log 0
  refine ⟨funext fun index => ?_,fun e member => ?_,fun index inside => ?_⟩
  · rcases settles.slots index with same | ⟨-,given⟩
    · by_cases inside : index < g.rules.length
      · have given := covered.full index inside
        rw [show (pass g default log 0).slot index = none from same.trans (empty index)] at given
        exact nomatch given
      · rw [Grammar.unfoldedRule,List.getElem?_eq_none (Nat.le_of_not_lt inside)]
        exact same.trans (empty index)
    · exact given
  · obtain ⟨new,logged,right⟩ := settles.nodes
    obtain ⟨new',logged',covers,-⟩ := (resolveAll_advance course.length empty).logged
    obtain rfl : new' = new := List.append_cancel_right (logged'.symm.trans logged)
    have found : new'.lookup e.id =
        some (e.typeBy default (g.unfolded default g.rules.length)) := by
      apply lookup_eq (covers e member)
      intro entry inside same
      obtain ⟨node,nodeMember,id,type⟩ := right entry inside
      obtain rfl := distinct node nodeMember e member (id.trans same)
      rw [type,typed_eq actions _ member,acyclic.typeOf_unfoldedRule]
    rw [show (pass g default log 0).nodes = _ from logged,List.lookup_append,found]
    rfl
  · exact settles.noted index (.inr ⟨empty index,covered.full index inside⟩)

/-- The sweep behind the first pass changes nothing. -/
theorem secondPass_quiet (distinct : g.DistinctIds) (acyclic : g.Acyclic)
    (seeded : g.Seeded default) (log : Diagnostics) : (pass g default log 1).changed = [] := by
  obtain ⟨actions,course⟩ := seedAll_course distinct acyclic seeded log
  obtain ⟨slots,-⟩ := firstPass_unfolded distinct acyclic seeded log
  have settles := resolveAll_settles acyclic course (seedAll_slot g default log)
  apply pass_stable.mpr
  intro index rule declared
  rw [slots,show (pass g default log 0).seeded = _ from settles.seeded]
  exact course.rules index rule declared

theorem secondPass_unfolded (distinct : g.DistinctIds) (acyclic : g.Acyclic)
    (seeded : g.Seeded default) (log : Diagnostics) :
    (pass g default log 1).slot = g.unfoldedRule default ∧
    ∀ e ∈ g.nodes, (pass g default log 1).nodes.lookup e.id =
      some (e.typeBy default (g.unfolded default g.rules.length)) := by
  obtain ⟨actions,course⟩ := seedAll_course distinct acyclic seeded log
  have quiet := secondPass_quiet distinct acyclic seeded log
  have slots : (pass g default log 1).slot = g.unfoldedRule default :=
    ((pass_covered g default log 0).sweep_slot quiet).trans
      (firstPass_unfolded distinct acyclic seeded log).1
  refine ⟨slots,fun e member => ?_⟩
  obtain ⟨first,given⟩ := resolveAll_stage distinct course.length (seedAll_slot g default log)
    (seedAll_seeds g default log).changed
  obtain ⟨second,same⟩ := first.sweep distinct
  have seeds : (pass g default log 1).seeded = ((start g log).seedAll default g).seeded :=
    same.trans given
  have type : (pass g default log 1).nodes.lookup e.id =
      some (typed g (pass g default log 1).seeded (pass g default log 1).slot e) :=
    (second.fixed quiet).nodes e member
  rw [type,seeds,slots,typed_eq actions _ member,acyclic.typeOf_unfoldedRule]

end Passes

end Inference

open Inference in
/-- Grammars without cycles of references settle in the first pass, whatever the order of their
rules. Behind that pass every rule and every node already has the type that checking ends with: the
type of the body, or of the node, with all references unfolded, and no phantom in it. Checking makes
exactly one sweep more, which changes nothing. -/
theorem acyclic_settles_first (g : Grammar) (built : g.Built) (nonempty : g.rules ≠ [])
    (acyclic : g.Acyclic) (default : Option String) (seeded : g.Seeded default)
    (log : Diagnostics) :
    check g default log = (pass g default log 1).finish 1 ∧
    (check g default log).table.sweeps = 1 ∧
    (pass g default log 1).changed = [] ∧
    ∀ depth, g.rules.length ≤ depth →
      (∀ index rule, g.rules[index]? = some rule → ∃ ty,
        ty = rule.body.typeBy default (g.unfolded default depth) ∧ ty.hasPhantom = false ∧
        (pass g default log 0).slot index = some ty ∧
        (check g default log).table.rule index = some ty) ∧
      ∀ e ∈ g.nodes, ∃ ty, ty = e.typeBy default (g.unfolded default depth) ∧
        ty.hasPhantom = false ∧
        (pass g default log 0).nodes.lookup e.id = some ty ∧
        (check g default log).table.expr e = some ty := by
  have distinct := built.distinct
  obtain ⟨slots,nodes,noted⟩ := firstPass_unfolded distinct acyclic seeded log
  obtain ⟨slots',nodes'⟩ := secondPass_unfolded distinct acyclic seeded log
  have quiet := secondPass_quiet distinct acyclic seeded log
  have moving : (pass g default log 0).changed ≠ [] :=
    List.ne_nil_of_mem (noted 0 (List.length_pos_of_ne_nil nonempty))
  have run : check g default log = (pass g default log 1).finish 1 := by
    have settled : (pass g default log 0).settle g (sweepCap g.rules.length) 0 =
        (pass g default log 1,1) :=
      (settle_moving moving).trans (settle_quiet quiet)
    rw [check_of_seeded (seedAll_clean seeded log)]
    exact congrArg (fun settled : Inference × Nat => settled.1.finish settled.2) settled
  have clean (e : Expr) (depth : Nat) :
      (e.typeBy default (g.unfolded default depth)).hasPhantom = false :=
    Expr.hasPhantom_typeBy fun name _ => g.hasPhantom_unfolded default depth name
  rw [run]
  refine ⟨rfl,rfl,quiet,fun depth deep => ?_⟩
  rw [acyclic.unfolded_eq deep]
  constructor
  · intro index rule declared
    have type : g.unfoldedRule default index =
        some (rule.body.typeBy default (g.unfolded default g.rules.length)) := by
      rw [Grammar.unfoldedRule,declared,Option.map_some]
    exact ⟨_,rfl,clean _ _,(congrFun slots index).trans type,(congrFun slots' index).trans type⟩
  · intro e member
    exact ⟨_,rfl,clean _ _,nodes e member,nodes' e member⟩

def layeredGrammar : Grammar := .ofRules [] [
  { name := "pairs",body := .repeated {} .zeroOrMore (.ruleRef {} "pair") },
  { name := "stop",body := .lookahead {} true (.ruleRef {} "pairs") },
  { name := "pair",body := .sequence {} [.ruleRef {} "letter",.ruleRef {} "letter"] },
  { name := "letter",body := .any {} }]

private theorem layeredGrammar_refers {i j : Nat} (refers : layeredGrammar.RefersTo i j) :
    i = 0 ∧ j = 2 ∨ i = 1 ∧ j = 0 ∨ i = 2 ∧ j = 3 := by
  obtain ⟨rule,site,name,declared,member,found⟩ := refers
  match i, declared with
  | 0, rfl =>
    obtain ⟨-,rfl⟩ : site = ⟨1,{}⟩ ∧ name = "pair" := by simpa [Expr.nodes] using member
    exact .inl ⟨rfl,(Option.some.inj found).symm⟩
  | 1, rfl =>
    obtain ⟨-,rfl⟩ : site = ⟨3,{}⟩ ∧ name = "pairs" := by simpa [Expr.nodes] using member
    exact .inr (.inl ⟨rfl,(Option.some.inj found).symm⟩)
  | 2, rfl =>
    obtain ⟨-,rfl⟩ : (site = ⟨5,{}⟩ ∨ site = ⟨6,{}⟩) ∧ name = "letter" := by
      simpa [Expr.nodes,Expr.nodesAll,or_and_right] using member
    exact .inr (.inr ⟨rfl,(Option.some.inj found).symm⟩)
  | 3, rfl => simp [Expr.nodes] at member

private theorem layeredGrammar_acyclic : layeredGrammar.Acyclic := by
  -- places in an order in which references point down
  have falls {i j : Nat} (path : Relation.TransGen layeredGrammar.RefersTo i j) :
      [2,3,1,0].getD j 0 < [2,3,1,0].getD i 0 := by
    induction path with
    | single refers =>
      rcases layeredGrammar_refers refers with ⟨rfl,rfl⟩ | ⟨rfl,rfl⟩ | ⟨rfl,rfl⟩ <;> decide
    | tail _ refers ih =>
      refine Nat.lt_trans ?_ ih
      rcases layeredGrammar_refers refers with ⟨rfl,rfl⟩ | ⟨rfl,rfl⟩ | ⟨rfl,rfl⟩ <;> decide
  exact fun index cycle => Nat.lt_irrefl _ (falls cycle)

/-- The pairs are typed first, and on the way the pair and the letter they consist of. -/
theorem layeredGrammar_settles :
    (check layeredGrammar none {}).table.sweeps = 1 ∧
    (Inference.pass layeredGrammar none {} 0).slot 0 = some (.list (.list .char)) ∧
    (check layeredGrammar none {}).table.rule 0 = some (.list (.list .char)) := by
  have seeded : layeredGrammar.Seeded none := by
    unfold Grammar.Seeded
    decide
  obtain ⟨-,swept,-,types⟩ := acyclic_settles_first layeredGrammar (.ofRules _ _)
    (List.cons_ne_nil _ _) layeredGrammar_acyclic none seeded {}
  obtain ⟨ty,type,-,first,last⟩ := (types 4 (Nat.le_refl 4)).1 0 _ rfl
  obtain rfl : ty = .list (.list .char) := type.trans (by decide +kernel)
  exact ⟨swept,first,last⟩

end PegCompiler
