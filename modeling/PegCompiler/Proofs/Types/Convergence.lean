import PegCompiler.Proofs.Types.Equations
import PegCompiler.Proofs.Types.Phases

/-! Inference converges where types do not flow in a cycle. The first pass gives a rule its type if
no rule flows into it, whatever phantoms it leaves elsewhere. Each sweep then gets the types right
that lie one step further along the flow. When there is no further step, one more sweep notes no
change. -/
namespace PegCompiler

namespace Inference

variable {g : Grammar} {default : Option String} {s t u : Inference} {index : Nat} {rule : Rule}

def Full (g : Grammar) (s : Inference) : Prop :=
  ∀ index < g.rules.length, (s.slot index).isSome

theorem slot_congr (same : t.slots = s.slots) (index : Nat) : t.slot index = s.slot index := by
  rw [slot,slot,same]

theorem store_slot (inside : index < s.slots.length) (ty : Ty) (i : Nat) :
    (s.store index ty).slot i = if i = index then some ty else s.slot i := by
  unfold store
  split
  next same =>
    split
    next here => rw [here,same]
    next => rfl
  next => exact slot_set inside (some ty) i

theorem ruleType_given {ty : Ty} (given : s.slot index = some ty) (depth : Nat) :
    ruleType g depth index s = (ty,s) := by
  cases depth <;> simp [ruleType,given]

/-! One sweep. Following references changes nothing where all rules have types. -/

def still (g : Grammar) : Motion g where
  moves s t := t.seeded = s.seeded ∧ (Full g s → t.slots = s.slots ∧ t.changed = s.changed)
  refl s := ⟨rfl,fun _ => ⟨rfl,rfl⟩⟩
  trans := by
    rintro s t u ⟨seeds,first⟩ ⟨seeds',second⟩
    refine ⟨seeds'.trans seeds,fun full => ?_⟩
    obtain ⟨slots,changed⟩ := first full
    have later : Full g t := by
      intro index inside
      rw [slot_congr slots]
      exact full index inside
    obtain ⟨slots',changed'⟩ := second later
    exact ⟨slots'.trans slots,changed'.trans changed⟩
  seeded moved := moved.1
  record s id ty := ⟨rfl,fun _ => ⟨rfl,rfl⟩⟩
  unknown s site name _ _ := (reportOnce_kept s _).imp_right fun kept _ => kept
  action s site act body member := (actionType_kept s site).imp_right fun kept _ => kept
  fill := by
    rintro s t index rule ty declared missing ⟨seeds,-⟩ -
    refine ⟨(store_errors t index ty).2.trans seeds,fun full => ?_⟩
    have given := full index (rule_inside declared)
    simp [missing] at given

structure Again (g : Grammar) (s t : Inference) (index : Nat) (rule : Rule) : Prop where
  seeded : t.seeded = s.seeded
  slot : ∀ i, t.slot i = if i = index then some (typed g s.seeded s.slot rule.body) else s.slot i
  changed : t.changed =
    if s.slot index = some (typed g s.seeded s.slot rule.body) then s.changed
    else s.changed ++ [index]

theorem inferRule_again (full : Full g s) (declared : g.rules[index]? = some rule) :
    Again g s (inferRule g (ruleType g g.rules.length) index s).2 index rule := by
  have member := Grammar.rule_mem_nodes declared
  have resolves := (still g).ruleType_moves g.rules.length
  -- a reference finds the type that the rule has in `s`, as nothing moves meanwhile
  have gives : (still g).Gives (ruleType g g.rules.length) s s.slot rule.body.flowRefs := by
    intro name reference i found u moved
    obtain ⟨ty,given⟩ := Option.isSome_iff_exists.mp (full i (ruleIndex_lt found))
    have same := slot_congr (moved.2 full).1 i
    rw [ruleType_given (same.trans given),given]
    rfl
  have type := Motion.infer_type resolves member gives
  obtain ⟨seeds,kept⟩ := Motion.infer_moves (s := s) resolves member
  obtain ⟨slots,changed⟩ := kept full
  have same := slot_congr slots
  have place : index < (infer g (ruleType g g.rules.length) rule.body s).2.slots.length := by
    obtain ⟨ty,given⟩ := Option.isSome_iff_exists.mp (full index (rule_inside declared))
    exact slot_inside ((same index).trans given)
  simp only [inferRule,declared,type]
  constructor
  · exact (store_errors _ _ _).2.trans seeds
  · intro i
    rw [store_slot place,same i]
  · rw [store,same index]
    split
    · exact changed
    · exact congrArg (· ++ [index]) changed

def Settled (g : Grammar) (default : Option String) (s : Inference) (index : Nat) (rule : Rule) :
    Prop :=
  s.slot index = some (rule.body.typeBy default (g.typeOf s.slot))

structure Retyped (g : Grammar) (default : Option String) (s t : Inference) (index : Nat)
    (rule : Rule) : Prop where
  seeded : t.seeded = s.seeded
  slot : ∀ i, t.slot i =
    if i = index then some (rule.body.typeBy default (g.typeOf s.slot)) else s.slot i
  quiet : Settled g default s index rule → t.changed = s.changed

theorem inferRule_retyped (full : Full g s) (actions : ActionsTyped g default s.seeded)
    (declared : g.rules[index]? = some rule) :
    Retyped g default s (inferRule g (ruleType g g.rules.length) index s).2 index rule := by
  have again := inferRule_again full declared
  have type := typed_eq actions s.slot (Grammar.rule_mem_nodes declared)
  refine ⟨again.seeded,fun i => ?_,fun already => ?_⟩
  · rw [again.slot,type]
  · rw [again.changed,type]
    exact if_pos already

structure Level (g : Grammar) (default : Option String) (depth : Nat) (s : Inference) : Prop where
  full : Full g s
  actions : ActionsTyped g default s.seeded
  right : ∀ index rule, g.rules[index]? = some rule → g.Shallow depth rule.name →
    Settled g default s index rule

variable {depth : Nat}

/-- Typing a rule anew changes nothing that flows into a rule one step further on. -/
private theorem Level.sources (level : Level g default depth s)
    (retyped : Retyped g default s t index rule) (declared : g.rules[index]? = some rule)
    {other : Rule} (member : other ∈ g.rules) (shallow : g.Shallow (depth + 1) other.name)
    {name : String} (reference : name ∈ other.body.flowRefs) :
    g.typeOf t.slot name = g.typeOf s.slot name := by
  unfold Grammar.typeOf
  cases found : g.ruleIndex name with
  | none => rfl
  | some i =>
    have same : t.slot i = s.slot i := by
      rw [retyped.slot i]
      split
      next here =>
        subst here
        obtain ⟨source,place,named⟩ := Grammar.ruleIndex_some found
        obtain rfl : rule = source := Option.some.inj (declared.symm.trans place)
        have flows : g.FlowsTo other.name rule.name :=
          ⟨⟨other,member,rfl,named ▸ reference⟩,⟨rule,List.mem_of_getElem? declared,rfl⟩⟩
        exact (level.right i rule declared (shallow.source flows)).symm
      next => rfl
    simp only [same]

/-- A rule one step further on is settled if it was before or is typed now. -/
private theorem Level.settles (level : Level g default depth s)
    (retyped : Retyped g default s t index rule) (declared : g.rules[index]? = some rule)
    {i : Nat} {other : Rule} (place : g.rules[i]? = some other)
    (shallow : g.Shallow (depth + 1) other.name)
    (settled : i = index ∨ Settled g default s i other) : Settled g default t i other := by
  have body : other.body.typeBy default (g.typeOf t.slot) =
      other.body.typeBy default (g.typeOf s.slot) := Expr.typeBy_congr fun name reference =>
    level.sources retyped declared (List.mem_of_getElem? place) shallow reference
  rw [Settled,body,retyped.slot i]
  split
  next here =>
    subst here
    obtain rfl : rule = other := Option.some.inj (declared.symm.trans place)
    rfl
  next away => exact settled.resolve_left away

private theorem Level.retyped (level : Level g default depth s)
    (retyped : Retyped g default s t index rule) (declared : g.rules[index]? = some rule) :
    Level g default depth t where
  full i inside := by
    rw [retyped.slot i]
    split
    · rfl
    · exact level.full i inside
  actions := retyped.seeded ▸ level.actions
  right i other place shallow := level.settles retyped declared place
    (shallow.mono (Nat.le_succ depth)) (.inr (level.right i other place shallow))

/-- Typing these rules anew keeps what is right, and brings the rules among them up that are one
step further on. Where everything is right, no change is noted. -/
private theorem Level.fold {indices : List Nat}
    (inside : ∀ index ∈ indices, index < g.rules.length) (level : Level g default depth s)
    (result : indices.foldl
      (fun s index => (inferRule g (ruleType g g.rules.length) index s).2) s = t) :
    Level g default depth t ∧
    (∀ i other, g.rules[i]? = some other → g.Shallow (depth + 1) other.name →
      (i ∈ indices ∨ Settled g default s i other) → Settled g default t i other) ∧
    ((∀ name, g.Shallow depth name) → t.changed = s.changed) := by
  induction indices generalizing s with
  | nil =>
    subst result
    exact ⟨level,fun i other _ _ settled => settled.resolve_left (by simp),fun _ => rfl⟩
  | cons index rest ih =>
    have declared := List.getElem?_eq_getElem (inside index List.mem_cons_self)
    have retyped := inferRule_retyped level.full level.actions declared
    obtain ⟨last,settles,quiet⟩ := ih (fun i member => inside i (List.mem_cons_of_mem _ member))
      (level.retyped retyped declared) result
    -- a rule typed here or before keeps its type, since nothing that flows into it changes later
    refine ⟨last,fun i other place shallow settled => ?_,fun bounded => ?_⟩
    · apply settles i other place shallow
      rcases settled with member | already
      · rcases List.mem_cons.mp member with here | later
        · exact .inr (level.settles retyped declared place shallow (.inl here))
        · exact .inl later
      · exact .inr (level.settles retyped declared place shallow (.inr already))
    · rw [quiet bounded]
      exact retyped.quiet (level.right index _ declared (bounded _))

/-- A sweep brings types right one step further on, and notes no change if all were right. -/
theorem Level.sweep (level : Level g default depth s) :
    Level g default (depth + 1) (s.sweep g) ∧
      ((∀ name, g.Shallow depth name) → (s.sweep g).changed = []) := by
  let quiet : Inference := { s with changed := [] }
  have start : Level g default depth quiet := ⟨level.full,level.actions,level.right⟩
  obtain ⟨last,settles,unchanged⟩ := start.fold (fun index member => List.mem_range.mp member)
    (rfl : _ = s.sweep g)
  refine ⟨⟨last.full,last.actions,fun index rule declared shallow => ?_⟩,unchanged⟩
  have place : index ∈ List.range g.rules.length :=
    List.mem_range.mpr (rule_inside declared)
  exact settles index rule declared shallow (.inl place)

/-! The first pass. -/

/-- What the first pass does from `s` to `t`: types that rules have stay, and a rule into which no
rule flows gets the type of its body, which is a change from its phantom. -/
structure Fills (g : Grammar) (default : Option String) (s t : Inference) : Prop where
  length : t.slots.length = s.slots.length
  kept : ∀ index ty, s.slot index = some ty → t.slot index = some ty
  changes : s.changed ≠ [] → t.changed ≠ []
  closed : ∀ index rule, g.rules[index]? = some rule → Closed g rule.body → Filled s t index →
    (∀ slots, t.slot index = some (rule.body.typeBy default (g.typeOf slots))) ∧ t.changed ≠ []

private theorem Fills.of_slots (slots : t.slots = s.slots) (changed : t.changed = s.changed) :
    Fills g default s t where
  length := by rw [slots]
  kept index ty given := (slot_congr slots index).trans given
  changes some := by rwa [changed]
  closed index rule declared closed filled := by
    have given := filled.2
    rw [slot_congr slots,filled.1] at given
    exact nomatch given

private theorem Fills.trans (first : Fills g default s t) (second : Fills g default t u) :
    Fills g default s u where
  length := second.length.trans first.length
  kept index ty given := second.kept index ty (first.kept index ty given)
  changes some := second.changes (first.changes some)
  closed index rule declared closed filled := by
    rcases filled.split (t := t) with early | late
    · obtain ⟨type,noted⟩ := first.closed index rule declared closed early
      exact ⟨fun slots => second.kept index _ (type slots),second.changes noted⟩
    · exact second.closed index rule declared closed late

private theorem store_noted {ty : Ty} (different : s.slot index ≠ some ty) :
    (s.store index ty).changed ≠ [] := by
  simp [store,different]

theorem store_kept (s : Inference) (index : Nat) (ty : Ty) :
    (s.store index ty).slots.length = s.slots.length ∧
      (s.changed ≠ [] → (s.store index ty).changed ≠ []) := by
  unfold store
  split
  · exact ⟨rfl,id⟩
  · exact ⟨List.length_set,fun _ => by simp⟩

/-- A rule without a type gets its phantom, and then the type of its body. -/
private theorem Fills.store {ty : Ty} (declared : g.rules[index]? = some rule)
    (missing : s.slot index = none) (inside : index < s.slots.length)
    (body : Fills g default (s.mark index rule) t)
    (type : Closed g rule.body → ∀ slots, ty = rule.body.typeBy default (g.typeOf slots)) :
    Fills g default s (t.store index ty) := by
  have phantom : t.slot index = some (.phantom rule.name) :=
    body.kept index _ ((mark_slot inside index).trans (if_pos rfl))
  have slots (i : Nat) := store_slot (slot_inside phantom) ty i
  have marks {i : Nat} (away : i ≠ index) : (s.mark index rule).slot i = s.slot i :=
    (mark_slot inside i).trans (if_neg away)
  obtain ⟨length,noted⟩ := store_kept t index ty
  refine ⟨(length.trans body.length).trans List.length_set,?_,
    fun some => noted (body.changes some),?_⟩
  · intro i other given
    have away : i ≠ index := by
      rintro rfl
      simp [missing] at given
    rw [slots i,if_neg away]
    exact body.kept i other ((marks away).trans given)
  · intro i other place closed filled
    by_cases here : i = index
    · subst here
      obtain rfl : rule = other := Option.some.inj (declared.symm.trans place)
      refine ⟨fun types => by rw [slots i,if_pos rfl,type closed types],store_noted ?_⟩
      -- no phantom comes out of a body into which no rule flows
      have clean : ty.hasPhantom = false := by
        rw [type closed fun _ => none]
        refine Expr.hasPhantom_typeBy fun name reference => ?_
        rw [Grammar.typeOf,closed name reference]
        rfl
      rw [phantom]
      rintro ⟨rfl⟩
      exact Bool.noConfusion clean
    · have between : Filled (s.mark index rule) t i := by
        refine ⟨(marks here).trans filled.1,?_⟩
        have given := filled.2
        rwa [slots i,if_neg here] at given
      obtain ⟨same,changed⟩ := body.closed i other place closed between
      refine ⟨fun types => ?_,noted changed⟩
      rw [slots i,if_neg here]
      exact same types

def filling (g : Grammar) (default : Option String) : Motion g where
  moves s t := t.seeded = s.seeded ∧
    (s.slots.length = g.rules.length → ActionsTyped g default s.seeded → Fills g default s t)
  refl s := ⟨rfl,fun _ _ => .of_slots rfl rfl⟩
  trans := by
    rintro s t u ⟨seeds,first⟩ ⟨seeds',second⟩
    refine ⟨seeds'.trans seeds,fun length actions => ?_⟩
    have early := first length actions
    exact early.trans (second (early.length.trans length) (seeds ▸ actions))
  seeded moved := moved.1
  record s id ty := ⟨rfl,fun _ _ => .of_slots rfl rfl⟩
  unknown s site name _ _ := (reportOnce_kept s _).imp_right fun kept _ _ => .of_slots kept.1 kept.2
  action s site act body member :=
    (actionType_kept s site).imp_right fun kept _ _ => .of_slots kept.1 kept.2
  fill := by
    rintro s t index rule ty declared missing ⟨seeds,moved⟩ type
    refine ⟨(store_errors t index ty).2.trans seeds,fun length actions => ?_⟩
    have body := moved (List.length_set.trans length) actions
    refine body.store declared missing (length ▸ rule_inside declared) fun closed slots => ?_
    rw [← typed_eq actions slots (Grammar.rule_mem_nodes declared)]
    exact type closed slots

private theorem closed_of_shallow (member : rule ∈ g.rules) (shallow : g.Shallow 0 rule.name) :
    Closed g rule.body := by
  intro name reference
  rw [Grammar.ruleIndex_none]
  exact fun declared => shallow.noSource ⟨⟨rule,member,rfl,reference⟩,declared⟩

/-- The first pass gets the rules right into which no rule flows, and notes changes if there are
such rules. -/
theorem resolveAll_level (distinct : g.DistinctIds) (length : s.slots.length = g.rules.length)
    (empty : ∀ index, s.slot index = none) (fresh : s.changed = [])
    (actions : ActionsTyped g default s.seeded) :
    Level g default 0 (s.resolveAll g) ∧
      ((∃ rule ∈ g.rules, g.Shallow 0 rule.name) → (s.resolveAll g).changed ≠ []) := by
  obtain ⟨stage,seeds⟩ := resolveAll_stage distinct length empty fresh
  have fills := ((filling g default).resolveAll_moves s).2 length actions
  have filled {index : Nat} {rule : Rule} (declared : g.rules[index]? = some rule) :
      Filled s (s.resolveAll g) index :=
    ⟨empty index,stage.given index (rule_inside declared)⟩
  have closed {index : Nat} {rule : Rule} (declared : g.rules[index]? = some rule)
      (shallow : g.Shallow 0 rule.name) := fills.closed index rule declared
    (closed_of_shallow (List.mem_of_getElem? declared) shallow) (filled declared)
  refine ⟨⟨stage.given,seeds ▸ actions,fun index rule declared shallow =>
    (closed declared shallow).1 _⟩,?_⟩
  rintro ⟨rule,member,shallow⟩
  obtain ⟨index,declared⟩ := List.mem_iff_getElem?.mp member
  exact (closed declared shallow).2

/-! The run. -/

variable {height : Nat}

theorem settle_quiet {left sweeps : Nat} (quiet : s.changed = []) :
    s.settle g left sweeps = (s,sweeps) := by
  unfold settle
  rw [if_pos (by simp [quiet])]

theorem settle_moving {left sweeps : Nat} (moving : s.changed ≠ []) :
    s.settle g (left + 1) sweeps = (s.sweep g).settle g left (sweeps + 1) := by
  rw [settle,if_neg (by simpa using moving)]

theorem Level.decided (level : Level g default depth s) : Decided g s := by
  intro site act body member
  obtain ⟨ty,-,found⟩ := level.actions site act body member
  simp [found]

/-- With as many sweeps left as there are steps to go, sweeping ends in a quiet pass. -/
theorem settle_converges (bounded : ∀ name, g.Shallow height name) {left sweeps : Nat}
    (level : Level g default depth s) (quiet : height < depth → s.changed = [])
    (enough : height + 1 ≤ depth + left) :
    sweeps ≤ (s.settle g left sweeps).2 ∧
      (s.changed ≠ [] → sweeps < (s.settle g left sweeps).2) ∧
      (s.settle g left sweeps).2 ≤ sweeps + (height + 1 - depth) ∧
      OnlyUnknown s (s.settle g left sweeps).1 := by
  -- each sweep uses up one of those left and gains one step of depth
  induction left generalizing s depth sweeps with
  | zero =>
    have same := quiet enough
    rw [settle_quiet same]
    exact ⟨Nat.le_refl _,(absurd same ·),Nat.le_add_right _ _,fun error member => .inl member⟩
  | succ left ih =>
    by_cases same : s.changed = []
    · rw [settle_quiet same]
      exact ⟨Nat.le_refl _,(absurd same ·),Nat.le_add_right _ _,fun error member => .inl member⟩
    · have early : depth ≤ height := Nat.le_of_not_lt fun late => same (quiet late)
      obtain ⟨next,unchanged⟩ := level.sweep
      have last (far : height < depth + 1) : (s.sweep g).changed = [] :=
        unchanged fun name => (bounded name).mono (Nat.le_of_lt_succ far)
      have swept := (sweep_reporting (g := g) s).2 level.decided
      rw [settle_moving same]
      obtain ⟨more,-,few,errors⟩ := @ih (s.sweep g) (depth + 1) (sweeps + 1) next last (by omega)
      exact ⟨by omega,fun _ => more,by omega,swept.trans errors⟩

end Inference

/-- The grammars for which inference converges: rules have distinct names, actions have types, and
paths of flow are bounded. -/
structure Grammar.Graded (g : Grammar) (default : Option String) (height : Nat) : Prop where
  names : (g.rules.map (·.name)).Nodup
  seeded : g.Seeded default
  bounded : ∀ name, g.Shallow height name
  small : height < g.rules.length

section Checking

variable {g g' : Grammar} {default : Option String} {height : Nat} {types : String → Ty}

theorem Grammar.Graded.numbered (graded : g.Graded default height) (perm : g'.rules.Perm g.rules) :
    g'.numbered.Graded default height where
  names := by
    rw [numbered_names]
    exact (perm.map _).nodup_iff.mpr graded.names
  seeded := graded.seeded.numbered perm
  bounded name := (graded.bounded name).numbered perm
  small := by
    have length := congrArg List.length g'.numbered_names
    simp only [List.length_map] at length
    rw [length,perm.length_eq]
    exact graded.small

theorem seedAll_clean (seeded : g.Seeded default) (log : Diagnostics) :
    ((Inference.start g log).seedAll default g).errors = [] := by
  rw [(Inference.seedAll_seeds g default log).errors]
  simp only [Inference.start,List.nil_append,List.map_eq_nil_iff,List.filter_eq_nil_iff]
  intro entry member
  obtain ⟨rule,declared,inside⟩ := List.mem_flatMap.mp member
  have decided := seeded rule declared entry.2 (List.mem_map.mpr ⟨entry,inside,rfl⟩)
  simp [Option.isSome_iff_ne_none.mp decided]

/-- Checking makes at most one sweep more than the bound, and reports unknown rules only. -/
theorem check_sweeps (ids : g.DistinctIds) (graded : g.Graded default height) (log : Diagnostics) :
    1 ≤ (check g default log).table.sweeps ∧
      (check g default log).table.sweeps ≤ height + 1 ∧
      ∀ error ∈ (check g default log).errors,
        ∃ name location, error = .unknownRule name location := by
  have clean := seedAll_clean graded.seeded log
  have seeds := Inference.seedAll_seeds g default log
  let start := (Inference.start g log).seedAll default g
  have actions : Inference.ActionsTyped g default start.seeded :=
    fun site act body member => Inference.seedAll_lookup ids clean member
  have length : start.slots.length = g.rules.length := by
    rw [seeds.slots]
    exact List.length_map _
  obtain ⟨level,noted⟩ := Inference.resolveAll_level ids length
    (Inference.seedAll_slot g default log) seeds.changed actions
  have some : g.rules ≠ [] := List.ne_nil_of_length_pos (Nat.zero_lt_of_lt graded.small)
  have moving := noted (Grammar.exists_shallow graded.bounded some)
  have first := ((Inference.reporting g).resolveAll_moves start).2 (seedAll_decided ids clean)
  have enough : height + 1 ≤ 0 + sweepCap g.rules.length := by
    have small := graded.small
    unfold sweepCap
    omega
  obtain ⟨-,more,few,later⟩ := Inference.settle_converges graded.bounded level (by simp) enough
  rw [Nat.zero_add,Nat.sub_zero] at few
  rw [check_of_seeded clean]
  refine ⟨more moving,few,fun error member => ?_⟩
  rcases (first.trans later) error member with early | unknown
  · rw [clean] at early
    exact nomatch early
  · exact unknown

theorem check_stable (ids : g.DistinctIds) (graded : g.Graded default height) (log : Diagnostics)
    (sweeps : Nat) (names : List String) :
    .diverged sweeps names ∉ (check g default log).errors := by
  intro member
  obtain ⟨name,location,same⟩ := (check_sweeps ids graded log).2.2 _ member
  exact nomatch same

theorem check_graded_isFixpoint (ids : g.DistinctIds) (graded : g.Graded default height)
    (log : Diagnostics) : (check g default log).table.IsFixpoint g default := by
  refine check_isFixpoint ids (fun location member => ?_) (check_stable ids graded log)
  obtain ⟨name,other,same⟩ := (check_sweeps ids graded log).2.2 _ member
  exact nomatch same

theorem TypeTable.IsFixpoint.types_eq (graded : g.Graded default height)
    (solves : g.Solves default types) {table : TypeTable} (fixpoint : table.IsFixpoint g default) :
    (∀ index rule, g.rules[index]? = some rule → table.rule index = some (types rule.name)) ∧
      ∀ e ∈ g.nodes, table.expr e = some (e.typeBy default types) := by
  have same : g.typeOf table.rule = types :=
    (fixpoint.solves graded.names).unique graded.bounded solves
  subst same
  exact ⟨fun index rule declared => fixpoint.rule_eq graded.names declared,
    fun e member => fixpoint.expr_eq member⟩

end Checking

/-- Checking has found the types of a grammar, the only ones that explain each other, in at most
one sweep more than the depth of flow. -/
structure Typing.Converges (typing : Typing) (g : Grammar) (default : Option String) (height : Nat)
    (types : String → Ty) : Prop where
  stable : ∀ sweeps names, .diverged sweeps names ∉ typing.errors
  swept : 1 ≤ typing.table.sweeps
  bounded : typing.table.sweeps ≤ height + 1
  fixpoint : typing.table.IsFixpoint g default
  unique : ∀ table : TypeTable, table.IsFixpoint g default →
    (∀ index < g.rules.length, table.rule index = typing.table.rule index) ∧
      ∀ e ∈ g.nodes, table.expr e = typing.table.expr e
  rules : ∀ index rule, g.rules[index]? = some rule →
    typing.table.rule index = some (types rule.name)
  nodes : ∀ e ∈ g.nodes, typing.table.expr e = some (e.typeBy default types)
  clean : ∀ e ∈ g.nodes, (e.typeBy default types).hasPhantom = false

theorem Grammar.Graded.converges {g : Grammar} {default : Option String} {height : Nat}
    {types : String → Ty} (ids : g.DistinctIds) (graded : g.Graded default height)
    (solves : g.Solves default types) (log : Diagnostics) :
    (check g default log).Converges g default height types := by
  obtain ⟨more,few,-⟩ := check_sweeps ids graded log
  have fixpoint := check_graded_isFixpoint ids graded log
  obtain ⟨rules,nodes⟩ := fixpoint.types_eq graded solves
  refine ⟨check_stable ids graded log,more,few,fixpoint,
    fun table other => ⟨fun index inside => ?_,fun e member => ?_⟩,rules,nodes,fun e member => ?_⟩
  · have declared := List.getElem?_eq_getElem inside
    rw [(other.types_eq graded solves).1 index _ declared,rules index _ declared]
  · rw [(other.types_eq graded solves).2 e member,nodes e member]
  · exact Expr.hasPhantom_typeBy fun name _ => solves.hasPhantom graded.bounded name

/-- Checking converges for all grammars in which types do not flow in a cycle. It makes at most one
sweep more than the longest path of flow has edges, and ends with the only types that explain each
other. No phantom is left among them, and the order of the rules does not matter. -/
theorem acyclic_flow_converges (g : Grammar) (default : Option String) (some : g.rules ≠ [])
    (distinct : (g.rules.map (·.name)).Nodup)
    (acyclic : ∀ name, ¬Relation.TransGen g.FlowsTo name name) (seeded : g.Seeded default) :
    ∃ height types, IsGreatest {edges | ∃ name, g.FlowPath name edges} height ∧
      (∀ name, (types name).hasPhantom = false) ∧
      ∀ g' : Grammar, g'.rules.Perm g.rules → ∀ log,
        (check g'.numbered default log).Converges g'.numbered default height types := by
  obtain ⟨height,⟨deepest,path⟩,greatest⟩ := Grammar.longest_path acyclic some
  have graded : g.Graded default height := ⟨distinct,seeded,
    fun name edges path => greatest ⟨name,path⟩,Grammar.path_lt_rules acyclic path⟩
  -- the types are those of the rules in the given order
  have here := graded.numbered (List.Perm.refl g.rules)
  have fixpoint := check_graded_isFixpoint g.numbered_distinct here {}
  have solves := (Grammar.solves_numbered (List.Perm.refl g.rules)).mp (fixpoint.solves here.names)
  refine ⟨height,_,⟨⟨deepest,path⟩,greatest⟩,solves.hasPhantom graded.bounded,fun g' perm log => ?_⟩
  exact (graded.numbered perm).converges g'.numbered_distinct
    ((Grammar.solves_numbered perm).mpr solves) log

/-- An item is a list of items in parentheses, or any character. References go in a cycle here, but
the type of the list does not flow into the item, because an action has its own type. -/
def nestGrammar : Grammar where
  rules := [
    { name := "item",
      body := .choice {} [
        .action {} { code := "", annotations := [⟨"Return",["Node"],{}⟩] }
          (.sequence {} [.literal {} "(" false,.ruleRef {} "items",.literal {} ")" false]),
        .any {}] },
    { name := "items",body := .repeated {} .zeroOrMore (.ruleRef {} "item") }]

private theorem nestGrammar_flow {a b : String} (flows : nestGrammar.FlowsTo a b) :
    a = "items" ∧ b = "item" := by
  obtain ⟨⟨rule,declared,rfl,reference⟩,-⟩ := flows
  simp only [nestGrammar,List.mem_cons,List.not_mem_nil,or_false] at declared
  rcases declared with rfl | rfl
  · exact nomatch reference
  · exact ⟨rfl,List.mem_singleton.mp reference⟩

private theorem nestGrammar_acyclic (name : String) :
    ¬Relation.TransGen nestGrammar.FlowsTo name name := by
  have ends {a b : String} (path : Relation.TransGen nestGrammar.FlowsTo a b) :
      a = "items" ∧ b = "item" := by
    induction path with
    | single flows => exact nestGrammar_flow flows
    | tail _ flows ih => exact ⟨ih.1,(nestGrammar_flow flows).2⟩
  intro cycle
  have same := (ends cycle).1.symm.trans (ends cycle).2
  exact absurd same (by decide)

/-- The list is typed while the item still has its phantom; two sweeps put this right. -/
theorem nestGrammar_converges :
    (check nestGrammar.numbered none {}).table.sweeps = 2 ∧
    (check nestGrammar.numbered none {}).table.rules = [some .object,some (.list .object)] ∧
    ∃ height types, IsGreatest {edges | ∃ name, nestGrammar.FlowPath name edges} height ∧
      (∀ name, (types name).hasPhantom = false) ∧
      ∀ g' : Grammar, g'.rules.Perm nestGrammar.rules → ∀ log,
        (check g'.numbered none log).Converges g'.numbered none height types := by
  refine ⟨by decide +kernel,by decide +kernel,?_⟩
  apply acyclic_flow_converges nestGrammar none
  · exact List.cons_ne_nil _ _
  · decide
  · exact nestGrammar_acyclic
  · unfold Grammar.Seeded
    decide

end PegCompiler
