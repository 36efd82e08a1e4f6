import PegCompiler.Proofs.Lowering.Effects

/-! Registries only grow. What is registered keeps its number whatever is lowered afterwards,
also when lowering fails, so the number that code carries can be looked up in the registries of
the whole grammar. -/
namespace PegCompiler

namespace Interner

variable {α : Type}

theorem get?_intern [DecidableEq α] (t : Interner α) (value : α) :
    (t.intern value).2.get? (t.intern value).1 = some value := by
  unfold intern
  split
  next number known => exact (t.in_step value number).mp known
  next => simp [get?,append]

theorem intern_prefix [DecidableEq α] (t : Interner α) (value : α) :
    t.entries <+: (t.intern value).2.entries := by
  unfold intern
  split
  · exact List.prefix_rfl
  · exact List.prefix_append _ _

theorem get?_of_prefix {t u : Interner α} (grown : t.entries <+: u.entries) {index : Nat}
    {value : α} (found : t.get? index = some value) : u.get? index = some value := by
  obtain ⟨more,entries⟩ := grown
  have inside : index < t.entries.length := (List.getElem?_eq_some_iff.mp found).1
  rw [get?,← entries,List.getElem?_append_left inside]
  exact found

end Interner

structure Registries.Within (a b : Registries) : Prop where
  patterns : a.patterns.values.entries <+: b.patterns.values.entries
  expected : a.expected.values.entries <+: b.expected.values.entries
  predicates : a.userCode.predicates.entries <+: b.userCode.predicates.entries
  actions : a.userCode.actions.entries <+: b.userCode.actions.entries

namespace Registries.Within

theorem refl (a : Registries) : a.Within a :=
  ⟨List.prefix_rfl,List.prefix_rfl,List.prefix_rfl,List.prefix_rfl⟩

theorem trans {a b c : Registries} (first : a.Within b) (second : b.Within c) : a.Within c :=
  ⟨first.patterns.trans second.patterns,first.expected.trans second.expected,
    first.predicates.trans second.predicates,first.actions.trans second.actions⟩

theorem methods {a b : Registries} (grown : a.Within b) (kind : MethodKind) :
    (a.userCode.methods kind).entries <+: (b.userCode.methods kind).entries := by
  cases kind with
  | predicate => exact grown.predicates
  | action => exact grown.actions

end Registries.Within

namespace UserCode

@[simp] theorem mention_predicates (code : UserCode) (ns : Option String) :
    (code.mention ns).predicates = code.predicates := by
  unfold mention
  split <;> rfl

@[simp] theorem mention_actions (code : UserCode) (ns : Option String) :
    (code.mention ns).actions = code.actions := by
  unfold mention
  split <;> rfl

theorem get?_add (code : UserCode) (kind : MethodKind) (method : UserMethod) :
    ((code.add kind method).2.methods kind).get? (code.add kind method).1 = some method := by
  cases kind with
  | predicate => simpa [add,methods] using code.predicates.get?_intern method
  | action => simpa [add,methods] using code.actions.get?_intern method

theorem add_prefix (code : UserCode) (kind other : MethodKind) (method : UserMethod) :
    (code.methods other).entries <+: ((code.add kind method).2.methods other).entries := by
  cases kind with
  | predicate =>
    cases other with
    | predicate => simpa [add,methods] using code.predicates.intern_prefix method
    | action => simp [add,methods]
  | action =>
    cases other with
    | predicate => simp [add,methods]
    | action => simpa [add,methods] using code.actions.intern_prefix method

end UserCode

theorem Registries.within_register (registries : Registries) (resource : Resource) :
    registries.Within (registries.register resource) := by
  cases resource with
  | pattern initializer =>
    exact ⟨Interner.intern_prefix _ _,List.prefix_rfl,List.prefix_rfl,List.prefix_rfl⟩
  | expected initializer =>
    exact ⟨List.prefix_rfl,Interner.intern_prefix _ _,List.prefix_rfl,List.prefix_rfl⟩
  | method kind method =>
    exact ⟨List.prefix_rfl,List.prefix_rfl,registries.userCode.add_prefix kind .predicate method,
      registries.userCode.add_prefix kind .action method⟩

namespace Lowering

variable {α β : Type}

def Grows (x : Lower α) : Prop :=
  ∀ s : State, s.registries.Within (outcome x s).2.registries

theorem Grows.within {x : Lower α} (grows : Grows x) {s t : State} {a : α} (ok : Yields x s a t) :
    s.registries.Within t.registries := by
  have grown := grows s
  rwa [ok.outcome_eq] at grown

def growth (cfg : Setting) : Policy cfg where
  moves := Registries.Within
  raises _ := True
  knows _ _ := True
  refl := .refl
  trans := .trans
  fault _ := trivial
  bind _ _ := trivial

private theorem growth_allows (cfg : Setting) (resource : Resource) : (growth cfg).Allows resource :=
  fun registries => registries.within_register resource

private theorem growth_calls (cfg : Setting) (site : Site) (act : Action) (bound : List Labelled) :
    (growth cfg).Calls site act bound :=
  ⟨fun _ => trivial,fun _ _ _ _ => growth_allows cfg _⟩

theorem growth_permits (cfg : Setting) (visit : Visit) : (growth cfg).Permits visit := by
  obtain ⟨node,base,bound⟩ := visit
  cases node with
  | named site name body => exact growth_allows cfg _
  | action site act body => exact growth_calls cfg site act _
  | labeled site label body => exact fun _ => trivial
  | repeated site repetition body => exact ⟨fun _ _ _ _ _ => trivial,fun _ _ _ _ _ _ _ => trivial⟩
  | predicate site isNegative code ns => exact fun _ _ => growth_allows cfg _
  | literal site value ignoreCase => exact growth_allows cfg _
  | charClass site parts inverted ignoreCase rawText =>
    exact ⟨growth_allows cfg _,growth_allows cfg _⟩
  | _ => trivial

private theorem Policy.Keeps.grows {cfg : Setting} {x : Lower α} {post : α → Prop}
    (keeps : (growth cfg).Keeps x post) : Grows x :=
  fun s => (keeps s).1

theorem grows_actionCall (cfg : Setting) (site : Site) (action : Action) (scope : Scope) :
    Grows (actionCall cfg site action (scope.map (passedFor cfg))) := by
  have keeps := @keeps_actionCall cfg (growth cfg) site action scope [] trivial
    (growth_calls cfg site action [])
  exact keeps.grows

theorem grows_closeSequence (cfg : Setting) (caller : Option (Site × Action)) (count : Nat)
    (scope : Scope) : Grows (closeSequence cfg caller count scope) := by
  have keeps := @keeps_closeSequence cfg (growth cfg) scope [] caller count trivial
    fun site act _ => growth_calls cfg site act []
  exact keeps.grows

theorem grows_abandon (index first : Nat) : Grows (abandon index first) := by
  have keeps : (growth ⟨⟨false⟩,{}⟩).Keeps (abandon index first) _ := keeps_abandon index first
  exact keeps.grows

/-- Lowering an expression keeps all that was registered before. -/
theorem grows_lower (cfg : Setting) (e : Expr) (base : Nat) (caller : Option (Site × Action))
    (scope : Scope) : Grows (lower cfg e base caller scope) := by
  have keeps := @keeps_lower cfg (growth cfg) scope [] base e caller trivial
    (fun visit _ => growth_permits cfg visit) fun site act _ => growth_calls cfg site act _
  exact keeps.grows

theorem grows_alternatives (cfg : Setting) (alternatives : List Expr) (base n : Nat)
    (scope : Scope) : Grows (lowerAlternatives cfg alternatives base n scope) := by
  have keeps := @keeps_alternatives cfg (growth cfg) scope [] base alternatives n trivial
    fun visit _ => growth_permits cfg visit
  exact keeps.grows

theorem grows_elements (cfg : Setting) (elements : List Expr) (base index first : Nat)
    (scope : Scope) : Grows (lowerElements cfg elements base index first scope) := by
  have keeps := @keeps_elements cfg (growth cfg) scope [] base elements index first trivial
    fun visit _ => growth_permits cfg visit
  exact keeps.grows

end Lowering

end PegCompiler
