import PegCompiler.Proofs.Lowering.Outcome
import PegCompiler.Proofs.Semantics.Correspondence

/-! Labels at run time. The invariant of emitted code ties the labels in scope to the locals that
hold their values. Methods of the author get exactly these values, in order, and every local of a
label lies below the first free one, so no code in between touches it. -/
namespace PegCompiler.Semantics

open Lowering

variable {ω π : Type}

def labelType (cfg : Setting) (node : Nat) : String :=
  match cfg.types.node node with
  | some ty => cfg.imports.spelling ty
  | none => ""

def methodOf (cfg : Setting) (ns : Option String) (type body : String) (labels : Labels ω) :
    UserMethod :=
  ⟨ns,type,body,labels.map fun l => (l.name,labelType cfg l.node)⟩

/-- What a grammar leaves open, as a runtime fills it in: code of the author is the method that it
becomes, called with the values of the labels in order. -/
def Runtime.meaning (rt : Runtime ω π) (cfg : Setting) : Meaning ω π where
  literal := rt.literal
  charClass parts inverted ignoreCase := rt.pattern
    (patternInitializer (cfg.imports.className "Pattern") (classPattern parts) ignoreCase) inverted
  any := rt.any
  slice := rt.slice
  number := rt.number
  predicate code ns labels p answer :=
    rt.predicate (methodOf cfg ns "boolean" code labels) (labels.map (·.value)) p answer
  action site act labels start stop d := ∃ ty, cfg.types.node site.id = some ty ∧
    rt.action (methodOf cfg act.ns (cfg.imports.spelling ty) act.code labels)
      (labels.map (·.value)) start stop d

structure Carries (cfg : Setting) (m : Machine ω π) (binding : Binding) (label : Label ω) :
    Prop where
  name : binding.label = label.name
  type : cfg.types.node label.node = some binding.type
  value : m.values binding.slot = .matched label.value

def Represents (cfg : Setting) (m : Machine ω π) (scope : Scope) (labels : Labels ω) : Prop :=
  List.Forall₂ (Carries cfg m) scope labels

def ScopeBelow (scope : Scope) (base : Nat) : Prop :=
  ∀ binding ∈ scope, binding.slot < base

section Scopes

variable {cfg : Setting} {m m' : Machine ω π} {scope : Scope} {labels : Labels ω} {base depth : Nat}

theorem Represents.of_values (held : Represents cfg m scope labels)
    (same : ∀ binding ∈ scope, m'.values binding.slot = m.values binding.slot) :
    Represents cfg m' scope labels := by
  induction held with
  | nil => exact .nil
  | cons first _ ih =>
    have others := ih fun b member => same b (List.mem_cons_of_mem _ member)
    refine .cons ⟨first.name,first.type,?_⟩ others
    rw [same _ List.mem_cons_self,first.value]

theorem Represents.frame (held : Represents cfg m scope labels) (below : ScopeBelow scope base)
    (frame : Frame base depth m m') : Represents cfg m' scope labels :=
  held.of_values fun binding member => frame.values _ (below binding member)

theorem ScopeBelow.mono {base' : Nat} (below : ScopeBelow scope base) (le : base ≤ base') :
    ScopeBelow scope base' :=
  fun binding member => Nat.lt_of_lt_of_le (below binding member) le

theorem ScopeBelow.bind {binding : Binding} (below : ScopeBelow scope base)
    (here : binding.slot < base) : ScopeBelow (scope.bind binding) base := by
  induction scope with
  | nil =>
    intro other member
    rw [List.mem_singleton.mp member]
    exact here
  | cons first rest ih =>
    have tail : ScopeBelow rest base := fun b member => below b (List.mem_cons_of_mem _ member)
    rw [Scope.bind]
    split
    · exact List.forall_mem_cons.mpr ⟨here,tail⟩
    · exact List.forall_mem_cons.mpr ⟨below first List.mem_cons_self,ih tail⟩

/-- Binding a label changes scope and labels at the same place. -/
theorem Represents.bind {binding : Binding} {label : Label ω}
    (held : Represents cfg m scope labels) (carried : Carries cfg m binding label) :
    Represents cfg m (scope.bind binding) (labels.bind label) := by
  induction held with
  | nil => exact .cons carried .nil
  | cons first tail ih =>
    rw [Scope.bind,Labels.bind,first.name,carried.name]
    split
    · exact .cons carried tail
    · exact .cons first ih

theorem Represents.find (held : Represents cfg m scope labels) (name : String) :
    match scope.find name, labels.find name with
    | some binding, some label => Carries cfg m binding label
    | none, none => True
    | _, _ => False := by
  induction held with
  | nil => trivial
  | @cons binding label _ _ first tail ih =>
    simp only [Scope.find,Labels.find,List.find?_cons,first.name] at ih ⊢
    cases label.name == name with
    | true => exact first
    | false => exact ih

/-- The arguments of a call are the values of the labels in scope. -/
theorem Represents.holds_iff (held : Represents cfg m scope labels) {ds : List (Datum ω)} :
    m.Holds ((scope.map (passedFor cfg)).map (·.slot)) ds ↔ ds = labels.map (·.value) := by
  induction held generalizing ds with
  | nil => simp [Machine.Holds]
  | cons first _ ih =>
    simp only [Machine.Holds,List.map_cons,List.forall₂_cons_left_iff] at ih ⊢
    constructor
    · rintro ⟨d,rest,value,others,rfl⟩
      have same : d = _ := Outcome.matched.inj (value.symm.trans first.value)
      rw [same,ih.mp others]
    · rintro rfl
      exact ⟨_,_,first.value,ih.mpr rfl,rfl⟩

theorem Represents.method_eq (held : Represents cfg m scope labels) (ns : Option String)
    (type body : String) :
    methodFor ns type body (scope.map (passedFor cfg)) = methodOf cfg ns type body labels := by
  have params : (scope.map (passedFor cfg)).map (fun p => (p.param,p.type)) =
      labels.map fun l => (l.name,labelType cfg l.node) := by
    induction held with
    | nil => rfl
    | cons first _ ih => simpa [passedFor,labelType,first.name,first.type] using ih
  rw [methodFor,methodOf,params]

theorem bound_iff {c : Context ω π} {boundary : Boundary} {bound : Bound}
    (held : Represents cfg m scope labels) (found : boundIn scope boundary = some bound) (k : Int) :
    BoundIs c m bound k ↔ (c.runtime.meaning cfg).count labels boundary = some k := by
  cases boundary with
  | count n =>
    obtain rfl := Option.some.inj found
    simp only [BoundIs,Meaning.count,Option.ite_none_right_eq_some,Option.some.injEq]
    exact and_congr_right fun _ => eq_comm
  | label name =>
    obtain ⟨binding,bound',rfl⟩ := Option.map_eq_some_iff.mp found
    have carried := held.find name
    rw [bound'] at carried
    cases there : labels.find name with
    | none => simp [there] at carried
    | some label =>
      rw [there] at carried
      simp [BoundIs,Meaning.count,there,carried.value,Runtime.meaning]

end Scopes

def Simulates (cfg : Setting) (c : Context ω π) (call : String → Parser ω π) (e : Expr)
    (base depth : Nat) (scope : Scope) (code : List Instr) : Prop :=
  ∀ ⦃m labels⦄, Represents cfg m scope labels →
    Meets c ToEnd base depth code m (Eval (c.runtime.meaning cfg) call e labels m.current)

end PegCompiler.Semantics
