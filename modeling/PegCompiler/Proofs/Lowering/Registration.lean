import PegCompiler.Compile
import PegCompiler.Proofs.Lowering.Preservation
import PegCompiler.Proofs.Lowering.References

/-! What the rules of a grammar register. Every resource is registered once, and only what some node
needs is registered, so the aliases of the final registries are those that the code of the rules
refers to. -/
namespace PegCompiler

section Adding

variable {α : Type} [BEq α] [LawfulBEq α] {values : List α}

theorem mem_added {value other : α} :
    other ∈ (if value ∈ values then values else values ++ [value]) ↔
      other ∈ values ∨ other = value := by
  split
  next present =>
    refine ⟨.inl,fun either => either.elim id ?_⟩
    rintro rfl
    exact present
  next => simp only [List.mem_append,List.mem_singleton]

theorem nodup_added (distinct : values.Nodup) (value : α) :
    (if value ∈ values then values else values ++ [value]).Nodup := by
  split
  next => exact distinct
  next fresh => simpa using distinct.concat fresh

end Adding

namespace Interner

variable {α : Type} [DecidableEq α]

theorem intern_entries (t : Interner α) (value : α) :
    (t.intern value).2.entries =
      if value ∈ t.entries then t.entries else t.entries ++ [value] := by
  unfold intern
  split
  next number known => rw [if_pos (List.mem_of_getElem? ((t.in_step value number).mp known))]
  next unknown =>
    rw [if_neg (index_eq_none.mp unknown)]
    rfl

theorem intern_number (t : Interner α) (value : α) :
    (t.intern value).1 = (t.intern value).2.entries.idxOf value := by
  unfold intern
  split
  next number known =>
    have member : value ∈ t.entries := List.mem_of_getElem? ((t.in_step value number).mp known)
    have first : t.index value = some (t.entries.idxOf value) :=
      (t.in_step value _).mpr (List.getElem?_idxOf member)
    exact Option.some.inj (known.symm.trans first)
  next unknown => simp [append,List.idxOf_append,index_eq_none.mp unknown]

theorem mem_intern (t : Interner α) (value other : α) :
    other ∈ (t.intern value).2.entries ↔ other ∈ t.entries ∨ other = value := by
  rw [intern_entries,mem_added]

theorem intern_nodup {t : Interner α} (distinct : t.entries.Nodup) (value : α) :
    (t.intern value).2.entries.Nodup := by
  rw [intern_entries]
  exact nodup_added distinct value

theorem get?_inj {α : Type} {t : Interner α} (distinct : t.entries.Nodup) {first second : Nat}
    {value : α} (left : t.get? first = some value) (right : t.get? second = some value) :
    first = second := by
  obtain ⟨inside,same⟩ := List.getElem?_eq_some_iff.mp left
  obtain ⟨inside',same'⟩ := List.getElem?_eq_some_iff.mp right
  exact (distinct.getElem_inj_iff).mp (same.trans same'.symm)

end Interner

namespace UserCode

theorem mention_names (code : UserCode) (ns : Option String) :
    (code.mention ns).namespaces.map (·.name) =
      if ns ∈ code.namespaces.map (·.name) then code.namespaces.map (·.name)
      else code.namespaces.map (·.name) ++ [ns] := by
  have known : code.namespaces.any (·.name == ns) = true ↔ ns ∈ code.namespaces.map (·.name) := by
    simp [List.mem_map]
  unfold mention
  by_cases present : ns ∈ code.namespaces.map (·.name)
  · rw [if_pos (known.mpr present),if_pos present]
  · rw [if_neg fun found => present (known.mp found),if_neg present]
    simp

theorem mem_mention {code : UserCode} {ns other : Option String} :
    other ∈ (code.mention ns).namespaces.map (·.name) ↔
      other ∈ code.namespaces.map (·.name) ∨ other = ns := by
  rw [mention_names,mem_added]

theorem mention_nodup {code : UserCode} (distinct : (code.namespaces.map (·.name)).Nodup)
    (ns : Option String) : ((code.mention ns).namespaces.map (·.name)).Nodup := by
  rw [mention_names]
  exact nodup_added distinct ns

theorem add_namespaces (code : UserCode) (kind : MethodKind) (method : UserMethod) :
    (code.add kind method).2.namespaces = (code.mention method.ns).namespaces := by
  cases kind <;> rfl

theorem add_methods (code : UserCode) (kind other : MethodKind) (method : UserMethod) :
    (code.add kind method).2.methods other =
      if other = kind then ((code.methods kind).intern method).2 else code.methods other := by
  cases kind <;> cases other <;> simp [add,methods]

theorem setInitializer_names (code : UserCode) (ns : Option String) (text : String) :
    (code.setInitializer ns text).namespaces.map (·.name) =
      (code.mention ns).namespaces.map (·.name) := by
  simp only [setInitializer,List.map_map]
  apply List.map_congr_left
  intro n _
  simp only [Function.comp_apply]
  split <;> rfl

theorem setInitializer_methods (code : UserCode) (ns : Option String) (text : String)
    (kind : MethodKind) : (code.setInitializer ns text).methods kind = code.methods kind := by
  cases kind <;> simp [setInitializer,methods]

end UserCode

namespace Registries

def Holds (registries : Registries) : Resource → Prop
  | .pattern initializer => initializer ∈ registries.patterns.values.entries
  | .expected initializer => initializer ∈ registries.expected.values.entries
  | .method kind method => method ∈ (registries.userCode.methods kind).entries

structure Distinct (registries : Registries) : Prop where
  patterns : registries.patterns.values.entries.Nodup
  expected : registries.expected.values.entries.Nodup
  methods : ∀ kind, (registries.userCode.methods kind).entries.Nodup
  namespaces : (registries.userCode.namespaces.map (·.name)).Nodup
  known : ∀ kind, ∀ method ∈ (registries.userCode.methods kind).entries,
    method.ns ∈ registries.userCode.namespaces.map (·.name)

variable {registries : Registries}

theorem holds_register (resource other : Resource) :
    (registries.register resource).Holds other ↔ registries.Holds other ∨ other = resource := by
  cases resource with
  | pattern initializer =>
    cases other with
    | pattern value => simp [Holds,register,ConstantPool.add,Interner.mem_intern]
    | _ => simp [Holds,register]
  | expected initializer =>
    cases other with
    | expected value => simp [Holds,register,ConstantPool.add,Interner.mem_intern]
    | _ => simp [Holds,register]
  | method kind method =>
    cases other with
    | method kind' method' =>
      simp only [Holds,register,UserCode.add_methods]
      split
      next same => simp [same,Interner.mem_intern]
      next differs => simp [differs]
    | _ => simp [Holds,register]

theorem Distinct.register (distinct : registries.Distinct) (resource : Resource) :
    (registries.register resource).Distinct := by
  cases resource with
  | pattern initializer =>
    exact ⟨Interner.intern_nodup distinct.patterns _,distinct.expected,distinct.methods,
      distinct.namespaces,distinct.known⟩
  | expected initializer =>
    exact ⟨distinct.patterns,Interner.intern_nodup distinct.expected _,distinct.methods,
      distinct.namespaces,distinct.known⟩
  | method kind method =>
    have names : (registries.register (.method kind method)).userCode.namespaces.map (·.name) =
        (registries.userCode.mention method.ns).namespaces.map (·.name) :=
      congrArg _ (registries.userCode.add_namespaces kind method)
    refine ⟨distinct.patterns,distinct.expected,fun other => ?_,?_,fun other m member => ?_⟩
    · change ((registries.userCode.add kind method).2.methods other).entries.Nodup
      rw [UserCode.add_methods]
      split
      · exact Interner.intern_nodup (distinct.methods kind) _
      · exact distinct.methods other
    · rw [names]
      exact UserCode.mention_nodup distinct.namespaces _
    · have held := (holds_register (.method kind method) (.method other m)).mp member
      rw [names,UserCode.mem_mention]
      rcases held with earlier | same
      · exact .inl (distinct.known other m earlier)
      · cases same
        exact .inr rfl

theorem lookup_holds {target : Alias} {resource : Resource}
    (found : registries.lookup target = some resource) : registries.Holds resource := by
  cases target <;>
    (obtain ⟨value,present,rfl⟩ := Option.map_eq_some_iff.mp found
     exact List.mem_of_getElem? present)

theorem Distinct.lookup_inj (distinct : registries.Distinct) {first second : Alias}
    {resource : Resource} (left : registries.lookup first = some resource)
    (right : registries.lookup second = some resource) : first = second := by
  cases first <;> cases second <;>
    (obtain ⟨value,present,rfl⟩ := Option.map_eq_some_iff.mp left
     obtain ⟨value',present',same⟩ := Option.map_eq_some_iff.mp right
     cases same)
  · exact congrArg _ (Interner.get?_inj distinct.patterns present present')
  · exact congrArg _ (Interner.get?_inj distinct.expected present present')
  · exact congrArg _ (Interner.get?_inj (distinct.methods _) present present')

structure Takes (needed : List Resource) (before after : Registries) : Prop where
  distinct : before.Distinct → after.Distinct
  only : ∀ resource, after.Holds resource → before.Holds resource ∨ resource ∈ needed
  patterns : after.patterns.letter = before.patterns.letter ∧
    after.patterns.type = before.patterns.type
  expected : after.expected.letter = before.expected.letter ∧
    after.expected.type = before.expected.type

variable {needed : List Resource}

theorem Takes.refl (registries : Registries) : Takes needed registries registries :=
  ⟨id,fun _ => .inl,⟨rfl,rfl⟩,⟨rfl,rfl⟩⟩

theorem Takes.trans {a b c : Registries} (first : Takes needed a b) (second : Takes needed b c) :
    Takes needed a c where
  distinct start := second.distinct (first.distinct start)
  only resource held := by
    rcases second.only resource held with earlier | added
    · exact first.only resource earlier
    · exact .inr added
  patterns := ⟨second.patterns.1.trans first.patterns.1,second.patterns.2.trans first.patterns.2⟩
  expected := ⟨second.expected.1.trans first.expected.1,second.expected.2.trans first.expected.2⟩

theorem Takes.mono {more : List Resource} {a b : Registries} (takes : Takes needed a b)
    (covered : ∀ resource ∈ needed, resource ∈ more) : Takes more a b :=
  { takes with only := fun resource held => (takes.only resource held).imp_right (covered resource) }

theorem takes_register {resource : Resource} (member : resource ∈ needed) :
    Takes needed registries (registries.register resource) where
  distinct start := start.register resource
  only other held := by
    rcases (holds_register resource other).mp held with earlier | rfl
    · exact .inl earlier
    · exact .inr member
  patterns := by cases resource <;> exact ⟨rfl,rfl⟩
  expected := by cases resource <;> exact ⟨rfl,rfl⟩

end Registries

namespace Lowering

open Semantics (labelType Lowered)

variable {cfg : Setting}

def registration (cfg : Setting) (needed : List Resource) : Policy cfg where
  moves := Registries.Takes needed
  raises _ := True
  knows := Shows cfg fun _ => True
  refl := .refl
  trans := .trans
  fault _ := trivial
  bind shown typed := shown.bind typed trivial

private theorem registration_permits {needed : List Resource} {visit : Visit}
    (covered : ∀ need ∈ needs cfg visit, need.resource ∈ needed) :
    (registration cfg needed).Permits visit := by
  obtain ⟨node,base,bound⟩ := visit
  cases node with
  | named site name body => exact fun _ => Registries.takes_register (covered _ List.mem_cons_self)
  | action site act body =>
    refine ⟨fun _ => trivial,fun ty scope typed shown registries => ?_⟩
    apply Registries.takes_register
    have type : labelType cfg site.id = cfg.imports.spelling ty := by simp [labelType,typed]
    have need := covered _ List.mem_cons_self
    rwa [actionNeed,type,← shown.params] at need
  | labeled site label body => exact fun _ => trivial
  | repeated site repetition body => exact ⟨fun _ _ _ _ _ => trivial,fun _ _ _ _ _ _ _ => trivial⟩
  | predicate site isNegative code ns =>
    intro scope shown registries
    apply Registries.takes_register
    have need := covered _ List.mem_cons_self
    rwa [← Shows.params shown] at need
  | literal site value ignoreCase =>
    exact fun _ => Registries.takes_register (covered _ List.mem_cons_self)
  | charClass site parts inverted ignoreCase rawText =>
    refine ⟨fun _ => Registries.takes_register (covered _ List.mem_cons_self),fun _ => ?_⟩
    exact Registries.takes_register (covered _ (List.mem_cons_of_mem _ List.mem_cons_self))
  | _ => trivial

def ruleNeeds (cfg : Setting) (rule : Rule) : List Need :=
  needsOf cfg (rule.body.visits 0 [])

/-- Lowering a rule registers what its nodes need and nothing else, also when it fails. -/
theorem lowerRule_takes (cfg : Setting) (rule : Rule) (isStart : Bool) (before : Registries) :
    Registries.Takes ((ruleNeeds cfg rule).map (·.resource)) before
      (lowerRule cfg rule isStart before).2 := by
  refine ((registration cfg _).keeps_rule .nil (fun visit member => ?_) isStart before).1
  apply registration_permits
  intro need needed
  exact List.mem_map_of_mem (List.mem_flatMap.mpr ⟨visit,member,needed⟩)

theorem lowerRule_within (cfg : Setting) (rule : Rule) (isStart : Bool) (before : Registries) :
    before.Within (lowerRule cfg rule isStart before).2 :=
  ((growth cfg).keeps_rule trivial (fun visit _ => growth_permits cfg visit) isStart before).1

theorem bind_eq_ok {ε α β : Type} {x : Except ε α} {f : α → Except ε β} {b : β} :
    x >>= f = .ok b ↔ ∃ a, x = .ok a ∧ f a = .ok b := by
  cases x with
  | error error => simp [bind,Except.bind]
  | ok a => simp [bind,Except.bind]

structure LoweredAll (cfg : Setting) (before after : Registries) (rules : List Rule)
    (subs : List Subroutine) : Prop where
  within : before.Within after
  takes : Registries.Takes ((rules.flatMap (ruleNeeds cfg)).map (·.resource)) before after
  each : List.Forall₂ (Lowered cfg after) rules subs

theorem lowerRules_lowered {starts : List String} {before after : Registries} {rules : List Rule}
    {subs : List Subroutine} (ok : lowerRules cfg starts before rules = .ok (subs,after)) :
    LoweredAll cfg before after rules subs := by
  induction rules generalizing before subs with
  | nil =>
    cases ok
    exact ⟨.refl _,.refl _,.nil⟩
  | cons rule rest ih =>
    have within := lowerRule_within cfg rule (starts.contains rule.name) before
    have takes := lowerRule_takes cfg rule (starts.contains rule.name) before
    rw [lowerRules] at ok
    cases run : lowerRule cfg rule (starts.contains rule.name) before with
    | mk result middle =>
      rw [run] at ok within takes
      simp only [bind_eq_ok] at ok
      obtain ⟨sub,rfl,⟨others,last⟩,tail,ok⟩ := ok
      cases ok
      -- later rules only add to the registries, so the code of this rule stays as it is
      have later := ih tail
      refine ⟨within.trans later.within,?_,.cons ⟨_,before,middle,run,later.within⟩ later.each⟩
      refine (takes.mono ?_).trans (later.takes.mono ?_)
      · intro resource needed
        simpa using .inl (List.mem_map.mp needed)
      · intro resource needed
        rw [List.flatMap_cons,List.map_append]
        exact List.mem_append_right _ needed

end Lowering

end PegCompiler
