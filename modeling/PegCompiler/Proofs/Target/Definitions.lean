import PegCompiler.Proofs.Lowering.Registration

/-! Definitions of the generated source: what the registries of a grammar hold, each under an alias of
its own. -/
namespace PegCompiler

open Target Lowering

def Alias.name : Alias → String
  | .pattern index => patternLetter ++ toString index
  | .expected index => expectedLetter ++ toString index
  | .method kind index => kind.stem ++ toString index

structure Definition where
  target : Alias
  resource : Resource
deriving DecidableEq

def Definition.text (imports : Imports) (d : Definition) : String :=
  match d.resource with
  | .pattern initializer => "private static final " ++ imports.className "Pattern" ++ " " ++
      d.target.name ++ " = " ++ initializer ++ ";"
  | .expected initializer => "private static final " ++ imports.className "Expected" ++ " " ++
      d.target.name ++ " = " ++ initializer ++ ";"
  | .method _ method => method.type ++ " " ++ d.target.name ++ "(" ++
      ", ".intercalate (method.params.map fun (name,type) => type ++ " " ++ name) ++
      ") \x7b" ++ method.body ++ "\x7d"

def Definition.ofEntries {α : Type} (target : Nat → Alias) (resource : α → Resource)
    (entries : List (Nat × α)) : List Definition :=
  entries.map fun (index,value) => ⟨target index,resource value⟩

namespace Registries

def patternDefinitions (registries : Registries) : List Definition :=
  Definition.ofEntries .pattern .pattern registries.patterns.values.toList

def expectedDefinitions (registries : Registries) : List Definition :=
  Definition.ofEntries .expected .expected registries.expected.values.toList

def methodDefinitions (registries : Registries) (kind : MethodKind) (ns : Option String) :
    List Definition :=
  Definition.ofEntries (.method kind) (.method kind)
    ((registries.userCode.methods kind).toList.filter fun m => m.2.ns == ns)

end Registries

def Target.ParserClass.definitions (p : ParserClass) : List Definition :=
  (p.registries.userCode.namespaces.flatMap fun n =>
    p.registries.methodDefinitions .predicate n.name ++
      p.registries.methodDefinitions .action n.name) ++
    (p.registries.patternDefinitions ++ p.registries.expectedDefinitions)

namespace Interner

variable {α : Type}

theorem mem_toList {t : Interner α} {index : Nat} {value : α} :
    (index,value) ∈ t.toList ↔ t.get? index = some value := by
  unfold toList get?
  rw [List.mem_map]
  constructor
  · rintro ⟨⟨value',index'⟩,member,same⟩
    cases same
    exact List.mem_zipIdx_iff_getElem?.mp member
  · intro found
    exact ⟨(value,index),List.mem_zipIdx_iff_getElem?.mpr found,rfl⟩

theorem toList_map_fst (t : Interner α) : t.toList.map (·.1) = List.range t.entries.length := by
  rw [toList,List.map_map,List.range_eq_range',← List.zipIdx_map_snd 0 t.entries]
  rfl

theorem toList_indices (t : Interner α) : (t.toList.map (·.1)).Nodup := by
  rw [toList_map_fst]
  exact List.nodup_range

end Interner

theorem Definition.mem_ofEntries {α : Type} {target : Nat → Alias} {resource : α → Resource}
    {entries : List (Nat × α)} {d : Definition} : d ∈ ofEntries target resource entries ↔
      ∃ index value, (index,value) ∈ entries ∧ d = ⟨target index,resource value⟩ := by
  simp only [ofEntries,List.mem_map,Prod.exists,eq_comm]

theorem Definition.ofEntries_nodup {α : Type} {target : Nat → Alias} {resource : α → Resource}
    {entries : List (Nat × α)} (numbered : (entries.map (·.1)).Nodup)
    (injective : ∀ i j, target i = target j → i = j) :
    ((ofEntries target resource entries).map (·.target)).Nodup := by
  have targets : (ofEntries target resource entries).map (·.target) =
      (entries.map (·.1)).map target := by
    simp [ofEntries]
  rw [targets]
  exact numbered.map injective

namespace Target.ParserClass

variable {p : ParserClass}

private theorem mem_methods (distinct : p.registries.Distinct) {d : Definition} :
    (∃ n ∈ p.registries.userCode.namespaces,
      d ∈ p.registries.methodDefinitions .predicate n.name ++
        p.registries.methodDefinitions .action n.name) ↔
    ∃ kind index method, (p.registries.userCode.methods kind).get? index = some method ∧
      d = ⟨.method kind index,.method kind method⟩ := by
  have inNamespace (kind : MethodKind) (ns : Option String) :
      d ∈ p.registries.methodDefinitions kind ns ↔ ∃ index method,
        (p.registries.userCode.methods kind).get? index = some method ∧ method.ns = ns ∧
          d = ⟨.method kind index,.method kind method⟩ := by
    rw [Registries.methodDefinitions,Definition.mem_ofEntries]
    simp only [List.mem_filter,Interner.mem_toList,beq_iff_eq,and_assoc]
  constructor
  · rintro ⟨n,-,member⟩
    rcases List.mem_append.mp member with inside | inside
    · obtain ⟨index,method,found,-,same⟩ := (inNamespace _ _).mp inside
      exact ⟨_,index,method,found,same⟩
    · obtain ⟨index,method,found,-,same⟩ := (inNamespace _ _).mp inside
      exact ⟨_,index,method,found,same⟩
  · rintro ⟨kind,index,method,found,same⟩
    -- the namespace of a method is known, and the definitions of that namespace hold the method
    obtain ⟨n,present,named⟩ :=
      List.mem_map.mp (distinct.known kind method (List.mem_of_getElem? found))
    have inside := (inNamespace kind n.name).mpr ⟨index,method,found,named.symm,same⟩
    refine ⟨n,present,List.mem_append.mpr ?_⟩
    cases kind with
    | predicate => exact .inl inside
    | action => exact .inr inside

/-- The definitions are what the registries hold. -/
theorem mem_definitions (distinct : p.registries.Distinct) {d : Definition} :
    d ∈ p.definitions ↔ p.registries.lookup d.target = some d.resource := by
  rw [definitions,List.mem_append,List.mem_append,List.mem_flatMap,mem_methods distinct,
    Registries.patternDefinitions,Registries.expectedDefinitions,Definition.mem_ofEntries,
    Definition.mem_ofEntries]
  simp only [Interner.mem_toList]
  constructor
  · rintro (⟨kind,index,method,found,rfl⟩ | ⟨index,value,found,rfl⟩ | ⟨index,value,found,rfl⟩) <;>
      simp [Registries.lookup,found]
  · obtain ⟨target,resource⟩ := d
    intro found
    cases target with
    | pattern index =>
      obtain ⟨value,present,rfl⟩ := Option.map_eq_some_iff.mp found
      exact .inr (.inl ⟨index,value,present,rfl⟩)
    | expected index =>
      obtain ⟨value,present,rfl⟩ := Option.map_eq_some_iff.mp found
      exact .inr (.inr ⟨index,value,present,rfl⟩)
    | method kind index =>
      obtain ⟨method,present,rfl⟩ := Option.map_eq_some_iff.mp found
      exact .inl ⟨kind,index,method,present,rfl⟩

private theorem target_of_mem {α : Type} {target : Nat → Alias} {resource : α → Resource}
    {entries : List (Nat × α)} {a : Alias}
    (member : a ∈ (Definition.ofEntries target resource entries).map (·.target)) :
    ∃ index value, (index,value) ∈ entries ∧ a = target index := by
  obtain ⟨d,inside,rfl⟩ := List.mem_map.mp member
  obtain ⟨index,value,present,rfl⟩ := Definition.mem_ofEntries.mp inside
  exact ⟨index,value,present,rfl⟩

private theorem method_of_mem {ns : Option String} {a : Alias}
    (member : a ∈ (p.registries.methodDefinitions .predicate ns ++
      p.registries.methodDefinitions .action ns).map (·.target)) :
    ∃ kind index method, a = .method kind index ∧
      (p.registries.userCode.methods kind).get? index = some method ∧ method.ns = ns := by
  have found {kind : MethodKind}
      (inside : a ∈ (p.registries.methodDefinitions kind ns).map (·.target)) :
      ∃ kind index method, a = .method kind index ∧
        (p.registries.userCode.methods kind).get? index = some method ∧ method.ns = ns := by
    obtain ⟨index,method,present,same⟩ := target_of_mem inside
    obtain ⟨listed,named⟩ := List.mem_filter.mp present
    exact ⟨kind,index,method,same,Interner.mem_toList.mp listed,beq_iff_eq.mp named⟩
  rw [List.map_append] at member
  rcases List.mem_append.mp member with inside | inside
  · exact found inside
  · exact found inside

private theorem namespaces_disjoint {first second : Option String} (differ : first ≠ second) :
    List.Disjoint
      ((p.registries.methodDefinitions .predicate first ++
        p.registries.methodDefinitions .action first).map (·.target))
      ((p.registries.methodDefinitions .predicate second ++
        p.registries.methodDefinitions .action second).map (·.target)) := by
  intro a left right
  obtain ⟨kind,index,method,rfl,found,named⟩ := method_of_mem left
  obtain ⟨_,_,method',same,found',named'⟩ := method_of_mem right
  cases same
  rw [found,Option.some.injEq] at found'
  exact differ (named.symm.trans ((congrArg _ found').trans named'))

private theorem methods_nodup (kind : MethodKind) (ns : Option String) :
    ((p.registries.methodDefinitions kind ns).map (·.target)).Nodup := by
  refine Definition.ofEntries_nodup ?_ (by simp)
  exact (Interner.toList_indices _).sublist (List.filter_sublist.map _)

theorem definitions_nodup (distinct : p.registries.Distinct) :
    (p.definitions.map (·.target)).Nodup := by
  have inNamespace (ns : Option String) :
      ((p.registries.methodDefinitions .predicate ns ++
        p.registries.methodDefinitions .action ns).map (·.target)).Nodup := by
    rw [List.map_append]
    refine List.nodup_append.mpr ⟨methods_nodup _ ns,methods_nodup _ ns,fun a left b right => ?_⟩
    obtain ⟨_,_,-,rfl⟩ := target_of_mem left
    obtain ⟨_,_,-,rfl⟩ := target_of_mem right
    simp
  have patterns : (p.registries.patternDefinitions.map (·.target)).Nodup :=
    Definition.ofEntries_nodup (Interner.toList_indices _) (by simp)
  have expected : (p.registries.expectedDefinitions.map (·.target)).Nodup :=
    Definition.ofEntries_nodup (Interner.toList_indices _) (by simp)
  rw [definitions,List.map_append,List.map_append,List.map_flatMap]
  refine List.nodup_append.mpr ⟨?_,List.nodup_append.mpr ⟨patterns,expected,?_⟩,?_⟩
  · refine List.nodup_flatMap.mpr ⟨fun n _ => inNamespace n.name,?_⟩
    exact (List.pairwise_map.mp distinct.namespaces).imp namespaces_disjoint
  · intro a left b right
    obtain ⟨_,_,-,rfl⟩ := target_of_mem left
    obtain ⟨_,_,-,rfl⟩ := target_of_mem right
    simp
  · intro a left b right
    obtain ⟨n,-,inside⟩ := List.mem_flatMap.mp left
    obtain ⟨_,_,_,rfl,-⟩ := method_of_mem inside
    rcases List.mem_append.mp right with constant | constant
    · obtain ⟨_,_,-,rfl⟩ := target_of_mem constant
      simp
    · obtain ⟨_,_,-,rfl⟩ := target_of_mem constant
      simp

structure Lettered (p : ParserClass) : Prop where
  patterns : p.registries.patterns.letter = patternLetter ∧
    p.registries.patterns.type = p.imports.className "Pattern"
  expected : p.registries.expected.letter = expectedLetter ∧
    p.registries.expected.type = p.imports.className "Expected"

theorem pattern_lines (lettered : p.Lettered) :
    p.registries.patternDefinitions.map (Definition.text p.imports) =
      p.registries.patterns.definitions := by
  rw [Registries.patternDefinitions,Definition.ofEntries,List.map_map,ConstantPool.definitions]
  simp only [ConstantPool.nameOf,lettered.patterns]
  rfl

theorem expected_lines (lettered : p.Lettered) :
    p.registries.expectedDefinitions.map (Definition.text p.imports) =
      p.registries.expected.definitions := by
  rw [Registries.expectedDefinitions,Definition.ofEntries,List.map_map,ConstantPool.definitions]
  simp only [ConstantPool.nameOf,lettered.expected]
  rfl

theorem method_lines (registries : Registries) (imports : Imports) (kind : MethodKind)
    (ns : Option String) :
    (registries.methodDefinitions kind ns).map (Definition.text imports) =
      registries.userCode.definitions kind ns := by
  rw [Registries.methodDefinitions,Definition.ofEntries,List.map_map,UserCode.definitions]
  apply List.map_congr_left
  rintro ⟨index,method⟩ -
  simp only [Function.comp_apply,Definition.text,Alias.name,UserCode.definition,String.append_assoc]
  rfl

end Target.ParserClass

/-! From the registries of a grammar to its source. -/

structure Registries.Bare (imports : Imports) (registries : Registries) : Prop where
  patterns : registries.patterns = { letter := patternLetter, type := imports.className "Pattern" }
  expected : registries.expected =
    { letter := expectedLetter, type := imports.className "Expected" }
  methods : ∀ kind, registries.userCode.methods kind = {}
  namespaces : (registries.userCode.namespaces.map (·.name)).Nodup

namespace Registries.Bare

variable {imports : Imports} {registries : Registries}

theorem distinct (bare : registries.Bare imports) : registries.Distinct where
  patterns := by simp [bare.patterns]
  expected := by simp [bare.expected]
  methods kind := by simp [bare.methods kind]
  namespaces := bare.namespaces
  known kind := by simp [bare.methods kind]

theorem not_holds (bare : registries.Bare imports) (resource : Resource) :
    ¬registries.Holds resource := by
  cases resource <;> simp [Registries.Holds,bare.patterns,bare.expected,bare.methods]

end Registries.Bare

private theorem registerInitializers_bare {imports : Imports} {registries : Registries}
    (bare : registries.Bare imports) (g : Grammar) :
    Registries.Bare imports
      { registries with userCode := registerInitializers g registries.userCode } := by
  unfold registerInitializers
  generalize g.initializers = initializers
  induction initializers generalizing registries with
  | nil => exact bare
  | cons first rest ih =>
    have step : Registries.Bare imports { registries with
        userCode := registries.userCode.setInitializer first.ns first.code } := by
      refine ⟨bare.patterns,bare.expected,fun kind => ?_,?_⟩
      · rw [UserCode.setInitializer_methods,bare.methods]
      · rw [UserCode.setInitializer_names]
        exact UserCode.mention_nodup bare.namespaces _
    exact ih step

theorem fresh_bare {imports : Imports} {registries : Registries}
    (ok : Registries.fresh imports = .ok registries) : registries.Bare imports := by
  have pattern := imports.resolve_eq (by simp [Imports.knownNames] : "Pattern" ∈ _)
  have expected := imports.resolve_eq (by simp [Imports.knownNames] : "Expected" ∈ _)
  rw [Registries.fresh,pattern,expected] at ok
  cases ok
  exact ⟨rfl,rfl,fun kind => by cases kind <;> rfl,.nil⟩

theorem internalError_ok {α : Type} {x : Except Fault α} {a : α}
    (ok : internalError x = .ok a) : x = .ok a := by
  cases x with
  | error fault => exact nomatch ok
  | ok value =>
    cases ok
    rfl

/-- All rules are lowered, one after the other, from registries that hold nothing. -/
theorem parserClass_lowered {g : Grammar} {table : TypeTable} {options : Options} {p : ParserClass}
    (ok : parserClass g table options = .ok p) :
    p.imports = ⟨options.useFullyQualifiedNames⟩ ∧ p.options = options ∧
      ∃ before, before.Bare p.imports ∧
        LoweredAll ⟨p.imports,table⟩ before p.registries g.rules p.subroutines := by
  unfold parserClass at ok
  split at ok
  · exact nomatch ok
  · dsimp only at ok
    split at ok
    · exact nomatch ok
    · simp only [bind_eq_ok] at ok
      obtain ⟨entries,-,fresh,started,⟨subroutines,registries⟩,lowered,ok⟩ := ok
      cases ok
      have bare : fresh.Bare ⟨options.useFullyQualifiedNames⟩ := fresh_bare (internalError_ok started)
      exact ⟨rfl,rfl,_,registerInitializers_bare bare g,lowerRules_lowered lowered⟩

section Sources

variable {p : ParserClass} {table : TypeTable} {before : Registries} {rules : List Rule}

theorem lettered_of_bare (bare : before.Bare p.imports)
    (all : LoweredAll ⟨p.imports,table⟩ before p.registries rules p.subroutines) : p.Lettered where
  patterns := by
    obtain ⟨letter,type⟩ := all.takes.patterns
    exact ⟨letter.trans (congrArg _ bare.patterns),type.trans (congrArg _ bare.patterns)⟩
  expected := by
    obtain ⟨letter,type⟩ := all.takes.expected
    exact ⟨letter.trans (congrArg _ bare.expected),type.trans (congrArg _ bare.expected)⟩

theorem rule_served {cfg : Setting} {final : Registries} {rule : Rule} {sub : Subroutine}
    (lowered : Semantics.Lowered cfg final rule sub) : sub.name = rule.name ∧
      List.Forall₂ (Serves cfg final (LoweredIn cfg final sub.body)) (Instr.referencesAll sub.body)
        (ruleNeeds cfg rule) := by
  obtain ⟨name,inner,emitted⟩ := lowered.emits
  exact ⟨name,emits_references emitted⟩

end Sources

end PegCompiler
