import PegCompiler.Proofs.Target.Fields

/-! Aliases of the generated source. Every alias that the statements of a rule refer to is declared by
one member of the source, as the node that it stands for needs it, and every definition is used by the
statements of some rule. -/
namespace PegCompiler

open Target Lowering Semantics

/-- A reference in the code of a rule is to what a node needs, and one member of the source has the
name of it; the values passed with it are those of the parameters, cast to their types in order. -/
structure Resolves (members : List Member) (reference : Reference) (need : Need) : Prop where
  once : members.filter (fun m => m.declares = some reference.target.name) =
    [.definition ⟨reference.target,need.resource⟩]
  casts : ∀ kind method, need.resource = .method kind method →
    reference.arguments.map (fun p => (p.param,p.type)) = method.params

/-! Names of aliases. -/

namespace Alias

private def letters : List Char :=
  ['p','e','i','s','f']

private theorem name_eq (a : Alias) : ∃ (stem : String) (index : Nat),
    a.name = stem ++ toString index ∧ stem ∈ ["p","e","is","f"] := by
  cases a with
  | pattern index => exact ⟨"p",index,rfl,by simp⟩
  | expected index => exact ⟨"e",index,rfl,by simp⟩
  | method kind index =>
    cases kind with
    | predicate => exact ⟨"is",index,rfl,by simp⟩
    | action => exact ⟨"f",index,rfl,by simp⟩

private theorem stem_letters :
    ∀ stem ∈ ["p","e","is","f"], ∀ c ∈ stem.toList, c ∈ letters := by
  simp [letters]

private theorem stem_lower :
    ∀ stem ∈ ["p","e","is","f"], ∃ c ∈ stem.toList, c.isLower := by
  simp

theorem name_inj {a b : Alias} (same : a.name = b.name) : a = b := by
  have numbers {stem : String} {i j : Nat} (same : stem ++ toString i = stem ++ toString j) : i = j :=
    (@ConstantPool.nameOf_inj ⟨stem,"",{}⟩ i j).mp same
  have first := congrArg (fun name => name.toList.head?) same
  rcases a with i | i | ⟨_ | _,i⟩ <;> rcases b with j | j | ⟨_ | _,j⟩
  case pattern.pattern | expected.expected | method.predicate.method.predicate |
      method.action.method.action => exact congrArg _ (numbers same)
  all_goals simp [name,patternLetter,expectedLetter,MethodKind.stem] at first

theorem name_ne_of_mem {a : Alias} {name : String} {c : Char} (inside : c ∈ name.toList)
    (other : c ∉ letters) (digit : ¬c.isDigit) : name ≠ a.name := by
  obtain ⟨stem,index,spelled,known⟩ := a.name_eq
  rintro rfl
  rw [spelled,String.toList_append] at inside
  rcases List.mem_append.mp inside with front | number
  · exact other (stem_letters stem known c front)
  · have digits : (toString index).toList = Nat.toDigits 10 index := Nat.toList_repr
    exact digit (Nat.isDigit_of_mem_toDigits (by decide) (by decide) (digits ▸ number))

theorem name_ne_of_plain {a : Alias} {name : String} (plain : ∀ c ∈ name.toList, ¬c.isLower) :
    name ≠ a.name := by
  obtain ⟨stem,index,spelled,known⟩ := a.name_eq
  obtain ⟨c,inside,lower⟩ := stem_lower stem known
  rintro rfl
  refine plain c ?_ lower
  rw [spelled,String.toList_append]
  exact List.mem_append_left _ inside

end Alias

/-! Members with the name of an alias. -/

def Target.Member.Apart (m : Member) : Prop :=
  ∀ a : Alias, m.declares = some a.name → m.isDefinition

namespace Target.ParserClass

variable {p : ParserClass}

theorem members_definitions (p : ParserClass) :
    p.members.filter Member.isDefinition = p.definitions.map Member.definition := by
  have all (ds : List Definition) :
      (ds.map Member.definition).filter Member.isDefinition = ds.map Member.definition :=
    List.filter_eq_self.mpr (List.forall_mem_map.mpr fun _ _ => rfl)
  have inNamespace (ns : Option String) :
      (namespaceMembers p.registries ns).filter Member.isDefinition =
        (p.registries.methodDefinitions .predicate ns ++
          p.registries.methodDefinitions .action ns).map Member.definition := by
    rw [namespaceMembers]
    simp only [List.filter_append,all,List.map_append]
    cases ns <;> cases p.registries.userCode.initializer _ <;>
      simp [Member.title,Member.isDefinition]
  have holder : [Member.field p.options.className "parser" "",
      Member.constructor (holderName p.options) (p.options.className ++ " parser")
        "this.parser = parser;"].filter Member.isDefinition = [] := rfl
  rw [members,List.filter_append,class_definitions,holderMembers,List.filter_append,holder,
    List.filter_flatMap,definitions]
  simp only [inNamespace,List.map_append,List.map_flatMap,List.nil_append]

private theorem apart_silent {m : Member} (silent : m.declares = none) : m.Apart :=
  fun _ same => nomatch silent.symm.trans same

private theorem apart_named {m : Member} {name : String} {c : Char} (named : m.declares = some name)
    (inside : c ∈ name.toList) (other : c ∉ Alias.letters) (digit : ¬c.isDigit) : m.Apart :=
  fun _ same => absurd (Option.some.inj (named.symm.trans same))
    (Alias.name_ne_of_mem inside other digit)

theorem holder_apart (p : ParserClass) : ∀ m ∈ p.holderMembers, m.Apart := by
  have inNamespace (ns : Option String) : ∀ m ∈ namespaceMembers p.registries ns, m.Apart := by
    simp only [namespaceMembers,List.forall_mem_append,List.forall_mem_map,List.forall_mem_singleton]
    refine ⟨⟨⟨⟨⟨⟨apart_silent rfl,fun _ _ => apart_silent rfl⟩,?_⟩,apart_silent rfl⟩,
      fun _ _ _ _ => rfl⟩,apart_silent rfl⟩,fun _ _ _ _ => rfl⟩
    intro m member
    obtain ⟨text,-,inside⟩ := List.mem_flatMap.mp member
    rcases List.mem_pair.mp inside with rfl | rfl
    · exact apart_silent rfl
    · exact apart_silent rfl
  refine List.forall_mem_append.mpr ⟨List.forall_mem_cons.mpr ⟨?_,?_⟩,?_⟩
  · exact apart_named (c := 'a') rfl (by decide) (by decide) (by decide)
  · refine List.forall_mem_singleton.mpr (apart_named (c := 'U') rfl ?_ (by decide) (by decide))
    rw [holderName,String.toList_append]
    exact List.mem_append_right _ (by decide)
  · intro m member
    obtain ⟨n,-,inside⟩ := List.mem_flatMap.mp member
    exact inNamespace n.name m inside

theorem class_apart (constants : ∀ entry ∈ p.entries, ∀ c ∈ entry.constant.toList, ¬c.isLower) :
    ∀ m ∈ p.classMembers, m.Apart := by
  intro m member
  cases p.classMembers_has m member with
  | definition => exact fun _ _ => rfl
  | entry listed =>
    exact fun _ same => absurd (Option.some.inj same) (Alias.name_ne_of_plain (constants _ listed))
  | holder value => exact apart_named (c := 'u') rfl (by decide) (by decide) (by decide)
  | method params code access known =>
    refine apart_named (c := 'a') rfl ?_ (by decide) (by decide)
    rcases known with rfl | rfl | ⟨rule,rfl⟩
    · decide
    · decide
    · rw [subroutineName,String.toList_append]
      exact List.mem_append_left _ (by decide)
  | _ => exact apart_silent rfl

private theorem filter_named {ds : List Definition} (distinct : (ds.map (·.target)).Nodup)
    {d : Definition} (member : d ∈ ds) :
    ds.filter (fun other => other.target.name = d.target.name) = [d] := by
  induction ds with
  | nil => exact nomatch member
  | cons first rest ih =>
    rw [List.map_cons,List.nodup_cons] at distinct
    rcases List.mem_cons.mp member with rfl | later
    · have absent : ∀ other ∈ rest, other.target.name ≠ d.target.name :=
        fun other inside same => distinct.1 (Alias.name_inj same ▸ List.mem_map_of_mem inside)
      simpa using absent
    · have differs : first.target.name ≠ d.target.name :=
        fun same => distinct.1 (Alias.name_inj same ▸ List.mem_map_of_mem later)
      simpa [differs] using ih distinct.2 later

/-- Only its definition has the name of an alias. -/
theorem members_named (apart : ∀ m ∈ p.members, m.Apart) (distinct : p.registries.Distinct)
    {d : Definition} (member : d ∈ p.definitions) :
    p.members.filter (fun m => m.declares = some d.target.name) = [.definition d] := by
  have among : p.members.filter (fun m => m.declares = some d.target.name) =
      (p.members.filter Member.isDefinition).filter (fun m => m.declares = some d.target.name) := by
    rw [List.filter_filter]
    refine List.filter_congr fun m inside => ?_
    by_cases same : m.declares = some d.target.name
    · simp [same,apart m inside d.target same]
    · simp [same]
  rw [among,members_definitions,List.filter_map]
  refine congrArg (List.map Member.definition) (Eq.trans ?_
    (filter_named (definitions_nodup distinct) member))
  exact List.filter_congr fun other _ => by simp [Member.declares]

end Target.ParserClass

section Sources

variable {p : ParserClass} {table : TypeTable} {before : Registries} {rules : List Rule}

private theorem rule_resolves (apart : ∀ m ∈ p.members, m.Apart) (distinct : p.registries.Distinct)
    {cfg : Setting} {rule : Rule} {sub : Subroutine} (lowered : Lowered cfg p.registries rule sub) :
    sub.name = rule.name ∧ List.Forall₂ (Resolves p.members) (Instr.referencesAll sub.body)
      (ruleNeeds cfg rule) := by
  obtain ⟨name,served⟩ := rule_served lowered
  refine ⟨name,served.imp fun reference need serves => ⟨?_,?_⟩⟩
  · have member := (ParserClass.mem_definitions (d := ⟨reference.target,need.resource⟩) distinct).mpr
      serves.found
    exact ParserClass.members_named apart distinct member
  · intro kind method same
    exact (serves.params kind method same).symm

private theorem definition_used (bare : before.Bare p.imports)
    (all : LoweredAll ⟨p.imports,table⟩ before p.registries rules p.subroutines) {d : Definition}
    (member : d ∈ p.definitions) : ∃ sub ∈ p.subroutines,
      ∃ reference ∈ Instr.referencesAll sub.body, reference.target = d.target := by
  have distinct : p.registries.Distinct := all.takes.distinct bare.distinct
  have defined := (ParserClass.mem_definitions distinct).mp member
  -- nothing was registered at first, so a node needed it, and its code refers to it
  rcases all.takes.only d.resource (Registries.lookup_holds defined) with earlier | added
  · exact absurd earlier (bare.not_holds d.resource)
  · obtain ⟨need,needed,resource⟩ := List.mem_map.mp added
    obtain ⟨rule,declared,needed⟩ := List.mem_flatMap.mp needed
    obtain ⟨sub,present,lowered⟩ := related all.each declared
    obtain ⟨reference,inside,serves⟩ := related (rule_served lowered).2.flip needed
    refine ⟨sub,present,reference,inside,?_⟩
    exact distinct.lookup_inj (serves.found.trans (congrArg _ resource)) defined

private theorem piece_read {rule : Rule} {sub : Subroutine}
    (lowered : Lowered ⟨p.imports,table⟩ p.registries rule sub) :
    readRoutine p.imports p.registries ((routineMembers p.imports sub).map (Member.stmt p.imports)) =
      some sub.routine := by
  have declared := lowered.declared
  obtain ⟨isStart,before,after,run,within⟩ := lowered
  exact readRoutine_toStmts (lowerRule_locals run) declared (ParserClass.routine_stmts sub)

end Sources

/-- In the source of a grammar no alias is dangling and no definition is unused. Every reference in
the statements of a rule is to what one of its nodes needs, which one member of the source defines, and
every definition is referred to by the statements of some rule. While rules are lowered definitions are
only added, also by a rule that fails. -/
theorem aliases_defined_once_and_used (g : Grammar) (table : TypeTable) (options : Options) :
    (∀ source, generate g table options = .ok source →
      ∃ p stmts, parserClass g table options = .ok p ∧ p.toStmts = .ok stmts ∧
        source = Stmt.render stmts options.indent ∧ p.Lays stmts ∧
        List.Forall₂ (fun rule piece => ∃ routine,
            readRoutine p.imports p.registries piece = some routine ∧ routine.name = rule.name ∧
            List.Forall₂ (Resolves p.members) (Instr.referencesAll routine.body)
              (ruleNeeds ⟨p.imports,table⟩ rule))
          g.rules p.pieces ∧
        ∀ d, .definition d ∈ p.members → ∃ piece ∈ p.pieces, ∃ routine,
          readRoutine p.imports p.registries piece = some routine ∧
          ∃ reference ∈ Instr.referencesAll routine.body, reference.target = d.target) ∧
    ∀ cfg rule isStart (before : Registries),
      before.Within (lowerRule cfg rule isStart before).2 := by
  refine ⟨fun source ok => ?_,lowerRule_within⟩
  simp only [generate,generateStmts,bind_eq_ok] at ok
  obtain ⟨stmts,⟨p,laid,printed⟩,rendered⟩ := ok
  obtain ⟨-,-,before,bare,all⟩ := parserClass_lowered laid
  have started := parserClass_started laid
  have distinct : p.registries.Distinct := all.takes.distinct bare.distinct
  have spelled : p.toStmts = .ok stmts := internalError_ok printed
  have apart : ∀ m ∈ p.members, m.Apart := by
    refine List.forall_mem_append.mpr ⟨p.holder_apart,ParserClass.class_apart ?_⟩
    rw [started.entries,entriesFor]
    exact List.forall_mem_map.mpr fun name _ => upperSnake_not_lower name
  refine ⟨p,stmts,laid,spelled,(Except.ok.inj rendered).symm,?_,?_,fun d member => ?_⟩
  · exact ParserClass.toStmts_lays (lettered_of_bare bare all) spelled
  · rw [ParserClass.pieces,List.forall₂_map_right_iff]
    exact all.each.imp fun rule sub lowered =>
      ⟨sub.routine,piece_read lowered,rule_resolves apart distinct lowered⟩
  · have listed : .definition d ∈ p.members.filter Member.isDefinition :=
      List.mem_filter.mpr ⟨member,rfl⟩
    rw [p.members_definitions] at listed
    obtain ⟨_,defined,same⟩ := List.mem_map.mp listed
    cases same
    obtain ⟨sub,present,reference,inside,same⟩ := definition_used bare all defined
    obtain ⟨rule,-,lowered⟩ := related all.each.flip present
    exact ⟨_,List.mem_map_of_mem present,sub.routine,piece_read lowered,reference,inside,same⟩

def sharedGrammar : Grammar := .ofRules [] [
  { name := "first", body := .choice {} [.literal {} "x" false,.ruleRef {} "second"] },
  { name := "second",
    body := .action {} { code := "return x;", annotations := [⟨"Return",["String"],{}⟩] }
      (.sequence {} [.labeled {} "x" (.literal {} "x" false),.predicate {} false "x != null" none]) }]

/-- The shared expectation is defined once, and all three definitions are used. -/
theorem sharedGrammar_aliases : ∃ source p,
    generate sharedGrammar (check sharedGrammar none).table {} = .ok source ∧
    parserClass sharedGrammar (check sharedGrammar none).table {} = .ok p ∧
    p.definitions.map (·.target) = [.method .predicate 0,.method .action 0,.expected 0] ∧
    ∀ d, .definition d ∈ p.members → ∃ piece ∈ p.pieces, ∃ routine,
      readRoutine p.imports p.registries piece = some routine ∧
      ∃ reference ∈ Instr.referencesAll routine.body, reference.target = d.target := by
  have generated :
      (generate sharedGrammar (check sharedGrammar none).table {}).toOption.isSome = true := by
    decide +kernel
  have aliases : (parserClass sharedGrammar (check sharedGrammar none).table {}).toOption.map
      (fun p => p.definitions.map (·.target)) =
        some [.method .predicate 0,.method .action 0,.expected 0] := by
    decide +kernel
  cases ok : generate sharedGrammar (check sharedGrammar none).table {} with
  | error error =>
    rw [ok] at generated
    exact nomatch generated
  | ok source =>
    obtain ⟨p,stmts,laid,-,-,-,-,used⟩ :=
      (aliases_defined_once_and_used sharedGrammar (check sharedGrammar none).table {}).1 source ok
    rw [laid] at aliases
    exact ⟨source,p,rfl,laid,Option.some.inj aliases,used⟩

end PegCompiler
