import PegCompiler.Proofs.Lowering.Interning
import PegCompiler.Proofs.Lowering.Order
import PegCompiler.Proofs.Target.Initializers

/-! Which constants are shared. A pool gives one name to equal initializers, and initializers are
equal only where the texts that they are written from are. So the classes of a grammar share their
constants just when they match and are shown alike. -/
namespace PegCompiler

open Target Lowering

theorem Interner.get?_eq_iff {α : Type} {t : Interner α} (distinct : t.entries.Nodup) {i j : Nat}
    {a b : α} (first : t.get? i = some a) (second : t.get? j = some b) : i = j ↔ a = b := by
  constructor
  · rintro rfl
    exact Option.some.inj (first.symm.trans second)
  · rintro rfl
    exact get?_inj distinct first second

namespace ConstantPool

def aliases (pool : ConstantPool) : List String → List String
  | [] => []
  | initializer :: rest =>
    pool.nameOf (pool.add initializer).1 :: (pool.add initializer).2.aliases rest

theorem nameOf_inj {pool : ConstantPool} {i j : Nat} :
    pool.nameOf i = pool.nameOf j ↔ i = j := by
  refine ⟨fun same => ?_,congrArg _⟩
  have text := congrArg String.toList same
  simp only [nameOf,toString,String.toList_append] at text
  have digits := String.toList_inj.mp (List.append_cancel_left text)
  have numbers := congrArg (fun shown => Nat.ofDigitChars 10 shown.toList 0) digits
  simpa [Nat.repr] using numbers

private theorem aliases_eq (pool : ConstantPool) (initializers : List String) :
    pool.aliases initializers = (pool.values.internAll initializers).1.map pool.nameOf := by
  induction initializers generalizing pool with
  | nil => rfl
  | cons initializer rest ih => exact congrArg _ (ih _)

theorem aliases_eq_iff (letter type : String) {α : Type} (write : α → String) {items : List α}
    {i j : Nat} {a b : α} (first : items[i]? = some a) (second : items[j]? = some b) :
    let names := (mk letter type {}).aliases (items.map write)
    ∃ x y, names[i]? = some x ∧ names[j]? = some y ∧ (x = y ↔ write a = write b) := by
  intro names
  let final := (Interner.internAll {} (items.map write)).2
  -- every name stands for a number under which the initializer is found in the end
  have named {i : Nat} {a : α} (found : items[i]? = some a) : ∃ k,
      names[i]? = some ((mk letter type {}).nameOf k) ∧ final.index (write a) = some k := by
    have written : (items.map write)[i]? = some (write a) := by
      rw [List.getElem?_map,found]
      rfl
    obtain ⟨k,given,known⟩ := Interner.internAll_answer {} written
    refine ⟨k,?_,known⟩
    simp only [names,aliases_eq,List.getElem?_map,given]
    rfl
  obtain ⟨k,here,known⟩ := named first
  obtain ⟨l,there,known'⟩ := named second
  refine ⟨_,_,here,there,nameOf_inj.trans ⟨?_,fun same => ?_⟩⟩
  · rintro rfl
    have entry := (final.in_step _ _).mp known
    exact Option.some.inj (entry.symm.trans ((final.in_step _ _).mp known'))
  · rw [same] at known
    exact Option.some.inj (known.symm.trans known')

end ConstantPool

/-! Classes in the grammar and in the code. -/

structure ClassNode where
  parts : List ClassPart
  inverted : Bool
  ignoreCase : Bool
  rawText : String

def Expr.class? : Expr → Option ClassNode
  | .charClass _ parts inverted ignoreCase rawText => some ⟨parts,inverted,ignoreCase,rawText⟩
  | _ => none

def Visit.class? (visit : Visit) : Option ClassNode :=
  visit.node.class?

def Grammar.classes (g : Grammar) : List ClassNode :=
  g.nodes.filterMap Expr.class?

structure ClassUse where
  pattern : Nat
  expected : Nat

def Value.classUse? : Value → Option ClassUse
  | .matchClass pattern expected _ => some ⟨pattern,expected⟩
  | _ => none

def Step.values : Step → List Value
  | .assign _ value => [value]
  | _ => []

namespace Instr

mutual

def values : Instr → List Value
  | .step s => s.values
  | .brief _ s => s.values
  | .ifThen _ body => valuesAll body
  | .ifElse _ body otherwise => valuesAll body ++ valuesAll otherwise
  | .block _ body => valuesAll body
  | .alternative _ => []
  | .element _ => []
  | .blank => []

def valuesAll : List Instr → List Value
  | [] => []
  | instr :: rest => instr.values ++ valuesAll rest

end

end Instr

def Target.ParserClass.classUses (p : ParserClass) : List ClassUse :=
  p.subroutines.flatMap fun sub => (Instr.valuesAll sub.body).filterMap Value.classUse?

private def pairs : List Reference → List ClassUse
  | [] => []
  | ⟨.pattern pattern,_⟩ :: ⟨.expected expected,_⟩ :: rest => ⟨pattern,expected⟩ :: pairs rest
  | _ :: rest => pairs rest

private theorem pairs_value (value : Value) (rest : List Reference) :
    pairs (value.references ++ rest) = value.classUse?.toList ++ pairs rest := by
  cases value <;> simp [pairs,Value.classUse?]

private theorem pairs_step (s : Step) (rest : List Reference) :
    pairs (s.references ++ rest) = s.values.filterMap Value.classUse? ++ pairs rest := by
  cases s with
  | assign slot value =>
    rw [Step.references,pairs_value,Step.values]
    cases used : value.classUse? <;> simp [used]
  | _ => rfl

private theorem pairs_test (test : Test) (rest : List Reference) :
    pairs (test.references ++ rest) = pairs rest := by
  cases test <;> simp [pairs]

mutual

private theorem pairs_instr (instr : Instr) (rest : List Reference) :
    pairs (instr.references ++ rest) = instr.values.filterMap Value.classUse? ++ pairs rest := by
  cases instr with
  | step s => exact pairs_step s rest
  | brief test s =>
    rw [Instr.references,List.append_assoc,pairs_test,pairs_step]
    rfl
  | ifThen test body =>
    rw [Instr.references,List.append_assoc,pairs_test,pairs_code]
    rfl
  | ifElse test body otherwise =>
    rw [Instr.references,List.append_assoc,List.append_assoc,pairs_test,pairs_code,pairs_code]
    simp [Instr.values]
  | block kind body => exact pairs_code body rest
  | alternative | element | blank => rfl

private theorem pairs_code (code : List Instr) (rest : List Reference) :
    pairs (Instr.referencesAll code ++ rest) =
      (Instr.valuesAll code).filterMap Value.classUse? ++ pairs rest := by
  cases code with
  | nil => rfl
  | cons instr others =>
    rw [Instr.referencesAll,List.append_assoc,pairs_instr,pairs_code]
    simp [Instr.valuesAll]

end

private def pairedNeeds : List Need → List (String × String)
  | [] => []
  | ⟨.pattern source,_⟩ :: ⟨.expected shown,_⟩ :: rest => (source,shown) :: pairedNeeds rest
  | _ :: rest => pairedNeeds rest

private def Stands (final : Registries) (use : ClassUse) (initializers : String × String) : Prop :=
  final.patterns.values.get? use.pattern = some initializers.1 ∧
    final.expected.values.get? use.expected = some initializers.2

private theorem Registries.lookup_pattern {final : Registries} {target : Alias} {source : String}
    (found : final.lookup target = some (.pattern source)) : ∃ index, target = .pattern index ∧
      final.patterns.values.get? index = some source := by
  cases target <;> simp [lookup] at found
  next index => exact ⟨index,rfl,found⟩

private theorem Registries.lookup_expected {final : Registries} {target : Alias} {shown : String}
    (found : final.lookup target = some (.expected shown)) : ∃ index, target = .expected index ∧
      final.expected.values.get? index = some shown := by
  cases target <;> simp [lookup] at found
  next index => exact ⟨index,rfl,found⟩

section Pairing

variable {cfg : Setting} {final : Registries} {Placed : Labelled → Prop}

private theorem pairs_served {references : List Reference} {wanted : List Need}
    (served : List.Forall₂ (Serves cfg final Placed) references wanted) :
    List.Forall₂ (Stands final) (pairs references) (pairedNeeds wanted) := by
  fun_induction pairedNeeds wanted generalizing references with
  | case1 =>
    cases served
    exact .nil
  | case2 source _ shown _ rest ih =>
    cases served with
    | @cons first _ _ _ compiled served =>
      cases served with
      | @cons second _ _ _ described served =>
        obtain ⟨⟨target,arguments⟩,⟨target',arguments'⟩⟩ := first,second
        obtain ⟨pattern,rfl,source⟩ := Registries.lookup_pattern compiled.found
        obtain ⟨expected,rfl,shown⟩ := Registries.lookup_expected described.found
        exact .cons ⟨source,shown⟩ (ih served)
  | case3 need rest other ih =>
    cases served with
    | @cons reference _ references _ serves served =>
      rw [pairs]
      · exact ih served
      · rintro pattern arguments expected arguments' later rfl rfl
        cases served with
        | @cons _ need' _ _ serves' _ =>
          obtain ⟨resource,bound⟩ := need
          obtain ⟨resource',bound'⟩ := need'
          obtain ⟨source,-,rfl⟩ := Option.map_eq_some_iff.mp serves.found
          obtain ⟨shown,-,rfl⟩ := Option.map_eq_some_iff.mp serves'.found
          exact other _ _ _ _ _ rfl rfl

private def ClassNode.initializers (cfg : Setting) (node : ClassNode) : String × String :=
  (patternInitializer (cfg.imports.className "Pattern") (classPattern node.parts) node.ignoreCase,
    expectation cfg .pattern (some (classShown node.parts node.inverted)) (some node.rawText))

private theorem pairedNeeds_visit (visit : Visit) (rest : List Need) :
    pairedNeeds (needs cfg visit ++ rest) =
      (visit.class?.map (ClassNode.initializers cfg)).toList ++ pairedNeeds rest := by
  obtain ⟨node,base,bound⟩ := visit
  cases node <;>
    simp [needs,actionNeed,pairedNeeds,Visit.class?,Expr.class?,ClassNode.initializers]

private theorem pairedNeeds_visits (visits : List Visit) : pairedNeeds (needsOf cfg visits) =
    (visits.filterMap Visit.class?).map (ClassNode.initializers cfg) := by
  induction visits with
  | nil => rfl
  | cons visit rest ih =>
    rw [needsOf,List.flatMap_cons,pairedNeeds_visit,← needsOf,ih]
    cases found : visit.class? <;> simp [found]

end Pairing

private theorem visitsAlternatives_classes {alternatives : List Expr}
    (all : ∀ e ∈ alternatives, ∀ base bound,
      (e.visits base bound).filterMap Visit.class? = e.nodes.filterMap Expr.class?)
    (base : Nat) (bound : List Labelled) :
    (Expr.visitsAlternatives base bound alternatives).filterMap Visit.class? =
      (Expr.nodesAll alternatives).filterMap Expr.class? := by
  induction alternatives with
  | nil => rfl
  | cons e rest ih =>
    have others := ih fun e member => all e (List.mem_cons_of_mem _ member)
    simp only [Expr.visitsAlternatives,Expr.nodesAll,List.filterMap_append,
      all e List.mem_cons_self,others]

private theorem visitsElements_classes {elements : List Expr}
    (all : ∀ e ∈ elements, ∀ base bound,
      (e.visits base bound).filterMap Visit.class? = e.nodes.filterMap Expr.class?)
    (base : Nat) (bound : List Labelled) :
    (Expr.visitsElements base bound elements).filterMap Visit.class? =
      (Expr.nodesAll elements).filterMap Expr.class? := by
  induction elements generalizing base bound with
  | nil => rfl
  | cons e rest ih =>
    have others := ih fun e member => all e (List.mem_cons_of_mem _ member)
    simp only [Expr.visitsElements,Expr.nodesAll,List.filterMap_append,
      all e List.mem_cons_self,others]

private theorem classes_around {visit : Visit} {inner : List Visit} {parts : List Expr}
    (same : inner.filterMap Visit.class? = parts.filterMap Expr.class?)
    (plain : visit.node.class? = none) : (inner ++ [visit]).filterMap Visit.class? =
      (visit.node :: parts).filterMap Expr.class? := by
  simp [Visit.class?,plain,same]

/-- A class has no parts, so it does not matter whether a node stands in front of its parts or behind
them. -/
private theorem visits_classes (e : Expr) (base : Nat) (bound : List Labelled) :
    (e.visits base bound).filterMap Visit.class? = e.nodes.filterMap Expr.class? := by
  induction e using Expr.induction generalizing base bound with
  | choice site alternatives ih =>
    exact classes_around (visitsAlternatives_classes ih base bound) rfl
  | sequence site elements ih => exact classes_around (visitsElements_classes ih base bound) rfl
  | repeated site repetition body ih => exact classes_around (ih (base + 1) bound) rfl
  | named _ _ _ ih | action _ _ _ ih | labeled _ _ _ ih | text _ _ ih | optional _ _ ih
  | lookahead _ _ _ ih => exact classes_around (ih base bound) rfl
  | predicate | ruleRef | literal | charClass | any => rfl

private theorem rule_uses {cfg : Setting} {final : Registries} {rule : Rule} {sub : Subroutine}
    (lowered : Semantics.Lowered cfg final rule sub) :
    List.Forall₂ (fun node use => Stands final use (node.initializers cfg))
      (rule.body.nodes.filterMap Expr.class?)
      ((Instr.valuesAll sub.body).filterMap Value.classUse?) := by
  have served := pairs_served (rule_served lowered).2
  have code := pairs_code sub.body []
  rw [List.append_nil,pairs,List.append_nil] at code
  rw [code,ruleNeeds,pairedNeeds_visits,visits_classes] at served
  exact (List.forall₂_map_right_iff.mp served).flip

private theorem parser_uses {g : Grammar} {table : TypeTable} {options : Options} {p : ParserClass}
    (ok : parserClass g table options = .ok p) : p.registries.Distinct ∧
      List.Forall₂ (fun node use => Stands p.registries use (node.initializers ⟨p.imports,table⟩))
        g.classes p.classUses := by
  obtain ⟨-,-,before,bare,all⟩ := parserClass_lowered ok
  refine ⟨all.takes.distinct bare.distinct,?_⟩
  rw [Grammar.classes,Grammar.nodes,List.filterMap_flatMap,Target.ParserClass.classUses]
  exact List.rel_flatMap all.each fun rule sub lowered => rule_uses lowered

structure Descriptor where
  kind : ExpectedKind
  value : Option String
  description : Option String

def Descriptor.initializer (className : String) (d : Descriptor) : String :=
  expectedInitializer className d.kind d.value d.description

structure PatternSource where
  source : String
  ignoreCase : Bool

def PatternSource.initializer (className : String) (s : PatternSource) : String :=
  patternInitializer className s.source s.ignoreCase

/-- Constants are shared just when they are equal. Expectations have one name if they agree in kind,
value and description, where an absent text is an empty one, and patterns if they agree in source and
flag; classes of a grammar share the pattern if they have the same parts and flag, and the
expectation if they have the same parts, inversion and text. -/
theorem constants_shared_when_equal :
    (∀ (letter type className : String) (descriptors : List Descriptor) (i j : Nat)
        (a b : Descriptor), descriptors[i]? = some a → descriptors[j]? = some b →
      let names := (ConstantPool.mk letter type {}).aliases
        (descriptors.map (·.initializer className))
      ∃ x y, names[i]? = some x ∧ names[j]? = some y ∧
        (x = y ↔ a.kind = b.kind ∧ a.value.getD "" = b.value.getD "" ∧
          a.description.getD "" = b.description.getD "")) ∧
    (∀ (letter type className : String) (sources : List PatternSource) (i j : Nat)
        (a b : PatternSource), sources[i]? = some a → sources[j]? = some b →
      let names := (ConstantPool.mk letter type {}).aliases (sources.map (·.initializer className))
      ∃ x y, names[i]? = some x ∧ names[j]? = some y ∧
        (x = y ↔ a.source = b.source ∧ a.ignoreCase = b.ignoreCase)) ∧
    ∀ (g : Grammar) (table : TypeTable) (options : Options) (p : ParserClass),
      parserClass g table options = .ok p →
      ∀ (i j : Nat) (a b : ClassNode), g.classes[i]? = some a → g.classes[j]? = some b →
        ∃ use use', p.classUses[i]? = some use ∧ p.classUses[j]? = some use' ∧
          (p.registries.patterns.nameOf use.pattern = p.registries.patterns.nameOf use'.pattern ↔
            a.parts = b.parts ∧ a.ignoreCase = b.ignoreCase) ∧
          (p.registries.expected.nameOf use.expected = p.registries.expected.nameOf use'.expected ↔
            a.parts = b.parts ∧ a.inverted = b.inverted ∧ a.rawText = b.rawText) := by
  refine ⟨?_,?_,?_⟩
  · intro letter type className descriptors i j a b first second
    obtain ⟨x,y,here,there,same⟩ := ConstantPool.aliases_eq_iff letter type
      (Descriptor.initializer className) first second
    exact ⟨x,y,here,there,same.trans expectedInitializer_inj⟩
  · intro letter type className sources i j a b first second
    obtain ⟨x,y,here,there,same⟩ := ConstantPool.aliases_eq_iff letter type
      (PatternSource.initializer className) first second
    exact ⟨x,y,here,there,same.trans patternInitializer_inj⟩
  · intro g table options p ok i j a b first second
    obtain ⟨distinct,uses⟩ := parser_uses ok
    obtain ⟨use,here,compiled,described⟩ := forall₂_getElem? uses first
    obtain ⟨use',there,compiled',described'⟩ := forall₂_getElem? uses second
    refine ⟨use,use',here,there,?_,?_⟩
    · rw [ConstantPool.nameOf_inj,Interner.get?_eq_iff distinct.patterns compiled compiled']
      exact patternInitializer_inj.trans (and_congr_left' classPattern_inj)
    · rw [ConstantPool.nameOf_inj,Interner.get?_eq_iff distinct.expected described described']
      simp [ClassNode.initializers,expectation,expectedInitializer_inj,classShown_inj,and_assoc]

def letterGrammar : Grammar := .ofRules [] [
  { name := "letter", body := .choice {} [.charClass {} [.range 'a' 'z'] false false "[a-z]",
      .charClass {} [.range 'a' 'z'] true false "[^a-z]",
      .charClass {} [.single 'a',.single '-',.single 'z'] false false "[a-z]"] }]

/-- The inverted class has the pattern of the first and an expectation of its own; the last class,
though it is shown like the first, shares nothing with it. -/
theorem letterGrammar_shares : ∃ p a b c,
    parserClass letterGrammar (check letterGrammar none).table {} = .ok p ∧
    p.classUses[0]? = some a ∧ p.classUses[1]? = some b ∧ p.classUses[2]? = some c ∧
    p.registries.patterns.nameOf a.pattern = p.registries.patterns.nameOf b.pattern ∧
    p.registries.expected.nameOf a.expected ≠ p.registries.expected.nameOf b.expected ∧
    p.registries.patterns.nameOf a.pattern ≠ p.registries.patterns.nameOf c.pattern ∧
    p.registries.expected.nameOf a.expected ≠ p.registries.expected.nameOf c.expected := by
  have lowers : (parserClass letterGrammar (check letterGrammar none).table {}).toOption.isSome := by
    decide +kernel
  cases ok : parserClass letterGrammar (check letterGrammar none).table {} with
  | error error =>
    rw [ok] at lowers
    exact nomatch lowers
  | ok p =>
    have shared := constants_shared_when_equal.2.2 _ _ _ p ok
    obtain ⟨a,b,first,second,pattern,expected⟩ := shared 0 1 _ _ rfl rfl
    obtain ⟨_,c,again,third,pattern',expected'⟩ := shared 0 2 _ _ rfl rfl
    cases first.symm.trans again
    refine ⟨p,a,b,c,rfl,first,second,third,pattern.mpr ⟨rfl,rfl⟩,?_,?_,?_⟩
    · exact fun same => nomatch (expected.mp same).2.1
    · exact fun same => nomatch (pattern'.mp same).1
    · exact fun same => nomatch (expected'.mp same).1

end PegCompiler
