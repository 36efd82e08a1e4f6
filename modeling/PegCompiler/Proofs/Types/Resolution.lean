import PegCompiler.Proofs.Grammar.Validity
import PegCompiler.Proofs.Types.Divergence

/-! What validation is good for. A grammar that was loaded has one rule for each name that it refers
to, so that checking its types meets no unknown rule. -/
namespace PegCompiler

namespace Grammar

variable {g : Grammar}

theorem Valid.declares (valid : g.Valid) {site : Site} {name : String}
    (member : .ruleRef site name ∈ g.nodes) : g.Declares name :=
  List.mem_map.mp (valid.resolved site name member)

/-- A declared name is found by both look-ups, which agree. -/
theorem Declares.found {name : String} (declared : g.Declares name) :
    ∃ index rule, g.ruleIndex name = some index ∧ g.rules[index]? = some rule ∧
      g.findRule name = some rule ∧ rule.name = name := by
  cases place : g.ruleIndex name with
  | none => exact absurd declared (ruleIndex_none.mp place)
  | some index =>
    obtain ⟨inside,named,first⟩ := List.findIdx?_eq_some_iff_getElem.mp place
    refine ⟨index,g.rules[index],rfl,List.getElem?_eq_getElem inside,?_,by simpa using named⟩
    exact List.find?_eq_some_iff_getElem.mpr ⟨named,index,inside,rfl,by simpa using first⟩

theorem load_valid {source : String} (ok : load source = .ok g) : g.Valid := by
  unfold load at ok
  split at ok
  · exact nomatch ok
  next decoded read =>
    split at ok
    · exact nomatch ok
    next passed =>
      cases ok
      exact validate_ok_iff.mp passed

end Grammar

open Inference in
/-- An unknown rule is reported for a reference to it only. -/
theorem check_unknown {g : Grammar} {default : Option String} {log : Diagnostics} {name : String}
    {location : Location} (member : .unknownRule name location ∈ (check g default log).errors) :
    ∃ site, .ruleRef site name ∈ g.nodes ∧ ¬g.Declares name ∧ location = site.location := by
  by_cases clean : ((start g log).seedAll default g).errors = []
  · rcases check_errors_pointed clean member with (⟨site,_,inside,missing,⟨⟩⟩ | ⟨_,⟨⟩⟩) | ⟨_,_,⟨⟩⟩
    exact ⟨site,inside,Grammar.ruleIndex_none.mp missing,rfl⟩
  · rw [check_of_missing clean] at member
    obtain ⟨_,⟨⟩⟩ := seedAll_errors member

namespace Grammar

/-- Validation is exact. It fails with the first rule whose name is repeated, or else with the first
reference to a rule that is not declared, and accepts all other grammars. So a grammar that loads has
distinct names, each of its references is found, and checking it reports no unknown rule. -/
theorem validation_exact :
    (∀ (g : Grammar) error, g.validate = .error error ↔ g.Defect error) ∧
    (∀ g : Grammar, g.validate = .ok () ↔ g.Valid) ∧
    ∀ source g, load source = .ok g → (g.rules.map (·.name)).Nodup ∧
      (∀ site name, .ruleRef site name ∈ g.nodes → ∃ index rule, g.ruleIndex name = some index ∧
        g.rules[index]? = some rule ∧ g.findRule name = some rule ∧ rule.name = name) ∧
      ∀ default log name location,
        .unknownRule name location ∉ (check g default log).errors := by
  refine ⟨fun _ _ => validate_error_iff,fun _ => validate_ok_iff,fun source g ok => ?_⟩
  have valid := load_valid ok
  refine ⟨valid.distinct,fun site name member => (valid.declares member).found,?_⟩
  intro default log name location member
  obtain ⟨site,inside,undeclared,-⟩ := check_unknown member
  exact undeclared (valid.declares inside)

def twiceGrammar : Grammar where
  rules := [
    { name := "a",body := .optional ⟨0,{}⟩ (.ruleRef ⟨1,{}⟩ "lost") },
    { name := "b",body := .any ⟨2,{}⟩ },
    { name := "a",body := .any ⟨3,{}⟩,location := ⟨⟨30,3,1⟩,⟨34,3,5⟩⟩ }]

def cycleSource : String :=
  "\x7b\"rules\":[\x7b\"name\":\"a\",\"expression\":\x7b\"type\":\"optional\",\"expression\":" ++
    "\x7b\"type\":\"rule_ref\",\"name\":\"a\"\x7d\x7d\x7d]\x7d"

/-- The repeated name is told, not the reference; and a reference in a cycle is found. -/
theorem twiceGrammar_refused :
    twiceGrammar.validate = .error (.duplicateRule "a" ⟨⟨30,3,1⟩,⟨34,3,5⟩⟩) ∧
    ∃ g, load cycleSource = .ok g ∧
      ∀ name location, .unknownRule name location ∉ (check g none).errors := by
  obtain ⟨refused,-,loaded⟩ := validation_exact
  constructor
  · have split : twiceGrammar.rules = twiceGrammar.rules.take 2 ++ twiceGrammar.rules[2] :: [] := rfl
    exact (refused twiceGrammar _).mpr (.duplicate split (by decide) (by decide))
  · have ok : (load cycleSource).toOption.isSome := by decide +kernel
    cases run : load cycleSource with
    | error error =>
      rw [run] at ok
      exact nomatch ok
    | ok g =>
      obtain ⟨-,-,known⟩ := loaded cycleSource g run
      exact ⟨g,rfl,known none {}⟩

end Grammar

end PegCompiler
