import PegCompiler.Proofs.Types.Convergence

/-! When inference gives up. Every pass leaves types for all rules and all nodes. A sweep changes
nothing just when the types of the rules explain each other already, but whether to go on is decided
by the sweep before: types that settle in the last sweep allowed still count as diverging. -/
namespace PegCompiler

namespace Inference

variable {g : Grammar} {default : Option String} {log : Diagnostics} {s t : Inference}

structure Covered (g : Grammar) (s : Inference) : Prop where
  length : s.slots.length = g.rules.length
  full : Full g s
  nodes : ∀ e ∈ g.nodes, (s.nodes.lookup e.id).isSome

private theorem lookup_logged {entries new old : List (Nat × Ty)} {id : Nat}
    (logged : entries = new ++ old) (member : id ∈ new.map (·.1)) : (entries.lookup id).isSome := by
  obtain ⟨entry,inside,rfl⟩ := List.mem_map.mp member
  have found : (new.lookup entry.1).isSome := by
    rw [List.lookup_isSome_iff]
    exact ⟨entry,inside,beq_self_eq_true _⟩
  rw [logged,List.lookup_append,Option.isSome_or,found]
  rfl

private theorem Advance.covered (whole : Advance g s t g.nodes)
    (length : s.slots.length = g.rules.length) (full : Full g t) : Covered g t := by
  refine ⟨whole.length.trans length,full,fun e member => ?_⟩
  obtain ⟨new,logged,covers,-⟩ := whole.logged
  exact lookup_logged logged (covers e member)

theorem resolveAll_covered (length : s.slots.length = g.rules.length)
    (empty : ∀ index, s.slot index = none) : Covered g (s.resolveAll g) :=
  (resolveAll_advance length empty).covered length fun _ inside => resolveAll_given length inside

theorem Covered.sweep (covered : Covered g s) : Covered g (s.sweep g) := by
  obtain ⟨whole,-⟩ := sweep_advance covered.length covered.full
  exact whole.covered covered.length fun index inside => whole.some_kept index (covered.full index inside)

def Stable (g : Grammar) (s : Inference) : Prop :=
  ∀ index rule, g.rules[index]? = some rule →
    s.slot index = some (typed g s.seeded s.slot rule.body)

theorem Again.full {index : Nat} {rule : Rule} (again : Again g s t index rule) (full : Full g s) :
    Full g t := by
  intro i inside
  rw [again.slot]
  split
  · rfl
  · exact full i inside

private structure Rerun (g : Grammar) (indices : List Nat) (s t : Inference) : Prop where
  noted : ∀ index ∈ t.changed, index ∈ s.changed ∨ index ∈ indices
  quiet : Stable g s → t.changed = s.changed

private theorem Again.same {index : Nat} {rule : Rule} (again : Again g s t index rule)
    (declared : g.rules[index]? = some rule) (stable : Stable g s) :
    t.slot = s.slot ∧ t.changed = s.changed := by
  have already := stable index rule declared
  constructor
  · funext i
    rw [again.slot,← already]
    split
    next here => rw [here]
    next => rfl
  · rw [again.changed,if_pos already]

private theorem rerun {indices : List Nat} (inside : ∀ index ∈ indices, index < g.rules.length)
    (full : Full g s) :
    Rerun g indices s (indices.foldl
      (fun s index => (inferRule g (ruleType g g.rules.length) index s).2) s) := by
  induction indices generalizing s with
  | nil => exact ⟨fun _ member => .inl member,fun _ => rfl⟩
  | cons index rest ih =>
    have declared := List.getElem?_eq_getElem (inside index List.mem_cons_self)
    have again := inferRule_again full declared
    obtain ⟨noted,quiet⟩ := ih (fun i member => inside i (List.mem_cons_of_mem _ member))
      (again.full full)
    rw [List.foldl_cons]
    constructor
    · intro i member
      rcases noted i member with earlier | later
      · rw [again.changed] at earlier
        split at earlier
        · exact .inl earlier
        · rcases List.mem_append.mp earlier with before | here
          · exact .inl before
          · exact .inr (List.mem_cons.mpr (.inl (List.mem_singleton.mp here)))
      · exact .inr (List.mem_cons_of_mem _ later)
    · intro stable
      obtain ⟨slots,changed⟩ := again.same declared stable
      have still : Stable g (inferRule g (ruleType g g.rules.length) index s).2 := by
        intro i rule place
        rw [again.seeded,slots]
        exact stable i rule place
      exact (quiet still).trans changed

theorem Covered.sweep_slot (covered : Covered g s) (quiet : (s.sweep g).changed = []) :
    (s.sweep g).slot = s.slot := by
  obtain ⟨whole,-⟩ := sweep_advance covered.length covered.full
  funext i
  by_cases inside : i < g.rules.length
  · obtain ⟨ty,given⟩ := Option.isSome_iff_exists.mp (covered.full i inside)
    rw [given]
    exact whole.kept quiet i ty given
  · have outside := Nat.le_of_not_lt inside
    have before := covered.length ▸ outside
    have after := covered.sweep.length ▸ outside
    rw [slot,slot,List.getElem?_eq_none before,List.getElem?_eq_none after]

theorem sweep_quiet_iff (covered : Covered g s) : (s.sweep g).changed = [] ↔ Stable g s := by
  constructor
  · intro quiet index rule declared
    obtain ⟨-,rules⟩ := sweep_advance covered.length covered.full
    rw [← covered.sweep_slot quiet]
    exact rules quiet index rule declared
  · intro stable
    have again : Rerun g (List.range g.rules.length) { s with changed := [] } (s.sweep g) :=
      rerun (fun _ member => List.mem_range.mp member) covered.full
    exact again.quiet stable

private theorem sweep_noted (full : Full g s) {index : Nat} (noted : index ∈ (s.sweep g).changed) :
    index < g.rules.length := by
  have again : Rerun g (List.range g.rules.length) { s with changed := [] } (s.sweep g) :=
    rerun (fun _ member => List.mem_range.mp member) full
  rcases again.noted index noted with before | swept
  · exact nomatch before
  · exact List.mem_range.mp swept

theorem changedNames_sweep (full : Full g s) :
    (s.sweep g).changedNames g = [] ↔ (s.sweep g).changed = [] := by
  constructor
  · intro none
    cases changes : (s.sweep g).changed with
    | nil => rfl
    | cons index rest =>
      have inside : index < g.rules.length := sweep_noted full (by simp [changes])
      simp [changedNames,changes,List.getElem?_eq_getElem inside] at none
  · intro quiet
    rw [changedNames,quiet]
    rfl

/-! The passes of a run, and which of them ends it. -/

def pass (g : Grammar) (default : Option String) (log : Diagnostics) : Nat → Inference
  | 0 => ((start g log).seedAll default g).resolveAll g
  | k + 1 => (pass g default log k).sweep g

theorem seedAll_length (g : Grammar) (default : Option String) (log : Diagnostics) :
    ((start g log).seedAll default g).slots.length = g.rules.length := by
  rw [(seedAll_seeds g default log).slots]
  simp [start]

theorem pass_covered (g : Grammar) (default : Option String) (log : Diagnostics) (k : Nat) :
    Covered g (pass g default log k) := by
  induction k with
  | zero => exact resolveAll_covered (seedAll_length g default log) (seedAll_slot g default log)
  | succ k ih => exact ih.sweep

theorem pass_stable {k : Nat} :
    (pass g default log (k + 1)).changed = [] ↔ Stable g (pass g default log k) :=
  sweep_quiet_iff (pass_covered g default log k)

theorem firstPass_stable (quiet : (pass g default log 0).changed = []) :
    Stable g (pass g default log 0) := by
  have seeds := seedAll_seeds g default log
  have empty := seedAll_slot g default log
  have whole := resolveAll_advance (seedAll_length g default log) empty
  have same := quiet.trans seeds.changed.symm
  intro index rule declared
  have given := (pass_covered g default log 0).full index (rule_inside declared)
  rw [show (pass g default log 0).seeded = _ from whole.seeded]
  exact whole.filled same _ (fun _ _ found => found) index rule declared ⟨empty index,given⟩

theorem settle_passes (g : Grammar) (default : Option String) (log : Diagnostics) (left k : Nat) :
    (∃ j, k ≤ j ∧ j ≤ k + left ∧ (pass g default log j).changed = [] ∧
      (pass g default log k).settle g left k = (pass g default log j,j)) ∨
    ((∀ j, k ≤ j → j ≤ k + left → (pass g default log j).changed ≠ []) ∧
      (pass g default log k).settle g left k =
        ((pass g default log (k + left + 1)).report (.diverged (k + left)
          ((pass g default log (k + left + 1)).changedNames g)),k + left)) := by
  by_cases quiet : (pass g default log k).changed = []
  · exact .inl ⟨k,Nat.le_refl k,Nat.le_add_right k left,quiet,settle_quiet quiet⟩
  · induction left generalizing k with
    | zero =>
      refine .inr ⟨fun j low high => ?_,?_⟩
      · rwa [show j = k by omega]
      · rw [settle,if_neg (by simpa using quiet)]
        rfl
    | succ left ih =>
      have moved : (pass g default log k).settle g (left + 1) k =
          (pass g default log (k + 1)).settle g left (k + 1) := settle_moving quiet
      have ends : k + (left + 1) = k + 1 + left := by omega
      rw [moved,ends]
      by_cases next : (pass g default log (k + 1)).changed = []
      · exact .inl ⟨k + 1,by omega,by omega,next,settle_quiet next⟩
      · rcases ih (k + 1) next with ⟨j,low,high,stops,result⟩ | ⟨moving,result⟩
        · exact .inl ⟨j,by omega,by omega,stops,result⟩
        · refine .inr ⟨fun j low high => ?_,result⟩
          by_cases first : j = k
          · rwa [first]
          · exact moving j (by omega) (by omega)

/-! Errors that the passes themselves report speak of one node each. -/

def OfNode (g : Grammar) (error : TypeError) : Prop :=
  (∃ site name, .ruleRef site name ∈ g.nodes ∧ g.ruleIndex name = none ∧
      error = .unknownRule name site.location) ∨
    ∃ location, error = .actionTypeUndefined location

private def Points (g : Grammar) (s t : Inference) : Prop :=
  ∀ error ∈ t.errors, error ∈ s.errors ∨ OfNode g error

private theorem Points.reportOnce {error : TypeError} (pointed : OfNode g error) :
    Points g s (s.reportOnce error) := by
  intro other member
  unfold Inference.reportOnce at member
  split at member
  · exact .inl member
  · rcases List.mem_append.mp member with earlier | last
    · exact .inl earlier
    · rw [List.mem_singleton.mp last]
      exact .inr pointed

private def pointing (g : Grammar) : Motion g where
  moves s t := t.seeded = s.seeded ∧ Points g s t
  refl s := ⟨rfl,fun _ member => .inl member⟩
  trans := by
    rintro s t u ⟨seeds,first⟩ ⟨seeds',second⟩
    refine ⟨seeds'.trans seeds,fun error member => ?_⟩
    rcases second error member with earlier | pointed
    · exact first error earlier
    · exact .inr pointed
  seeded moved := moved.1
  record s id ty := ⟨rfl,fun _ member => .inl member⟩
  unknown s site name member missing :=
    ⟨(reportOnce_kept s _).1,.reportOnce (.inl ⟨site,name,member,missing,rfl⟩)⟩
  action s site act body _ := by
    refine ⟨(actionType_kept s site).1,?_⟩
    unfold actionType
    split
    · exact fun _ member => .inl member
    · exact .reportOnce (.inr ⟨site.location,rfl⟩)
  fill := by
    rintro s t index rule ty - - ⟨seeds,moved⟩ -
    obtain ⟨errors,same⟩ := store_errors t index ty
    exact ⟨same.trans seeds,fun error member => moved error (errors ▸ member)⟩

theorem pass_errors (clean : ((start g log).seedAll default g).errors = []) (k : Nat) :
    ∀ error ∈ (pass g default log k).errors, OfNode g error := by
  induction k with
  | zero =>
    intro error member
    rcases ((pointing g).resolveAll_moves _).2 error member with earlier | pointed
    · rw [clean] at earlier
      exact nomatch earlier
    · exact pointed
  | succ k ih =>
    intro error member
    have swept : (pointing g).moves (pass g default log k) (pass g default log (k + 1)) := by
      apply Motion.sweep_moves
      · intro s index ty
        obtain ⟨errors,same⟩ := store_errors s index ty
        exact ⟨same,fun error member => .inl (errors ▸ member)⟩
      · exact fun s => ⟨rfl,fun _ member => .inl member⟩
    rcases swept.2 error member with earlier | pointed
    · exact ih error earlier
    · exact pointed

end Inference

open Inference

variable {g : Grammar} {default : Option String} {log : Diagnostics}

/-- What checking comes to once the types of actions are decided: the first pass that changes
nothing, or the error of a run without one. -/
theorem check_passes (clean : ((start g log).seedAll default g).errors = []) :
    (∃ k ≤ sweepCap g.rules.length, (pass g default log k).changed = [] ∧
      check g default log = (pass g default log k).finish k) ∨
    ((∀ k ≤ sweepCap g.rules.length, (pass g default log k).changed ≠ []) ∧
      (check g default log).errors = (pass g default log (sweepCap g.rules.length + 1)).errors ++
        [.diverged (sweepCap g.rules.length)
          ((pass g default log (sweepCap g.rules.length + 1)).changedNames g)]) := by
  rw [check_of_seeded clean]
  have run := settle_passes g default log (sweepCap g.rules.length) 0
  rw [Nat.zero_add] at run
  rcases run with ⟨k,-,high,quiet,result⟩ | ⟨moving,result⟩
  · refine .inl ⟨k,high,quiet,?_⟩
    exact congrArg (fun settled : Inference × Nat => settled.1.finish settled.2) result
  · refine .inr ⟨fun k high => moving k (Nat.zero_le k) high,?_⟩
    exact congrArg (fun settled : Inference × Nat => settled.1.errors) result

/-- Once the types of actions are decided, an error speaks of a node or says that types diverge. -/
theorem check_errors_pointed (clean : ((start g log).seedAll default g).errors = []) {error : TypeError}
    (member : error ∈ (check g default log).errors) :
    OfNode g error ∨ ∃ sweeps names, error = .diverged sweeps names := by
  rcases check_passes clean with ⟨k,-,-,result⟩ | ⟨-,errors⟩
  · rw [result] at member
    exact .inl (pass_errors clean k _ member)
  · rw [errors,List.mem_append,List.mem_singleton] at member
    rcases member with earlier | last
    · exact .inl (pass_errors clean _ _ earlier)
    · exact .inr ⟨_,_,last⟩

theorem check_covered (ok : (check g default log).isOk) :
    (∀ index < g.rules.length, ((check g default log).table.rule index).isSome) ∧
      ∀ e ∈ g.nodes, ((check g default log).table.expr e).isSome := by
  have none : (check g default log).errors = [] := List.isEmpty_iff.mp ok
  by_cases clean : ((start g log).seedAll default g).errors = []
  · rcases check_passes clean with ⟨k,-,-,result⟩ | ⟨-,errors⟩
    · rw [result]
      have covered := pass_covered g default log k
      exact ⟨covered.full,covered.nodes⟩
    · simp [none] at errors
  · rw [check_of_missing clean] at none
    exact absurd none clean

theorem check_decided :
    (∀ location, .missingReturnType location ∉ (check g default log).errors) ↔
      ((start g log).seedAll default g).errors = [] := by
  constructor
  · intro decided
    by_contra missing
    rw [check_of_missing missing] at decided
    obtain ⟨error,member⟩ := List.exists_mem_of_ne_nil _ missing
    obtain ⟨location,rfl⟩ := seedAll_errors member
    exact decided location member
  · intro clean location member
    have unpointed : ¬OfNode g (.missingReturnType location) := by simp [OfNode]
    rcases check_errors_pointed clean member with pointed | ⟨_,_,⟨⟩⟩
    exact unpointed pointed

private theorem check_diverged {sweeps : Nat} {names : List String} :
    .diverged sweeps names ∈ (check g default log).errors ↔
      ((start g log).seedAll default g).errors = [] ∧
      (∀ k ≤ sweepCap g.rules.length, (pass g default log k).changed ≠ []) ∧
      sweeps = sweepCap g.rules.length ∧
      names = (pass g default log (sweepCap g.rules.length + 1)).changedNames g := by
  by_cases clean : ((start g log).seedAll default g).errors = []
  · have unpointed : ¬OfNode g (.diverged sweeps names) := by simp [OfNode]
    rcases check_passes clean with ⟨k,high,quiet,result⟩ | ⟨moving,errors⟩
    · rw [result]
      constructor
      · intro member
        exact absurd (pass_errors clean k _ member) unpointed
      · rintro ⟨-,moving,-⟩
        exact absurd quiet (moving k high)
    · have earlier : .diverged sweeps names ∉
          (pass g default log (sweepCap g.rules.length + 1)).errors :=
        fun member => unpointed (pass_errors clean _ _ member)
      rw [errors,List.mem_append,List.mem_singleton,TypeError.diverged.injEq]
      exact ⟨fun member => ⟨clean,moving,member.resolve_left earlier⟩,fun last => .inr last.2.2⟩
  · simp only [clean,false_and,iff_false]
    intro member
    rw [check_of_missing clean] at member
    obtain ⟨location,same⟩ := seedAll_errors member
    cases same

/-- No pass was quiet, that is, none in front of the last sweep allowed left stable types. -/
private theorem moving_iff :
    (∀ k ≤ sweepCap g.rules.length, (pass g default log k).changed ≠ []) ↔
      ∀ k < sweepCap g.rules.length, ¬Stable g (pass g default log k) := by
  constructor
  · intro moving k early stable
    exact moving (k + 1) early (pass_stable.mpr stable)
  · intro unstable k high quiet
    cases k with
    | zero =>
      have some : 0 < sweepCap g.rules.length := by simp [sweepCap]
      exact unstable 0 some (firstPass_stable quiet)
    | succ k => exact unstable k high (pass_stable.mp quiet)

/-- When divergence is reported, for every grammar, default type and log. It is reported just when
the types of actions are decided and no pass in front of the last sweep allowed leaves types that
explain each other, so it is not for a grammar whose types settle earlier. The rules that it names
are those that one further sweep changes, and it names none just when the last sweep allowed has
settled the types after all. -/
theorem divergence_reported_at_cap (g : Grammar) (default : Option String) (log : Diagnostics) :
    ((∃ sweeps names, .diverged sweeps names ∈ (check g default log).errors) ↔
      (∀ location, .missingReturnType location ∉ (check g default log).errors) ∧
      ∀ k < sweepCap g.rules.length, ¬Stable g (pass g default log k)) ∧
    ∀ sweeps names, .diverged sweeps names ∈ (check g default log).errors →
      sweeps = sweepCap g.rules.length ∧
      names = (pass g default log (sweeps + 1)).changedNames g ∧
      (names = [] ↔ Stable g (pass g default log sweeps)) := by
  rw [check_decided,← moving_iff]
  constructor
  · constructor
    · rintro ⟨sweeps,names,member⟩
      obtain ⟨clean,moving,-⟩ := check_diverged.mp member
      exact ⟨clean,moving⟩
    · rintro ⟨clean,moving⟩
      exact ⟨_,_,check_diverged.mpr ⟨clean,moving,rfl,rfl⟩⟩
  · intro sweeps names member
    obtain ⟨-,-,rfl,rfl⟩ := check_diverged.mp member
    refine ⟨rfl,rfl,?_⟩
    rw [← pass_stable]
    exact changedNames_sweep (pass_covered g default log _).full

def nestedGrammar : Grammar := .ofRules [] [
  { name := "nested", body := .repeated {} .zeroOrMore (.ruleRef {} "nested") }]

theorem nestedGrammar_diverges :
    (check nestedGrammar none {}).errors = [.diverged 10 ["nested"]] ∧
      ¬Stable nestedGrammar (pass nestedGrammar none {} 10) := by
  have errors : (check nestedGrammar none {}).errors = [.diverged 10 ["nested"]] := by
    decide +kernel
  obtain ⟨-,reported⟩ := divergence_reported_at_cap nestedGrammar none {}
  obtain ⟨-,-,named⟩ := reported 10 ["nested"] (by simp [errors])
  exact ⟨errors,fun stable => nomatch named.mpr stable⟩

def settlingGrammar : Grammar := .ofRules [] [
  { name := "a", body := .choice {} [.ruleRef {} "b",.ruleRef {} "c"] },
  { name := "b",
    body := .repeated {} .zeroOrMore (.choice {} [.ruleRef {} "c",
      .repeated {} .zeroOrMore (.choice {} [.ruleRef {} "d",.ruleRef {} "e"])]) },
  { name := "c", body := .ruleRef {} "d" },
  { name := "d", body := .repeated {} .zeroOrMore (.ruleRef {} "e") },
  { name := "e",
    body := .choice {} [.repeated {} .zeroOrMore (.choice {} [.ruleRef {} "a",.ruleRef {} "d"]),
      .repeated {} .zeroOrMore (.ruleRef {} "a")] }]

/-- Its types explain each other when the cap is reached, and it is rejected all the same. -/
theorem settlingGrammar_rejected :
    (check settlingGrammar none {}).errors = [.diverged 18 []] ∧
      Stable settlingGrammar (pass settlingGrammar none {} (sweepCap settlingGrammar.rules.length)) := by
  have quiet : (pass settlingGrammar none {} 19).changed = [] := by decide +kernel
  exact ⟨by decide +kernel,pass_stable.mp quiet⟩

end PegCompiler
