import PegCompiler.Proofs.Grammar.Flow
import PegCompiler.Proofs.Types.Fixpoint

/-! How inference moves its state. A motion is a relation that every single operation of inference
respects; then typing an expression or a rule respects it too, however references are followed. The
type that an expression gets is read off the rules that flow into it, whatever happens on the way. -/
namespace PegCompiler.Inference

variable {g : Grammar} {s t u : Inference}

def Closed (g : Grammar) (e : Expr) : Prop :=
  ∀ name ∈ e.flowRefs, g.ruleIndex name = none

structure Motion (g : Grammar) where
  moves : Inference → Inference → Prop
  refl : ∀ s, moves s s
  trans : ∀ {s t u}, moves s t → moves t u → moves s u
  seeded : ∀ {s t}, moves s t → t.seeded = s.seeded
  record : ∀ s id ty, moves s (s.record id ty).2
  unknown : ∀ s site name, .ruleRef site name ∈ g.nodes → g.ruleIndex name = none →
    moves s (s.reportOnce (.unknownRule name site.location))
  action : ∀ s site act body, .action site act body ∈ g.nodes → moves s (s.actionType site).2
  fill : ∀ {s t index rule ty}, g.rules[index]? = some rule → s.slot index = none →
    moves (s.mark index rule) t →
    (Closed g rule.body → ∀ slots, ty = typed g s.seeded slots rule.body) →
    moves s (t.store index ty)

namespace Motion

variable (motion : Motion g)

def Resolves (resolve : Nat → Inference → Ty × Inference) : Prop :=
  ∀ index < g.rules.length, ∀ s, motion.moves s (resolve index s).2

variable {motion} {resolve : Nat → Inference → Ty × Inference}

private theorem inferAll_moves {es : List Expr}
    (all : ∀ e ∈ es, ∀ s, motion.moves s (infer g resolve e s).2) :
    motion.moves s (inferAll g resolve es s).2 := by
  induction es generalizing s with
  | nil => exact motion.refl s
  | cons e rest ih =>
    exact motion.trans (all e List.mem_cons_self s)
      (ih fun e member => all e (List.mem_cons_of_mem _ member))

theorem infer_moves (resolves : motion.Resolves resolve) {e : Expr} (member : e ∈ g.nodes) :
    motion.moves s (infer g resolve e s).2 := by
  have inside {e child : Expr} (member : e ∈ g.nodes) (part : child ∈ e.children) :=
    Grammar.child_mem_nodes member part
  induction e using Expr.induction generalizing s with
  | choice site alternatives ih =>
    have parts := inferAll_moves (s := s) fun e part s => ih e part (inside member part)
    exact motion.trans parts (motion.record _ _ _)
  | action site act body ih =>
    have part := ih (s := s) (inside member List.mem_cons_self)
    have decided := motion.action (infer g resolve body s).2 site act body member
    exact motion.trans part (motion.trans decided (motion.record _ _ _))
  | sequence site elements ih =>
    have parts := inferAll_moves (s := s) fun e part s => ih e part (inside member part)
    exact motion.trans parts (motion.record _ _ _)
  | ruleRef site name =>
    rw [infer]
    split
    next index found =>
      exact motion.trans (resolves index (ruleIndex_lt found) s) (motion.record _ _ _)
    next missing =>
      exact motion.trans (motion.unknown s site name member missing) (motion.record _ _ _)
  | predicate | literal | charClass | any => exact motion.record _ _ _
  | named | labeled | text | optional | repeated | lookahead =>
    rename_i ih
    exact motion.trans (ih (inside member List.mem_cons_self)) (motion.record _ _ _)

def Gives (motion : Motion g) (resolve : Nat → Inference → Ty × Inference) (s : Inference)
    (slots : Nat → Option Ty) (names : List String) : Prop :=
  ∀ name ∈ names, ∀ index, g.ruleIndex name = some index → ∀ t, motion.moves s t →
    (resolve index t).1 = (slots index).getD .object

variable {slots : Nat → Option Ty}

private theorem Gives.later {names : List String} (gives : motion.Gives resolve s slots names)
    (moved : motion.moves s t) : motion.Gives resolve t slots names :=
  fun name member index found u further =>
    gives name member index found u (motion.trans moved further)

private theorem inferAll_type (resolves : motion.Resolves resolve) {es : List Expr}
    (members : ∀ e ∈ es, e ∈ g.nodes)
    (all : ∀ e ∈ es, ∀ s, motion.Gives resolve s slots e.flowRefs →
      (infer g resolve e s).1 = typed g s.seeded slots e)
    (gives : motion.Gives resolve s slots (Expr.flowRefsAll es)) :
    (inferAll g resolve es s).1 = typedAll g s.seeded slots es := by
  induction es generalizing s with
  | nil => rfl
  | cons e rest ih =>
    have moved := infer_moves (s := s) resolves (members e List.mem_cons_self)
    have first := all e List.mem_cons_self s fun name member =>
      gives name (List.mem_append_left _ member)
    have later : motion.Gives resolve (infer g resolve e s).2 slots (Expr.flowRefsAll rest) :=
      Gives.later (fun name member => gives name (List.mem_append_right _ member)) moved
    have others := ih (fun e member => members e (List.mem_cons_of_mem _ member))
      (fun e member => all e (List.mem_cons_of_mem _ member)) later
    rw [motion.seeded moved] at others
    change _ :: _ = _ :: _
    rw [first,others]

/-- An expression gets its type from the types of the rules that flow into it. -/
theorem infer_type (resolves : motion.Resolves resolve) {e : Expr} (member : e ∈ g.nodes)
    (gives : motion.Gives resolve s slots e.flowRefs) :
    (infer g resolve e s).1 = typed g s.seeded slots e := by
  have inside {e child : Expr} (member : e ∈ g.nodes) (part : child ∈ e.children) :=
    Grammar.child_mem_nodes member part
  induction e using Expr.induction generalizing s with
  | named site name body ih => exact ih (inside member List.mem_cons_self) gives
  | choice site alternatives ih =>
    have parts : (inferAll g resolve alternatives s).1 = typedAll g s.seeded slots alternatives :=
      inferAll_type resolves (fun e part => inside member part)
        (fun e part s given => ih e part (inside member part) given) gives
    change Ty.union _ = _
    rw [parts,typed]
  | action site act body ih =>
    have moved := infer_moves (s := s) resolves (inside member List.mem_cons_self)
    change ((infer g resolve body s).2.actionType site).1 = _
    rw [typed,← motion.seeded moved,actionType]
    split
    next decided => simp [decided]
    next missing => simp [missing]
  | sequence site elements ih =>
    have parts : (inferAll g resolve elements s).1 = typedAll g s.seeded slots elements :=
      inferAll_type resolves (fun e part => inside member part)
        (fun e part s given => ih e part (inside member part) given) gives
    change Ty.tuple _ = _
    rw [parts,typed]
  | labeled site label body ih => exact ih (inside member List.mem_cons_self) gives
  | optional site body ih =>
    change Ty.option _ = _
    rw [ih (inside member List.mem_cons_self) gives,typed]
  | repeated site repetition body ih =>
    change Ty.list _ = _
    rw [ih (inside member List.mem_cons_self) gives,typed]
  | ruleRef site name =>
    rw [infer,typed]
    cases found : g.ruleIndex name with
    | some index => exact gives name List.mem_cons_self index found s (motion.refl s)
    | none => rfl
  | text | lookahead | predicate | literal | charClass | any => rfl

theorem ruleType_moves (motion : Motion g) (depth : Nat) : motion.Resolves (ruleType g depth) := by
  induction depth with
  | zero => exact fun index inside s => motion.refl s
  | succ depth ih =>
    intro index inside s
    rw [ruleType]
    split
    next => exact motion.refl s
    next missing =>
      have declared := List.getElem?_eq_getElem inside
      have member := Grammar.rule_mem_nodes declared
      simp only [inferRule,declared,Option.map_some]
      -- a closed body has the same type whatever the rules have, also in the middle of a pass
      refine motion.fill declared missing (infer_moves ih member) fun closed slots => ?_
      have gives : motion.Gives (ruleType g depth) (s.mark index g.rules[index]) slots
          g.rules[index].body.flowRefs := by
        intro name reference index found
        simp [closed name reference] at found
      exact infer_type ih member gives

theorem resolveAll_moves (motion : Motion g) (s : Inference) :
    motion.moves s (s.resolveAll g) := by
  have fold {indices : List Nat} (inside : ∀ index ∈ indices, index < g.rules.length)
      (s : Inference) : motion.moves s
        (indices.foldl (fun s index => (ruleType g g.rules.length index s).2) s) := by
    induction indices generalizing s with
    | nil => exact motion.refl s
    | cons index rest ih =>
      have first := motion.ruleType_moves g.rules.length index (inside index List.mem_cons_self) s
      exact motion.trans first (ih (fun i member => inside i (List.mem_cons_of_mem _ member)) _)
  exact fold (fun index member => List.mem_range.mp member) s

/-- A sweep respects the motion, if giving a rule another type does. -/
theorem sweep_moves (motion : Motion g) (store : ∀ s index ty, motion.moves s (s.store index ty))
    (reset : ∀ s, motion.moves s { s with changed := [] }) (s : Inference) :
    motion.moves s (s.sweep g) := by
  have fold {indices : List Nat} (inside : ∀ index ∈ indices, index < g.rules.length)
      (s : Inference) : motion.moves s (indices.foldl
        (fun s index => (inferRule g (ruleType g g.rules.length) index s).2) s) := by
    induction indices generalizing s with
    | nil => exact motion.refl s
    | cons index rest ih =>
      have declared := List.getElem?_eq_getElem (inside index List.mem_cons_self)
      have member := Grammar.rule_mem_nodes declared
      have body := infer_moves (s := s) (motion.ruleType_moves g.rules.length) member
      have first : motion.moves s (inferRule g (ruleType g g.rules.length) index s).2 := by
        simp only [inferRule,declared]
        exact motion.trans body (store _ _ _)
      exact motion.trans first (ih (fun i member => inside i (List.mem_cons_of_mem _ member)) _)
  exact motion.trans (reset s) (fold (fun index member => List.mem_range.mp member) _)

end Motion

/-! Errors. Once all actions have their types, the passes report unknown rules and nothing else. -/

def Decided (g : Grammar) (s : Inference) : Prop :=
  ∀ site act body, .action site act body ∈ g.nodes → (s.seeded.lookup site.id).isSome

def OnlyUnknown (s t : Inference) : Prop :=
  ∀ error ∈ t.errors, error ∈ s.errors ∨ ∃ name location, error = .unknownRule name location

theorem OnlyUnknown.trans (first : OnlyUnknown s t) (second : OnlyUnknown t u) : OnlyUnknown s u := by
  intro error member
  rcases second error member with earlier | unknown
  · exact first error earlier
  · exact .inr unknown

theorem store_errors (s : Inference) (index : Nat) (ty : Ty) :
    (s.store index ty).errors = s.errors ∧ (s.store index ty).seeded = s.seeded := by
  unfold store
  split <;> exact ⟨rfl,rfl⟩

theorem reportOnce_kept (s : Inference) (error : TypeError) :
    (s.reportOnce error).seeded = s.seeded ∧ (s.reportOnce error).slots = s.slots ∧
      (s.reportOnce error).changed = s.changed := by
  unfold reportOnce
  split <;> exact ⟨rfl,rfl,rfl⟩

theorem actionType_kept (s : Inference) (site : Site) :
    (s.actionType site).2.seeded = s.seeded ∧ (s.actionType site).2.slots = s.slots ∧
      (s.actionType site).2.changed = s.changed := by
  unfold actionType
  split
  · exact ⟨rfl,rfl,rfl⟩
  · exact reportOnce_kept s _

def reporting (g : Grammar) : Motion g where
  moves s t := t.seeded = s.seeded ∧ (Decided g s → OnlyUnknown s t)
  refl s := ⟨rfl,fun _ error member => .inl member⟩
  trans := by
    rintro s t u ⟨seeds,first⟩ ⟨seeds',second⟩
    refine ⟨seeds'.trans seeds,fun decided => (first decided).trans (second ?_)⟩
    intro site act body member
    rw [seeds]
    exact decided site act body member
  seeded moved := moved.1
  record s id ty := ⟨rfl,fun _ error member => .inl member⟩
  unknown s site name _ _ := by
    unfold reportOnce
    split
    · exact ⟨rfl,fun _ error member => .inl member⟩
    · refine ⟨rfl,fun _ error member => ?_⟩
      rcases List.mem_append.mp member with earlier | last
      · exact .inl earlier
      · exact .inr ⟨name,site.location,List.mem_singleton.mp last⟩
  action s site act body member := by
    unfold actionType
    split
    next => exact ⟨rfl,fun _ error member => .inl member⟩
    next missing =>
      refine ⟨?_,fun decided => ?_⟩
      · unfold reportOnce
        split <;> rfl
      · have given := decided site act body member
        simp [missing] at given
  fill := by
    rintro s t index rule ty - - ⟨seeds,moved⟩ -
    obtain ⟨errors,same⟩ := store_errors t index ty
    refine ⟨same.trans seeds,fun decided error member => ?_⟩
    rw [errors] at member
    exact moved decided error member

theorem sweep_reporting (s : Inference) : (reporting g).moves s (s.sweep g) := by
  apply Motion.sweep_moves
  · intro s index ty
    obtain ⟨errors,same⟩ := store_errors s index ty
    exact ⟨same,fun _ error member => .inl (errors ▸ member)⟩
  · exact fun s => ⟨rfl,fun _ error member => .inl member⟩

/-- Sweeping adds unknown rules to the errors, or says that types diverge. -/
theorem settle_errors {left sweeps : Nat} (decided : Decided g s) {error : TypeError}
    (member : error ∈ (s.settle g left sweeps).1.errors) : error ∈ s.errors ∨
      (∃ name location, error = .unknownRule name location) ∨
      ∃ count names, error = .diverged count names := by
  obtain ⟨seeds,swept⟩ := sweep_reporting (g := g) s
  induction left generalizing s sweeps with
  | zero =>
    unfold settle at member
    split at member
    · exact .inl member
    · rcases List.mem_append.mp member with earlier | last
      · exact (swept decided error earlier).imp_right .inl
      · exact .inr (.inr ⟨_,_,List.mem_singleton.mp last⟩)
  | succ left ih =>
    unfold settle at member
    split at member
    · exact .inl member
    · have later : Decided g (s.sweep g) := by
        intro site act body inside
        rw [seeds]
        exact decided site act body inside
      obtain ⟨seeds',swept'⟩ := sweep_reporting (g := g) (s.sweep g)
      rcases ih later member seeds' swept' with earlier | other
      · exact (swept decided error earlier).imp_right .inl
      · exact .inr other

end PegCompiler.Inference
