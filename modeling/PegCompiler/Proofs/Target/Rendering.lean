import PegCompiler.Proofs.Target.Printing
import Mathlib.Logic.Function.Iterate

/-! Printing turn by turn. A turn takes the part on top of the stack and either writes it or puts
parts of it back, so that the text written so far and the parts still on the stack always come to the
same output, or to the same fault. Every turn works off one node of the document, hence the stack runs
empty unless an indentation does not fit, and what was written by then is the document rendered by
recursion. -/
namespace PegCompiler.Target.Doc

mutual

/-- The document rendered from left to right behind the given output. Only the first text of a line
that is not empty is indented. -/
def rendered (step depth : UInt64) : Doc → Output → Except Fault Output
  | .empty, out => .ok out
  | .text s, out =>
    if s = "" then .ok out
    else if out.atLineStart then .ok ⟨out.written ++ "".pushn ' ' depth.toNat ++ s,false⟩
    else .ok ⟨out.written ++ s,false⟩
  | .newline, out => .ok ⟨out.written ++ "\n",true⟩
  | .indent inner, out =>
    if depth.toNat + step.toNat < UInt64.size then inner.rendered step (depth + step) out
    else .error .overflow
  | .concat parts, out => renderedAll step depth parts out

def renderedAll (step depth : UInt64) : List Doc → Output → Except Fault Output
  | [], out => .ok out
  | part :: rest, out => part.rendered step depth out >>= renderedAll step depth rest

end

abbrev State := List (UInt64 × Doc) × Output

def turn (step : UInt64) : State → Except Fault State
  | ([],out) => .ok ([],out)
  | ((_,.empty) :: rest,out) => .ok (rest,out)
  | ((depth,.text s) :: rest,out) => .ok (rest,out.write depth.toNat s)
  | ((_,.newline) :: rest,out) => .ok (rest,out.breakLine)
  | ((depth,.indent inner) :: rest,out) => do return ((← deeper step depth,inner) :: rest,out)
  | ((depth,.concat parts) :: rest,out) =>
    .ok (parts.reverse.foldl (fun stack part => (depth,part) :: stack) rest,out)

def turns (step : UInt64) (n : Nat) (state : State) : Except Fault State :=
  (· >>= turn step)^[n] (.ok state)

def outcome (step : UInt64) (state : State) : Except Fault Output :=
  state.1.foldlM (fun out part => part.2.rendered step part.1 out) state.2

variable {step : UInt64}

theorem put_back (depth : UInt64) (parts : List Doc) (rest : List (UInt64 × Doc)) :
    parts.reverse.foldl (fun stack part => (depth,part) :: stack) rest =
      (parts.map fun part => (depth,part)) ++ rest := by
  rw [List.foldl_reverse,List.foldr_cons_eq_append]

theorem rendered_text (depth : UInt64) (s : String) (out : Output) :
    (Doc.text s).rendered step depth out = .ok (out.write depth.toNat s) := by
  simp only [rendered,Output.write,String.isEmpty_iff]
  split
  · rfl
  · split <;> rfl

theorem rendered_newline (depth : UInt64) (out : Output) :
    Doc.newline.rendered step depth out = .ok out.breakLine := by
  rw [rendered,Output.breakLine,String.push_eq_append]
  rfl

theorem rendered_indent (depth : UInt64) (inner : Doc) (out : Output) :
    (Doc.indent inner).rendered step depth out =
      deeper step depth >>= fun next => inner.rendered step next out := by
  rw [rendered,deeper]
  split <;> rfl

theorem renderedAll_eq (depth : UInt64) (parts : List Doc) (out : Output) :
    renderedAll step depth parts out =
      parts.foldlM (fun out part => part.rendered step depth out) out := by
  induction parts generalizing out with
  | nil => rfl
  | cons part rest ih => rw [renderedAll,funext ih,List.foldlM_cons]

/-- A turn leaves the outcome as it is. -/
theorem turn_outcome (step : UInt64) (state : State) :
    (turn step state >>= outcome step) = outcome step state := by
  obtain ⟨_ | ⟨⟨depth,part⟩,rest⟩,out⟩ := state
  · rfl
  cases part with
  | empty => rfl
  | text s =>
    rw [outcome,List.foldlM_cons,rendered_text]
    rfl
  | newline =>
    rw [outcome,List.foldlM_cons,rendered_newline]
    rfl
  | indent inner =>
    simp only [turn,outcome,List.foldlM_cons,rendered_indent,bind_assoc,pure_bind]
  | concat parts =>
    have put : (turn step ((depth,.concat parts) :: rest,out) >>= outcome step) =
        outcome step ((parts.map fun part => (depth,part)) ++ rest,out) := by
      rw [turn,put_back]
      rfl
    rw [put,outcome,List.foldlM_append,List.foldlM_map,← renderedAll_eq]
    rfl

theorem turn_run (step : UInt64) (state : State) :
    (turn step state >>= fun next => run step next.1 next.2) = run step state.1 state.2 := by
  obtain ⟨_ | ⟨⟨depth,part⟩,rest⟩,out⟩ := state
  · rfl
  cases part with
  | concat parts => rw [turn,put_back,run]; rfl
  | indent inner => simp only [turn,run,bind_assoc,pure_bind]
  | empty | text s | newline => rw [turn,run]; rfl

/-- A turn works off one node. -/
theorem turn_size {state next : State} (turned : turn step state = .ok next) :
    pendingSize next.1 = pendingSize state.1 - 1 := by
  obtain ⟨_ | ⟨⟨depth,part⟩,rest⟩,out⟩ := state
  · cases turned
    rfl
  cases part with
  | empty | text s | newline =>
    cases turned
    simp [pendingSize,size]
  | indent inner =>
    rw [turn] at turned
    cases deep : deeper step depth with
    | error fault => rw [deep] at turned; cases turned
    | ok lower =>
      rw [deep] at turned
      cases turned
      simp only [pendingSize,size]
      omega
  | concat parts =>
    cases turned
    simp only [put_back,pendingSize,pendingSize_append,pendingSize_map,size]
    omega

theorem turns_succ (step : UInt64) (n : Nat) (state : State) :
    turns step (n + 1) state = turns step n state >>= turn step :=
  Function.iterate_succ_apply' _ _ _

theorem turns_size {n : Nat} {state next : State} (turned : turns step n state = .ok next) :
    pendingSize next.1 = pendingSize state.1 - n := by
  induction n generalizing next with
  | zero => cases turned; rfl
  | succ n ih =>
    rw [turns_succ] at turned
    cases before : turns step n state with
    | error fault => rw [before] at turned; nomatch turned
    | ok middle =>
      rw [before] at turned
      rw [turn_size turned,ih before,Nat.sub_sub]

/-- What every turn keeps is kept by any number of them. -/
theorem turns_keep {α : Type} {seen : State → Except Fault α}
    (kept : ∀ state, (turn step state >>= seen) = seen state) (n : Nat) (state : State) :
    (turns step n state >>= seen) = seen state := by
  induction n with
  | zero => rfl
  | succ n ih => rw [turns_succ,bind_assoc,funext kept,ih]

theorem pendingSize_eq_zero {pending : List (UInt64 × Doc)} :
    pendingSize pending = 0 ↔ pending = [] := by
  cases pending with
  | nil => simp [pendingSize]
  | cons part rest =>
    have positive : 0 < part.2.size := by cases part.2 <;> simp [size]
    simp only [pendingSize,reduceCtorEq,iff_false]
    omega

/-- After as many turns as there are nodes on the stack, nothing but the outcome is left. -/
theorem turns_done {n : Nat} {state : State} (enough : pendingSize state.1 ≤ n) :
    turns step n state = (outcome step state).map fun out => ([],out) := by
  have same := turns_keep (turn_outcome step) n state
  cases turned : turns step n state with
  | error fault =>
    rw [turned] at same
    rw [← same]
    rfl
  | ok next =>
    obtain ⟨pending,out⟩ := next
    have empty := turns_size turned
    rw [Nat.sub_eq_zero_of_le enough,pendingSize_eq_zero] at empty
    cases empty
    rw [turned] at same
    rw [← same]
    rfl

theorem run_outcome (step : UInt64) (state : State) :
    run step state.1 state.2 = outcome step state := by
  have same := turns_keep (turn_run step) (pendingSize state.1) state
  rw [turns_done (Nat.le_refl _)] at same
  cases rendered : outcome step state with
  | error fault => rw [rendered] at same; exact same.symm
  | ok out =>
    rw [rendered] at same
    exact same.symm.trans (run.eq_1 step out)

/-- Printing ends, and prints the document as it is rendered by recursion. The stack is empty after
as many turns as the document has nodes and not before, unless an indentation overflows by then; the
text is closed by a line break unless it ends in one. -/
theorem print_eq_rendered (d : Doc) (step : UInt64) :
    (∀ n out, turns step n ([(0,d)],⟨"",true⟩) = .ok ([],out) ↔
      d.size ≤ n ∧ d.rendered step 0 ⟨"",true⟩ = .ok out) ∧
    turns step d.size ([(0,d)],⟨"",true⟩) = (d.rendered step 0 ⟨"",true⟩).map (fun out => ([],out)) ∧
    d.print step = (d.rendered step 0 ⟨"",true⟩).map fun out => terminated out.written := by
  have whole : pendingSize [(0,d)] = d.size := rfl
  have alone : outcome step ([(0,d)],⟨"",true⟩) = d.rendered step 0 ⟨"",true⟩ := bind_pure _
  refine ⟨fun n out => ⟨fun turned => ?_,?_⟩,?_,?_⟩
  · have empty := turns_size turned
    have enough : d.size ≤ n := Nat.sub_eq_zero_iff_le.mp empty.symm
    rw [turns_done enough,alone] at turned
    cases rendered : d.rendered step 0 ⟨"",true⟩ with
    | error fault => rw [rendered] at turned; nomatch turned
    | ok out => rw [rendered] at turned; cases turned; exact ⟨enough,rfl⟩
  · rintro ⟨enough,rendered⟩
    rw [turns_done enough,alone,rendered]
    rfl
  · exact (turns_done (Nat.le_refl _)).trans (congrArg _ alone)
  · rw [print,run_outcome step ([(0,d)],{}),← alone]
    rfl

/-- An empty text leaves its line without spaces, and a line break inside a text is no end of a line. -/
example :
    ((Doc.indent (.concat [.text "",.newline,.text "a\nb",.text "c"])).rendered 2 0
      ⟨"",true⟩).toOption.map (·.written) = some "\n  a\nbc" := by
  decide +kernel

end PegCompiler.Target.Doc
