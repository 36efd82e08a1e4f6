import PegCompiler.Proofs.Semantics.Accesses

/-! Control flow and silence. Code is left early only by a `leave` that stands outside all blocks of
the code, and the depth of silence changes only by the steps that change it. Both can be read off
the code, so that what runs do to silence is found piece by piece. -/
namespace PegCompiler

@[simp] def Step.hushes : Step → Bool
  | .silence => true
  | .unsilence => true
  | _ => false

namespace Instr

mutual

@[simp] def escapes : Instr → Bool
  | .step s => s.leaves
  | .brief _ s => s.leaves
  | .ifThen _ body => escapesAll body
  | .ifElse _ body otherwise => escapesAll body || escapesAll otherwise
  | .block _ _ => false
  | .alternative _ => false
  | .element _ => false
  | .blank => false

@[simp] def escapesAll : List Instr → Bool
  | [] => false
  | instr :: rest => instr.escapes || escapesAll rest

end

mutual

@[simp] def blocks : Instr → List (BlockKind × List Instr)
  | .step _ => []
  | .brief _ _ => []
  | .ifThen _ body => blocksAll body
  | .ifElse _ body otherwise => blocksAll body ++ blocksAll otherwise
  | .block kind body => [(kind,body)]
  | .alternative _ => []
  | .element _ => []
  | .blank => []

@[simp] def blocksAll : List Instr → List (BlockKind × List Instr)
  | [] => []
  | instr :: rest => instr.blocks ++ blocksAll rest

end

mutual

@[simp] def hushes : Instr → Bool
  | .step s => s.hushes
  | .brief _ s => s.hushes
  | .ifThen _ body => hushesAll body
  | .ifElse _ body otherwise => hushesAll body || hushesAll otherwise
  | .block _ body => hushesAll body
  | .alternative _ => false
  | .element _ => false
  | .blank => false

@[simp] def hushesAll : List Instr → Bool
  | [] => false
  | instr :: rest => instr.hushes || hushesAll rest

end

@[simp] theorem escapesAll_append (first second : List Instr) :
    escapesAll (first ++ second) = (escapesAll first || escapesAll second) := by
  induction first with
  | nil => rfl
  | cons instr rest ih => simp [ih,Bool.or_assoc]

@[simp] theorem blocksAll_append (first second : List Instr) :
    blocksAll (first ++ second) = blocksAll first ++ blocksAll second := by
  induction first with
  | nil => rfl
  | cons instr rest ih => simp [ih]

@[simp] theorem hushesAll_append (first second : List Instr) :
    hushesAll (first ++ second) = (hushesAll first || hushesAll second) := by
  induction first with
  | nil => rfl
  | cons instr rest ih => simp [ih,Bool.or_assoc]

end Instr

namespace Semantics

open Instr

variable {ω π : Type} {c : Context ω π}

theorem StepRuns.done {s : Step} {m m' : Machine ω π} {x : Exit} (kept : s.leaves = false)
    (run : StepRuns c m s x m') : x = .done := by
  cases s with
  | leave => exact nomatch kept
  | _ => exact run.1

mutual

theorem instrRuns_done {m m' : Machine ω π} {x : Exit} :
    (instr : Instr) → instr.escapes = false → InstrRuns c instr m x m' → x = .done
  | .step _, kept, run => run.done kept
  | .brief _ _, kept, .inl ⟨_,run⟩ => run.done kept
  | .brief _ _, _, .inr ⟨_,done,_⟩ => done
  | .ifThen _ body, kept, .inl ⟨_,run⟩ => runs_done body kept run
  | .ifThen _ _, _, .inr ⟨_,done,_⟩ => done
  | .ifElse _ body otherwise, kept, run => by
    obtain ⟨first,second⟩ : escapesAll body = false ∧ escapesAll otherwise = false := by
      simpa using kept
    rcases run with ⟨-,run⟩ | ⟨-,run⟩
    · exact runs_done body first run
    · exact runs_done otherwise second run
  | .block _ _, _, run => run.1
  | .alternative _, _, run => run.1
  | .element _, _, run => run.1
  | .blank, _, run => run.1

/-- Code without a `leave` outside its blocks runs to its end. -/
theorem runs_done {m m' : Machine ω π} {x : Exit} :
    (code : List Instr) → escapesAll code = false → Runs c code m x m' → x = .done
  | [], _, run => run.1
  | instr :: rest, kept, run => by
    obtain ⟨first,others⟩ : instr.escapes = false ∧ escapesAll rest = false := by simpa using kept
    rcases run with ⟨-,here⟩ | ⟨u,-,behind⟩
    · exact nomatch instrRuns_done instr first here
    · exact runs_done rest others behind

end

def Quiet (method : Method ω π) : Prop :=
  ∀ s o s', method s o s' → s'.silent = s.silent

def KeepsSilence (call : Calls ω π) : Prop :=
  ∀ name, Quiet (call name)

structure Methods.KeepSilence (methods : Methods ω π) : Prop where
  literal : ∀ value expected ignoreCase, Quiet (methods.literal value expected ignoreCase)
  pattern : ∀ initializer expected inverted, Quiet (methods.pattern initializer expected inverted)
  any : Quiet methods.any
  fail : ∀ expected, Quiet (methods.fail expected)
  newArray : ∀ items, Quiet (methods.newArray items)
  toText : ∀ start, Quiet (methods.toText start)

theorem Matches.quiet {method : Method ω π} {parser : Parser ω π} (matching : Matches method parser) :
    Quiet method := by
  intro s o s' ended
  obtain ⟨q,-,rfl⟩ := (matching s o s').mp ended
  rfl

theorem Answers.quiet {method : Method ω π} {result : Shared π → Outcome ω}
    (answers : Answers method result) : Quiet method := by
  intro s o s' ended
  rw [((answers s o s').mp ended).2]

theorem Methods.Implement.keepSilence {methods : Methods ω π} {rt : Runtime ω π}
    (implements : methods.Implement rt) : methods.KeepSilence where
  literal value expected ignoreCase := (implements.literal value expected ignoreCase).quiet
  pattern initializer expected inverted := (implements.pattern initializer expected inverted).quiet
  any := implements.any.quiet
  fail expected := (implements.fail expected).quiet
  newArray items := (implements.newArray items).quiet
  toText start := (implements.toText start).quiet

structure Context.KeepsSilence (c : Context ω π) : Prop where
  call : Semantics.KeepsSilence c.call
  methods : c.methods.KeepSilence

def Calm (c : Context ω π) (code : List Instr) : Prop :=
  ∀ m x m', Runs c code m x m' → m'.silent = m.silent

theorem ValueIs.silent (keeps : c.KeepsSilence) {m : Machine ω π} {value : Value}
    {o : Outcome ω} {s : Shared π} (given : ValueIs c m value o s) : s.silent = m.silent := by
  cases value with
  | failed | null => rw [given.2]
  | array =>
    obtain ⟨ds,-,made⟩ := given
    exact keeps.methods.newArray ds _ _ _ made
  | textFrom => exact keeps.methods.toText _ _ _ _ given
  | callRule name => exact keeps.call _ _ _ _ given
  | matchLiteral =>
    obtain ⟨_,-,matched⟩ := given
    exact keeps.methods.literal _ _ _ _ _ _ matched
  | matchClass =>
    obtain ⟨_,_,-,-,matched⟩ := given
    exact keeps.methods.pattern _ _ _ _ _ _ matched
  | matchAny => exact keeps.methods.any _ _ _ given
  | reportFailure =>
    obtain ⟨_,-,failed⟩ := given
    exact keeps.methods.fail _ _ _ _ failed
  | callAction =>
    obtain ⟨-,-,-,-,-,-,-,rfl⟩ := given
    rfl

theorem StepRuns.silent (keeps : c.KeepsSilence) {s : Step} {m m' : Machine ω π} {x : Exit}
    (quiet : s.hushes = false) (run : StepRuns c m s x m') : m'.silent = m.silent := by
  cases s with
  | assign slot value =>
    obtain ⟨-,o,shared,given,rfl⟩ := run
    exact given.silent keeps
  | append =>
    obtain ⟨-,_,_,-,-,rfl⟩ := run
    rfl
  | silence | unsilence => exact nomatch quiet
  | save | restore | mark | leave =>
    obtain ⟨-,rfl⟩ := run
    rfl

/-- What holds of every round of a loop holds of the loop. -/
private theorem Loop.silent {body : Machine ω π → Exit → Machine ω π → Prop}
    (rounds : ∀ m x m', body m x m' → m'.silent = m.silent) {m m' : Machine ω π}
    (loop : Loop body m m') : m'.silent = m.silent := by
  induction loop with
  | leave last => exact rounds _ _ _ last
  | again round _ ih => exact ih.trans (rounds _ _ _ round)

namespace Calm

variable {code rest : List Instr}

theorem append (first : Calm c code) (second : Calm c rest) : Calm c (code ++ rest) := by
  intro m x m' run
  rcases runs_append.mp run with ⟨-,left⟩ | ⟨u,inner,behind⟩
  · exact first _ _ _ left
  · exact (second _ _ _ behind).trans (first _ _ _ inner)

theorem block (kind : BlockKind) (calm : Calm c code) : Calm c [.block kind code] := by
  intro m x m' run
  cases repeats : kind.repeats with
  | true =>
    obtain rfl : kind = .range := by cases kind <;> first | rfl | exact nomatch repeats
    obtain ⟨u,loop,done⟩ := runs_loop.mp run
    rw [(runs_nil.mp done).2]
    exact loop.silent calm
  | false =>
    obtain ⟨y,u,inner,done⟩ := (runs_block repeats).mp run
    rw [(runs_nil.mp done).2]
    exact calm _ _ _ inner

/-- Code that is not left early may be silenced. -/
theorem silenced (calm : Calm c code) (kept : escapesAll code = false) :
    Calm c (.step .silence :: code ++ [.step .unsilence]) := by
  intro m x m' run
  rw [List.cons_append,runs_silence] at run
  rcases runs_append.mp run with ⟨-,left⟩ | ⟨u,inner,behind⟩
  · -- a `leave` in the code would skip the step that ends the silence
    exact nomatch runs_done code kept left
  · rw [runs_unsilence,runs_nil] at behind
    have level := calm _ _ _ inner
    rw [behind.2]
    change u.silent - 1 = m.silent
    rw [level]
    exact Int.add_sub_cancel _ _

end Calm

mutual

theorem instrRuns_silent (keeps : c.KeepsSilence) {m m' : Machine ω π} {x : Exit} :
    (instr : Instr) → instr.hushes = false → InstrRuns c instr m x m' → m'.silent = m.silent
  | .step _, quiet, run => run.silent keeps quiet
  | .brief _ _, quiet, .inl ⟨_,run⟩ => run.silent keeps quiet
  | .brief _ _, _, .inr ⟨_,_,same⟩ => by rw [same]
  | .ifThen _ body, quiet, .inl ⟨_,run⟩ => runs_silent keeps body quiet run
  | .ifThen _ _, _, .inr ⟨_,_,same⟩ => by rw [same]
  | .ifElse _ body otherwise, quiet, run => by
    obtain ⟨first,second⟩ : hushesAll body = false ∧ hushesAll otherwise = false := by
      simpa using quiet
    rcases run with ⟨-,run⟩ | ⟨-,run⟩
    · exact runs_silent keeps body first run
    · exact runs_silent keeps otherwise second run
  | .block _ body, quiet, ⟨_,run⟩ => by
    split at run
    · exact run.silent fun _ _ _ round => runs_silent keeps body quiet round
    · obtain ⟨y,inner⟩ := run
      exact runs_silent keeps body quiet inner
  | .alternative _, _, run => by rw [run.2]
  | .element _, _, run => by rw [run.2]
  | .blank, _, run => by rw [run.2]

theorem runs_silent (keeps : c.KeepsSilence) {m m' : Machine ω π} {x : Exit} :
    (code : List Instr) → hushesAll code = false → Runs c code m x m' → m'.silent = m.silent
  | [], _, run => by rw [run.2]
  | instr :: rest, quiet, run => by
    obtain ⟨first,others⟩ : instr.hushes = false ∧ hushesAll rest = false := by simpa using quiet
    rcases run with ⟨-,here⟩ | ⟨u,here,behind⟩
    · exact instrRuns_silent keeps instr first here
    · exact (runs_silent keeps rest others behind).trans (instrRuns_silent keeps instr first here)

end

/-- Code that never changes the depth of silence is calm, if the rules that it calls are. -/
theorem Calm.of_quiet (keeps : c.KeepsSilence) {code : List Instr}
    (quiet : hushesAll code = false) : Calm c code :=
  fun _ _ _ run => runs_silent keeps code quiet run

/-- Rules whose code is calm, with calm calls, keep silence however deep their calls nest. -/
theorem calls_keepSilence (rt : Runtime ω π) {methods : Methods ω π} (registries : Registries)
    {routines : List Routine} (calm : ∀ routine ∈ routines, ∀ call, KeepsSilence call →
      Calm ⟨rt,methods,registries,call⟩ routine.body) :
    KeepsSilence (calls rt methods registries routines) := by
  have within (depth : Nat) : KeepsSilence (callWithin rt methods registries routines depth) := by
    induction depth with
    | zero => exact fun _ _ _ _ call => call.elim
    | succ depth ih =>
      rintro name s o s' ⟨routine,m,m',found,rfl,run,-,rfl⟩
      exact calm routine (List.mem_of_find?_eq_some found) _ ih _ _ _ run
  rintro name s o s' ⟨depth,call⟩
  exact within depth name s o s' call

end Semantics

end PegCompiler
