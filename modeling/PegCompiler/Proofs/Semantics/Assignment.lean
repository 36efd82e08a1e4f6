import PegCompiler.Proofs.Semantics.Accesses

/-! Definite assignment. The analysis follows one local through code: both branches of a test have
to set it, a block sets what is set wherever it is left, and a point that is never reached counts as
set. It is sound for paths: a local that passes is written before it is read on every one. -/
namespace PegCompiler

/-- What is known of a local around a piece of code: whether it is set behind the code, whether it
is set wherever the block around the code is left, and whether it is set wherever it is read. -/
structure Flow where
  after : Bool
  leaving : Bool
  reads : Bool
deriving DecidableEq

namespace Flow

@[simp] def pass (before : Bool) : Flow := ⟨before,true,true⟩

@[simp] def andThen (first second : Flow) : Flow :=
  ⟨second.after,first.leaving && second.leaving,first.reads && second.reads⟩

@[simp] def either (test : Bool) (first second : Flow) : Flow :=
  ⟨first.after && second.after,first.leaving && second.leaving,
    test && first.reads && second.reads⟩

@[simp] def inBlock (kind : BlockKind) (body : Flow) : Flow :=
  ⟨(kind.repeats || body.after) && body.leaving,true,body.reads⟩

end Flow

@[simp] def Test.flow (l : Local) (test : Test) (before : Bool) : Bool :=
  before || decide (l ∉ test.reads)

@[simp] def Step.flow (l : Local) (s : Step) (before : Bool) : Flow :=
  ⟨before || s.leaves || decide (l ∈ s.writes),before || !s.leaves,before || decide (l ∉ s.reads)⟩

namespace Instr

mutual

@[simp] def flow (l : Local) : Instr → Bool → Flow
  | .step s, before => s.flow l before
  | .brief test s, before => .either (test.flow l before) (s.flow l before) (.pass before)
  | .ifThen test body, before =>
    .either (test.flow l before) (flowAll l body before) (.pass before)
  | .ifElse test body otherwise, before =>
    .either (test.flow l before) (flowAll l body before) (flowAll l otherwise before)
  | .block kind body, before => .inBlock kind (flowAll l body before)
  | .alternative _, before => .pass before
  | .element _, before => .pass before
  | .blank, before => .pass before

@[simp] def flowAll (l : Local) : List Instr → Bool → Flow
  | [], before => .pass before
  | instr :: rest, before =>
    (instr.flow l before).andThen (flowAll l rest (instr.flow l before).after)

end

variable {l : Local}

mutual

theorem flow_set (l : Local) : (instr : Instr) → instr.flow l true = ⟨true,true,true⟩
  | .step s => by simp
  | .brief test s => by simp
  | .ifThen test body => by simp [flowAll_set l body]
  | .ifElse test body otherwise => by simp [flowAll_set l body,flowAll_set l otherwise]
  | .block kind body => by simp [flowAll_set l body]
  | .alternative _ => rfl
  | .element _ => rfl
  | .blank => rfl

/-- A local that is set stays set. -/
@[simp] theorem flowAll_set (l : Local) : (code : List Instr) → flowAll l code true = ⟨true,true,true⟩
  | [] => rfl
  | instr :: rest => by simp [flow_set l instr,flowAll_set l rest]

end

@[simp] theorem flowAll_append (code rest : List Instr) (before : Bool) :
    flowAll l (code ++ rest) before =
      (flowAll l code before).andThen (flowAll l rest (flowAll l code before).after) := by
  induction code generalizing before with
  | nil => simp
  | cons instr code ih => simp [ih,Bool.and_assoc]

end Instr

def WrittenFirst (l : Local) (path : List Access) : Prop :=
  ∀ early late, path = early ++ .read l :: late → .write l ∈ early

section Paths

open Semantics

variable {l : Local} {f g : Flow} {path first others : List Access} {x : Exit}

theorem WrittenFirst.of_unread (unread : .read l ∉ path) : WrittenFirst l path := by
  rintro early late rfl
  simp at unread

theorem WrittenFirst.append (start : WrittenFirst l first)
    (behind : .write l ∈ first ∨ WrittenFirst l others) : WrittenFirst l (first ++ others) := by
  intro early late same
  rcases List.append_eq_append_iff.mp same with ⟨more,rfl,rest⟩ | ⟨more,rfl,rest⟩
  · rcases behind with written | behind
    · exact List.mem_append_left _ written
    · exact List.mem_append_right _ (behind more late rest)
  · cases more with
    | nil =>
      rcases behind with written | behind
      · simpa using written
      · exact nomatch behind [] late rest.symm
    | cons a more =>
      obtain ⟨rfl,-⟩ := List.cons.inj rest
      exact start early more rfl

structure Flow.Sound (l : Local) (f : Flow) (path : List Access) (x : Exit) : Prop where
  reads : f.reads = true → WrittenFirst l path
  after : f.after = true → x = .done → .write l ∈ path
  leaving : f.leaving = true → x = .left → .write l ∈ path

namespace Flow.Sound

theorem pass : Sound l (.pass false) [] .done :=
  ⟨fun _ => .of_unread List.not_mem_nil,nofun,nofun⟩

theorem andThen (start : Sound l f first .done) (behind : f.after = false → Sound l g others x) :
    Sound l (f.andThen g) (first ++ others) x := by
  cases written : f.after with
  | true =>
    have found := start.after written rfl
    have kept : .write l ∈ first ++ others := List.mem_append_left _ found
    refine ⟨fun reads => ?_,fun _ _ => kept,fun _ _ => kept⟩
    exact (start.reads (Bool.and_eq_true_iff.mp reads).1).append (.inl found)
  | false =>
    have rest := behind written
    refine ⟨fun reads => ?_,fun after done => ?_,fun leaving left => ?_⟩
    · obtain ⟨early,late⟩ := Bool.and_eq_true_iff.mp reads
      exact (start.reads early).append (.inr (rest.reads late))
    · exact List.mem_append_right _ (rest.after after done)
    · exact List.mem_append_right _ (rest.leaving (Bool.and_eq_true_iff.mp leaving).2 left)

/-- A path through either branch. -/
theorem either {test : Test} (branch : Sound l f path x ∨ Sound l g path x) :
    Sound l (.either (test.flow l false) f g) (test.accesses ++ path) x := by
  have tested (reads : test.flow l false = true) : WrittenFirst l test.accesses := by
    rw [Test.flow,Bool.false_or,decide_eq_true_eq] at reads
    exact .of_unread (Test.mem_accesses.not.mpr reads)
  refine ⟨fun reads => ?_,fun after done => ?_,fun leaving left => ?_⟩
  · simp only [Flow.either,Bool.and_eq_true] at reads
    refine (tested reads.1.1).append (.inr ?_)
    exact branch.elim (fun here => here.reads reads.1.2) (fun here => here.reads reads.2)
  · obtain ⟨one,other⟩ := Bool.and_eq_true_iff.mp after
    refine List.mem_append_right _ ?_
    exact branch.elim (fun here => here.after one done) (fun here => here.after other done)
  · obtain ⟨one,other⟩ := Bool.and_eq_true_iff.mp leaving
    refine List.mem_append_right _ ?_
    exact branch.elim (fun here => here.leaving one left) (fun here => here.leaving other left)

theorem step (s : Step) : Sound l (s.flow l false) s.accesses s.exit := by
  refine ⟨fun reads => ?_,fun after done => ?_,fun leaving left => ?_⟩
  · have unread : l ∉ s.reads := by simpa only [Step.flow,Bool.false_or,decide_eq_true_eq] using reads
    exact .of_unread (Step.read_mem_accesses.not.mpr unread)
  · have stays : s.leaves = false := by cases s <;> simp at done ⊢
    refine Step.write_mem_accesses.mpr ?_
    simpa only [Step.flow,stays,Bool.false_or,decide_eq_true_eq] using after
  · rw [Step.flow,s.leaves_of_exit left] at leaving
    exact nomatch leaving

end Flow.Sound

theorem Flow.Sound.rounds {body : List Access → Exit → Prop}
    (each : ∀ {path x}, body path x → Sound l f path x) (taken : Rounds body path) :
    (f.reads = true → WrittenFirst l path) ∧ (f.leaving = true → .write l ∈ path) := by
  induction taken with
  | leave last => exact ⟨(each last).reads,fun leaving => (each last).leaving leaving rfl⟩
  | again round _ ih =>
    refine ⟨fun reads => ((each round).reads reads).append (.inr (ih.1 reads)),fun leaving => ?_⟩
    exact List.mem_append_right _ (ih.2 leaving)

namespace Instr

mutual

theorem path_sound (l : Local) : (instr : Instr) → {path : List Access} → {x : Exit} →
    instr.Path path x → Flow.Sound l (instr.flow l false) path x
  | .step s, _, _, ⟨rfl,rfl⟩ => .step s
  | .brief test s, _, _, .inl ⟨same,rfl⟩ => by
    rw [same,← List.append_nil test.accesses]
    exact .either (.inr .pass)
  | .brief test s, _, _, .inr ⟨rfl,rfl⟩ => .either (.inl (.step s))
  | .ifThen test body, _, _, .inl ⟨same,rfl⟩ => by
    rw [same,← List.append_nil test.accesses]
    exact .either (.inr .pass)
  | .ifThen test body, _, _, .inr ⟨_,taken,rfl⟩ => .either (.inl (paths_sound l body taken))
  | .ifElse test body otherwise, _, _, ⟨_,taken,rfl⟩ =>
    .either (taken.imp (paths_sound l body) (paths_sound l otherwise))
  | .block kind body, _, _, ⟨rfl,taken⟩ => by
    cases repeats : kind.repeats with
    | true =>
      rw [repeats,if_pos rfl] at taken
      obtain ⟨reads,left⟩ := Flow.Sound.rounds (paths_sound l body) taken
      refine ⟨reads,fun after _ => left ?_,nofun⟩
      exact (Bool.and_eq_true_iff.mp after).2
    | false =>
      simp only [repeats,Bool.false_eq_true,if_false] at taken
      obtain ⟨y,inner⟩ := taken
      have sound := paths_sound l body inner
      refine ⟨sound.reads,fun after _ => ?_,nofun⟩
      simp only [Instr.flow,Flow.inBlock,repeats,Bool.false_or,Bool.and_eq_true] at after
      cases y with
      | done => exact sound.after after.1 rfl
      | left => exact sound.leaving after.2 rfl
  | .alternative _, _, _, ⟨rfl,rfl⟩ => .pass
  | .element _, _, _, ⟨rfl,rfl⟩ => .pass
  | .blank, _, _, ⟨rfl,rfl⟩ => .pass

/-- The analysis is sound for every path. -/
theorem paths_sound (l : Local) : (code : List Instr) → {path : List Access} → {x : Exit} →
    Paths code path x → Flow.Sound l (flowAll l code false) path x
  | [], _, _, ⟨rfl,rfl⟩ => .pass
  | instr :: rest, _, _, .inl ⟨rfl,here⟩ => by
    have sound := path_sound l instr here
    refine ⟨fun reads => ?_,nofun,fun leaving _ => ?_⟩
    · exact sound.reads (Bool.and_eq_true_iff.mp reads).1
    · exact sound.leaving (Bool.and_eq_true_iff.mp leaving).1 rfl
  | instr :: rest, _, _, .inr ⟨_,_,start,behind,rfl⟩ => by
    refine (path_sound l instr start).andThen fun unset => ?_
    rw [unset]
    exact paths_sound l rest behind

end

end Instr

end Paths

end PegCompiler
