import PegCompiler.Proofs.Semantics.Execution

/-! Which locals code touches: all accesses as they stand in the code, and the accesses along each
path that control may take, whatever its tests come to. -/
namespace PegCompiler

open Semantics (Exit)

inductive Local where
  | value (slot : Nat)
  | position (index : Nat)
deriving DecidableEq

inductive Access where
  | read (l : Local)
  | write (l : Local)
deriving DecidableEq

@[simp] def Access.target : Access → Local
  | .read l => l
  | .write l => l

@[simp] def Value.reads : Value → List Local
  | .array slots => slots.map .value
  | .textFrom position => [.position position]
  | .callAction _ arguments => arguments.map fun p => .value p.slot
  | _ => []

@[simp] def Bound.reads : Bound → List Local
  | .count _ => []
  | .slot n => [.value n]

@[simp] def Test.reads : Test → List Local
  | .failed slot => [.value slot]
  | .matched slot => [.value slot]
  | .atLeast slot bound => .value slot :: bound.reads
  | .fewer slot bound => .value slot :: bound.reads
  | .holds _ _ arguments => arguments.map fun p => .value p.slot

@[simp] def Step.reads : Step → List Local
  | .assign _ value => value.reads
  | .restore position => [.position position]
  | .mark position => [.position position]
  | .append list item => [.value list,.value item]
  | _ => []

@[simp] def Step.writes : Step → List Local
  | .assign slot _ => [.value slot]
  | .save position => [.position position]
  | _ => []

def Test.accesses (test : Test) : List Access := test.reads.map .read

def Step.accesses (s : Step) : List Access := s.reads.map .read ++ s.writes.map .write

theorem Test.mem_accesses {l : Local} {test : Test} : .read l ∈ test.accesses ↔ l ∈ test.reads := by
  simp only [Test.accesses,List.mem_map,Access.read.injEq,exists_eq_right]

theorem Step.read_mem_accesses {l : Local} {s : Step} : .read l ∈ s.accesses ↔ l ∈ s.reads := by
  simp only [Step.accesses,List.mem_append,List.mem_map,Access.read.injEq,exists_eq_right,
    reduceCtorEq,and_false,exists_false,or_false]

theorem Step.write_mem_accesses {l : Local} {s : Step} : .write l ∈ s.accesses ↔ l ∈ s.writes := by
  simp only [Step.accesses,List.mem_append,List.mem_map,Access.write.injEq,exists_eq_right,
    reduceCtorEq,and_false,exists_false,false_or]

@[simp] def Step.exit : Step → Exit
  | .leave => .left
  | _ => .done

@[simp] def Step.leaves : Step → Bool
  | .leave => true
  | _ => false

theorem Step.leaves_of_exit (s : Step) (left : s.exit = .left) : s.leaves = true := by
  cases s <;> simp at left ⊢

namespace Instr

mutual

@[simp] def accesses : Instr → List Access
  | .step s => s.accesses
  | .brief test s => test.accesses ++ s.accesses
  | .ifThen test body => test.accesses ++ accessesAll body
  | .ifElse test body otherwise => test.accesses ++ accessesAll body ++ accessesAll otherwise
  | .block _ body => accessesAll body
  | .alternative _ => []
  | .element _ => []
  | .blank => []

@[simp] def accessesAll : List Instr → List Access
  | [] => []
  | instr :: rest => instr.accesses ++ accessesAll rest

end

@[simp] theorem accessesAll_append (first second : List Instr) :
    accessesAll (first ++ second) = accessesAll first ++ accessesAll second := by
  induction first with
  | nil => rfl
  | cons instr rest ih => simp [ih]

end Instr

inductive Rounds (body : List Access → Exit → Prop) : List Access → Prop
  | leave {path : List Access} : body path .left → Rounds body path
  | again {path rest : List Access} : body path .done → Rounds body rest → Rounds body (path ++ rest)

namespace Instr

mutual

def Path : Instr → List Access → Exit → Prop
  | .step s, path, x => path = s.accesses ∧ x = s.exit
  | .brief test s, path, x => (path = test.accesses ∧ x = .done) ∨
      (path = test.accesses ++ s.accesses ∧ x = s.exit)
  | .ifThen test body, path, x => (path = test.accesses ∧ x = .done) ∨
      ∃ inner, Paths body inner x ∧ path = test.accesses ++ inner
  | .ifElse test body otherwise, path, x => ∃ inner, (Paths body inner x ∨ Paths otherwise inner x) ∧
      path = test.accesses ++ inner
  | .block kind body, path, x => x = .done ∧
      if kind.repeats then Rounds (fun inner y => Paths body inner y) path
      else ∃ y, Paths body path y
  | .alternative _, path, x => path = [] ∧ x = .done
  | .element _, path, x => path = [] ∧ x = .done
  | .blank, path, x => path = [] ∧ x = .done

def Paths : List Instr → List Access → Exit → Prop
  | [], path, x => path = [] ∧ x = .done
  | instr :: rest, path, x => (x = .left ∧ instr.Path path .left) ∨
      ∃ first others, instr.Path first .done ∧ Paths rest others x ∧ path = first ++ others

end

section Paths

variable {code rest : List Instr} {path : List Access} {x : Exit}

@[simp] theorem paths_nil : Paths [] path x ↔ path = [] ∧ x = .done := Iff.rfl

theorem paths_cons {instr : Instr} : Paths (instr :: rest) path x ↔
    (x = .left ∧ instr.Path path .left) ∨
      ∃ first others, instr.Path first .done ∧ Paths rest others x ∧ path = first ++ others := Iff.rfl

theorem paths_append : Paths (code ++ rest) path x ↔ (x = .left ∧ Paths code path .left) ∨
    ∃ first others, Paths code first .done ∧ Paths rest others x ∧ path = first ++ others := by
  induction code generalizing path with
  | nil => simp
  | cons instr code ih =>
    rw [List.cons_append,paths_cons]
    simp only [ih,paths_cons,reduceCtorEq,true_and,false_and,false_or]
    constructor
    · rintro (⟨rfl,here⟩ | ⟨first,_,start,⟨rfl,inner⟩ | ⟨second,others,inner,behind,rfl⟩,rfl⟩)
      · exact .inl ⟨rfl,.inl here⟩
      · exact .inl ⟨rfl,.inr ⟨first,_,start,inner,rfl⟩⟩
      · refine .inr ⟨first ++ second,others,⟨first,second,start,inner,rfl⟩,behind,?_⟩
        rw [List.append_assoc]
    · rintro (⟨rfl,here | ⟨first,others,start,inner,rfl⟩⟩ |
        ⟨_,others,⟨first,second,start,inner,rfl⟩,behind,rfl⟩)
      · exact .inl ⟨rfl,here⟩
      · exact .inr ⟨first,others,start,.inl ⟨rfl,inner⟩,rfl⟩
      · refine .inr ⟨first,second ++ others,start,.inr ⟨second,others,inner,behind,rfl⟩,?_⟩
        rw [List.append_assoc]

end Paths

mutual

theorem path_accesses {path : List Access} {x : Exit} {a : Access} :
    (instr : Instr) → instr.Path path x → a ∈ path → a ∈ instr.accesses
  | .step s, ⟨same,_⟩, member => by simpa [same] using member
  | .brief test s, .inl ⟨same,_⟩, member => List.mem_append_left _ (same ▸ member)
  | .brief test s, .inr ⟨same,_⟩, member => by simpa [same] using member
  | .ifThen test body, .inl ⟨same,_⟩, member => List.mem_append_left _ (same ▸ member)
  | .ifThen test body, .inr ⟨inner,taken,same⟩, member => by
    rw [same,List.mem_append] at member
    exact List.mem_append.mpr (member.imp_right (paths_accesses body taken))
  | .ifElse test body otherwise, ⟨inner,taken,same⟩, member => by
    rw [same,List.mem_append] at member
    rcases member with early | later
    · simp [early]
    · rcases taken with taken | taken
      · simp [paths_accesses body taken later]
      · simp [paths_accesses otherwise taken later]
  | .block kind body, ⟨_,taken⟩, member => by
    split at taken
    · induction taken with
      | leave last => exact paths_accesses body last member
      | again round _ ih =>
        rcases List.mem_append.mp member with early | later
        · exact paths_accesses body round early
        · exact ih later
    · obtain ⟨y,inner⟩ := taken
      exact paths_accesses body inner member
  | .alternative _, ⟨same,_⟩, member => by simp [same] at member
  | .element _, ⟨same,_⟩, member => by simp [same] at member
  | .blank, ⟨same,_⟩, member => by simp [same] at member

/-- Paths go through the code as it stands. -/
theorem paths_accesses {path : List Access} {x : Exit} {a : Access} :
    (code : List Instr) → Paths code path x → a ∈ path → a ∈ accessesAll code
  | [], ⟨same,_⟩, member => by simp [same] at member
  | instr :: rest, .inl ⟨_,here⟩, member => List.mem_append_left _ (path_accesses instr here member)
  | instr :: rest, .inr ⟨first,others,start,behind,same⟩, member => by
    rw [same,List.mem_append] at member
    exact List.mem_append.mpr
      (member.imp (path_accesses instr start) (paths_accesses rest behind))

end

end Instr

end PegCompiler
