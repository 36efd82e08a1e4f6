import PegCompiler.Target.Stmt

/-! Printed statements, line by line. Printing works off a list of pending parts, which comes to
going through the document from left to right; and the documents of statements are such that this
writes one line after another, each at the indentation of its block. -/
namespace PegCompiler.Target

namespace Doc

mutual

def emit (step depth : Nat) : Doc → Output → Output
  | .empty, out => out
  | .text s, out => out.write depth s
  | .newline, out => out.breakLine
  | .indent inner, out => inner.emit step (depth + step) out
  | .concat parts, out => emitAll step depth parts out

def emitAll (step depth : Nat) : List Doc → Output → Output
  | [], out => out
  | part :: rest, out => emitAll step depth rest (part.emit step depth out)

end

mutual

def height : Doc → Nat
  | .empty | .text _ | .newline => 0
  | .indent inner => inner.height + 1
  | .concat parts => heightAll parts

def heightAll : List Doc → Nat
  | [] => 0
  | part :: rest => max part.height (heightAll rest)

end

theorem deeper_fits {step depth : UInt64} (fits : depth.toNat + step.toNat < UInt64.size) :
    ∃ next, deeper step depth = .ok next ∧ next.toNat = depth.toNat + step.toNat :=
  ⟨depth + step,if_pos fits,(UInt64.toNat_add depth step).trans (Nat.mod_eq_of_lt fits)⟩

theorem deeper_fails {step depth : UInt64} (large : ¬depth.toNat + step.toNat < UInt64.size) :
    deeper step depth = .error .overflow :=
  if_neg large

mutual

/-- The part in front is worked off before the others, provided that its deepest indentation fits
into a machine word. -/
theorem run_emit (step depth : UInt64) (rest : List (UInt64 × Doc)) (d : Doc) (out : Output) :
    run step ((depth,d) :: rest) out =
      if depth.toNat + d.height * step.toNat < UInt64.size then
        run step rest (d.emit step.toNat depth.toNat out)
      else .error .overflow := by
  have word := depth.toNat_lt_size
  cases d with
  | empty | text s | newline => simp only [run,emit,height,Nat.zero_mul,Nat.add_zero,word,if_true]
  | indent inner =>
    have levels : depth.toNat + (inner.height + 1) * step.toNat =
        depth.toNat + step.toNat + inner.height * step.toNat := by
      rw [Nat.succ_mul,Nat.add_assoc,Nat.add_comm step.toNat]
    rw [run,emit,height,levels]
    by_cases fits : depth.toNat + step.toNat < UInt64.size
    · obtain ⟨next,deep,same⟩ := deeper_fits fits
      rw [deep,← same]
      exact run_emit step next rest inner out
    · rw [deeper_fails fits,if_neg (by omega)]
      rfl
  | concat parts => rw [run,emit,height,run_emitAll step depth rest parts]

theorem run_emitAll (step depth : UInt64) (rest : List (UInt64 × Doc)) (parts : List Doc)
    (out : Output) :
    run step ((parts.map fun part => (depth,part)) ++ rest) out =
      if depth.toNat + heightAll parts * step.toNat < UInt64.size then
        run step rest (emitAll step.toNat depth.toNat parts out)
      else .error .overflow := by
  cases parts with
  | nil =>
    have word := depth.toNat_lt_size
    simp only [List.map_nil,List.nil_append,emitAll,heightAll,Nat.zero_mul,Nat.add_zero,word,if_true]
  | cons part others =>
    have both : depth.toNat + heightAll (part :: others) * step.toNat < UInt64.size ↔
        depth.toNat + part.height * step.toNat < UInt64.size ∧
          depth.toNat + heightAll others * step.toNat < UInt64.size := by
      rw [heightAll,← Nat.mul_max_mul_right]
      omega
    rw [List.map_cons,List.cons_append,run_emit step depth _ part,emitAll,
      run_emitAll step depth rest others]
    by_cases first : depth.toNat + part.height * step.toNat < UInt64.size <;>
      simp only [both,first,true_and,false_and,if_true,if_false]

end

end Doc

abbrev Line := Nat × String

def Line.spelled (step : Nat) (line : Line) : String :=
  if line.2.isEmpty then "" else "".pushn ' ' (line.1 * step) ++ line.2

def terminated (text : String) : String :=
  if text.toList.getLast? = some '\n' then text else text.push '\n'

namespace Stmt

mutual

def flat (depth : Nat) : Stmt → List Line
  | .line code => [(depth,code)]
  | .blank => [(depth,"")]
  | .block header body footer =>
    (depth,header) :: flatAll (depth + 1) body ++ if footer.isEmpty then [] else [(depth,footer)]
  | .ifThen condition body =>
    (depth,s!"if ({condition}) \x7b") :: flatAll (depth + 1) body ++ [(depth,"\x7d")]
  | .ifElse condition body otherwise =>
    (depth,s!"if ({condition}) \x7b") :: flatAll (depth + 1) body ++
      (depth,"\x7d else \x7b") :: flatAll (depth + 1) otherwise ++ [(depth,"\x7d")]

def flatAll (depth : Nat) : List Stmt → List Line
  | [] => []
  | stmt :: rest => stmt.flat depth ++ flatAll depth rest

end

end Stmt

namespace Doc

namespace Output

variable {step : Nat}

end Output

def following (parts : List Doc) : List Doc :=
  parts.flatMap fun part => [newline,part]

end Doc

namespace Stmt

open Doc

/-- Induction on statements, where the hypothesis speaks of every member of a body. -/
@[elab_as_elim]
theorem induction {P : Stmt → Prop} (line : ∀ code, P (.line code)) (blank : P .blank)
    (block : ∀ header body footer, (∀ stmt ∈ body, P stmt) → P (.block header body footer))
    (ifThen : ∀ condition body, (∀ stmt ∈ body, P stmt) → P (.ifThen condition body))
    (ifElse : ∀ condition body otherwise, (∀ stmt ∈ body, P stmt) → (∀ stmt ∈ otherwise, P stmt) →
      P (.ifElse condition body otherwise)) (stmt : Stmt) : P stmt := by
  refine @Stmt.rec P (fun stmts => ∀ stmt ∈ stmts, P stmt) line blank block ifThen ifElse ?_ ?_ stmt
  · exact nofun
  · exact fun _ _ first others => List.forall_mem_cons.mpr ⟨first,others⟩

variable {step : Nat}

theorem height_following (parts : List Doc) : heightAll (following parts) = heightAll parts := by
  induction parts with
  | nil => rfl
  | cons part rest ih =>
    have next : heightAll (following (part :: rest)) =
        max 0 (max part.height (heightAll (following rest))) := rfl
    rw [next,Nat.zero_max,ih,heightAll]

theorem height_lines (parts : List Doc) : (Doc.lines parts).height = heightAll parts := by
  cases parts with
  | nil => rfl
  | cons part rest =>
    have whole : (Doc.lines (part :: rest)).height = max part.height (heightAll (following rest)) := rfl
    rw [whole,height_following,heightAll]

def Deepest (stmt : Stmt) : Prop :=
  ∀ depth bound, (∀ line ∈ stmt.flat depth, line.1 ≤ bound) ↔ depth + stmt.toDoc.height ≤ bound

theorem flatAll_deepest {stmts : List Stmt} (all : ∀ stmt ∈ stmts, Deepest stmt) (depth bound : Nat) :
    (∀ line ∈ flatAll depth stmts, line.1 ≤ bound) ↔
      stmts = [] ∨ depth + heightAll (toDocs stmts) ≤ bound := by
  induction stmts with
  | nil => simp [flatAll]
  | cons stmt rest ih =>
    have others := ih fun stmt member => all stmt (List.mem_cons_of_mem _ member)
    rw [flatAll,List.forall_mem_append,all stmt List.mem_cons_self,others,toDocs,heightAll]
    cases rest with
    | nil => simp [toDocs,heightAll]
    | cons next rest =>
      simp only [reduceCtorEq,false_or]
      omega

/-- The header of a body lies at its depth, whether or not there are lines in the body. -/
theorem body_deepest {body : List Stmt} (all : ∀ stmt ∈ body, Deepest stmt) (depth bound : Nat) :
    (depth ≤ bound ∧ ∀ line ∈ flatAll (depth + 1) body, line.1 ≤ bound) ↔
      depth + (bodyDoc (toDocs body)).height ≤ bound := by
  rw [flatAll_deepest all]
  cases body with
  | nil => simp [toDocs,bodyDoc,height]
  | cons stmt rest =>
    have whole : (bodyDoc (toDocs (stmt :: rest))).height =
        max 0 (max (Doc.lines (toDocs (stmt :: rest))).height 0) + 1 := rfl
    rw [whole,height_lines]
    simp only [reduceCtorEq,false_or]
    omega

theorem deepest (stmt : Stmt) : Deepest stmt := by
  induction stmt using Stmt.induction with
  | line code => simp [Deepest,flat,toDoc,height]
  | blank => simp [Deepest,flat,toDoc,height]
  | block header body footer ih =>
    intro depth bound
    have inner := body_deepest ih depth bound
    cases closed : footer.isEmpty <;>
      simp [flat,toDoc,closed,height,heightAll,← inner] <;> grind
  | ifThen condition body ih =>
    intro depth bound
    have inner := body_deepest ih depth bound
    simp [flat,toDoc,height,heightAll,← inner]
    grind
  | ifElse condition body otherwise ih ih' =>
    intro depth bound
    have inner := body_deepest ih depth bound
    have other := body_deepest ih' depth bound
    simp [flat,toDoc,height,heightAll]
    grind

end Stmt

/-- A block without a body or a footer, and an empty line in the last place of a clause. -/
example : (Stmt.flatAll 0 [.block "do \x7b" [] "",
    .ifElse "c" [.line "f();"] [.line "g();",.blank]]).map (Line.spelled 2) =
      ["do \x7b","if (c) \x7b","  f();","\x7d else \x7b","  g();","","\x7d"] := by
  decide +kernel

end PegCompiler.Target
