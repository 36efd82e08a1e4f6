import PegCompiler.Target.Fault

/-! Numbered locals used as a stack. Pushing takes the next free local and popping gives the
last one back for reuse; the most locals ever taken are those that get declared. -/
namespace PegCompiler

structure Locals where
  letter : String
  type : String
  occupied : Nat := 0
  declared : Nat := 0
deriving DecidableEq, Repr

namespace Locals

def slotAt (s : Locals) (index : Int) : Except Fault Nat :=
  if index < 0 then .error (.underflow s.letter index) else .ok index.toNat

def pointer (s : Locals) : Int :=
  (s.occupied : Int) - 1

def name (s : Locals) (slot : Nat) : String :=
  s!"{s.letter}{slot}"

def assignment (s : Locals) (slot : Nat) (expr : String) : String :=
  s!"{s.name slot} = {expr};"

def reclaim (s : Locals) : Locals :=
  { s with occupied := s.occupied + 1, declared := max s.declared (s.occupied + 1) }

def push (s : Locals) : Nat × Locals :=
  (s.occupied,s.reclaim)

def top (s : Locals) : Except Fault Nat :=
  s.slotAt s.pointer

def below (s : Locals) (depth : Nat) : Except Fault Nat :=
  s.slotAt (s.pointer - depth)

def pop (s : Locals) : Except Fault (Nat × Locals) := do
  let slot ← s.top
  return (slot,{ s with occupied := s.occupied - 1 })

def popMany (s : Locals) (n : Nat) : Except Fault (List Nat × Locals) :=
  if n ≤ s.occupied then
    .ok ((List.range n).map (s.occupied - n + ·),{ s with occupied := s.occupied - n })
  else .error (.underflow s.letter ((s.occupied : Int) - n))

def replace (s : Locals) : Except Fault (Nat × Locals) := do
  let (_,popped) ← s.pop
  return popped.push

def declaration (s : Locals) : Option String :=
  if s.declared = 0 then none
  else some (s.type ++ " " ++ ", ".intercalate ((List.range s.declared).map s.name) ++ ";")

end Locals

end PegCompiler
