import PegCompiler.Target.Fault

/-! Documents: text, forced line breaks and indentation. Printing works through a list of
pending parts, each with its own indentation. Indentation is written only in front of the
first text of a line, so blank lines carry no spaces. An indentation is a machine word, and one that
does not fit ends the printing. -/
namespace PegCompiler.Target

inductive Doc where
  | empty
  | text (s : String)
  | newline
  | indent (inner : Doc)
  | concat (parts : List Doc)
deriving Inhabited

namespace Doc

def lines : List Doc → Doc
  | [] => concat []
  | first :: rest => concat (first :: rest.flatMap fun part => [newline,part])

mutual

def size : Doc → Nat
  | .empty => 1
  | .text _ => 1
  | .newline => 1
  | .indent inner => inner.size + 1
  | .concat parts => sizeAll parts + 1

def sizeAll : List Doc → Nat
  | [] => 0
  | part :: rest => part.size + sizeAll rest

end

structure Output where
  written : String := ""
  atLineStart : Bool := true

namespace Output

def write (out : Output) (depth : Nat) (s : String) : Output :=
  if s.isEmpty then out
  else if out.atLineStart then ⟨out.written ++ "".pushn ' ' depth ++ s,false⟩
  else ⟨out.written ++ s,false⟩

def breakLine (out : Output) : Output :=
  ⟨out.written.push '\n',true⟩

def close (out : Output) : String :=
  if out.written.toList.getLast? = some '\n' then out.written else out.written.push '\n'

end Output

def pendingSize : List (UInt64 × Doc) → Nat
  | [] => 0
  | (_,part) :: rest => part.size + pendingSize rest

theorem pendingSize_append (xs ys : List (UInt64 × Doc)) :
    pendingSize (xs ++ ys) = pendingSize xs + pendingSize ys := by
  induction xs with
  | nil => simp [pendingSize]
  | cons x xs ih => simp [pendingSize,ih,Nat.add_assoc]

theorem pendingSize_map (depth : UInt64) (parts : List Doc) :
    pendingSize (parts.map fun part => (depth,part)) = sizeAll parts := by
  induction parts with
  | nil => rfl
  | cons part rest ih => simp [pendingSize,sizeAll,ih]

def deeper (step depth : UInt64) : Except Fault UInt64 :=
  if depth.toNat + step.toNat < UInt64.size then .ok (depth + step) else .error .overflow

def run (step : UInt64) : List (UInt64 × Doc) → Output → Except Fault Output
  | [], out => .ok out
  | (_,.empty) :: rest, out => run step rest out
  | (depth,.text s) :: rest, out => run step rest (out.write depth.toNat s)
  | (_,.newline) :: rest, out => run step rest out.breakLine
  | (depth,.indent inner) :: rest, out => do
    run step ((← deeper step depth,inner) :: rest) out
  | (depth,.concat parts) :: rest, out =>
    run step ((parts.map fun part => (depth,part)) ++ rest) out
termination_by pending => pendingSize pending
decreasing_by
  all_goals simp [pendingSize,pendingSize_append,pendingSize_map,size]

def print (d : Doc) (step : UInt64) : Except Fault String := do
  return (← run step [(0,d)] {}).close

end Doc

end PegCompiler.Target
