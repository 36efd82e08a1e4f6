import PegCompiler.Text.Case

/-! Lower-case text. Every letter goes to its lower-case partner; a capital sigma at the end
of a word takes its final form, and a dotted capital I keeps its dot as a mark. -/
namespace PegCompiler.Text

def partner (n : Nat) (run : Nat × Nat × Nat × Nat) : Option Nat :=
  let (first,last,step,target) := run
  if first ≤ n && n ≤ last && (n - first) % step == 0 then some (target + (n - first)) else none

def lowerLetter (c : Char) : List Char :=
  if c = 'İ' then ['i','\u0307']
  else
    match lowercaseRuns.findSome? (partner c.toNat) with
    | some n => [Char.ofNat n]
    | none => [c]

def meetsCased (cs : List Char) : Bool :=
  match cs.dropWhile fun c => inRanges ignorableRanges c.toNat with
  | [] => false
  | c :: _ => inRanges casedRanges c.toNat

def lowerLetters (before : List Char) : List Char → List Char
  | [] => []
  | c :: rest =>
    let here :=
      if c = 'Σ' then (if meetsCased before && !meetsCased rest then ['ς'] else ['σ'])
      else lowerLetter c
    here ++ lowerLetters (c :: before) rest

def lowercase (s : String) : String :=
  String.ofList (lowerLetters [] s.toList)

end PegCompiler.Text
