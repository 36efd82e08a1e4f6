import PegCompiler.Json.Basic

/-! Numbers of a JSON text. The digits are gathered into a word as far as they fit; digits
beyond that count only by their place. The gathered word is then scaled by a power of ten in
double precision, so the last place of a long number may differ from the nearest double. -/
namespace PegCompiler.Json

structure Numeral where
  isNegative : Bool
  whole : List Nat
  fraction : Option (List Nat)
  exponent : Option (Bool × List Nat)
deriving DecidableEq, Repr

namespace Numeral

def gather (gathered : Nat) : List Nat → Nat × Nat
  | [] => (gathered,0)
  | digit :: rest =>
    if gathered * 10 + digit < Binary64.twoTo 64 then gather (gathered * 10 + digit) rest
    else (gathered,rest.length + 1)

def valueOf (digits : List Nat) : Nat :=
  digits.foldl (fun acc digit => acc * 10 + digit) 0

def powerOfTen (k : Nat) : Binary64 :=
  (Binary64.ofRatio (Binary64.tenTo k) 1).getD .zero

def scale (gathered : Nat) (exponent : Int) : Option Binary64 :=
  if gathered = 0 then some .zero
  else do
    let x ← Binary64.ofRatio gathered 1
    if 308 < exponent then none
    else if 0 ≤ exponent then x.mul (powerOfTen exponent.toNat)
    else if -308 ≤ exponent then x.div (powerOfTen (-exponent).toNat)
    else if -616 ≤ exponent then
      (← x.div (powerOfTen 308)).div (powerOfTen (-exponent - 308).toNat)
    else some .zero

def wholeNumber (n : Numeral) (gathered leftOver : Nat) : Option Number :=
  if leftOver = 0 ∧ n.fraction = none ∧ n.exponent = none then
    if !n.isNegative then some (.natural gathered)
    else if 0 < gathered ∧ gathered ≤ Binary64.twoTo 63 then some (.negated gathered)
    else none
  else none

def value (n : Numeral) : Option Number :=
  let (gathered,leftOver) := gather 0 n.whole
  match n.wholeNumber gathered leftOver with
  | some exact => some exact
  | none =>
    let fraction := n.fraction.getD []
    let (gathered,unused) := gather gathered fraction
    let place : Int := leftOver - ((fraction.length : Int) - unused)
    let exponent : Int :=
      match n.exponent with
      | none => 0
      | some (isNegative,digits) => if isNegative then -(valueOf digits) else valueOf digits
    (scale gathered (place + exponent)).map fun magnitude => .double n.isNegative magnitude

end Numeral

end PegCompiler.Json
