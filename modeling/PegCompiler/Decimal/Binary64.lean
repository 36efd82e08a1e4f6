/-! Double-precision numbers in exact arithmetic: rounding a quotient to the nearest double,
products and quotients of doubles, and the fewest decimal digits that read back. -/
namespace PegCompiler

/-- The magnitude of a finite double: `mantissa * 2 ^ exponent`, with the mantissa below
`2 ^ 53` and the exponent at least -1074. -/
structure Binary64 where
  mantissa : Nat
  exponent : Int
deriving DecidableEq, Repr

namespace Binary64

def twoTo (k : Nat) : Nat := Nat.pow 2 k

def tenTo (k : Nat) : Nat := Nat.pow 10 k

def zero : Binary64 := ⟨0,-1074⟩

def roundDiv (num den : Nat) : Nat :=
  let q := num / den
  let twice := 2 * (num % den)
  if twice > den || (twice == den && q % 2 == 1) then q + 1 else q

def scaled (num den : Nat) (shift : Int) : Nat × Nat :=
  if 0 ≤ shift then (num * twoTo shift.toNat,den) else (num,den * twoTo (-shift).toNat)

def logRatio (num den : Nat) : Int :=
  let k : Int := (num.log2 : Int) - den.log2
  let (a,b) := scaled num den (-k)
  if b ≤ a then k else k - 1

/-- The double nearest to a quotient, halves going to the even mantissa; none if the quotient
lies beyond the largest double. -/
def ofRatio (num den : Nat) : Option Binary64 :=
  if num = 0 then some zero
  else
    let exponent := max (logRatio num den - 52) (-1074)
    let (a,b) := scaled num den (-exponent)
    let mantissa := roundDiv a b
    let rounded : Binary64 :=
      if mantissa = twoTo 53 then ⟨twoTo 52,exponent + 1⟩ else ⟨mantissa,exponent⟩
    if rounded.exponent > 971 then none else some rounded

def ratio (x : Binary64) : Nat × Nat :=
  scaled x.mantissa 1 x.exponent

def mul (x y : Binary64) : Option Binary64 :=
  let (a,b) := x.ratio
  let (c,d) := y.ratio
  ofRatio (a * c) (b * d)

def div (x y : Binary64) : Option Binary64 :=
  let (a,b) := x.ratio
  let (c,d) := y.ratio
  ofRatio (a * d) (b * c)

/-- Four times the ends of the interval of reals that round to the double, as multiples of
`2 ^ exponent`. Below a power of two the doubles lie twice as close. -/
def ends (x : Binary64) : Nat × Nat :=
  let below := if x.mantissa = twoTo 52 ∧ x.exponent > -1074 then 1 else 2
  (4 * x.mantissa - below,4 * x.mantissa + 2)

structure Decimal where
  digits : Nat
  exponent : Int
deriving DecidableEq, Repr

/-- Whether a decimal on the grid `10 ^ exponent` reads back as the double: it lies between
the ends, which belong to the interval when the mantissa is even. -/
def readsBack (x : Binary64) (d : Decimal) : Bool :=
  let (low,high) := x.ends
  let (a,b) := scaled (4 * d.digits) 1 (-x.exponent)
  let p := tenTo d.exponent.toNat
  let q := tenTo (-d.exponent).toNat
  if x.mantissa % 2 = 0 then low * b * q ≤ a * p && a * p ≤ high * b * q
  else low * b * q < a * p && a * p < high * b * q

/-- The decimal on the grid `10 ^ exponent` that reads back and lies nearest to the double,
if one does: of two at the same distance the even one. -/
def onGrid (x : Binary64) (exponent : Int) : Option Decimal :=
  let (a,b) := x.ratio
  let num := a * tenTo (-exponent).toNat
  let den := b * tenTo exponent.toNat
  let nearest : Decimal := ⟨roundDiv num den,exponent⟩
  let floor : Decimal := ⟨num / den,exponent⟩
  let next : Decimal := ⟨num / den + 1,exponent⟩
  if x.readsBack nearest then some nearest
  else if x.readsBack floor then some floor
  else if x.readsBack next then some next
  else none

def search (x : Binary64) (lead : Int) : (count : Nat) → Decimal
  | 0 => ⟨0,0⟩
  | count + 1 =>
    let exponent := lead - (17 - count : Nat) + 1
    (x.onGrid exponent).getD (search x lead count)

def leadFrom (a b : Nat) : (fuel : Nat) → Int → Int
  | 0, k => k
  | fuel + 1, k =>
    if b * tenTo k.toNat ≤ a * tenTo (-k).toNat then k else leadFrom a b fuel (k - 1)

def Decimal.strip : (fuel : Nat) → Decimal → Decimal
  | 0, d => d
  | fuel + 1, d =>
    if d.digits % 10 = 0 ∧ d.digits ≠ 0 then Decimal.strip fuel ⟨d.digits / 10,d.exponent + 1⟩
    else d

def shortest (x : Binary64) : Decimal :=
  if x.mantissa = 0 then ⟨0,0⟩
  else
    let (a,b) := x.ratio
    let log := logRatio a b
    let start := (log + 1) * 30103 / 100000 + 1
    (x.search (leadFrom a b 5 start) 17).strip 17

end Binary64

end PegCompiler
