import PegCompiler.Decimal.Binary64
import PegCompiler.Toml.Basic

/-! Reading TOML: comments, bare and quoted keys, one-line strings, integers, floats, booleans,
arrays and headers. Each reader takes a value off the front of a text and hands back what is
left. -/
namespace PegCompiler.Toml

def isSpace (c : Char) : Bool := c == ' ' || c == '\t'

def skipSpaces (cs : List Char) : List Char := cs.dropWhile isSpace

def isPlain (c : Char) : Bool :=
  c == '\t' || (0x20 ≤ c.toNat && c.toNat != 0x7F)

def skipComment : List Char → List Char
  | '#' :: rest => rest.dropWhile isPlain
  | cs => cs

def endLine : List Char → Option (List Char)
  | [] => some []
  | '\n' :: rest => some rest
  | '\r' :: '\n' :: rest => some rest
  | _ => none

def finishLine (cs : List Char) : Option (List Char) :=
  endLine (skipComment (skipSpaces cs))

def skipBreaks : (fuel : Nat) → List Char → List Char
  | 0, cs => cs
  | fuel + 1, cs =>
    match skipComment (skipSpaces cs) with
    | '\n' :: rest => skipBreaks fuel rest
    | '\r' :: '\n' :: rest => skipBreaks fuel rest
    | other => other

def hexDigitValue (c : Char) : Option Nat :=
  if '0' ≤ c ∧ c ≤ '9' then some (c.toNat - 48)
  else if 'a' ≤ c ∧ c ≤ 'f' then some (c.toNat - 87)
  else if 'A' ≤ c ∧ c ≤ 'F' then some (c.toNat - 55)
  else none

def charOfHex (digits : List Char) : Option Char := do
  let values ← digits.mapM hexDigitValue
  let n := values.foldl (fun acc d => acc * 16 + d) 0
  if n < 0xD800 ∨ (0xE000 ≤ n ∧ n < 0x110000) then some (Char.ofNat n) else none

def escaped (c : Char) : Option Char :=
  if c = '"' ∨ c = '\\' then some c
  else if c = 'b' then some '\x08'
  else if c = 't' then some '\t'
  else if c = 'n' then some '\n'
  else if c = 'f' then some '\x0c'
  else if c = 'r' then some '\r'
  else none

def basicString : List Char → Option (List Char × List Char)
  | [] => none
  | '"' :: rest => some ([],rest)
  | '\\' :: 'u' :: a :: b :: c :: d :: rest => do
    let e ← charOfHex [a,b,c,d]
    let (text,left) ← basicString rest
    return (e :: text,left)
  | '\\' :: 'U' :: a :: b :: c :: d :: e :: f :: g :: h :: rest => do
    let x ← charOfHex [a,b,c,d,e,f,g,h]
    let (text,left) ← basicString rest
    return (x :: text,left)
  | '\\' :: c :: rest => do
    let e ← escaped c
    let (text,left) ← basicString rest
    return (e :: text,left)
  | c :: rest =>
    if isPlain c ∧ c ≠ '\\' then do
      let (text,left) ← basicString rest
      return (c :: text,left)
    else none

def literalString : List Char → Option (List Char × List Char)
  | [] => none
  | '\'' :: rest => some ([],rest)
  | c :: rest =>
    if isPlain c then do
      let (text,left) ← literalString rest
      return (c :: text,left)
    else none

def isBareKey (c : Char) : Bool := c.isAlphanum || c == '_' || c == '-'

def keyPart : List Char → Option (String × List Char)
  | '"' :: rest => do
    let (text,left) ← basicString rest
    return (String.ofList text,left)
  | '\'' :: rest => do
    let (text,left) ← literalString rest
    return (String.ofList text,left)
  | cs =>
    match cs.takeWhile isBareKey with
    | [] => none
    | bare => some (String.ofList bare,cs.dropWhile isBareKey)

def keyPath : (fuel : Nat) → List Char → Option (List String × List Char)
  | 0, _ => none
  | fuel + 1, cs => do
    let (part,left) ← keyPart (skipSpaces cs)
    match skipSpaces left with
    | '.' :: left => do
      let (parts,left) ← keyPath fuel left
      return (part :: parts,left)
    | left => return ([part],left)

def digitRun (isDigit : Char → Bool) : List Char → Option (List Char × List Char)
  | c :: '_' :: rest =>
    if isDigit c then do
      let (digits,left) ← digitRun isDigit rest
      return (c :: digits,left)
    else none
  | c :: rest =>
    if isDigit c then
      match rest with
      | [] => some ([c],[])
      | next :: _ =>
        if isDigit next then do
          let (digits,left) ← digitRun isDigit rest
          return (c :: digits,left)
        else some ([c],rest)
    else none
  | [] => none

def valueOf (base : Nat) (digits : List Char) : Nat :=
  digits.foldl (fun acc c => acc * base + (hexDigitValue c).getD 0) 0

def signedWord (isNegative : Bool) (n : Nat) : Option Value :=
  if isNegative then (if n ≤ Binary64.twoTo 63 then some (.integer (-n)) else none)
  else if n < Binary64.twoTo 63 then some (.integer n)
  else none

def basedNumber (base : Nat) (isDigit : Char → Bool) (cs : List Char) :
    Option (Value × List Char) := do
  let (digits,left) ← digitRun isDigit cs
  return (← signedWord false (valueOf base digits),left)

def fraction : List Char → Option (Option (List Char) × List Char)
  | '.' :: rest => do
    let (digits,left) ← digitRun Char.isDigit rest
    return (some digits,left)
  | cs => some (none,cs)

def exponent : List Char → Option (Option (Bool × List Char) × List Char)
  | c :: rest =>
    if c = 'e' ∨ c = 'E' then do
      let (isNegative,rest) := match rest with
        | '-' :: rest => (true,rest)
        | '+' :: rest => (false,rest)
        | other => (false,other)
      let (digits,left) ← digitRun Char.isDigit rest
      return (some (isNegative,digits),left)
    else some (none,c :: rest)
  | [] => some (none,[])

def isFinite (digits : List Char) (power : Int) : Bool :=
  let significant := digits.dropWhile (· == '0')
  let lead : Int := significant.length + power
  if significant.isEmpty || lead < 309 then true
  else if lead > 309 then false
  else
    let n := valueOf 10 significant
    (Binary64.ofRatio (n * Binary64.tenTo power.toNat) (Binary64.tenTo (-power).toNat)).isSome

def decimalNumber (isNegative : Bool) (cs : List Char) : Option (Value × List Char) := do
  let (whole,left) ← digitRun Char.isDigit cs
  if 1 < whole.length ∧ whole.head? = some '0' then none
  else
    let (behind,left) ← fraction left
    let (power,left) ← exponent left
    match behind, power with
    | none, none => return (← signedWord isNegative (valueOf 10 whole),left)
    | _, _ =>
      let digits := behind.getD []
      let shift : Int := match power with
        | none => 0
        | some (isMinus,e) => if isMinus then -(valueOf 10 e) else valueOf 10 e
      if isNegative || isFinite (whole ++ digits) (shift - digits.length) then
        return (.float,left)
      else none

def unsignedNumber (isNegative : Bool) : List Char → Option (Value × List Char)
  | 'i' :: 'n' :: 'f' :: rest => some (.float,rest)
  | 'n' :: 'a' :: 'n' :: rest => some (.float,rest)
  | cs => decimalNumber isNegative cs

def isBinaryDigit (c : Char) : Bool := c == '0' || c == '1'

def isOctalDigit (c : Char) : Bool := '0' ≤ c && c ≤ '7'

def isHexDigit (c : Char) : Bool := (hexDigitValue c).isSome

def scalar : List Char → Option (Value × List Char)
  | '"' :: rest => do
    let (text,left) ← basicString rest
    return (.string (String.ofList text),left)
  | '\'' :: rest => do
    let (text,left) ← literalString rest
    return (.string (String.ofList text),left)
  | 't' :: 'r' :: 'u' :: 'e' :: rest => some (.boolean true,rest)
  | 'f' :: 'a' :: 'l' :: 's' :: 'e' :: rest => some (.boolean false,rest)
  | '0' :: 'x' :: rest => basedNumber 16 isHexDigit rest
  | '0' :: 'o' :: rest => basedNumber 8 isOctalDigit rest
  | '0' :: 'b' :: rest => basedNumber 2 isBinaryDigit rest
  | '-' :: rest => unsignedNumber true rest
  | '+' :: rest => unsignedNumber false rest
  | cs => unsignedNumber false cs

mutual

def value : (fuel : Nat) → List Char → Option (Value × List Char)
  | 0, _ => none
  | fuel + 1, '[' :: rest => do
    let (items,left) ← items fuel rest
    return (.array items,left)
  | _ + 1, cs => scalar cs

def items : (fuel : Nat) → List Char → Option (List Value × List Char)
  | 0, _ => none
  | fuel + 1, cs =>
    match skipBreaks cs.length cs with
    | ']' :: left => some ([],left)
    | cs => do
      let (item,left) ← value fuel cs
      match skipBreaks left.length left with
      | ']' :: left => return ([item],left)
      | ',' :: left => do
        let (rest,left) ← items fuel left
        return (item :: rest,left)
      | _ => none

end

structure Document where
  root : Toml := []
  here : List String := []

namespace Document

def header (doc : Document) (cs : List Char) : Option (Document × List Char) := do
  let (path,left) ← keyPath cs.length cs
  match left with
  | ']' :: left => do
    let root ← descend (openTable (path.getLast?.getD "")) path.dropLast doc.root
    return (⟨root,path⟩,left)
  | _ => none

def elementHeader (doc : Document) (cs : List Char) : Option (Document × List Char) := do
  let (path,left) ← keyPath cs.length cs
  match left with
  | ']' :: ']' :: left => do
    let root ← descend (openElement (path.getLast?.getD "")) path.dropLast doc.root
    return (⟨root,path⟩,left)
  | _ => none

def entry (doc : Document) (cs : List Char) : Option (Document × List Char) := do
  let (path,left) ← keyPath cs.length cs
  match left with
  | '=' :: left => do
    let cs := skipSpaces left
    let (v,left) ← value (2 * cs.length + 2) cs
    let root ← descend (assign v path) doc.here doc.root
    return ({ doc with root },left)
  | _ => none

def line (doc : Document) (cs : List Char) : Option (Document × List Char) :=
  match cs with
  | [] => some (doc,[])
  | '[' :: '[' :: rest => doc.elementHeader rest
  | '[' :: rest => doc.header rest
  | c :: rest =>
    if c = '#' ∨ c = '\n' ∨ c = '\r' then some (doc,c :: rest) else doc.entry (c :: rest)

def lines : (fuel : Nat) → Document → List Char → Option Document
  | _, doc, [] => some doc
  | 0, _, _ :: _ => none
  | fuel + 1, doc, cs => do
    let (doc,left) ← doc.line (skipSpaces cs)
    lines fuel doc (← finishLine left)

end Document

def parse (text : String) : Option Toml :=
  let cs := match text.toList with
    | '\ufeff' :: rest => rest
    | cs => cs
  (Document.lines cs.length {} cs).map (·.root)

end PegCompiler.Toml
