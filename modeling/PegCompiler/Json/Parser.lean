import PegCompiler.Json.Numeral

/-! Reading JSON text. The reader is strict: no comments, no comma at the end of a list, no
leading zeros, no control characters inside strings. A text that ends too early is told apart
from one that goes wrong. -/
namespace PegCompiler.Json

/-! Each reader takes a value off the front of a text and hands back what is left. -/

inductive ParseError where
  | incomplete
  | malformed
deriving DecidableEq, Repr

def isBlank (c : Char) : Bool :=
  c == ' ' || c == '\n' || c == '\t' || c == '\r'

def skipBlanks (cs : List Char) : List Char :=
  cs.dropWhile isBlank

def hexValue (c : Char) : Option Nat :=
  if '0' ≤ c ∧ c ≤ '9' then some (c.toNat - 48)
  else if 'a' ≤ c ∧ c ≤ 'f' then some (c.toNat - 87)
  else if 'A' ≤ c ∧ c ≤ 'F' then some (c.toNat - 55)
  else none

def codeUnit (a b c d : Char) : Option Nat := do
  return (((← hexValue a) * 16 + (← hexValue b)) * 16 + (← hexValue c)) * 16 + (← hexValue d)

inductive Piece where
  | char (c : Char)
  | unit (n : Nat)
deriving DecidableEq, Repr

def shortEscape (c : Char) : Option Char :=
  if c = '"' ∨ c = '\\' ∨ c = '/' then some c
  else if c = 'b' then some '\x08'
  else if c = 'f' then some '\x0c'
  else if c = 'n' then some '\n'
  else if c = 'r' then some '\r'
  else if c = 't' then some '\t'
  else none

/-- Reads a string up to its closing quote. An escape by number needs four digits; where
fewer than four bytes are left the text counts as ended. -/
def readPieces : List Char → Except ParseError (List Piece × List Char)
  | [] => .error .incomplete
  | '"' :: rest => .ok ([],rest)
  | '\\' :: 'u' :: a :: b :: c :: d :: rest =>
    match codeUnit a b c d with
    | none => .error .malformed
    | some n => do
      let (pieces,left) ← readPieces rest
      return (.unit n :: pieces,left)
  | '\\' :: 'u' :: short =>
    if (String.ofList short).utf8ByteSize < 4 then .error .incomplete else .error .malformed
  | '\\' :: c :: rest =>
    match shortEscape c with
    | none => .error .malformed
    | some e => do
      let (pieces,left) ← readPieces rest
      return (.char e :: pieces,left)
  | ['\\'] => .error .incomplete
  | c :: rest =>
    if c.toNat < 0x20 then .error .malformed
    else do
      let (pieces,left) ← readPieces rest
      return (.char c :: pieces,left)

/-- The characters that pieces denote. A leading surrogate must be followed by a trailing
one, and a trailing one must follow a leading one. -/
def joinPieces : List Piece → Option (List Char)
  | [] => some []
  | .char c :: rest => (joinPieces rest).map (c :: ·)
  | .unit high :: .unit low :: rest =>
    if 0xD800 ≤ high ∧ high ≤ 0xDBFF then
      if 0xDC00 ≤ low ∧ low ≤ 0xDFFF then
        (joinPieces rest).map
          (Char.ofNat (0x10000 + (high - 0xD800) * 0x400 + (low - 0xDC00)) :: ·)
      else none
    else if 0xDC00 ≤ high ∧ high ≤ 0xDFFF then none
    else (joinPieces (.unit low :: rest)).map (Char.ofNat high :: ·)
  | .unit n :: rest =>
    if 0xD800 ≤ n ∧ n ≤ 0xDFFF then none else (joinPieces rest).map (Char.ofNat n :: ·)

def readString (cs : List Char) : Except ParseError (Option String × List Char) := do
  let (pieces,left) ← readPieces cs
  return ((joinPieces pieces).map String.ofList,left)

def readDigits (cs : List Char) : List Nat × List Char :=
  ((cs.takeWhile Char.isDigit).map fun c => c.toNat - 48,cs.dropWhile Char.isDigit)

def readSomeDigits (cs : List Char) : Except ParseError (List Nat × List Char) :=
  match readDigits cs with
  | ([],[]) => .error .incomplete
  | ([],_ :: _) => .error .malformed
  | (digits,left) => .ok (digits,left)

def readWhole (cs : List Char) : Except ParseError (List Nat × List Char) := do
  let (digits,left) ← readSomeDigits cs
  match digits with
  | 0 :: _ :: _ => .error .malformed
  | _ => return (digits,left)

def readFraction : List Char → Except ParseError (Option (List Nat) × List Char)
  | '.' :: rest => do
    let (digits,left) ← readSomeDigits rest
    return (some digits,left)
  | cs => .ok (none,cs)

def readSignedDigits : List Char → Except ParseError ((Bool × List Nat) × List Char)
  | '-' :: rest => do
    let (digits,left) ← readSomeDigits rest
    return ((true,digits),left)
  | '+' :: rest => do
    let (digits,left) ← readSomeDigits rest
    return ((false,digits),left)
  | cs => do
    let (digits,left) ← readSomeDigits cs
    return ((false,digits),left)

def readExponent : List Char → Except ParseError (Option (Bool × List Nat) × List Char)
  | c :: rest =>
    if c = 'e' ∨ c = 'E' then do
      let (exponent,left) ← readSignedDigits rest
      return (some exponent,left)
    else .ok (none,c :: rest)
  | [] => .ok (none,[])

def readNumeral (isNegative : Bool) (cs : List Char) : Except ParseError (Json × List Char) := do
  let (whole,left) ← readWhole cs
  let (fraction,left) ← readFraction left
  let (exponent,left) ← readExponent left
  match (Numeral.mk isNegative whole fraction exponent).value with
  | some n => return (.number n,left)
  | none => return (.unreadable,left)

def readWord (value : Json) : List Char → List Char → Except ParseError (Json × List Char)
  | [], left => .ok (value,left)
  | _ :: _, [] => .error .incomplete
  | c :: word, d :: left => if c = d then readWord value word left else .error .malformed

def consMember (key : Option String) (value : Json) : Json → Json
  | .object members =>
    match key with
    | some k => .object ((k,value) :: members)
    | none => .unreadable
  | other => other

mutual

def readValue : (fuel : Nat) → List Char → Except ParseError (Json × List Char)
  | 0, _ => .error .malformed
  | fuel + 1, cs =>
    match skipBlanks cs with
    | [] => .error .incomplete
    | '"' :: rest => do
      let (text,left) ← readString rest
      match text with
      | some s => return (.string s,left)
      | none => return (.unreadable,left)
    | '[' :: rest =>
      match skipBlanks rest with
      | ']' :: left => .ok (.array [],left)
      | first => do
        let (items,left) ← readItems fuel first
        return (.array items,left)
    | '\x7b' :: rest =>
      match skipBlanks rest with
      | '\x7d' :: left => .ok (.object [],left)
      | first => readMembers fuel first
    | '-' :: rest => readNumeral true rest
    | 'n' :: rest => readWord .null ['u','l','l'] rest
    | 't' :: rest => readWord (.bool true) ['r','u','e'] rest
    | 'f' :: rest => readWord (.bool false) ['a','l','s','e'] rest
    | c :: rest => if c.isDigit then readNumeral false (c :: rest) else .error .malformed

def readItems : (fuel : Nat) → List Char → Except ParseError (List Json × List Char)
  | 0, _ => .error .malformed
  | fuel + 1, cs => do
    let (item,left) ← readValue fuel cs
    match skipBlanks left with
    | [] => .error .incomplete
    | ']' :: left => return ([item],left)
    | ',' :: left =>
      let (items,left) ← readItems fuel left
      return (item :: items,left)
    | _ => .error .malformed

def readMembers : (fuel : Nat) → List Char → Except ParseError (Json × List Char)
  | 0, _ => .error .malformed
  | fuel + 1, cs =>
    match skipBlanks cs with
    | [] => .error .incomplete
    | '"' :: rest => do
      let (key,left) ← readString rest
      match skipBlanks left with
      | [] => .error .incomplete
      | ':' :: left =>
        let (value,left) ← readValue fuel left
        match skipBlanks left with
        | [] => .error .incomplete
        | '\x7d' :: left => return (consMember key value (.object []),left)
        | ',' :: left =>
          let (others,left) ← readMembers fuel left
          return (consMember key value others,left)
        | _ => .error .malformed
      | _ => .error .malformed
    | _ => .error .malformed

end

def parse (text : String) : Except ParseError Json := do
  let cs := text.toList
  let (value,left) ← readValue (2 * cs.length + 2) cs
  if (skipBlanks left).isEmpty then return value else .error .malformed

end PegCompiler.Json
