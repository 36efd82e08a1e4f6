import PegCompiler.Json.Basic

/-! Compact JSON text: no blanks, members sorted by key, the last of several members with one
key. A double is written with the fewest digits that read back, positionally as long as its
first digit stands between the fifth place behind the point and the sixteenth before it. -/
namespace PegCompiler.Json

def lowerHex (n : Nat) : Char :=
  if n < 10 then Char.ofNat (48 + n) else Char.ofNat (87 + n)

def escape (c : Char) : List Char :=
  if c = '"' then ['\\','"']
  else if c = '\\' then ['\\','\\']
  else if c = '\x08' then ['\\','b']
  else if c = '\x0c' then ['\\','f']
  else if c = '\n' then ['\\','n']
  else if c = '\r' then ['\\','r']
  else if c = '\t' then ['\\','t']
  else if c.toNat < 0x20 then ['\\','u','0','0',lowerHex (c.toNat / 16),lowerHex (c.toNat % 16)]
  else [c]

def quoted (s : String) : String :=
  "\"" ++ String.ofList (s.toList.flatMap escape) ++ "\""

def doubleText (x : Binary64) : String :=
  let d := x.shortest
  let digits := (toString d.digits).toList
  let count := digits.length
  let point : Int := d.exponent + count
  if d.digits = 0 then "0.0"
  else if 0 ≤ d.exponent ∧ point ≤ 16 then
    String.ofList (digits ++ List.replicate d.exponent.toNat '0') ++ ".0"
  else if 0 < point ∧ point ≤ 16 then
    String.ofList (digits.take point.toNat) ++ "." ++ String.ofList (digits.drop point.toNat)
  else if -5 < point ∧ point ≤ 0 then
    "0." ++ String.ofList (List.replicate (-point).toNat '0' ++ digits)
  else
    let rest := String.ofList (digits.drop 1)
    String.ofList (digits.take 1) ++ (if rest.isEmpty then "" else "." ++ rest) ++ "e" ++
      toString (point - 1)

def numberText : Number → String
  | .natural n => toString n
  | .negated n => "-" ++ toString n
  | .double isNegative magnitude => (if isNegative then "-" else "") ++ doubleText magnitude

def insertMember (key text : String) : List (String × String) → List (String × String)
  | [] => [(key,text)]
  | (k,t) :: rest =>
    if key = k then (key,text) :: rest
    else if key < k then (key,text) :: (k,t) :: rest
    else (k,t) :: insertMember key text rest

def sortMembers (members : List (String × String)) : List (String × String) :=
  members.foldl (fun sorted m => insertMember m.1 m.2 sorted) []

mutual

def compact : Json → String
  | .null => "null"
  | .bool value => if value then "true" else "false"
  | .number value => numberText value
  | .string value => quoted value
  | .array items => "[" ++ ",".intercalate (compactItems items) ++ "]"
  | .object members =>
    let written := (sortMembers (compactMembers members)).map fun (key,text) =>
      quoted key ++ ":" ++ text
    "\x7b" ++ ",".intercalate written ++ "\x7d"
  | .unreadable => ""

def compactItems : List Json → List String
  | [] => []
  | item :: rest => item.compact :: compactItems rest

def compactMembers : List (String × Json) → List (String × String)
  | [] => []
  | (key,value) :: rest => (key,value.compact) :: compactMembers rest

end

end PegCompiler.Json
