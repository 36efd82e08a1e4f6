/-! Bodies of string literals and of bracketed character classes in the generated source.
A string body holds only characters below U+0080: control characters and all others are
written as UTF-16 escapes. -/
namespace PegCompiler.Target

def hexDigit (n : Nat) : Char :=
  if n < 10 then Char.ofNat (48 + n) else Char.ofNat (55 + n)

def utf16 (c : Char) : List Nat :=
  if c.toNat < 0x10000 then [c.toNat]
  else [0xD800 + (c.toNat - 0x10000) / 0x400,0xDC00 + (c.toNat - 0x10000) % 0x400]

def unitEscape (u : Nat) : List Char :=
  ['\\','u',hexDigit (u / 0x1000 % 16),hexDigit (u / 0x100 % 16),hexDigit (u / 0x10 % 16),
    hexDigit (u % 16)]

def escapeChar (c : Char) : List Char :=
  if c = '\\' then ['\\','\\']
  else if c = '"' then ['\\','"']
  else if c = '\x08' then ['\\','b']
  else if c = '\t' then ['\\','t']
  else if c = '\n' then ['\\','n']
  else if c = '\x0c' then ['\\','f']
  else if c = '\r' then ['\\','r']
  else if c.toNat < 0x20 ∨ 0x80 ≤ c.toNat then (utf16 c).flatMap unitEscape
  else [c]

def stringBody (s : String) : String :=
  String.ofList (s.toList.flatMap escapeChar)

def stringLiteral (s : String) : String :=
  "\"" ++ stringBody s ++ "\""

def classChar (c : Char) : List Char :=
  if c = '\\' ∨ c = '[' ∨ c = ']' ∨ c = '^' ∨ c = '-' then ['\\',c] else [c]

def classText (s : String) : String :=
  String.ofList (s.toList.flatMap classChar)

end PegCompiler.Target
