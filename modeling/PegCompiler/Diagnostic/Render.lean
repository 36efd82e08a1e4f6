import PegCompiler.Diagnostic
import PegCompiler.Json.Printer
import PegCompiler.Text.Blank

/-! How diagnostics are shown: as one line, as one line of JSON, or as a report that points
into the grammar text. -/
namespace PegCompiler

def endsLine (c : Char) : Bool :=
  c == '\n' || c == '\r' || c == '\x0b' || c == '\x0c' || c == '\u0085' || c == '\u2028' ||
    c == '\u2029'

/-- The lines of a text, each with the character that ends it; a carriage return and a line
feed end a line together. A text that ends with a line has no empty line behind it. -/
def splitLines (current : List Char) : List Char → List (List Char)
  | [] => if current.isEmpty then [] else [current.reverse]
  | '\r' :: '\n' :: rest => ('\n' :: '\r' :: current).reverse :: splitLines [] rest
  | c :: rest =>
    if endsLine c then (c :: current).reverse :: splitLines [] rest
    else splitLines (c :: current) rest

/-- The line that holds an offset: its number from 0, the offset within it, and its
characters. Behind the last character the last line counts. -/
def lineAt (offset number : Nat) : List (List Char) → Nat × Nat × List Char
  | [] => (number,offset,[])
  | [last] => (number,offset,last)
  | line :: rest =>
    if offset < line.length then (number,offset,line)
    else lineAt (offset - line.length) (number + 1) rest

def shownLine (line : List Char) : String :=
  String.ofList ((line.reverse.dropWhile Text.isBlank).reverse.map fun c =>
    if Text.isBlank c then ' ' else c)

namespace Diagnostic

/-- The part of a text with so many characters that a report points at: kept inside the text,
and at least one character long unless it lies at the very end. -/
def span (length : Nat) (l : Location) : Nat × Nat :=
  let start := min l.range.1 length
  let stop := max (min l.range.2 length) start
  if start = stop then (start,min (stop + 1) length) else (start,stop)

def oneLine (d : Diagnostic) : String :=
  let place := match d.location with
    | some l => s!" ({l.display})"
    | none => ""
  s!"{d.severity.label}[{d.severity.code}]: {d.message}{place}\n"

def toJson (d : Diagnostic) (fileName : String) : Json :=
  let number (n : UInt32) : Json := .number (.natural n.toNat)
  let spans := d.location.toList.map fun l =>
    Json.object [("start",number l.start.offset),("end",number l.stop.offset),
      ("line",number l.start.line),("column",number l.start.column)]
  .object [("code",.string d.severity.code),("severity",.string d.severity.label),
    ("message",.string d.message),("file",.string fileName),("spans",.array spans)]

def jsonLine (d : Diagnostic) (fileName : String) : String :=
  (d.toJson fileName).compact ++ "\n"

def pointer (column width : Nat) (message : String) : String × String :=
  let gap := "".pushn ' ' column
  if width = 0 then (gap ++ "│ ",gap ++ "╰─ " ++ message)
  else
    let middle := width / 2
    let after := width - middle - 1
    (gap ++ "".pushn '─' middle ++ "┬" ++ "".pushn '─' after ++ "  ",
      gap ++ "".pushn ' ' middle ++ "╰" ++ "".pushn '─' (after + 2) ++ " " ++ message)

def report (d : Diagnostic) (source : String) (l : Location) : String :=
  let chars := source.toList
  let (start,stop) := span chars.length l
  let (number,column,line) := lineAt start 0 (splitLines [] chars)
  let label := toString (number + 1)
  let margin := "".pushn ' ' (label.length + 2)
  let kind := match d.severity with
    | .error => "Error"
    | .info => "Advice"
  let (under,arrow) := pointer column (stop - start) d.message
  s!"[{d.severity.code}] {kind}: {d.message}\n" ++
    s!"{margin}╭─[ <unknown>:{label}:{column + 1} ]\n" ++
    s!"{margin}│\n" ++
    s!" {label} │ {shownLine line}\n" ++
    s!"{margin}│ {under}\n" ++
    s!"{margin}│ {arrow}\n" ++
    "".pushn '─' (label.length + 2) ++ "╯\n"

/-- How a diagnostic is shown: as JSON if asked for, as a report if it has a place in a text
that is at hand, else as one line. -/
def render (d : Diagnostic) (source : Option String) (fileName : String) (json : Bool) : String :=
  if json then d.jsonLine fileName
  else
    match source, d.location with
    | some text, some l => d.report text l
    | _, _ => d.oneLine

end Diagnostic

end PegCompiler
