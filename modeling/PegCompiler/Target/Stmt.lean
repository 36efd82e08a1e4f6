import PegCompiler.Target.Doc

/-! Statement trees: the shape of the generated source above the level of single lines. -/
namespace PegCompiler.Target

inductive Stmt where
  | line (code : String)
  | blank
  /-- A header, the indented body, then a footer. An empty footer is left out, so that a
  following clause can close the block. -/
  | block (header : String) (body : List Stmt) (footer : String)
  | ifThen (condition : String) (body : List Stmt)
  | ifElse (condition : String) (body otherwise : List Stmt)
deriving Inhabited

namespace Stmt

def bodyDoc : List Doc → Doc
  | [] => .empty
  | parts => .indent (.concat [.newline,Doc.lines parts])

mutual

def toDoc : Stmt → Doc
  | .line code => .text code
  | .blank => .empty
  | .block header body footer =>
    .concat ([.text header,bodyDoc (toDocs body)] ++
      if footer.isEmpty then [] else [.newline,.text footer])
  | .ifThen condition body =>
    .concat [.text s!"if ({condition}) \x7b",bodyDoc (toDocs body),.newline,.text "\x7d"]
  | .ifElse condition body otherwise =>
    .concat [.text s!"if ({condition}) \x7b",bodyDoc (toDocs body),.newline,
      .text "\x7d else \x7b",bodyDoc (toDocs otherwise),.newline,.text "\x7d"]

def toDocs : List Stmt → List Doc
  | [] => []
  | stmt :: rest => stmt.toDoc :: toDocs rest

end

def render (stmts : List Stmt) (step : UInt64) : Except Fault String :=
  (Doc.lines (toDocs stmts)).print step

end Stmt

end PegCompiler.Target
