/-! Names of the generated source: subroutines of rules and constants of entry points. -/
namespace PegCompiler.Target

def subroutineStem : String := "parse$"

def subroutineName (rule : String) : String :=
  subroutineStem ++ rule

/-- One step of `upperSnake`: an upper-case letter that starts a run gets an underscore in
front, unless nothing was written yet. -/
def upperSnakeChars : (started inRun : Bool) → List Char → List Char
  | _, _, [] => []
  | started, inRun, c :: rest =>
    if c.isUpper then
      if started && !inRun then '_' :: c :: upperSnakeChars true true rest
      else c :: upperSnakeChars true true rest
    else c.toUpper :: upperSnakeChars true false rest

def upperSnake (s : String) : String :=
  String.ofList (upperSnakeChars false false s.toList)

end PegCompiler.Target
