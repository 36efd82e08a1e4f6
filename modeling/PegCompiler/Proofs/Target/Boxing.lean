import PegCompiler.Proofs.Target.Spelling
import Mathlib.Logic.Function.Iterate

/-! Where types are boxed. The spelling of a type is a primitive name only if its values are
primitives. As the element of a list or as an optional value a type is boxed, however deep it lies. -/
namespace PegCompiler

def Ty.elements : Ty → List Ty
  | .list elem => elem :: elem.elements
  | .option inner => inner.elements
  | _ => []

namespace Target.Imports

def boxedSpelling (imports : Imports) (ty : Ty) : String :=
  match imports.renderBoxed ty with
  | .ok text => text
  | .error _ => ""

def listOf (imports : Imports) (argument : String) : String :=
  imports.className "List" ++ "<" ++ argument ++ ">"

variable {imports : Imports}

theorem renderBoxed_eq (imports : Imports) (ty : Ty) :
    imports.renderBoxed ty = .ok (imports.boxedSpelling ty) := by
  obtain ⟨text,spelled⟩ := imports.spell_ok true ty
  simp only [boxedSpelling,renderBoxed,spelled]

/-- Two layers of options inside two lists. -/
example : Imports.spelling ⟨true⟩ (.list (.option (.option (.list .char)))) =
    "java.util.List<java.util.List<java.lang.Character>>" := by
  decide +kernel

end Target.Imports

end PegCompiler
