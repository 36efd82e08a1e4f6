import PegCompiler.Target.Fault
import PegCompiler.Types.Ty

/-! The classes that the generated source may name. They are spelled by their short names
under a list of imports, or by their full names throughout. -/
namespace PegCompiler.Target

def classes : List String := [
  "java.lang.Object",
  "java.lang.Override",
  "java.lang.Number",
  "java.lang.String",
  "java.lang.CharSequence",
  "java.lang.Boolean",
  "java.lang.Character",
  "java.lang.Void",
  "java.lang.Byte",
  "java.lang.Short",
  "java.lang.Integer",
  "java.lang.Long",
  "java.lang.Float",
  "java.lang.Double",
  "java.lang.IllegalAccessException",
  "java.lang.IllegalArgumentException",
  "java.lang.NoSuchMethodException",
  "java.lang.SecurityException",
  "java.lang.reflect.InvocationTargetException",
  "java.lang.reflect.Method",
  "java.nio.ByteBuffer",
  "java.util.List",
  "java.util.regex.Pattern",
  "org.pegjs.java.IBaseParser",
  "org.pegjs.java.IParser",
  "org.pegjs.java.Expected",
  "org.pegjs.java.Position",
  "org.pegjs.java.State",
  "org.pegjs.java.annotations.Rule",
  "org.pegjs.java.annotations.Grammar",
  "org.pegjs.java.exceptions.NoSuchRuleException"]

def shortName (full : String) : String :=
  String.ofList (full.toList.reverse.takeWhile (· != '.')).reverse

structure Imports where
  fullNames : Bool
deriving DecidableEq, Repr

namespace Imports

def resolve (imports : Imports) (short : String) : Except Fault String :=
  match classes.find? fun full => shortName full == short with
  | none => .error (.unknownClass short)
  | some full => .ok (if imports.fullNames then full else short)

def declarations : List String :=
  classes.map fun full => "import " ++ full ++ ";"

def render (imports : Imports) (ty : Ty) : Except Fault String :=
  ty.spell imports.resolve false

def renderBoxed (imports : Imports) (ty : Ty) : Except Fault String :=
  ty.spell imports.resolve true

end Imports

end PegCompiler.Target
