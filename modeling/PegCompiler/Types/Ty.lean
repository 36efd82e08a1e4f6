import PegCompiler.Text.Blank

/-! Result types of grammar expressions and how the generated source spells them. Primitive
types have boxed classes, which stand wherever a class is needed. -/
namespace PegCompiler

inductive Ty where
  | object
  | char
  | slice
  | list (elem : Ty)
  | option (inner : Ty)
  | named (name : String)
  | phantom (rule : String)
deriving DecidableEq, Repr, Inhabited

def primitives : List (String × String) :=
  [("boolean","Boolean"),("char","Character"),("void","Void"),("byte","Byte"),
    ("short","Short"),("int","Integer"),("long","Long"),("float","Float"),
    ("double","Double")]

def boxedName (name : String) : Option String :=
  (primitives.find? fun p => p.1 == name).map (·.2)

namespace Ty

def union : List Ty → Ty
  | [] => .object
  | first :: rest => rest.foldl (fun acc t => if acc = t then acc else .object) first

def tuple (types : List Ty) : Ty :=
  .list (union types)

def ofName (name : String) : Ty :=
  let trimmed := Text.trim name
  if trimmed = "Object" then .object
  else if trimmed = "char" then .char
  else if trimmed = "CharSequence" then .slice
  else .named trimmed

def hasPhantom : Ty → Bool
  | .phantom _ => true
  | .list t => t.hasPhantom
  | .option t => t.hasPhantom
  | _ => false

def isPrimitive : Ty → Bool
  | .char => true
  | .named name => (boxedName name).isSome
  | _ => false

/-- Spells the type: `boxed` asks for a class in place of a primitive, and `resolve` spells
the known classes, which it may refuse. Authors' names stand as they are, and a phantom is
spelled as `Object`. -/
def spell {ε : Type} (resolve : String → Except ε String) : (boxed : Bool) → Ty → Except ε String
  | _, .object => resolve "Object"
  | _, .phantom _ => resolve "Object"
  | false, .char => .ok "char"
  | true, .char => resolve "Character"
  | _, .slice => resolve "CharSequence"
  | false, .named name => .ok name
  | true, .named name =>
    match boxedName name with
    | some boxedClass => resolve boxedClass
    | none => .ok name
  | _, .list elem => do
    let list ← resolve "List"
    let inner ← spell resolve true elem
    return list ++ "<" ++ inner ++ ">"
  | _, .option inner => spell resolve true inner

def display : Ty → String
  | .phantom rule => "?" ++ rule
  | ty =>
    match spell (ε := Empty) (fun name => .ok name) false ty with
    | .ok text => text

end Ty

end PegCompiler
