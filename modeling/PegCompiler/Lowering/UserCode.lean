import PegCompiler.Lowering.Interner

/-! Code of the grammar's author, hoisted into methods. Methods are grouped by namespace for
printing but numbered across all namespaces, each kind on its own. -/
namespace PegCompiler

structure UserMethod where
  ns : Option String
  type : String
  body : String
  params : List (String × String)
deriving DecidableEq, Repr

inductive MethodKind where
  | predicate
  | action
deriving DecidableEq, Repr

namespace MethodKind

def stem : MethodKind → String
  | .predicate => "is"
  | .action => "f"

end MethodKind

structure Namespace where
  name : Option String
  initializer : Option String := none
deriving DecidableEq, Repr

structure UserCode where
  namespaces : List Namespace := []
  predicates : Interner UserMethod := {}
  actions : Interner UserMethod := {}

namespace UserCode

def mention (code : UserCode) (ns : Option String) : UserCode :=
  if code.namespaces.any (·.name == ns) then code
  else { code with namespaces := code.namespaces ++ [{ name := ns }] }

def setInitializer (code : UserCode) (ns : Option String) (text : String) : UserCode :=
  let known := code.mention ns
  { known with
    namespaces := known.namespaces.map fun n =>
      if n.name == ns then { n with initializer := some text } else n }

def initializer (code : UserCode) (ns : Option String) : Option String :=
  (code.namespaces.find? (·.name == ns)).bind (·.initializer)

def methods (code : UserCode) : MethodKind → Interner UserMethod
  | .predicate => code.predicates
  | .action => code.actions

def add (code : UserCode) (kind : MethodKind) (method : UserMethod) : Nat × UserCode :=
  let known := code.mention method.ns
  match kind with
  | .predicate =>
    let (index,predicates) := known.predicates.intern method
    (index,{ known with predicates })
  | .action =>
    let (index,actions) := known.actions.intern method
    (index,{ known with actions })

def call (kind : MethodKind) (index : Nat) (arguments : List (String × String)) : String :=
  let passed := arguments.map fun (type,localName) => s!"({type}){localName}"
  kind.stem ++ toString index ++ "(" ++ ", ".intercalate passed ++ ")"

def definition (kind : MethodKind) (index : Nat) (method : UserMethod) : String :=
  let params := method.params.map fun (name,type) => s!"{type} {name}"
  method.type ++ " " ++ kind.stem ++ toString index ++ "(" ++ ", ".intercalate params ++
    ") \x7b" ++ method.body ++ "\x7d"

def definitions (code : UserCode) (kind : MethodKind) (ns : Option String) : List String :=
  ((code.methods kind).toList.filter fun m => m.2.ns == ns).map fun (index,method) =>
    definition kind index method

end UserCode

end PegCompiler
