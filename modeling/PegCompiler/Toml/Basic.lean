/-! Tables of a TOML document. A table remembers how it came about, because that decides
whether it may be opened again or extended. -/
namespace PegCompiler

namespace Toml

inductive Value where
  | string (value : String)
  | integer (value : Int)
  | float
  | boolean (value : Bool)
  | array (items : List Value)
deriving Inhabited

inductive Origin where
  | path
  | header
  | dotted
deriving DecidableEq, Repr

inductive Node where
  | value (v : Value)
  | table (origin : Origin) (entries : List (String × Node))
  | tables (elements : List (List (String × Node)))

end Toml

abbrev Toml := List (String × Toml.Node)

namespace Toml

def put (t : Toml) (key : String) (node : Node) : Toml :=
  t.map fun entry => if entry.1 == key then (key,node) else entry

/-- Applies a change to the table at the end of a path. Tables missing on the way are made;
an array of tables stands for its last element. -/
def descend (change : Toml → Option Toml) : List String → Toml → Option Toml
  | [], t => change t
  | key :: rest, t =>
    match t.lookup key with
    | none => do
      let inner ← descend change rest []
      return t ++ [(key,.table .path inner)]
    | some (.table origin inner) => do
      let inner ← descend change rest inner
      return t.put key (.table origin inner)
    | some (.tables elements) => do
      let last ← descend change rest (elements.getLast?.getD [])
      return t.put key (.tables (elements.dropLast ++ [last]))
    | some (.value _) => none

def openTable (key : String) (t : Toml) : Option Toml :=
  match t.lookup key with
  | none => some (t ++ [(key,.table .header [])])
  | some (.table .path entries) => some (t.put key (.table .header entries))
  | _ => none

def openElement (key : String) (t : Toml) : Option Toml :=
  match t.lookup key with
  | none => some (t ++ [(key,.tables [[]])])
  | some (.tables elements) => some (t.put key (.tables (elements ++ [[]])))
  | _ => none

/-- Stores a value under a dotted key. No key may be stored twice, and dotted keys extend only
tables that dotted keys have made. -/
def assign (value : Value) : List String → Toml → Option Toml
  | [], _ => none
  | [key], t => if (t.lookup key).isSome then none else some (t ++ [(key,.value value)])
  | key :: rest, t =>
    match t.lookup key with
    | none => do
      let inner ← assign value rest []
      return t ++ [(key,.table .dotted inner)]
    | some (.table origin inner) =>
      if origin = .header ∨ (origin = .path ∧ rest.length = 1) then none
      else do
        let inner ← assign value rest inner
        return t.put key (.table origin inner)
    | _ => none

end Toml

end PegCompiler
