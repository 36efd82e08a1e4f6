/-! Positions and ranges of the grammar text. A range built from two offsets lies on the
first line; its end must not precede its start, and its columns must fit in a word. -/
namespace PegCompiler

structure Position where
  offset : UInt32 := 0
  line : UInt32 := 1
  column : UInt32 := 1
deriving DecidableEq, Repr

instance : Inhabited Position := ⟨{}⟩

/-- A range of the grammar text, `start` included and `stop` excluded. A node without a
range of its own has the empty range at the very start. -/
structure Location where
  start : Position := {}
  stop : Position := {}
deriving DecidableEq, Repr

instance : Inhabited Location := ⟨{}⟩

inductive LocationError where
  | reversed (start stop : UInt32)
  | overflow
deriving DecidableEq, Repr

namespace LocationError

def message : LocationError → String
  | .reversed start stop => s!"location start ({start.toNat}) must be <= end ({stop.toNat})"
  | .overflow => "attempt to add with overflow"

end LocationError

namespace Location

def ofOffsets (start stop : UInt32) : Except LocationError Location :=
  if stop < start then .error (.reversed start stop)
  else if stop.toNat + 1 = UInt32.size then .error .overflow
  else .ok { start := ⟨start,1,start + 1⟩, stop := ⟨stop,1,stop + 1⟩ }

def range (l : Location) : Nat × Nat :=
  (l.start.offset.toNat,l.stop.offset.toNat)

def isEmpty (l : Location) : Bool :=
  l.start.offset == l.stop.offset

def merge (a b : Location) : Location where
  start := if b.start.offset < a.start.offset then b.start else a.start
  stop := if b.stop.offset > a.stop.offset then b.stop else a.stop

def display (l : Location) : String :=
  s!"{l.start.line.toNat}:{l.start.column.toNat}"

end Location

end PegCompiler
