/-! Ordered sets that number their members by first appearance. The values are kept in order, and an
index beside them finds the number of a value; both say the same. -/
namespace PegCompiler

theorem getElem?_concat_eq_some {α : Type} {values : List α} {last value : α} {number : Nat} :
    (values ++ [last])[number]? = some value ↔
      values[number]? = some value ∨ number = values.length ∧ last = value := by
  rw [List.getElem?_append]
  split
  next inside => simp [Nat.ne_of_lt inside]
  next outside =>
    have above := Nat.le_of_not_lt outside
    simp [List.getElem?_eq_none above,List.getElem?_singleton]
    omega

theorem nothing_in_step {α : Type} (value : α) (number : Nat) :
    (none : Option Nat) = some number ↔ ([] : List α)[number]? = some value := by
  simp

structure Interner (α : Type) where
  entries : List α := []
  index : α → Option Nat := fun _ => none
  in_step : ∀ (value : α) (number : Nat),
    index value = some number ↔ entries[number]? = some value := by exact nothing_in_step

namespace Interner

/-- The stores stay in step when both take in a value that is new. -/
theorem in_step_append {α : Type} [DecidableEq α] (t : Interner α) {value : α}
    (fresh : t.index value = none) (other : α) (number : Nat) :
    (if other = value then some t.entries.length else t.index other) = some number ↔
      (t.entries ++ [value])[number]? = some other := by
  rw [getElem?_concat_eq_some,← t.in_step]
  split
  next same => simp [same,fresh,eq_comm]
  next differs => simp [Ne.symm differs]

def append {α : Type} [DecidableEq α] (t : Interner α) (value : α)
    (fresh : t.index value = none) : Interner α where
  entries := t.entries ++ [value]
  index other := if other = value then some t.entries.length else t.index other
  in_step := t.in_step_append fresh

def intern {α : Type} [DecidableEq α] (t : Interner α) (value : α) : Nat × Interner α :=
  match known : t.index value with
  | some number => (number,t)
  | none => (t.entries.length,t.append value known)

def get? {α : Type} (t : Interner α) (index : Nat) : Option α :=
  t.entries[index]?

def size {α : Type} (t : Interner α) : Nat :=
  t.entries.length

def isEmpty {α : Type} (t : Interner α) : Bool :=
  t.entries.isEmpty

def toList {α : Type} (t : Interner α) : List (Nat × α) :=
  t.entries.zipIdx.map fun (value,index) => (index,value)

theorem index_eq_none {α : Type} {t : Interner α} {value : α} :
    t.index value = none ↔ value ∉ t.entries := by
  rw [Option.eq_none_iff_forall_ne_some,List.mem_iff_getElem?,not_exists]
  exact forall_congr' fun number => not_congr (t.in_step value number)

end Interner

end PegCompiler
