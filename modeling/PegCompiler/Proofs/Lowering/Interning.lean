import PegCompiler.Proofs.Target.Definitions

/-! Interners over any sequence of values. In whatever order values are interned, and however often,
an interner is the ordered set of them: each is kept once, in the order of first appearance, under a
number that never changes. Look-up, index and listing go by these numbers. -/
namespace PegCompiler.Interner

open Lowering (eraseDups_snoc)

theorem toList_mapIdx {α β : Type} (t : Interner α) (f : Nat → α → β) :
    (t.toList.map fun m => f m.1 m.2) = t.entries.mapIdx f := by
  rw [toList,List.map_map,List.mapIdx_eq_zipIdx_map]
  rfl

theorem index_grown {α : Type} {t u : Interner α} (grown : t.entries <+: u.entries) {value : α}
    {number : Nat} (known : t.index value = some number) : u.index value = some number := by
  have entry : t.get? number = some value := (t.in_step value number).mp known
  exact (u.in_step value number).mpr <| get?_of_prefix grown entry

variable {α : Type} [DecidableEq α]

def internAll (t : Interner α) : List α → List Nat × Interner α
  | [] => ([],t)
  | value :: rest =>
    let (number,t) := t.intern value
    let (numbers,t) := t.internAll rest
    (number :: numbers,t)

theorem internAll_cons (t : Interner α) (value : α) (rest : List α) :
    t.internAll (value :: rest) =
      ((t.intern value).1 :: ((t.intern value).2.internAll rest).1,
        ((t.intern value).2.internAll rest).2) := rfl

theorem index_intern (t : Interner α) (value : α) :
    (t.intern value).2.index value = some (t.intern value).1 :=
  (in_step _ _ _).mpr (t.get?_intern value)

theorem intern_known {t : Interner α} {value : α} {number : Nat}
    (known : t.index value = some number) : t.intern value = (number,t) := by
  unfold intern
  split
  next other found => rw [Option.some.inj (found.symm.trans known)]
  next missing => exact nomatch missing.symm.trans known

theorem intern_snoc {t : Interner α} {seen : List α} (held : t.entries = seen.eraseDups)
    (value : α) : (t.intern value).2.entries = (seen ++ [value]).eraseDups := by
  rw [intern_entries,eraseDups_snoc,held]
  simp only [List.mem_eraseDups]

theorem internAll_grows (t : Interner α) (values : List α) :
    t.entries <+: (t.internAll values).2.entries := by
  induction values generalizing t with
  | nil => exact List.prefix_rfl
  | cons value rest ih => exact (t.intern_prefix value).trans (ih _)

/-- Behind the distinct values seen before come those of the values that are new. -/
theorem internAll_entries {t : Interner α} {seen : List α} (held : t.entries = seen.eraseDups)
    (values : List α) : (t.internAll values).2.entries = (seen ++ values).eraseDups := by
  induction values generalizing t seen with
  | nil => simpa [internAll] using held
  | cons value rest ih =>
    have split : seen ++ value :: rest = seen ++ [value] ++ rest := by simp
    rw [split,internAll_cons,ih (intern_snoc held value)]

/-- Each value gets the number under which the index finds it in the end. -/
theorem internAll_index (t : Interner α) (values : List α) :
    (t.internAll values).1.map some = values.map (t.internAll values).2.index := by
  induction values generalizing t with
  | nil => rfl
  | cons value rest ih =>
    have kept := index_grown ((t.intern value).2.internAll_grows rest) (t.index_intern value)
    rw [internAll_cons,List.map_cons,List.map_cons,kept,ih]

theorem internAll_answer (t : Interner α) {values : List α} {place : Nat} {value : α}
    (asked : values[place]? = some value) : ∃ number,
      (t.internAll values).1[place]? = some number ∧
        (t.internAll values).2.index value = some number := by
  have answered := congrArg (·[place]?) (t.internAll_index values)
  simp only [List.getElem?_map,asked,Option.map_some] at answered
  obtain ⟨number,given,same⟩ := Option.map_eq_some_iff.mp answered
  exact ⟨number,given,same.symm⟩

/-- An interner as the ordered set of the values that it was given, one after another, and of the
numbers that it gave for them. -/
structure OrderedSet (values : List α) (numbers : List Nat) (t : Interner α) : Prop where
  entries : t.entries = values.eraseDups
  index : ∀ value number,
    t.index value = some number ↔ values.eraseDups[number]? = some value
  numbered : numbers = values.map values.eraseDups.idxOf
  again : ∀ (place : Nat) (value : α) (number : Nat),
    values[place]? = some value → numbers[place]? = some number →
    ∀ later : List α, (t.internAll later).2.intern value = (number,(t.internAll later).2)
  lookup : ∀ number, t.get? number = values.eraseDups[number]?
  listed : t.toList = values.eraseDups.mapIdx Prod.mk

/-- Interning values one after another makes the ordered set of them. -/
theorem internAll_refines_ordered_set (values : List α) :
    OrderedSet values (internAll {} values).1 (internAll {} values).2 := by
  have nothing : ({} : Interner α).entries = ([] : List α).eraseDups := rfl
  have entries : (internAll {} values).2.entries = values.eraseDups :=
    internAll_entries nothing values
  have answers := internAll_index {} values
  have answer {place : Nat} {value : α} := @internAll_answer _ _ {} values place value
  generalize internAll {} values = result at entries answers answer
  obtain ⟨numbers,t⟩ := result
  have index (value : α) (number : Nat) :
      t.index value = some number ↔ values.eraseDups[number]? = some value := by
    rw [t.in_step,entries]
  refine ⟨entries,index,?_,?_,fun number => by rw [get?,entries],?_⟩
  · have place (value : α) (member : value ∈ values) :
        t.index value = some (values.eraseDups.idxOf value) :=
      (index _ _).mpr (List.getElem?_idxOf (List.mem_eraseDups.mpr member))
    apply (List.map_inj_right fun _ _ => Option.some.inj).mp
    rw [answers,List.map_map]
    exact List.map_congr_left place
  · intro place value number asked given later
    obtain ⟨_,same,known⟩ := answer asked
    cases same.symm.trans given
    exact intern_known (index_grown (t.internAll_grows later) known)
  · rw [← entries,← toList_mapIdx]
    exact (List.map_id _).symm

example : (internAll {} ["a","b","a","c","b"]).1 = [0,1,0,2,1] := by decide

end PegCompiler.Interner
