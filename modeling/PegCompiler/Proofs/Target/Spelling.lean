import PegCompiler.Target.Imports

/-! Every class that types and code refer to is known, so spelling them never fails. -/
namespace PegCompiler.Target.Imports

def knownNames : List String := ["Object","Override","Number","String","CharSequence","Boolean",
  "Character","Void","Byte","Short","Integer","Long","Float","Double","IllegalAccessException",
  "IllegalArgumentException","NoSuchMethodException","SecurityException",
  "InvocationTargetException","Method","ByteBuffer","List","Pattern","IBaseParser","IParser",
  "Expected","Position","State","Rule","Grammar","NoSuchRuleException"]

theorem shortNames : classes.map shortName = knownNames := by
  decide +kernel

theorem resolve_ok (imports : Imports) {short : String} (known : short ∈ knownNames) :
    ∃ text, imports.resolve short = .ok text := by
  rw [← shortNames] at known
  unfold resolve
  split
  next missing =>
    obtain ⟨full,member,rfl⟩ := List.mem_map.mp known
    simpa using List.find?_eq_none.mp missing full member
  next full _ => exact ⟨_,rfl⟩

def className (imports : Imports) (short : String) : String :=
  match imports.resolve short with
  | .ok text => text
  | .error _ => ""

theorem resolve_eq (imports : Imports) {short : String} (known : short ∈ knownNames) :
    imports.resolve short = .ok (imports.className short) := by
  obtain ⟨text,resolved⟩ := imports.resolve_ok known
  simp only [className,resolved]

/-- The boxed class of every primitive type is known. -/
theorem boxedName_known {name boxedClass : String} (boxed : boxedName name = some boxedClass) :
    boxedClass ∈ knownNames := by
  have all : ∀ entry ∈ primitives, entry.2 ∈ knownNames := by
    simp [primitives,knownNames]
  obtain ⟨entry,found,rfl⟩ := Option.map_eq_some_iff.mp boxed
  exact all entry (List.mem_of_find?_eq_some found)

theorem spell_ok (imports : Imports) (boxed : Bool) (ty : Ty) :
    ∃ text, ty.spell imports.resolve boxed = .ok text := by
  have known {short : String} (member : short ∈ knownNames) := imports.resolve_ok member
  induction ty generalizing boxed with
  | object => simpa only [Ty.spell] using known (by simp [knownNames])
  | char =>
    cases boxed with
    | false => exact ⟨_,rfl⟩
    | true => simpa only [Ty.spell] using known (by simp [knownNames])
  | slice => simpa only [Ty.spell] using known (by simp [knownNames])
  | list elem ih =>
    obtain ⟨list,listed⟩ : ∃ text, imports.resolve "List" = .ok text := known (by simp [knownNames])
    obtain ⟨inner,spelled⟩ := ih true
    simp only [Ty.spell,listed,spelled]
    exact ⟨_,rfl⟩
  | option inner ih => simpa only [Ty.spell] using ih true
  | named name =>
    cases boxed with
    | false => exact ⟨_,rfl⟩
    | true =>
      cases found : boxedName name with
      | none => simp only [Ty.spell,found]; exact ⟨_,rfl⟩
      | some boxedClass => simpa only [Ty.spell,found] using known (boxedName_known found)
  | phantom rule => simpa only [Ty.spell] using known (by simp [knownNames])

def spelling (imports : Imports) (ty : Ty) : String :=
  match imports.render ty with
  | .ok text => text
  | .error _ => ""

theorem render_eq (imports : Imports) (ty : Ty) : imports.render ty = .ok (imports.spelling ty) := by
  obtain ⟨text,spelled⟩ := imports.spell_ok false ty
  simp only [spelling,render,spelled]

end PegCompiler.Target.Imports
