import Mathlib.Data.List.Chain
import PegCompiler.Lowering.Rule

/-! How bracketed classes of patterns are read, and what the classes of a grammar come to. Reading
goes in phases: backslashes quote, signs are grouped to items, and a stack of open brackets gathers
the characters. An ampersand is not quoted, and two of them in a row intersect. -/
namespace PegCompiler

namespace ClassPart

def first : ClassPart → Char
  | .single c => c
  | .range lo _ => lo

def Has : ClassPart → Char → Prop
  | .single member, c => c = member
  | .range lo hi, c => lo ≤ c ∧ c ≤ hi

end ClassPart

namespace Target

inductive ClassSign where
  | plain (c : Char)
  | quoted (c : Char)
deriving DecidableEq

namespace ClassSign

def char : ClassSign → Char
  | .plain c => c
  | .quoted c => c

def isBracket : ClassSign → Bool
  | .plain '[' => true
  | .plain ']' => true
  | _ => false

end ClassSign

def classSigns : List Char → Option (List ClassSign)
  | [] => some []
  | ['\\'] => none
  | '\\' :: c :: rest => (classSigns rest).map (.quoted c :: ·)
  | c :: rest => (classSigns rest).map (.plain c :: ·)

inductive ClassItem where
  | opens (isNegated : Bool)
  | closes
  | meets
  | chars (lo hi : Char)
deriving DecidableEq

def classItems : List ClassSign → List ClassItem
  | [] => []
  | .plain '[' :: .plain '^' :: rest => .opens true :: classItems rest
  | .plain '[' :: rest => .opens false :: classItems rest
  | .plain ']' :: rest => .closes :: classItems rest
  | .plain '&' :: .plain '&' :: rest => .meets :: classItems rest
  | lo :: .plain '-' :: hi :: rest =>
    -- a hyphen in front of a bracket is a character of its own
    if hi.isBracket then .chars lo.char lo.char :: classItems (.plain '-' :: hi :: rest)
    else .chars lo.char hi.char :: classItems rest
  | c :: rest => .chars c.char c.char :: classItems rest

/-- An open bracket: what the operands in front of the last intersection have in common, and the
characters gathered behind it. -/
structure OpenClass where
  isNegated : Bool
  common : Char → Bool := fun _ => true
  gathered : Option (Char → Bool) := none

namespace OpenClass

def gather (o : OpenClass) (set : Char → Bool) : OpenClass :=
  { o with gathered := some fun c => (o.gathered.any fun earlier => earlier c) || set c }

def meet (o : OpenClass) : Option OpenClass :=
  o.gathered.map fun set => { o with common := fun c => o.common c && set c, gathered := none }

def close (o : OpenClass) : Option (Char → Bool) :=
  o.gathered.map fun set c => (o.common c && set c) != o.isNegated

end OpenClass

inductive ClassReading where
  | inside (innermost : OpenClass) (outer : List OpenClass)
  | complete (set : Char → Bool)

def ClassReading.step : ClassReading → ClassItem → Option ClassReading
  | .complete _, _ => none
  | .inside o outer, .opens isNegated => some (.inside { isNegated } (o :: outer))
  | .inside o outer, .chars lo hi =>
    if lo ≤ hi then some (.inside (o.gather fun c => lo ≤ c && c ≤ hi) outer) else none
  | .inside o outer, .meets => o.meet.map (.inside · outer)
  | .inside o outer, .closes => o.close.map fun set =>
    match outer with
    | [] => .complete set
    | around :: others => .inside (around.gather set) others

def readClass (pattern : List Char) : Option (Char → Bool) := do
  match classItems (← classSigns pattern) with
  | .opens isNegated :: items =>
    match ← items.foldlM ClassReading.step (.inside { isNegated } []) with
    | .complete set => some set
    | .inside _ _ => none
  | _ => none

/-! The pattern of a class of the grammar, phase by phase. -/

def classSign (c : Char) : ClassSign :=
  if c = '\\' ∨ c = '[' ∨ c = ']' ∨ c = '^' ∨ c = '-' then .quoted c else .plain c

@[simp] theorem classSign_char (c : Char) : (classSign c).char = c := by
  unfold classSign
  split <;> rfl

private theorem classSign_plain {c d : Char} (same : classSign c = .plain d) : c = d := by
  rw [← classSign_char c,same]
  rfl

theorem classSign_special {c d : Char}
    (special : d = '\\' ∨ d = '[' ∨ d = ']' ∨ d = '^' ∨ d = '-') : classSign c ≠ .plain d := by
  intro same
  obtain rfl := classSign_plain same
  rw [classSign,if_pos special] at same
  exact nomatch same

theorem classSigns_plain {c : Char} (ordinary : c ≠ '\\') (rest : List Char) :
    classSigns (c :: rest) = (classSigns rest).map (.plain c :: ·) := by
  rw [classSigns]
  · exact fun same _ => ordinary same
  · exact fun _ _ same _ => ordinary same

theorem classSigns_char (c : Char) (rest : List Char) :
    classSigns (classChar c ++ rest) = (classSigns rest).map (classSign c :: ·) := by
  unfold classChar classSign
  split
  · rfl
  next ordinary => exact classSigns_plain (fun slash => ordinary (.inl slash)) rest

def partSigns : ClassPart → List ClassSign
  | .single c => [classSign c]
  | .range lo hi => [classSign lo,.plain '-',classSign hi]

theorem classSigns_body (parts : List ClassPart) (rest : List Char) :
    classSigns ((Lowering.classBody parts).toList ++ rest) =
      (classSigns rest).map (parts.flatMap partSigns ++ ·) := by
  rw [Lowering.classBody,String.toList_ofList]
  induction parts with
  | nil => simp
  | cons part others ih =>
    cases part with
    | single c =>
      rw [List.flatMap_cons,List.append_assoc,classSigns_char,ih,Option.map_map]
      rfl
    | range lo hi =>
      simp only [List.flatMap_cons,List.append_assoc,List.cons_append]
      rw [classSigns_char,classSigns_plain (by decide),classSigns_char,ih]
      simp only [Option.map_map]
      rfl

def partItem : ClassPart → ClassItem
  | .single c => .chars c c
  | .range lo hi => .chars lo hi

private theorem classItems_single {c : Char} {next : ClassSign} (rest : List ClassSign)
    (noRange : next ≠ .plain '-') (noMeet : c = '&' → next ≠ .plain '&') :
    classItems (classSign c :: next :: rest) = .chars c c :: classItems (next :: rest) := by
  have opening : classSign c ≠ .plain '[' := classSign_special (by decide)
  have closing : classSign c ≠ .plain ']' := classSign_special (by decide)
  rw [classItems,classSign_char]
  · exact fun _ same _ => opening same
  · exact opening
  · exact closing
  · intro _ same both
    exact absurd (List.cons.inj both).1 (noMeet (classSign_plain same))
  · intro _ _ range
    exact absurd (List.cons.inj range).1 noRange

private theorem classSign_isBracket (c : Char) : (classSign c).isBracket = false := by
  have opening : classSign c ≠ .plain '[' := classSign_special (by decide)
  have closing : classSign c ≠ .plain ']' := classSign_special (by decide)
  unfold ClassSign.isBracket
  split
  next same => exact absurd same opening
  next same => exact absurd same closing
  next => rfl

private theorem classItems_range (lo hi : Char) (rest : List ClassSign) :
    classItems (classSign lo :: .plain '-' :: classSign hi :: rest) =
      .chars lo hi :: classItems rest := by
  have opening : classSign lo ≠ .plain '[' := classSign_special (by decide)
  have closing : classSign lo ≠ .plain ']' := classSign_special (by decide)
  rw [classItems,classSign_isBracket,if_neg Bool.false_ne_true,classSign_char,classSign_char]
  · exact opening
  · exact closing

/-- The sign that comes first in the text of parts, up to the closing bracket. -/
theorem next_sign (parts : List ClassPart) : ∃ rest,
    parts.flatMap partSigns ++ [.plain ']'] =
      (parts.head?.elim (.plain ']') fun part => classSign part.first) :: rest := by
  cases parts with
  | nil => exact ⟨[],rfl⟩
  | cons part others => cases part <;> exact ⟨_,rfl⟩

def Clear (before after : ClassPart) : Prop :=
  before = .single '&' → after.first ≠ '&'

theorem classItems_parts {parts : List ClassPart} (clear : parts.IsChain Clear) :
    classItems (parts.flatMap partSigns ++ [.plain ']']) = parts.map partItem ++ [.closes] := by
  induction parts with
  | nil => rfl
  | cons part others ih =>
    have tail := ih clear.tail
    rw [List.flatMap_cons,List.append_assoc,List.map_cons,List.cons_append,← tail]
    cases part with
    | range lo hi => exact classItems_range lo hi _
    | single c =>
      obtain ⟨rest,same⟩ := next_sign others
      rw [same]
      apply classItems_single
      · cases others with
        | nil => exact nofun
        | cons next _ => exact classSign_special (by decide)
      · rintro rfl
        cases others with
        | nil => exact nofun
        | cons next _ =>
          intro both
          exact clear.rel rfl (classSign_plain both)

private structure Gathers (o : OpenClass) (parts : List ClassPart) : Prop where
  straight : o.isNegated = false
  common : ∀ c, o.common c = true
  gathered : parts ≠ [] → o.gathered.isSome
  has : ∀ c, (o.gathered.any fun set => set c) = true ↔ ∃ part ∈ parts, part.Has c

private theorem Gathers.gather {o : OpenClass} {parts : List ClassPart} (gathers : Gathers o parts)
    {part : ClassPart} {set : Char → Bool} (same : ∀ c, set c = true ↔ part.Has c) :
    Gathers (o.gather set) (parts ++ [part]) := by
  refine ⟨gathers.straight,gathers.common,fun _ => rfl,fun c => ?_⟩
  have before := gathers.has c
  simp only [OpenClass.gather,Option.any_some,Bool.or_eq_true,before,same,List.mem_append,
    List.mem_singleton,or_and_right,exists_or,exists_eq_left]

private theorem Gathers.close {o : OpenClass} {parts : List ClassPart} (gathers : Gathers o parts)
    (nonempty : parts ≠ []) :
    ∃ set, o.close = some set ∧ ∀ c, set c = true ↔ ∃ part ∈ parts, part.Has c := by
  obtain ⟨set,gathered⟩ := Option.isSome_iff_exists.mp (gathers.gathered nonempty)
  refine ⟨_,by rw [OpenClass.close,gathered,Option.map_some],fun c => ?_⟩
  have members := gathers.has c
  rw [gathered,Option.any_some] at members
  simpa [gathers.straight,gathers.common c] using members

private theorem step_part {o : OpenClass} {parts : List ClassPart} (gathers : Gathers o parts)
    (part : ClassPart) (ordered : ∀ lo hi, part = .range lo hi → lo ≤ hi) :
    ∃ next, (ClassReading.inside o []).step (partItem part) = some (.inside next []) ∧
      Gathers next (parts ++ [part]) := by
  cases part with
  | single member =>
    refine ⟨_,if_pos (Char.le_refl member),gathers.gather fun c => ?_⟩
    simp only [Bool.and_eq_true,decide_eq_true_eq,ClassPart.Has]
    constructor
    · exact fun ⟨low,high⟩ => Char.le_antisymm high low
    · rintro rfl
      exact ⟨Char.le_refl c,Char.le_refl c⟩
  | range lo hi =>
    refine ⟨_,if_pos (ordered lo hi rfl),gathers.gather fun c => ?_⟩
    simp only [Bool.and_eq_true,decide_eq_true_eq,ClassPart.Has]

private theorem fold_parts {parts others : List ClassPart} {o : OpenClass}
    (gathers : Gathers o parts) (ordered : ∀ lo hi, .range lo hi ∈ others → lo ≤ hi)
    (items : List ClassItem) : ∃ next,
      (others.map partItem ++ items).foldlM ClassReading.step (.inside o []) =
        items.foldlM ClassReading.step (.inside next []) ∧ Gathers next (parts ++ others) := by
  induction others generalizing o parts with
  | nil => exact ⟨o,rfl,by rwa [List.append_nil]⟩
  | cons part rest ih =>
    obtain ⟨middle,stepped,here⟩ := step_part gathers part fun lo hi same =>
      ordered lo hi (same ▸ List.mem_cons_self)
    obtain ⟨next,folded,all⟩ := ih here fun lo hi inside =>
      ordered lo hi (List.mem_cons_of_mem _ inside)
    refine ⟨next,?_,by rwa [List.append_assoc] at all⟩
    rw [List.map_cons,List.cons_append,List.foldlM_cons,stepped]
    exact folded

private theorem classSigns_pattern {parts : List ClassPart} (nonempty : parts ≠ []) :
    classSigns (Lowering.classPattern parts).toList =
      some (.plain '[' :: (parts.flatMap partSigns ++ [.plain ']'])) := by
  have written : (Lowering.classPattern parts).toList =
      '[' :: ((Lowering.classBody parts).toList ++ [']']) := by
    rw [Lowering.classPattern,if_neg (by simpa using nonempty),String.toList_append,
      String.toList_append]
    rfl
  rw [written,classSigns_plain (by decide),classSigns_body]
  rfl

private theorem classItems_opened (parts : List ClassPart) :
    classItems (.plain '[' :: (parts.flatMap partSigns ++ [.plain ']'])) =
      .opens false :: classItems (parts.flatMap partSigns ++ [.plain ']']) := by
  obtain ⟨rest,same⟩ := next_sign parts
  rw [same,classItems]
  intro _ both
  have caret := (List.cons.inj both).1
  cases parts with
  | nil => exact nomatch caret
  | cons part _ => exact classSign_special (by decide) caret

/-- The pattern of a class matches just its members: for every list of parts that is not empty,
whose ranges are not reversed, and in which no lone ampersand stands in front of another. -/
theorem class_matches_members (parts : List ClassPart) (nonempty : parts ≠ [])
    (ordered : ∀ lo hi, .range lo hi ∈ parts → lo ≤ hi) (clear : parts.IsChain Clear) :
    ∃ set, readClass (Lowering.classPattern parts).toList = some set ∧
      ∀ c, set c = true ↔ ∃ part ∈ parts, part.Has c := by
  have empty : Gathers { isNegated := false } [] :=
    ⟨rfl,fun _ => rfl,fun none => absurd rfl none,by simp⟩
  obtain ⟨last,folded,gathers⟩ := fold_parts empty ordered [.closes]
  obtain ⟨set,closed,members⟩ := gathers.close nonempty
  have ended : [ClassItem.closes].foldlM ClassReading.step (.inside last []) =
      some (.complete set) := by
    simp [ClassReading.step,closed]
  refine ⟨set,?_,members⟩
  rw [readClass,classSigns_pattern nonempty]
  simp only [Option.bind_eq_bind,Option.bind_some,classItems_opened,classItems_parts clear,folded,
    ended]

/-- Both ends of a range are quoted where they must be, and an ampersand ends one harmlessly. -/
theorem class_matches_signs : ∃ set,
    readClass (Lowering.classPattern [.single '^',.range '!' '&',.single '&',.range ']' '~']).toList =
      some set ∧ set '-' = false ∧ set '&' = true := by
  obtain ⟨set,read,members⟩ := class_matches_members
    [.single '^',.range '!' '&',.single '&',.range ']' '~'] (by decide)
    (by rintro lo hi member; simp at member; rcases member with ⟨rfl,rfl⟩ | ⟨rfl,rfl⟩ <;> decide)
    (by simp [Clear,ClassPart.first])
  refine ⟨set,read,?_,(members '&').mpr ⟨.single '&',by simp,rfl⟩⟩
  rw [← Bool.not_eq_true,members '-']
  simp [ClassPart.Has]

/-- Two lone ampersands in a row are an intersection, which leaves nothing of this class. -/
theorem ampersands_intersect :
    ¬∃ set, readClass (Lowering.classPattern
        [.single 'a',.single '&',.single '&',.single 'b']).toList = some set ∧
      ∀ c, set c = true ↔
        ∃ part ∈ [ClassPart.single 'a',.single '&',.single '&',.single 'b'], part.Has c := by
  rintro ⟨set,read,members⟩
  have missed : (readClass (Lowering.classPattern
      [.single 'a',.single '&',.single '&',.single 'b']).toList).map (· 'a') = some false := by
    decide +kernel
  rw [read,Option.map_some,Option.some.injEq] at missed
  have present := (members 'a').mpr ⟨.single 'a',by simp,rfl⟩
  exact absurd present (by simp [missed])

end Target

end PegCompiler
