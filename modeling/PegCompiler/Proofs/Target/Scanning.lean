import PegCompiler.Proofs.Target.Literals
import Mathlib.Data.List.Infix

/-! How the words of a line are told apart. A scanner takes something off the front of a text, or
refuses it; whatever was printed in front of other text is taken off again. -/
namespace PegCompiler.Target.Scan

@[simp] def behind : List Char → List Char → Option (List Char)
  | [],text => some text
  | _ :: _,[] => none
  | c :: w,d :: text => if c = d then behind w text else none

@[simp] def words (w : String) (text : List Char) : Option (List Char) :=
  behind w.toList text

@[simp] def before (w : String) (text : List Char) : Option (List Char) :=
  text.dropSuffix? w.toList

@[simp] def ends (w : String) (text : List Char) : Option Unit := do
  let rest ← words w text
  if rest.isEmpty then some () else none

def number (text : List Char) : Option (Nat × List Char) :=
  let digits := text.takeWhile Char.isDigit
  let n := Nat.ofDigitChars 10 digits 0
  if Nat.toDigits 10 n = digits then some (n,text.drop digits.length) else none

def numbered (letter : Char) : List Char → Option (Nat × List Char)
  | [] => none
  | c :: rest => if c = letter then number rest else none

def boolean (text : List Char) : Option (Bool × List Char) :=
  match words "true" text with
  | some rest => some (true,rest)
  | none => (words "false" text).map fun rest => (false,rest)

def quoted (text : List Char) : Option (String × List Char) := do
  let (units,left) ← readLiteral (codeUnits true text)
  let chars ← Json.joinPieces (units.map .unit)
  return (String.ofList chars,left.flatMap (·.source))

def name (letter : Char) (text : List Char) : Option Nat := do
  let (n,rest) ← numbered letter (text.dropWhile (· == ' '))
  ends "" rest
  return n

def names (letter : Char) (text : List Char) : Option (List Nat) :=
  if text.isEmpty then some [] else (text.splitOn ',').mapM (name letter)

@[simp] theorem behind_append (w rest : List Char) : behind w (w ++ rest) = some rest := by
  induction w with
  | nil => rfl
  | cons c w ih => rw [List.cons_append,behind,if_pos rfl,ih]

@[simp] theorem dropSuffix?_append (front w : List Char) :
    (front ++ w).dropSuffix? w = some front := by
  simp [List.dropSuffix?_eq_some_iff]

def Apart (rest : List Char) : Prop :=
  ∀ c ∈ rest.head?, c.isDigit = false

@[simp] theorem apart_nil : Apart [] := nofun

@[simp] theorem apart_cons {c : Char} {rest : List Char} :
    Apart (c :: rest) ↔ c.isDigit = false := by
  simp [Apart]

@[simp] theorem number_digits {rest : List Char} (apart : Apart rest) (n : Nat) :
    number (Nat.toDigits 10 n ++ rest) = some (n,rest) := by
  have all : ∀ c ∈ Nat.toDigits 10 n, c.isDigit = true := fun c member =>
    Nat.isDigit_of_mem_toDigits (by decide) (by decide) member
  have taken : (Nat.toDigits 10 n ++ rest).takeWhile Char.isDigit = Nat.toDigits 10 n := by
    rw [List.takeWhile_append_of_pos all]
    cases rest with
    | nil => simp
    | cons c rest => simp [apart_cons.mp apart]
  rw [number,taken,Nat.ofDigitChars_toDigits (by decide) (by decide)]
  simp

@[simp] theorem number_all (n : Nat) : number (Nat.toDigits 10 n) = some (n,[]) := by
  have whole := number_digits apart_nil n
  rwa [List.append_nil] at whole

@[simp] theorem numbered_cons (letter c : Char) (rest : List Char) :
    numbered letter (c :: rest) = if c = letter then number rest else none :=
  rfl

@[simp] theorem number_other {c : Char} (other : c.isDigit = false) (rest : List Char) :
    number (c :: rest) = none := by
  simp [number,other]

@[simp] theorem boolean_append (b : Bool) (rest : List Char) :
    boolean ((toString b).toList ++ rest) = some (b,rest) := by
  cases b with
  | true =>
    rw [boolean,show (toString true).toList = "true".toList from rfl,words,behind_append]
  | false =>
    rw [boolean,show (toString false).toList = "false".toList from rfl]
    simp

@[simp] theorem quoted_append (s : String) (rest : List Char) :
    quoted ((stringLiteral s).toList ++ rest) = some (s,rest) := by
  have text : (stringLiteral s).toList ++ rest =
      '"' :: (s.toList.flatMap escapeChar ++ '"' :: rest) := by
    simp [stringLiteral,stringBody]
  have closing (left : List SourceUnit) : readBody (⟨0x22,['"']⟩ :: left) = some ([],left) := by
    rw [readBody,if_pos rfl]
  have literal : readLiteral (codeUnits true ((stringLiteral s).toList ++ rest)) =
      some (s.toList.flatMap utf16,codeUnits true rest) := by
    rw [text,codeUnits_quote,codeUnits_escaped,codeUnits_quote]
    simp [readLiteral,readBody_escaped,closing]
  simp [quoted,literal,joinPieces_flatMap_utf16,codeUnits_source]

section Lists

variable {letter : Char}

private theorem name_digits (tight : letter ≠ ' ') (n : Nat) :
    name letter (letter :: Nat.toDigits 10 n) = some n := by
  rw [name,List.dropWhile_cons_of_neg (by simpa using tight),numbered_cons,if_pos rfl,number_all]
  rfl

private theorem name_blank (text : List Char) : name letter (' ' :: text) = name letter text := by
  rw [name,name,List.dropWhile_cons_of_pos (by rfl)]

private theorem intercalate_blank (first : List Char) (others : List (List Char)) :
    [',',' '].intercalate (first :: others) =
      [','].intercalate (first :: others.map (' ' :: ·)) := by
  induction others generalizing first with
  | nil => simp
  | cons second others ih =>
    rw [List.intercalate_cons_cons,ih,List.map_cons,List.intercalate_cons_cons]
    cases others with
    | nil => simp
    | cons third others => simp [List.intercalate_cons_cons]

private theorem comma_not_mem (other : letter ≠ ',') (n : Nat) :
    ',' ∉ letter :: Nat.toDigits 10 n := by
  rw [List.mem_cons,not_or]
  refine ⟨Ne.symm other,fun member => ?_⟩
  exact nomatch Nat.isDigit_of_mem_toDigits (by decide) (by decide) member

theorem names_intercalate (tight : letter ≠ ' ') (other : letter ≠ ',') {spell : Nat → String}
    (spelled : ∀ n, (spell n).toList = letter :: Nat.toDigits 10 n) (slots : List Nat) :
    names letter (", ".intercalate (slots.map spell)).toList = some slots := by
  cases slots with
  | nil => rfl
  | cons first others =>
    let piece (n : Nat) := letter :: Nat.toDigits 10 n
    let pieces := piece first :: others.map fun n => ' ' :: piece n
    have text : (", ".intercalate ((first :: others).map spell)).toList =
        [','].intercalate pieces := by
      have all : (first :: others).map (String.toList ∘ spell) = (first :: others).map piece :=
        List.map_congr_left fun n _ => spelled n
      rw [String.toList_intercalate,List.map_map,all,List.map_cons]
      exact (intercalate_blank _ _).trans (by rw [List.map_map]; rfl)
    have whole : ∀ part ∈ pieces, ',' ∉ part := by
      refine List.forall_mem_cons.mpr ⟨comma_not_mem other first,List.forall_mem_map.mpr ?_⟩
      exact fun n _ => List.not_mem_cons_of_ne_of_not_mem (by decide) (comma_not_mem other n)
    have present : [','].intercalate pieces ≠ [] := by
      cases others <;> simp [pieces,piece,List.intercalate_cons_cons]
    have tail : (others.map fun n => ' ' :: piece n).mapM (name letter) = some others := by
      clear text whole present pieces
      induction others with
      | nil => rfl
      | cons n others ih =>
        rw [List.map_cons,List.mapM_cons,name_blank,name_digits tight,ih]
        rfl
    rw [names,text,List.splitOn_intercalate ',' whole (by simp [pieces]),
      if_neg (by simpa using present),List.mapM_cons,name_digits tight,tail]
    rfl

end Lists

end PegCompiler.Target.Scan
