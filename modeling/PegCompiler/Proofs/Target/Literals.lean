import PegCompiler.Json.Parser
import PegCompiler.Target.StringLiteral
import Mathlib.Tactic.SplitIfs

/-! How string literals of the generated source are read. A first phase turns the characters of the
source into code units and replaces escapes by number; a second one, which sees only code units,
reads the literal. Main statement: the literal of a text ends at its closing quote and denotes the
code units of the text, whatever follows it. -/
namespace PegCompiler.Target

structure SourceUnit where
  unit : Nat
  source : List Char

def plainUnits (c : Char) : List SourceUnit :=
  match utf16 c with
  | [] => []
  | unit :: others => ⟨unit,[c]⟩ :: others.map fun unit => ⟨unit,[]⟩

/-- The first phase. `isEven` says whether an even number of backslashes stands directly in front;
only then can a backslash start an escape by number. -/
def codeUnits : (isEven : Bool) → List Char → List SourceUnit
  | _, [] => []
  | true, '\\' :: 'u' :: a :: b :: c :: d :: rest =>
    match Json.codeUnit a b c d with
    | some unit => ⟨unit,['\\','u',a,b,c,d]⟩ :: codeUnits true rest
    | none => plainUnits '\\' ++ codeUnits false ('u' :: a :: b :: c :: d :: rest)
  | isEven, c :: rest => plainUnits c ++ codeUnits (if c = '\\' then !isEven else true) rest

def letterEscape (unit : Nat) : Option Nat :=
  if unit = 0x62 then some 0x08
  else if unit = 0x73 then some 0x20
  else if unit = 0x74 then some 0x09
  else if unit = 0x6E then some 0x0A
  else if unit = 0x66 then some 0x0C
  else if unit = 0x72 then some 0x0D
  else if unit = 0x22 ∨ unit = 0x27 ∨ unit = 0x5C then some unit
  else none

def isOctal (unit : Nat) : Bool := 0x30 ≤ unit && unit ≤ 0x37

def octalDigits : List Nat → List Nat
  | [] => []
  | first :: rest => ((first :: rest).take (if first ≤ 0x33 then 3 else 2)).takeWhile isOctal

def readEscape (units : List SourceUnit) : Option (Nat × List SourceUnit) :=
  match units with
  | [] => none
  | first :: rest =>
    match letterEscape first.unit with
    | some unit => some (unit,rest)
    | none =>
      match octalDigits (units.map (·.unit)) with
      | [] => none
      | digits => some (digits.foldl (fun value digit => value * 8 + (digit - 0x30)) 0,
          units.drop digits.length)

theorem readEscape_length {units left : List SourceUnit} {unit : Nat}
    (ok : readEscape units = some (unit,left)) : left.length < units.length := by
  cases units with
  | nil => exact nomatch ok
  | cons first rest =>
    rw [readEscape] at ok
    split at ok
    · have same : rest = left := congrArg Prod.snd (Option.some.inj ok)
      subst left
      simp
    · split at ok
      · exact nomatch ok
      next present =>
        have same := congrArg Prod.snd (Option.some.inj ok)
        have positive := List.length_pos_iff.mpr present
        dsimp only at same
        subst left
        simp only [List.length_drop,List.length_cons] at positive ⊢
        omega

/-- The second phase behind the opening quote: reads up to the closing quote. A literal does not
go over the end of a line. -/
def readBody : List SourceUnit → Option (List Nat × List SourceUnit)
  | [] => none
  | first :: rest =>
    if first.unit = 0x22 then some ([],rest)
    else if first.unit = 0x0A ∨ first.unit = 0x0D then none
    else if first.unit = 0x5C then
      match _escape : readEscape rest with
      | none => none
      | some (unit,left) => (readBody left).map fun (units,left) => (unit :: units,left)
    else (readBody rest).map fun (units,left) => (first.unit :: units,left)
termination_by units => units.length
decreasing_by
  · have shorter := readEscape_length _escape
    simp only [List.length_cons]
    omega
  · simp

def readLiteral : List SourceUnit → Option (List Nat × List SourceUnit)
  | [] => none
  | first :: rest => if first.unit = 0x22 then readBody rest else none

/-! The first phase. -/

theorem plainUnits_bmp {c : Char} (small : c.toNat < 0x10000) :
    plainUnits c = [⟨c.toNat,[c]⟩] := by
  simp [plainUnits,utf16,small]

theorem plainUnits_source (c : Char) : (plainUnits c).flatMap (·.source) = [c] := by
  by_cases small : c.toNat < 0x10000
  · simp [plainUnits_bmp small]
  · simp [plainUnits,utf16,small]

/-- No character of the source is lost or read twice. -/
theorem codeUnits_source (isEven : Bool) (cs : List Char) :
    (codeUnits isEven cs).flatMap (·.source) = cs := by
  fun_induction codeUnits isEven cs with
  | case1 => rfl
  | case2 a b c d rest unit found ih =>
    rw [List.flatMap_cons,ih]
    rfl
  | case3 a b c d rest missing ih =>
    rw [List.flatMap_append,plainUnits_source,ih]
    rfl
  | case4 isEven c rest _ ih =>
    rw [List.flatMap_append,plainUnits_source,ih]
    rfl

theorem codeUnits_char {c : Char} (plain : c ≠ '\\') (isEven : Bool) (rest : List Char) :
    codeUnits isEven (c :: rest) = plainUnits c ++ codeUnits true rest := by
  rw [codeUnits,if_neg plain]
  intro a b c' d rest' _ same
  exact absurd same plain

/-- A backslash in front of anything but a `u` stands for itself. -/
theorem codeUnits_pair {c : Char} (other : c ≠ 'u') (rest : List Char) :
    codeUnits true ('\\' :: c :: rest) =
      plainUnits '\\' ++ (plainUnits c ++ codeUnits true rest) := by
  have first : codeUnits true ('\\' :: c :: rest) =
      plainUnits '\\' ++ codeUnits false (c :: rest) := by
    rw [codeUnits]
    · rfl
    · intro a b c' d rest' _ _ same
      exact absurd (List.cons.inj same).1 other
  rw [first]
  by_cases again : c = '\\'
  · subst c
    rw [codeUnits]
    · rfl
    · intro a b c' d rest' even
      exact nomatch even
  · rw [codeUnits_char again]

/-! Escapes by number. -/

theorem hexValue_hexDigit : ∀ n < 16, Json.hexValue (hexDigit n) = some n := by
  decide

theorem codeUnit_hexDigits {u : Nat} (small : u < 0x10000) :
    Json.codeUnit (hexDigit (u / 0x1000 % 16)) (hexDigit (u / 0x100 % 16))
      (hexDigit (u / 0x10 % 16)) (hexDigit (u % 16)) = some u := by
  have digit (n : Nat) : Json.hexValue (hexDigit (n % 16)) = some (n % 16) :=
    hexValue_hexDigit _ (Nat.mod_lt _ (by decide))
  simp only [Json.codeUnit,digit,bind,Option.bind,pure,Option.some.injEq]
  omega

theorem codeUnits_unitEscape {u : Nat} (small : u < 0x10000) (rest : List Char) :
    codeUnits true (unitEscape u ++ rest) = ⟨u,unitEscape u⟩ :: codeUnits true rest := by
  simp only [unitEscape,List.cons_append,List.nil_append]
  rw [codeUnits,codeUnit_hexDigits small]

theorem codeUnits_unitEscapes {units : List Nat} (small : ∀ u ∈ units, u < 0x10000)
    (rest : List Char) : codeUnits true (units.flatMap unitEscape ++ rest) =
      units.map (fun u => ⟨u,unitEscape u⟩) ++ codeUnits true rest := by
  induction units with
  | nil => rfl
  | cons u others ih =>
    have first := small u List.mem_cons_self
    have later := ih fun u member => small u (List.mem_cons_of_mem _ member)
    rw [List.flatMap_cons,List.append_assoc,codeUnits_unitEscape first,later]
    rfl

theorem utf16_small (c : Char) : ∀ u ∈ utf16 c, u < 0x10000 := by
  have valid : c.toNat < 0x110000 := by
    have ranges := c.valid
    simp only [UInt32.isValidChar,Nat.isValidChar] at ranges
    have same : c.toNat = c.val.toNat := rfl
    omega
  intro u member
  unfold utf16 at member
  split at member
  next small =>
    have same := List.mem_singleton.mp member
    omega
  next large =>
    simp only [List.mem_cons,List.not_mem_nil,or_false] at member
    omega

def IsOrdinary (unit : Nat) : Prop :=
  unit ≠ 0x22 ∧ unit ≠ 0x0A ∧ unit ≠ 0x0D ∧ unit ≠ 0x5C

theorem utf16_ordinary {c : Char} (plain : IsOrdinary c.toNat) : ∀ u ∈ utf16 c, IsOrdinary u := by
  intro u member
  unfold utf16 at member
  split at member
  · have same := List.mem_singleton.mp member
    exact same ▸ plain
  · simp only [List.mem_cons,List.not_mem_nil,or_false] at member
    unfold IsOrdinary
    omega

inductive WrittenAs (c : Char) : List Char → Prop
  | letter {e : Char} : e ≠ 'u' → 0x20 ≤ e.toNat → e.toNat ≤ 0x7F →
      letterEscape e.toNat = some c.toNat → c.toNat < 0x80 → WrittenAs c ['\\',e]
  | numbered : IsOrdinary c.toNat → WrittenAs c ((utf16 c).flatMap unitEscape)
  | plain : IsOrdinary c.toNat → 0x20 ≤ c.toNat → c.toNat ≤ 0x7F → WrittenAs c [c]

theorem toNat_ne {c d : Char} (differ : c ≠ d) : c.toNat ≠ d.toNat :=
  fun same => differ (Char.toNat_inj.mp same)

theorem escapeChar_writtenAs (c : Char) : WrittenAs c (escapeChar c) := by
  have letter {d e : Char} (same : c = d) (fits : e ≠ 'u' ∧ 0x20 ≤ e.toNat ∧ e.toNat ≤ 0x7F ∧
      letterEscape e.toNat = some d.toNat ∧ d.toNat < 0x80) : WrittenAs c ['\\',e] := by
    subst d
    obtain ⟨other,low,high,denotes,small⟩ := fits
    exact .letter other low high denotes small
  unfold escapeChar
  split_ifs with backslash quote backspace tab newline feed carriage outside
  · exact letter backslash (by decide)
  · exact letter quote (by decide)
  · exact letter backspace (by decide)
  · exact letter tab (by decide)
  · exact letter newline (by decide)
  · exact letter feed (by decide)
  · exact letter carriage (by decide)
  all_goals
    have ordinary : IsOrdinary c.toNat :=
      ⟨toNat_ne quote,toNat_ne newline,toNat_ne carriage,toNat_ne backslash⟩
  · exact .numbered ordinary
  · simp only [not_or,Nat.not_lt,Nat.not_le] at outside
    exact .plain ordinary outside.1 (by omega)

theorem hexDigit_ascii : ∀ n < 16, 0x20 ≤ (hexDigit n).toNat ∧ (hexDigit n).toNat ≤ 0x7F := by
  decide

theorem unitEscape_ascii (u : Nat) : ∀ d ∈ unitEscape u, 0x20 ≤ d.toNat ∧ d.toNat ≤ 0x7F := by
  have digit (n : Nat) := hexDigit_ascii (n % 16) (Nat.mod_lt _ (by decide))
  unfold unitEscape
  simp only [List.forall_mem_cons]
  exact ⟨by decide,by decide,digit _,digit _,digit _,digit _,by simp⟩

namespace WrittenAs

variable {c : Char} {text : List Char}

theorem ascii (written : WrittenAs c text) : ∀ d ∈ text, 0x20 ≤ d.toNat ∧ d.toNat ≤ 0x7F := by
  cases written with
  | letter _ low high _ _ => simpa using ⟨low,high⟩
  | numbered _ =>
    intro d member
    obtain ⟨u,_,digit⟩ := List.mem_flatMap.mp member
    exact unitEscape_ascii u d digit
  | plain _ low high => simpa using ⟨low,high⟩

/-- Behind a character as it is written, backslashes are counted afresh. -/
theorem codeUnits_append (written : WrittenAs c text) (rest : List Char) :
    codeUnits true (text ++ rest) = codeUnits true text ++ codeUnits true rest := by
  cases written with
  | letter other _ _ _ _ =>
    simp only [List.cons_append,List.nil_append]
    rw [codeUnits_pair other,codeUnits_pair other]
    simp [codeUnits]
  | numbered _ =>
    have alone := codeUnits_unitEscapes (utf16_small c) []
    rw [List.append_nil] at alone
    rw [codeUnits_unitEscapes (utf16_small c),alone]
    simp [codeUnits]
  | plain ordinary _ _ =>
    have other : c ≠ '\\' := fun same => ordinary.2.2.2 (congrArg Char.toNat same)
    rw [List.singleton_append,codeUnits_char other,codeUnits_char other]
    simp [codeUnits]

end WrittenAs

/-! The second phase. -/

theorem readBody_ordinary {first : SourceUnit} (ordinary : IsOrdinary first.unit)
    (rest : List SourceUnit) : readBody (first :: rest) =
      (readBody rest).map fun (units,left) => (first.unit :: units,left) := by
  obtain ⟨quote,newline,carriage,backslash⟩ := ordinary
  rw [readBody,if_neg quote,if_neg (not_or.mpr ⟨newline,carriage⟩),if_neg backslash]

theorem readBody_ordinaries {units : List SourceUnit} (ordinary : ∀ u ∈ units, IsOrdinary u.unit)
    (rest : List SourceUnit) : readBody (units ++ rest) =
      (readBody rest).map fun (others,left) => (units.map (·.unit) ++ others,left) := by
  induction units with
  | nil => simp
  | cons u units ih =>
    have later := ih fun u member => ordinary u (List.mem_cons_of_mem _ member)
    rw [List.cons_append,readBody_ordinary (ordinary u List.mem_cons_self),later,Option.map_map]
    rfl

theorem readBody_letter {e : SourceUnit} {unit : Nat} (denotes : letterEscape e.unit = some unit)
    (source : List Char) (rest : List SourceUnit) : readBody (⟨0x5C,source⟩ :: e :: rest) =
      (readBody rest).map fun (units,left) => (unit :: units,left) := by
  have escape : readEscape (e :: rest) = some (unit,rest) := by rw [readEscape,denotes]
  rw [readBody,if_neg (by simp),if_neg (by simp),if_pos rfl]
  split
  next missing => rw [escape] at missing; exact nomatch missing
  next found =>
    rw [escape] at found
    obtain ⟨rfl,rfl⟩ := Prod.mk.inj (Option.some.inj found)
    rfl

/-- A character as it is written denotes its code units. -/
theorem WrittenAs.readBody_append {c : Char} {text : List Char} (written : WrittenAs c text)
    (rest : List SourceUnit) : readBody (codeUnits true text ++ rest) =
      (readBody rest).map fun (units,left) => (utf16 c ++ units,left) := by
  cases written with
  | @letter e other _ high denotes small =>
    have seen : codeUnits true ['\\',e] = [⟨0x5C,['\\']⟩,⟨e.toNat,[e]⟩] := by
      rw [codeUnits_pair other,plainUnits_bmp (by decide),plainUnits_bmp (by omega)]
      rfl
    have units : utf16 c = [c.toNat] := by
      rw [utf16,if_pos (by omega)]
    rw [seen,units]
    exact readBody_letter denotes _ _
  | numbered ordinary =>
    have alone := codeUnits_unitEscapes (utf16_small c) []
    rw [List.append_nil,codeUnits,List.append_nil] at alone
    have seen : (codeUnits true ((utf16 c).flatMap unitEscape)).map (·.unit) = utf16 c := by
      simp [alone,Function.comp_def]
    have plain : ∀ u ∈ codeUnits true ((utf16 c).flatMap unitEscape), IsOrdinary u.unit := by
      intro u member
      have inside := List.mem_map_of_mem (f := SourceUnit.unit) member
      rw [seen] at inside
      exact utf16_ordinary ordinary _ inside
    rw [readBody_ordinaries plain,seen]
  | plain ordinary _ high =>
    have other : c ≠ '\\' := fun same => ordinary.2.2.2 (congrArg Char.toNat same)
    have seen : codeUnits true [c] = [⟨c.toNat,[c]⟩] := by
      rw [codeUnits_char other,plainUnits_bmp (by omega)]
      rfl
    have units : utf16 c = [c.toNat] := by
      rw [utf16,if_pos (by omega)]
    rw [seen,units]
    exact readBody_ordinary ordinary _

theorem codeUnits_quote (rest : List Char) :
    codeUnits true ('"' :: rest) = ⟨0x22,['"']⟩ :: codeUnits true rest := by
  rw [codeUnits_char (by decide),plainUnits_bmp (by decide)]
  rfl

theorem codeUnits_escaped (cs rest : List Char) : codeUnits true (cs.flatMap escapeChar ++ rest) =
    codeUnits true (cs.flatMap escapeChar) ++ codeUnits true rest := by
  induction cs with
  | nil => simp [codeUnits]
  | cons c cs ih =>
    have written := escapeChar_writtenAs c
    rw [List.flatMap_cons,List.append_assoc,written.codeUnits_append,ih,written.codeUnits_append,
      List.append_assoc]

theorem readBody_escaped (cs : List Char) (rest : List SourceUnit) :
    readBody (codeUnits true (cs.flatMap escapeChar) ++ rest) =
      (readBody rest).map fun (units,left) => (cs.flatMap utf16 ++ units,left) := by
  induction cs with
  | nil => simp [codeUnits]
  | cons c cs ih =>
    have written := escapeChar_writtenAs c
    rw [List.flatMap_cons,written.codeUnits_append,List.append_assoc,written.readBody_append,ih,
      Option.map_map]
    simp [Function.comp_def]

/-! Code units denote characters. -/

theorem joinPieces_utf16 (c : Char) (rest : List Json.Piece) :
    Json.joinPieces ((utf16 c).map .unit ++ rest) = (Json.joinPieces rest).map (c :: ·) := by
  have ranges : c.toNat < 0xD800 ∨ 0xDFFF < c.toNat ∧ c.toNat < 0x110000 := c.valid
  by_cases small : c.toNat < 0x10000
  · have units : utf16 c = [c.toNat] := by rw [utf16,if_pos small]
    have notHigh : ¬(0xD800 ≤ c.toNat ∧ c.toNat ≤ 0xDBFF) := by omega
    have notLow : ¬(0xDC00 ≤ c.toNat ∧ c.toNat ≤ 0xDFFF) := by omega
    have neither : ¬(0xD800 ≤ c.toNat ∧ c.toNat ≤ 0xDFFF) := by omega
    rw [units,List.map_singleton,List.singleton_append]
    -- a unit may be the first of a pair, so the next piece decides how it is read
    rcases rest with _ | ⟨_ | low,rest⟩
    · simp [Json.joinPieces,neither]
    · simp [Json.joinPieces,neither]
    · simp [Json.joinPieces,notHigh,notLow]
  · have units : utf16 c = [0xD800 + (c.toNat - 0x10000) / 0x400,
        0xDC00 + (c.toNat - 0x10000) % 0x400] := by rw [utf16,if_neg small]
    have high : 0xD800 ≤ 0xD800 + (c.toNat - 0x10000) / 0x400 ∧
        0xD800 + (c.toNat - 0x10000) / 0x400 ≤ 0xDBFF := by omega
    have low : 0xDC00 ≤ 0xDC00 + (c.toNat - 0x10000) % 0x400 ∧
        0xDC00 + (c.toNat - 0x10000) % 0x400 ≤ 0xDFFF := by omega
    have whole : 0x10000 + (0xD800 + (c.toNat - 0x10000) / 0x400 - 0xD800) * 0x400 +
        (0xDC00 + (c.toNat - 0x10000) % 0x400 - 0xDC00) = c.toNat := by omega
    simp only [units,List.map_cons,List.map_nil,List.cons_append,List.nil_append]
    rw [Json.joinPieces,if_pos high,if_pos low,whole,Char.ofNat_toNat]

theorem joinPieces_flatMap_utf16 (cs : List Char) :
    Json.joinPieces ((cs.flatMap utf16).map .unit) = some cs := by
  induction cs with
  | nil => rfl
  | cons c cs ih => rw [List.flatMap_cons,List.map_append,joinPieces_utf16,ih,Option.map_some]

/-- The body of a string literal is plain ASCII. Read in two phases, the literal in front of any
other source ends exactly at its closing quote and denotes the code units of the text, from which
the text can be put together again. -/
theorem stringBody_read_back (s rest : String) :
    (∀ c ∈ (stringBody s).toList, 0x20 ≤ c.toNat ∧ c.toNat ≤ 0x7F) ∧
    (∃ literal, codeUnits true ("\"" ++ stringBody s ++ "\"" ++ rest).toList =
        literal ++ codeUnits true rest.toList ∧
      literal.flatMap (·.source) = ("\"" ++ stringBody s ++ "\"").toList ∧
      readLiteral (literal ++ codeUnits true rest.toList) =
        some (s.toList.flatMap utf16,codeUnits true rest.toList)) ∧
    Json.joinPieces ((s.toList.flatMap utf16).map .unit) = some s.toList := by
  have body : (stringBody s).toList = s.toList.flatMap escapeChar := by
    rw [stringBody,String.toList_ofList]
  have text (rest : List Char) :
      codeUnits true ('"' :: (s.toList.flatMap escapeChar ++ '"' :: rest)) =
        ⟨0x22,['"']⟩ :: (codeUnits true (s.toList.flatMap escapeChar) ++
          ⟨0x22,['"']⟩ :: codeUnits true rest) := by
    rw [codeUnits_quote,codeUnits_escaped,codeUnits_quote]
  have closing (left : List SourceUnit) : readBody (⟨0x22,['"']⟩ :: left) = some ([],left) := by
    rw [readBody,if_pos rfl]
  refine ⟨?_,⟨codeUnits true ("\"" ++ stringBody s ++ "\"").toList,?_,codeUnits_source _ _,?_⟩,
    joinPieces_flatMap_utf16 _⟩
  · intro c member
    rw [body] at member
    obtain ⟨d,_,inside⟩ := List.mem_flatMap.mp member
    exact (escapeChar_writtenAs d).ascii c inside
  · simp [body,text,codeUnits]
  · simp [body,text,codeUnits,readLiteral,readBody_escaped,closing]

end PegCompiler.Target
