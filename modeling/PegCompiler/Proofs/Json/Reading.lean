import PegCompiler.Json.Parser
import Mathlib.Data.List.DropRight
import Mathlib.Tactic.SplitIfs

/-! The texts of a JSON value. `Spells` is the grammar of JSON: blanks between tokens, any spelling of
the characters of a string, any numeral. A string or number that is well formed but denotes nothing
spells `unreadable`, and so does an object with such a key. The reader accepts every text of a value
and gives that value back. -/
namespace PegCompiler.Json

def Blank (cs : List Char) : Prop :=
  ∀ c ∈ cs, isBlank c = true

inductive SpellsPieces : List Piece → List Char → Prop
  | nil : SpellsPieces [] []
  | char {c pieces body} : 0x20 ≤ c.toNat → c ≠ '"' → c ≠ '\\' → SpellsPieces pieces body →
      SpellsPieces (.char c :: pieces) (c :: body)
  | escape {c e pieces body} : shortEscape c = some e → SpellsPieces pieces body →
      SpellsPieces (.char e :: pieces) ('\\' :: c :: body)
  | unit {a b c d n pieces body} : codeUnit a b c d = some n → SpellsPieces pieces body →
      SpellsPieces (.unit n :: pieces) ('\\' :: 'u' :: a :: b :: c :: d :: body)

def SpellsString (s : Option String) (text : List Char) : Prop :=
  ∃ pieces body, SpellsPieces pieces body ∧ s = (joinPieces pieces).map String.ofList ∧
    text = '"' :: body ++ ['"']

structure SpellsDigits (digits : List Nat) (text : List Char) : Prop where
  some : text ≠ []
  all : ∀ c ∈ text, c.isDigit = true
  values : digits = text.map fun c => c.toNat - 48

def SpellsFraction : Option (List Nat) → List Char → Prop
  | none,text => text = []
  | some digits,text => ∃ rest, text = '.' :: rest ∧ SpellsDigits digits rest

def SpellsExponent : Option (Bool × List Nat) → List Char → Prop
  | none,text => text = []
  | some (isNegative,digits),text => ∃ mark sign rest, (mark = 'e' ∨ mark = 'E') ∧
    (if isNegative then sign = ['-'] else sign = [] ∨ sign = ['+']) ∧
    text = mark :: sign ++ rest ∧ SpellsDigits digits rest

def SpellsNumeral (n : Numeral) (text : List Char) : Prop :=
  ∃ whole fraction exponent, SpellsDigits n.whole whole ∧ (∀ digit rest, n.whole ≠ 0 :: digit :: rest) ∧
    SpellsFraction n.fraction fraction ∧ SpellsExponent n.exponent exponent ∧
    text = (if n.isNegative then ['-'] else []) ++ whole ++ fraction ++ exponent

inductive Phrase where
  | value (json : Json)
  | items (items : List Json)
  | members (object : Json)

inductive Spells : Phrase → List Char → Prop
  | null : Spells (.value .null) ['n','u','l','l']
  | yes : Spells (.value (.bool true)) ['t','r','u','e']
  | no : Spells (.value (.bool false)) ['f','a','l','s','e']
  | number {n value text} : SpellsNumeral n text → n.value = some value →
      Spells (.value (.number value)) text
  | string {s text} : SpellsString (some s) text → Spells (.value (.string s)) text
  | noNumber {n text} : SpellsNumeral n text → n.value = none → Spells (.value .unreadable) text
  | noString {text} : SpellsString none text → Spells (.value .unreadable) text
  | emptyArray {blanks} : Blank blanks → Spells (.value (.array [])) ('[' :: blanks ++ [']'])
  | array {items text} : Spells (.items items) text →
      Spells (.value (.array items)) ('[' :: text ++ [']'])
  | emptyObject {blanks} : Blank blanks →
      Spells (.value (.object [])) ('\x7b' :: blanks ++ ['\x7d'])
  | object {json text} : Spells (.members json) text →
      Spells (.value json) ('\x7b' :: text ++ ['\x7d'])
  | lastItem {item before text after} : Blank before → Spells (.value item) text → Blank after →
      Spells (.items [item]) (before ++ text ++ after)
  | item {item items before text after more} : Blank before → Spells (.value item) text →
      Blank after → Spells (.items items) more →
      Spells (.items (item :: items)) (before ++ text ++ after ++ ',' :: more)
  | lastMember {key value before name middle inner text after} : Blank before →
      SpellsString key name → Blank middle → Blank inner → Spells (.value value) text → Blank after →
      Spells (.members (consMember key value (.object [])))
        (before ++ name ++ middle ++ ':' :: inner ++ text ++ after)
  | member {key value others before name middle inner text after more} : Blank before →
      SpellsString key name → Blank middle → Blank inner → Spells (.value value) text →
      Blank after → Spells (.members others) more →
      Spells (.members (consMember key value others))
        (before ++ name ++ middle ++ ':' :: inner ++ text ++ after ++ ',' :: more)

def Written (json : Json) (source : String) : Prop :=
  ∃ before text after, Blank before ∧ Spells (.value json) text ∧ Blank after ∧
    source.toList = before ++ text ++ after

/-! Tokens. -/

theorem skipBlanks_append {before : List Char} (blank : Blank before) (rest : List Char) :
    skipBlanks (before ++ rest) = skipBlanks rest := by
  induction before with
  | nil => rfl
  | cons c cs ih =>
    have here : isBlank c = true := blank c List.mem_cons_self
    have others := ih fun c member => blank c (List.mem_cons_of_mem _ member)
    rw [List.cons_append,skipBlanks,List.dropWhile_cons_of_pos here]
    exact others

theorem skipBlanks_cons {c : Char} (solid : isBlank c = false) (rest : List Char) :
    skipBlanks (c :: rest) = c :: rest :=
  List.dropWhile_cons_of_neg (by simp [solid])

theorem skipBlanks_skipBlanks (cs : List Char) : skipBlanks (skipBlanks cs) = skipBlanks cs :=
  List.dropWhile_idempotent isBlank cs

theorem readPieces_spelled {pieces : List Piece} {body : List Char}
    (spelled : SpellsPieces pieces body) (rest : List Char) :
    readPieces (body ++ '"' :: rest) = .ok (pieces,rest) := by
  induction spelled with
  | nil => rfl
  | @char c pieces body printed quote backslash _ ih =>
    have visible : ¬c.toNat < 0x20 := by omega
    simp [readPieces,backslash,visible,ih,bind,Except.bind,pure,Except.pure]
  | @escape c e pieces body short _ ih =>
    have other : c ≠ 'u' := by
      rintro rfl
      simp [shortEscape] at short
    simp [readPieces,other,short,ih,bind,Except.bind,pure,Except.pure]
  | @unit a b c d n pieces body given _ ih =>
    simp [readPieces,given,ih,bind,Except.bind,pure,Except.pure]

theorem readString_spelled {s : Option String} {text : List Char} (spelled : SpellsString s text)
    (rest : List Char) : ∃ body, text = '"' :: body ∧ readString (body ++ rest) = .ok (s,rest) := by
  obtain ⟨pieces,body,inside,rfl,rfl⟩ := spelled
  refine ⟨body ++ ['"'],rfl,?_⟩
  have read := readPieces_spelled inside rest
  simp only [readString,List.append_assoc,List.singleton_append,read]
  rfl

def Apart (rest : List Char) : Prop :=
  ∀ c more, rest = c :: more → c.isDigit = false

def Stops (rest : List Char) : Prop :=
  ∀ c more, rest = c :: more → c.isDigit = false ∧ c ≠ '.' ∧ c ≠ 'e' ∧ c ≠ 'E'

theorem Stops.apart {rest : List Char} (stops : Stops rest) : Apart rest :=
  fun c more same => (stops c more same).1

theorem exponent_stops {exponent : Option (Bool × List Nat)} {text rest : List Char}
    (spelled : SpellsExponent exponent text) (stops : Stops rest) :
    ∀ c more, text ++ rest = c :: more → c.isDigit = false ∧ c ≠ '.' := by
  intro c more same
  cases exponent with
  | none =>
    obtain rfl : text = [] := spelled
    obtain ⟨apart,point,-⟩ := stops c more same
    exact ⟨apart,point⟩
  | some given =>
    obtain ⟨mark,sign,inside,marked,-,rfl,-⟩ := spelled
    obtain rfl : mark = c := (List.cons.inj same).1
    rcases marked with rfl | rfl <;> decide

theorem fraction_apart {fraction : Option (List Nat)} {text rest : List Char}
    (spelled : SpellsFraction fraction text) (apart : Apart rest) : Apart (text ++ rest) := by
  cases fraction with
  | none =>
    obtain rfl : text = [] := spelled
    exact apart
  | some digits =>
    obtain ⟨inside,rfl,-⟩ := spelled
    intro c more same
    rw [← (List.cons.inj same).1]
    rfl

theorem readSomeDigits_spelled {digits : List Nat} {text rest : List Char}
    (spelled : SpellsDigits digits text) (apart : Apart rest) :
    readSomeDigits (text ++ rest) = .ok (digits,rest) := by
  have none : rest.takeWhile Char.isDigit = [] ∧ rest.dropWhile Char.isDigit = rest := by
    cases rest with
    | nil => exact ⟨rfl,rfl⟩
    | cons c more => simp [apart c more rfl]
  have read : readDigits (text ++ rest) = (digits,rest) := by
    rw [readDigits,List.takeWhile_append_of_pos spelled.all,List.dropWhile_append_of_pos spelled.all,
      none.1,none.2,List.append_nil,← spelled.values]
  have some : digits ≠ [] := by simp [spelled.values,spelled.some]
  cases digits with
  | nil => exact absurd rfl some
  | cons digit others => simp only [readSomeDigits,read]

theorem readFraction_spelled {fraction : Option (List Nat)} {text rest : List Char}
    (spelled : SpellsFraction fraction text) (apart : Apart rest)
    (point : ∀ more, rest ≠ '.' :: more) : readFraction (text ++ rest) = .ok (fraction,rest) := by
  cases fraction with
  | none =>
    obtain rfl : text = [] := spelled
    rw [List.nil_append]
    unfold readFraction
    split
    next more => exact absurd rfl (point more)
    next => rfl
  | some digits =>
    obtain ⟨inside,rfl,digitsSpelled⟩ := spelled
    simp only [List.cons_append,readFraction,readSomeDigits_spelled digitsSpelled apart]
    rfl

private theorem readSignedDigits_spelled {isNegative : Bool} {digits : List Nat}
    {sign text rest : List Char}
    (signed : if isNegative then sign = ['-'] else sign = [] ∨ sign = ['+'])
    (spelled : SpellsDigits digits text) (apart : Apart rest) :
    readSignedDigits (sign ++ (text ++ rest)) = .ok ((isNegative,digits),rest) := by
  have read := readSomeDigits_spelled spelled apart
  cases isNegative with
  | true =>
    obtain rfl : sign = ['-'] := signed
    simp only [List.cons_append,List.nil_append,readSignedDigits,read]
    rfl
  | false =>
    have either : sign = [] ∨ sign = ['+'] := signed
    rcases either with rfl | rfl
    · -- the first digit is no sign
      obtain ⟨c,cs,rfl⟩ := List.exists_cons_of_ne_nil spelled.some
      have digit := spelled.all c List.mem_cons_self
      simp only [List.nil_append,List.cons_append] at read ⊢
      unfold readSignedDigits
      split
      next same =>
        obtain ⟨rfl,-⟩ := List.cons.inj same
        exact Bool.noConfusion digit
      next same =>
        obtain ⟨rfl,-⟩ := List.cons.inj same
        exact Bool.noConfusion digit
      next =>
        rw [read]
        rfl
    · simp only [List.cons_append,List.nil_append,readSignedDigits,read]
      rfl

theorem readExponent_spelled {exponent : Option (Bool × List Nat)} {text rest : List Char}
    (spelled : SpellsExponent exponent text) (stops : Stops rest) :
    readExponent (text ++ rest) = .ok (exponent,rest) := by
  cases exponent with
  | none =>
    obtain rfl : text = [] := spelled
    cases rest with
    | nil => rfl
    | cons c more =>
      obtain ⟨-,-,lower,upper⟩ := stops c more rfl
      simp [readExponent,lower,upper]
  | some given =>
    obtain ⟨isNegative,digits⟩ := given
    obtain ⟨mark,sign,inside,marked,signed,rfl,digitsSpelled⟩ := spelled
    have read := readSignedDigits_spelled signed digitsSpelled stops.apart
    simp only [List.cons_append,List.append_assoc,readExponent,marked,if_true,read]
    rfl

def ofNumeral (n : Numeral) : Json :=
  match n.value with
  | some value => .number value
  | none => .unreadable

theorem readNumeral_spelled {n : Numeral} {whole fraction exponent rest : List Char}
    (digits : SpellsDigits n.whole whole) (noZero : ∀ digit more, n.whole ≠ 0 :: digit :: more)
    (behind : SpellsFraction n.fraction fraction) (scaled : SpellsExponent n.exponent exponent)
    (stops : Stops rest) :
    readNumeral n.isNegative (whole ++ (fraction ++ (exponent ++ rest))) = .ok (ofNumeral n,rest) := by
  have stopped := exponent_stops scaled stops
  have apart : Apart (exponent ++ rest) := fun c more same => (stopped c more same).1
  have noPoint (more : List Char) : exponent ++ rest ≠ '.' :: more :=
    fun same => (stopped '.' more same).2 rfl
  have first : readWhole (whole ++ (fraction ++ (exponent ++ rest))) =
      .ok (n.whole,fraction ++ (exponent ++ rest)) := by
    have read := readSomeDigits_spelled digits (fraction_apart behind apart)
    simp only [readWhole,read,bind,Except.bind]
    rfl
  have second := readFraction_spelled behind apart noPoint
  have third := readExponent_spelled scaled stops
  simp only [readNumeral,ofNumeral,first,second,third,bind,Except.bind]
  cases n.value <;> rfl

/-! Values. Blanks in front change nothing, and what follows a value never joins a numeral. -/

private theorem readValue_skipBlanks (fuel : Nat) (cs : List Char) :
    readValue fuel (skipBlanks cs) = readValue fuel cs := by
  cases fuel with
  | zero => rfl
  | succ fuel => rw [readValue,readValue,skipBlanks_skipBlanks]

private theorem readItems_skipBlanks (fuel : Nat) (cs : List Char) :
    readItems fuel (skipBlanks cs) = readItems fuel cs := by
  cases fuel with
  | zero => rfl
  | succ fuel => rw [readItems,readItems,readValue_skipBlanks]

private theorem readMembers_skipBlanks (fuel : Nat) (cs : List Char) :
    readMembers fuel (skipBlanks cs) = readMembers fuel cs := by
  cases fuel with
  | zero => rfl
  | succ fuel => rw [readMembers,readMembers,skipBlanks_skipBlanks]

private theorem readValue_blanks {before : List Char} (blank : Blank before) (fuel : Nat)
    (cs : List Char) : readValue fuel (before ++ cs) = readValue fuel cs := by
  rw [← readValue_skipBlanks,skipBlanks_append blank,readValue_skipBlanks]

private theorem blank_stops {after rest : List Char} (blank : Blank after) (stops : Stops rest) :
    Stops (after ++ rest) := by
  intro c more same
  cases after with
  | nil => exact stops c more same
  | cons first others =>
    obtain rfl : first = c := (List.cons.inj same).1
    have solid := blank first List.mem_cons_self
    simp only [isBlank,Bool.or_eq_true,beq_iff_eq] at solid
    rcases solid with ((rfl | rfl) | rfl) | rfl <;> decide

private theorem digit_solid {c : Char} (digit : c.isDigit = true) : isBlank c = false := by
  have other {d : Char} (noDigit : d.isDigit = false) : (c == d) = false := by
    rw [beq_eq_false_iff_ne]
    rintro rfl
    simp [digit] at noDigit
  simp only [isBlank,other (d := ' ') rfl,other (d := '\n') rfl,other (d := '\t') rfl,
    other (d := '\r') rfl]
  rfl

private theorem readValue_digit {c : Char} (digit : c.isDigit = true) (fuel : Nat)
    (cs : List Char) : readValue (fuel + 1) (c :: cs) = readNumeral false (c :: cs) := by
  rw [readValue,skipBlanks_cons (digit_solid digit)]
  split
  case h_1 same => exact absurd same (List.cons_ne_nil c cs)
  case h_9 same =>
    obtain ⟨rfl,rfl⟩ := List.cons.inj same
    rw [if_pos digit]
  -- every other first character is no digit
  all_goals
    rename_i same
    obtain ⟨rfl,-⟩ := List.cons.inj same
    exact Bool.noConfusion digit

private theorem readValue_numeral {n : Numeral} {text rest : List Char}
    (spelled : SpellsNumeral n text) (stops : Stops rest) (fuel : Nat) :
    readValue (fuel + 1) (text ++ rest) = .ok (ofNumeral n,rest) := by
  obtain ⟨whole,fraction,exponent,digits,noZero,behind,scaled,rfl⟩ := spelled
  have read := readNumeral_spelled digits noZero behind scaled stops
  simp only [List.append_assoc]
  cases sign : n.isNegative with
  | true =>
    rw [sign] at read
    exact read
  | false =>
    rw [sign] at read
    obtain ⟨c,cs,rfl⟩ := List.exists_cons_of_ne_nil digits.some
    have digit := digits.all c List.mem_cons_self
    exact (readValue_digit digit fuel _).trans read

private theorem numeral_opens {n : Numeral} {text : List Char} (spelled : SpellsNumeral n text)
    (rest : List Char) :
    ∃ c cs, skipBlanks (text ++ rest) = c :: cs ∧ c ≠ ']' ∧ c ≠ '\x7d' := by
  obtain ⟨whole,fraction,exponent,digits,-,-,-,rfl⟩ := spelled
  cases n.isNegative with
  | true => exact ⟨_,_,skipBlanks_cons rfl _,by decide,by decide⟩
  | false =>
    obtain ⟨c,cs,rfl⟩ := List.exists_cons_of_ne_nil digits.some
    have digit := digits.all c List.mem_cons_self
    refine ⟨c,_,skipBlanks_cons (digit_solid digit) _,?_,?_⟩ <;>
    · rintro rfl
      exact Bool.noConfusion digit

/-- What stands first is neither a blank nor a closing bracket. -/
private theorem Spells.opens {phrase : Phrase} {text : List Char} (spelled : Spells phrase text)
    (rest : List Char) :
    ∃ c cs, skipBlanks (text ++ rest) = c :: cs ∧ c ≠ ']' ∧ c ≠ '\x7d' := by
  induction spelled generalizing rest with
  | null | yes | no | emptyArray | array | emptyObject | object =>
    exact ⟨_,_,skipBlanks_cons rfl _,by decide,by decide⟩
  | number spelled | noNumber spelled => exact numeral_opens spelled rest
  | string spelled | noString spelled =>
    obtain ⟨pieces,body,-,-,rfl⟩ := spelled
    exact ⟨_,_,skipBlanks_cons rfl _,by decide,by decide⟩
  | lastItem blank _ _ ih | item blank _ _ _ ih =>
    simp only [List.append_assoc,skipBlanks_append blank]
    exact ih _
  | lastMember blank spelled | member blank spelled =>
    obtain ⟨pieces,body,-,-,rfl⟩ := spelled
    simp only [List.append_assoc,skipBlanks_append blank]
    exact ⟨_,_,skipBlanks_cons rfl _,by decide,by decide⟩

private def Reads : Phrase → List Char → Prop
  | .value json,text => ∀ rest fuel, Stops rest → 2 * text.length ≤ fuel →
    readValue fuel (text ++ rest) = .ok (json,rest)
  | .items list,text => ∀ rest fuel, 2 * text.length < fuel →
    readItems fuel (text ++ ']' :: rest) = .ok (list,rest)
  | .members json,text => ∀ rest fuel, 2 * text.length < fuel →
    readMembers fuel (text ++ '\x7d' :: rest) = .ok (json,rest)

private theorem closing_stops {after rest : List Char} (blank : Blank after) {c : Char}
    (closing : c = ',' ∨ c = ']' ∨ c = '\x7d') : Stops (after ++ c :: rest) := by
  apply blank_stops blank
  intro d more same
  obtain rfl : c = d := (List.cons.inj same).1
  rcases closing with rfl | rfl | rfl <;> decide

private theorem reads_numeral {n : Numeral} {text : List Char} (spelled : SpellsNumeral n text) :
    Reads (.value (ofNumeral n)) text := by
  intro rest fuel stops enough
  have some : text ≠ [] := by
    obtain ⟨whole,_,_,digits,-,-,-,rfl⟩ := spelled
    simp [digits.some]
  have positive := List.length_pos_of_ne_nil some
  obtain ⟨fuel,rfl⟩ := Nat.exists_eq_add_one_of_ne_zero (by omega : fuel ≠ 0)
  exact readValue_numeral spelled stops fuel

private theorem reads_string {s : Option String} {text : List Char} (spelled : SpellsString s text) :
    Reads (.value (s.elim .unreadable .string)) text := by
  intro rest fuel stops enough
  obtain ⟨body,rfl,read⟩ := readString_spelled spelled rest
  obtain ⟨fuel,rfl⟩ := Nat.exists_eq_add_one_of_ne_zero (by simp at enough; omega : fuel ≠ 0)
  rw [List.cons_append,readValue,skipBlanks_cons rfl]
  simp only [read]
  cases s <;> rfl

/-! One step of the reader for each form of a phrase. -/

private theorem readValue_emptyArray {blanks : List Char} (blank : Blank blanks) (fuel : Nat)
    (rest : List Char) :
    readValue (fuel + 1) ('[' :: (blanks ++ ']' :: rest)) = .ok (.array [],rest) := by
  rw [readValue,skipBlanks_cons rfl]
  simp only [skipBlanks_append blank,skipBlanks_cons (c := ']') rfl]

private theorem readValue_array {items : List Json} {text rest : List Char} {fuel : Nat}
    (spelled : Spells (.items items) text)
    (read : readItems fuel (text ++ ']' :: rest) = .ok (items,rest)) :
    readValue (fuel + 1) ('[' :: (text ++ ']' :: rest)) = .ok (.array items,rest) := by
  obtain ⟨c,cs,front,unshut,-⟩ := spelled.opens (']' :: rest)
  rw [← readItems_skipBlanks,front] at read
  rw [readValue,skipBlanks_cons rfl]
  simp only [front]
  split
  next same => exact absurd (List.cons.inj same).1 unshut
  next =>
    rw [read]
    rfl

private theorem readValue_emptyObject {blanks : List Char} (blank : Blank blanks) (fuel : Nat)
    (rest : List Char) :
    readValue (fuel + 1) ('\x7b' :: (blanks ++ '\x7d' :: rest)) = .ok (.object [],rest) := by
  rw [readValue,skipBlanks_cons rfl]
  simp only [skipBlanks_append blank,skipBlanks_cons (c := '\x7d') rfl]

private theorem readValue_object {json : Json} {text rest : List Char} {fuel : Nat}
    (spelled : Spells (.members json) text)
    (read : readMembers fuel (text ++ '\x7d' :: rest) = .ok (json,rest)) :
    readValue (fuel + 1) ('\x7b' :: (text ++ '\x7d' :: rest)) = .ok (json,rest) := by
  obtain ⟨c,cs,front,-,unshut⟩ := spelled.opens ('\x7d' :: rest)
  rw [← readMembers_skipBlanks,front] at read
  rw [readValue,skipBlanks_cons rfl]
  simp only [front]
  split
  next same => exact absurd (List.cons.inj same).1 unshut
  next => exact read

private theorem readItems_last {item : Json} {cs after rest : List Char} {fuel : Nat}
    (read : readValue fuel cs = .ok (item,after ++ ']' :: rest)) (blank : Blank after) :
    readItems (fuel + 1) cs = .ok ([item],rest) := by
  have shut : skipBlanks (after ++ ']' :: rest) = ']' :: rest := by
    rw [skipBlanks_append blank,skipBlanks_cons rfl]
  simp only [readItems,read,bind,Except.bind,shut]
  rfl

private theorem readItems_more {item : Json} {items : List Json} {cs after left rest : List Char}
    {fuel : Nat} (read : readValue fuel cs = .ok (item,after ++ ',' :: left)) (blank : Blank after)
    (others : readItems fuel left = .ok (items,rest)) :
    readItems (fuel + 1) cs = .ok (item :: items,rest) := by
  have comma : skipBlanks (after ++ ',' :: left) = ',' :: left := by
    rw [skipBlanks_append blank,skipBlanks_cons rfl]
  simp only [readItems,read,bind,Except.bind,comma,others]
  rfl

section Members

variable {key : Option String} {value : Json} {before name middle cs after rest : List Char} {fuel : Nat}
  (blank : Blank before) (spelled : SpellsString key name) (blankMiddle : Blank middle)
  (blankAfter : Blank after)
include blank spelled blankMiddle blankAfter

private theorem readMembers_last (read : readValue fuel cs = .ok (value,after ++ '\x7d' :: rest)) :
    readMembers (fuel + 1) (before ++ (name ++ (middle ++ ':' :: cs))) =
      .ok (consMember key value (.object []),rest) := by
  obtain ⟨body,rfl,keyRead⟩ := readString_spelled spelled (middle ++ ':' :: cs)
  have colon : skipBlanks (middle ++ ':' :: cs) = ':' :: cs := by
    rw [skipBlanks_append blankMiddle,skipBlanks_cons rfl]
  have shut : skipBlanks (after ++ '\x7d' :: rest) = '\x7d' :: rest := by
    rw [skipBlanks_append blankAfter,skipBlanks_cons rfl]
  rw [readMembers,skipBlanks_append blank,List.cons_append,skipBlanks_cons rfl]
  simp only [keyRead,bind,Except.bind,colon,read,shut]
  rfl

private theorem readMembers_more {others : Json} {left : List Char}
    (read : readValue fuel cs = .ok (value,after ++ ',' :: left))
    (more : readMembers fuel left = .ok (others,rest)) :
    readMembers (fuel + 1) (before ++ (name ++ (middle ++ ':' :: cs))) =
      .ok (consMember key value others,rest) := by
  obtain ⟨body,rfl,keyRead⟩ := readString_spelled spelled (middle ++ ':' :: cs)
  have colon : skipBlanks (middle ++ ':' :: cs) = ':' :: cs := by
    rw [skipBlanks_append blankMiddle,skipBlanks_cons rfl]
  have comma : skipBlanks (after ++ ',' :: left) = ',' :: left := by
    rw [skipBlanks_append blankAfter,skipBlanks_cons rfl]
  rw [readMembers,skipBlanks_append blank,List.cons_append,skipBlanks_cons rfl]
  simp only [keyRead,bind,Except.bind,colon,read,comma,more]
  rfl

end Members

private theorem Spells.reads {phrase : Phrase} {text : List Char} (spelled : Spells phrase text) :
    Reads phrase text := by
  -- every bracket and comma costs a step of fuel and a character
  induction spelled with
  | number spelled given | noNumber spelled given =>
    have read := reads_numeral spelled
    rwa [ofNumeral,given] at read
  | string spelled | noString spelled => exact reads_string spelled
  | null | yes | no =>
    intro (rest : List Char) (fuel : Nat) (_ : Stops rest) (enough : _ ≤ fuel)
    obtain ⟨fuel,rfl⟩ := Nat.exists_eq_add_one_of_ne_zero (by grind : fuel ≠ 0)
    rfl
  | emptyArray blank =>
    intro (rest : List Char) (fuel : Nat) (_ : Stops rest) (enough : _ ≤ fuel)
    obtain ⟨fuel,rfl⟩ := Nat.exists_eq_add_one_of_ne_zero (by grind : fuel ≠ 0)
    simpa using readValue_emptyArray blank fuel rest
  | array spelled ih =>
    intro (rest : List Char) (fuel : Nat) (_ : Stops rest) (enough : _ ≤ fuel)
    obtain ⟨fuel,rfl⟩ := Nat.exists_eq_add_one_of_ne_zero (by grind : fuel ≠ 0)
    simpa using readValue_array spelled (ih rest fuel (by grind))
  | emptyObject blank =>
    intro (rest : List Char) (fuel : Nat) (_ : Stops rest) (enough : _ ≤ fuel)
    obtain ⟨fuel,rfl⟩ := Nat.exists_eq_add_one_of_ne_zero (by grind : fuel ≠ 0)
    simpa using readValue_emptyObject blank fuel rest
  | object spelled ih =>
    intro (rest : List Char) (fuel : Nat) (_ : Stops rest) (enough : _ ≤ fuel)
    obtain ⟨fuel,rfl⟩ := Nat.exists_eq_add_one_of_ne_zero (by grind : fuel ≠ 0)
    simpa using readValue_object spelled (ih rest fuel (by grind))
  | @lastItem item before text after blank _ blankAfter ih =>
    intro (rest : List Char) (fuel : Nat) (enough : _ < fuel)
    obtain ⟨fuel,rfl⟩ := Nat.exists_eq_add_one_of_ne_zero (by grind : fuel ≠ 0)
    have read := ih (after ++ ']' :: rest) fuel (closing_stops blankAfter (.inr (.inl rfl)))
      (by grind)
    rw [← readValue_blanks blank] at read
    simpa using readItems_last read blankAfter
  | @item item items before text after more blank _ blankAfter _ ih ihMore =>
    intro (rest : List Char) (fuel : Nat) (enough : _ < fuel)
    obtain ⟨fuel,rfl⟩ := Nat.exists_eq_add_one_of_ne_zero (by grind : fuel ≠ 0)
    have read := ih (after ++ ',' :: (more ++ ']' :: rest)) fuel
      (closing_stops blankAfter (.inl rfl)) (by grind)
    rw [← readValue_blanks blank] at read
    simpa using readItems_more read blankAfter (ihMore rest fuel (by grind))
  | @lastMember key value before name middle inner text after blank named blankMiddle blankInner _
      blankAfter ih =>
    intro (rest : List Char) (fuel : Nat) (enough : _ < fuel)
    obtain ⟨fuel,rfl⟩ := Nat.exists_eq_add_one_of_ne_zero (by grind : fuel ≠ 0)
    have read := ih (after ++ '\x7d' :: rest) fuel (closing_stops blankAfter (.inr (.inr rfl)))
      (by grind)
    rw [← readValue_blanks blankInner] at read
    simpa using readMembers_last blank named blankMiddle blankAfter read
  | @member key value others before name middle inner text after more blank named blankMiddle
      blankInner _ blankAfter _ ih ihMore =>
    intro (rest : List Char) (fuel : Nat) (enough : _ < fuel)
    obtain ⟨fuel,rfl⟩ := Nat.exists_eq_add_one_of_ne_zero (by grind : fuel ≠ 0)
    have read := ih (after ++ ',' :: (more ++ '\x7d' :: rest)) fuel
      (closing_stops blankAfter (.inl rfl)) (by grind)
    rw [← readValue_blanks blankInner] at read
    have readMore := ihMore rest fuel (by grind)
    simpa using readMembers_more blank named blankMiddle blankAfter read readMore

/-- The reader gives back the value that a text spells. -/
theorem parse_written {json : Json} {source : String} (written : Written json source) :
    parse source = .ok json := by
  obtain ⟨before,text,after,blank,spelled,blankAfter,same⟩ := written
  have none : Stops ([] : List Char) := fun c more same => absurd same (List.cons_ne_nil c more).symm
  have stops : Stops after := by simpa using blank_stops blankAfter none
  have read := spelled.reads after (2 * source.toList.length + 2) stops (by grind)
  rw [← readValue_blanks blank,← List.append_assoc,← same] at read
  have done : skipBlanks after = [] := by
    rw [← List.append_nil after,skipBlanks_append blankAfter]
    rfl
  simp only [parse,read,bind,Except.bind,done]
  rfl

/-! Texts without blanks and escapes. -/

def isPlain (c : Char) : Bool :=
  0x20 ≤ c.toNat && c != '"' && c != '\\'

theorem spellsString_plain (s : String) (plain : s.toList.all isPlain = true) :
    SpellsString (some s) ('"' :: s.toList ++ ['"']) := by
  have pieces {cs : List Char} (plain : cs.all isPlain = true) :
      SpellsPieces (cs.map .char) cs ∧ joinPieces (cs.map .char) = some cs := by
    induction cs with
    | nil => exact ⟨.nil,rfl⟩
    | cons c cs ih =>
      rw [List.all_cons,Bool.and_eq_true] at plain
      obtain ⟨spelled,joined⟩ := ih plain.2
      have here := plain.1
      simp only [isPlain,Bool.and_eq_true,decide_eq_true_eq,bne_iff_ne] at here
      exact ⟨.char here.1.1 here.1.2 here.2 spelled,by simp [joinPieces,joined]⟩
  obtain ⟨spelled,joined⟩ := pieces plain
  exact ⟨_,_,spelled,by simp [joined],rfl⟩

private theorem blank_nil : Blank [] :=
  fun _ member => absurd member List.not_mem_nil

theorem written_plain {json : Json} {source : String} (spelled : Spells (.value json) source.toList) :
    Written json source :=
  ⟨[],source.toList,[],blank_nil,spelled,blank_nil,by simp⟩

theorem Spells.oneItem {item : Json} {text : List Char} (spelled : Spells (.value item) text) :
    Spells (.items [item]) text := by
  simpa using Spells.lastItem blank_nil spelled blank_nil

theorem Spells.oneMember (key : String) {value : Json} {text : List Char}
    (plain : key.toList.all isPlain = true) (spelled : Spells (.value value) text) :
    Spells (.members (.object [(key,value)])) ('"' :: key.toList ++ '"' :: ':' :: text) := by
  simpa [consMember] using
    Spells.lastMember blank_nil (spellsString_plain key plain) blank_nil blank_nil spelled blank_nil

theorem Spells.moreMembers (key : String) {value : Json} {members : List (String × Json)}
    {text more : List Char} (plain : key.toList.all isPlain = true) (spelled : Spells (.value value) text)
    (others : Spells (.members (.object members)) more) :
    Spells (.members (.object ((key,value) :: members)))
      ('"' :: key.toList ++ '"' :: ':' :: text ++ ',' :: more) := by
  simpa [consMember] using
    Spells.member blank_nil (spellsString_plain key plain) blank_nil blank_nil spelled blank_nil others

end PegCompiler.Json
