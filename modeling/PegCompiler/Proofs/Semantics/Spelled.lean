import PegCompiler.Proofs.Semantics.Reading

/-! Statements spell their code. A piece of code is read back from the text that it is printed as,
whatever stands behind it, if its calls hand methods what these declare. -/
namespace PegCompiler.Semantics

open Target Target.Scan

variable {imports : Imports} {code : Registries}

def spelled (imports : Imports) : Spelling :=
  ⟨imports.className "List",imports.className "Number"⟩

@[simp] theorem valueName_toList (slot : Nat) :
    (valueName slot).toList = 'r' :: Nat.toDigits 10 slot := by
  rw [valueName,String.toList_append]
  exact congrArg ('r' :: ·) Nat.toList_repr

@[simp] theorem positionName_toList (position : Nat) :
    (positionName position).toList = 'l' :: Nat.toDigits 10 position := by
  rw [positionName,String.toList_append]
  exact congrArg ('l' :: ·) Nat.toList_repr

/-! Values and tests. -/

def argumentText (p : Passed) : String :=
  "(" ++ p.type ++ ")" ++ valueName p.slot

private theorem readArguments_text (arguments : List Passed) (rest : List Char) :
    readArguments (arguments.map fun p => (p.param,p.type))
      ((", ".intercalate (arguments.map argumentText)).toList ++ ')' :: rest) =
        some (arguments,rest) := by
  induction arguments with
  | nil => simp [readArguments]
  | cons first others ih =>
    rw [List.map_cons,readArguments]
    cases others with
    | nil => simp [argumentText,readArguments]
    | cons second others =>
      have text : (", ".intercalate ((first :: second :: others).map argumentText)).toList =
          (argumentText first).toList ++ ',' :: ' ' ::
            (", ".intercalate ((second :: others).map argumentText)).toList := by
        simp [String.toList_intercalate]
      rw [text]
      generalize (", ".intercalate ((second :: others).map argumentText)).toList = tail at ih ⊢
      rw [List.map_cons] at ih ⊢
      simp [argumentText,ih]

theorem readCall_text {kind : MethodKind} {index : Nat} {arguments : List Passed}
    (declared : Declared code ⟨.method kind index,arguments⟩) (rest : List Char) :
    readCall code kind ('u' :: 'c' :: '.' ::
      ((UserCode.call kind index (arguments.map Passed.toArgument)).toList ++ rest)) =
        some (index,arguments,rest) := by
  obtain ⟨method,found,params⟩ := declared kind index rfl
  have text : UserCode.call kind index (arguments.map Passed.toArgument) =
      kind.stem ++ toString index ++ "(" ++ ", ".intercalate (arguments.map argumentText) ++
        ")" := by
    rw [UserCode.call,List.map_map]
    rfl
  have read := readArguments_text arguments rest
  rw [← params] at read
  rw [text]
  generalize ", ".intercalate (arguments.map argumentText) = joined at read ⊢
  cases kind <;> simp [readCall,MethodKind.stem,found,read]

theorem readValue_text {value : Value} (declared : ∀ r ∈ value.references, Declared code r) :
    readValue code value.text.toList = some value := by
  have expectedWord : expectedLetter = "e" := rfl
  have patternWord : patternLetter = "p" := rfl
  cases value with
  | failed => exact rfl
  | null => exact rfl
  | matchAny => exact rfl
  | array slots =>
    have text : (Value.array slots).text =
      "newArray(" ++ ", ".intercalate (slots.map valueName) ++ ")" := rfl
    have read : names 'r' (", ".intercalate (slots.map valueName)).toList = some slots :=
      names_intercalate (by decide) (by decide) valueName_toList slots
    rw [text]
    generalize ", ".intercalate (slots.map valueName) = joined at read ⊢
    simp [read]
  | textFrom position =>
    have text : (Value.textFrom position).text =
      "super.toText(" ++ positionName position ++ ")" := rfl
    simp [text]
  | callRule name =>
    have text : (Value.callRule name).text = "parse$" ++ name ++ "()" := rfl
    simp [text]
  | matchLiteral value expected ignoreCase =>
    have text : (Value.matchLiteral value expected ignoreCase).text =
      "super.parseLiteral(" ++ stringLiteral value ++ ", " ++ expectedLetter ++ toString expected ++
        ", " ++ toString ignoreCase ++ ")" := rfl
    simp [text,expectedWord]
  | matchClass pattern expected inverted =>
    have text : (Value.matchClass pattern expected inverted).text =
      "super.parsePattern(" ++ patternLetter ++ toString pattern ++ ", " ++ expectedLetter ++
        toString expected ++ ", " ++ toString inverted ++ ")" := rfl
    simp [text,expectedWord,patternWord]
  | reportFailure expected =>
    have text : (Value.reportFailure expected).text =
      "super.fail(" ++ expectedLetter ++ toString expected ++ ")" := rfl
    simp [text,expectedWord]
  | callAction method arguments =>
    have text : (Value.callAction method arguments).text =
      "uc." ++ UserCode.call .action method (arguments.map Passed.toArgument) := rfl
    have read := readCall_text (declared _ List.mem_cons_self) []
    rw [List.append_nil] at read
    simp [text,-readCall,read]

private theorem readBound_text (bound : Bound) {rest : List Char} (apart : Apart rest) :
    readBound imports ((bound.text (spelled imports)).toList ++ rest) = some (bound,rest) := by
  cases bound with
  | count n =>
    have text : (Bound.count n).text (spelled imports) = toString n.toNat := rfl
    have small := n.toNat_lt
    have size : UInt32.size = 2 ^ 32 := rfl
    simp [text,apart,size,small]
  | slot slot =>
    have text : (Bound.slot slot).text (spelled imports) =
      "((" ++ imports.className "Number" ++ ")" ++ valueName slot ++ ").intValue()" := rfl
    simp [text]

theorem readTest_text {test : Test} (declared : ∀ r ∈ test.references, Declared code r)
    {rest : List Char} (apart : Apart rest) :
    readTest imports code ((test.text (spelled imports)).toList ++ rest) = some (test,rest) := by
  cases test with
  | failed slot =>
    have text : (Test.failed slot).text (spelled imports) = valueName slot ++ " == FAILED" := rfl
    simp [text]
  | matched slot =>
    have text : (Test.matched slot).text (spelled imports) = valueName slot ++ " != FAILED" := rfl
    simp [text]
  | atLeast slot bound =>
    have text : (Test.atLeast slot bound).text (spelled imports) = "((" ++
      imports.className "List" ++ ")" ++ valueName slot ++ ")" ++ ".size() >= " ++
        bound.text (spelled imports) := rfl
    simp [text,-readBound,readBound_text,apart]
  | fewer slot bound =>
    have text : (Test.fewer slot bound).text (spelled imports) = "((" ++
      imports.className "List" ++ ")" ++ valueName slot ++ ")" ++ ".size() < " ++
        bound.text (spelled imports) := rfl
    simp [text,-readBound,readBound_text,apart]
  | holds isNegative index arguments =>
    have read := readCall_text (declared _ List.mem_cons_self) rest
    cases isNegative with
    | false =>
      have text : (Test.holds false index arguments).text (spelled imports) = "" ++ "uc." ++
        UserCode.call .predicate index (arguments.map Passed.toArgument) := rfl
      simp [text,-readCall,read]
    | true =>
      have text : (Test.holds true index arguments).text (spelled imports) = "!" ++ "uc." ++
        UserCode.call .predicate index (arguments.map Passed.toArgument) := rfl
      have refused (text : List Char) : readCall code .predicate ('!' :: text) = none := by simp
      simp [text,-readCall,refused,read]

theorem readCondition_text {test : Test} (declared : ∀ r ∈ test.references, Declared code r) :
    readCondition imports code (test.text (spelled imports)) = some test := by
  have read : readTest imports code ((test.text (spelled imports)).toList ++ []) = some (test,[]) :=
    readTest_text declared apart_nil
  rw [List.append_nil] at read
  generalize test.text (spelled imports) = text at read ⊢
  simp [-readTest,read]

/-! Lines and statements. -/

private theorem ends_self (w : String) : ends w w.toList = some () := by
  have whole : behind w.toList w.toList = some [] := by
    simpa using behind_append w.toList []
  rw [ends,words,whole]
  rfl

private theorem readStep_assign {slot : Nat} {value : Value} {text : String}
    (read : readValue code text.toList = some value) :
    readStep imports code (valueName slot ++ " = " ++ text ++ ";").toList =
      some (.assign slot value) := by
  simp [-readValue,read]

private theorem readStep_save (position : Nat) :
    readStep imports code (positionName position ++ " = super.current.clone();").toList =
      some (.save position) := by
  simp

private theorem readStep_restore (position : Nat) :
    readStep imports code ("super.current = " ++ positionName position ++ ";").toList =
      some (.restore position) := by
  simp

private theorem readStep_mark (position : Nat) :
    readStep imports code ("super.mark = " ++ positionName position ++ ";").toList =
      some (.mark position) := by
  simp

private theorem readStep_append (list item : Nat) :
    readStep imports code ("((" ++ imports.className "List" ++ ")" ++ valueName list ++ ")" ++
      ".add(" ++ valueName item ++ ");").toList = some (.append list item) := by
  simp

private theorem readStep_text {step : Step} (declared : ∀ r ∈ step.references, Declared code r) :
    readStep imports code (step.text (spelled imports)).toList = some step := by
  cases step with
  | assign slot value =>
    have text : (Step.assign slot value).text (spelled imports) =
      valueName slot ++ " = " ++ value.text ++ ";" := rfl
    rw [text,readStep_assign (readValue_text declared)]
  | save position =>
    have text : (Step.save position).text (spelled imports) =
      positionName position ++ " = super.current.clone();" := rfl
    rw [text,readStep_save]
  | restore position =>
    have text : (Step.restore position).text (spelled imports) =
      "super.current = " ++ positionName position ++ ";" := rfl
    rw [text,readStep_restore]
  | mark position =>
    have text : (Step.mark position).text (spelled imports) =
      "super.mark = " ++ positionName position ++ ";" := rfl
    rw [text,readStep_mark]
  | silence =>
    have text : Step.silence.text (spelled imports) = "++super.silent;" := rfl
    rw [text,readStep,ends_self]
    rfl
  | unsilence =>
    have text : Step.unsilence.text (spelled imports) = "--super.silent;" := rfl
    simp [text]
  | append list item =>
    have text : (Step.append list item).text (spelled imports) = "((" ++ imports.className "List" ++
      ")" ++ valueName list ++ ")" ++ ".add(" ++ valueName item ++ ");" := rfl
    rw [text,readStep_append]
  | leave =>
    have text : Step.leave.text (spelled imports) = "break;" := rfl
    simp [text]

private def Opens (c : Char) (text : String) : Prop :=
  ∃ rest, text.toList = c :: rest

private theorem Opens.append {c : Char} {text : String} (opens : Opens c text) (rest : String) :
    Opens c (text ++ rest) := by
  obtain ⟨front,starts⟩ := opens
  exact ⟨front ++ rest.toList,by rw [String.toList_append,starts,List.cons_append]⟩

/-- No step starts like a remark or a test. -/
private theorem step_opens (s : Spelling) (step : Step) :
    ∃ c, Opens c (step.text s) ∧ '/' ≠ c ∧ 'i' ≠ c := by
  cases step with
  | assign slot value =>
    have opens : Opens 'r' (valueName slot) := ⟨_,valueName_toList slot⟩
    exact ⟨'r',((opens.append " = ").append value.text).append ";",by decide,by decide⟩
  | save position =>
    have opens : Opens 'l' (positionName position) := ⟨_,positionName_toList position⟩
    exact ⟨'l',opens.append " = super.current.clone();",by decide,by decide⟩
  | restore position =>
    have opens : Opens 's' "super.current = " := ⟨_,rfl⟩
    exact ⟨'s',(opens.append (positionName position)).append ";",by decide,by decide⟩
  | mark position =>
    have opens : Opens 's' "super.mark = " := ⟨_,rfl⟩
    exact ⟨'s',(opens.append (positionName position)).append ";",by decide,by decide⟩
  | silence =>
    have opens : Opens '+' "++super.silent;" := ⟨_,rfl⟩
    exact ⟨'+',opens,by decide,by decide⟩
  | unsilence =>
    have opens : Opens '-' "--super.silent;" := ⟨_,rfl⟩
    exact ⟨'-',opens,by decide,by decide⟩
  | append list item =>
    have opens : Opens '(' "((" := ⟨_,rfl⟩
    have listed : Opens '(' (listText s list) :=
      (((opens.append s.list).append ")").append (valueName list)).append ")"
    exact ⟨'(',((listed.append ".add(").append (valueName item)).append ");",by decide,by decide⟩
  | leave =>
    have opens : Opens 'b' "break;" := ⟨_,rfl⟩
    exact ⟨'b',opens,by decide,by decide⟩

private theorem readLine_step {step : Step} (declared : ∀ r ∈ step.references, Declared code r) :
    readLine imports code (step.text (spelled imports)).toList = some (.step step) := by
  have read : readStep imports code (step.text (spelled imports)).toList = some step :=
    readStep_text declared
  obtain ⟨c,⟨rest,text⟩,remark,brief⟩ := step_opens (spelled imports) step
  rw [text] at read ⊢
  simp [-readStep,read,remark,brief]

private theorem readLine_brief {test : Test} {step : Step}
    (tested : ∀ r ∈ test.references, Declared code r)
    (declared : ∀ r ∈ step.references, Declared code r) :
    readLine imports code ("if (" ++ test.text (spelled imports) ++ ") \x7b " ++
      step.text (spelled imports) ++ " \x7d").toList = some (.brief test step) := by
  have body : readStep imports code (step.text (spelled imports)).toList = some step :=
    readStep_text declared
  have condition (rest : List Char) :
      readTest imports code ((test.text (spelled imports)).toList ++ ')' :: rest) =
        some (test,')' :: rest) :=
    readTest_text tested (by simp)
  generalize step.text (spelled imports) = text at body ⊢
  generalize test.text (spelled imports) = text at condition ⊢
  simp [-readTest,-readStep,condition,body]

private theorem number_closing (n : Nat) :
    number ((toString n).toList ++ "*/".toList) = some (n,"*/".toList) := by
  have digits : (toString n).toList = Nat.toDigits 10 n := Nat.toList_repr
  rw [digits]
  exact number_digits (by simp) n

private theorem readLine_alternative (n : Nat) :
    readLine imports code ("/*alternative " ++ toString n ++ "*/").toList =
      some (.alternative n) := by
  rw [String.append_assoc,String.toList_append,String.toList_append,readLine,readRemark,words,
    behind_append,Option.bind_eq_bind,Option.bind_some,number_closing]
  simp only [Option.bind_eq_bind,Option.bind_some,ends_self]
  rfl

private theorem readLine_element (n : Nat) :
    readLine imports code ("/*element " ++ toString n ++ "*/").toList = some (.element n) := by
  have other (rest : List Char) :
      words "/*alternative " ("/*element ".toList ++ rest) = none := by
    simp
  rw [String.append_assoc,String.toList_append,String.toList_append,readLine,readRemark,other,words,
    behind_append]
  simp only [Option.bind_eq_bind,Option.bind_some,Option.bind_none,number_closing,ends_self]
  rfl

theorem readKind_self (kind : BlockKind) : readKind kind.header kind.footer = some kind := by
  cases kind <;> rfl

mutual

theorem readStmt_toStmt : (instr : Instr) → (∀ r ∈ instr.references, Declared code r) →
    readStmt imports code (instr.toStmt (spelled imports)) = some instr
  | .step _, declared => readLine_step declared
  | .brief _ _, declared => by
    rw [Instr.references,List.forall_mem_append] at declared
    exact readLine_brief declared.1 declared.2
  | .ifThen _ body, declared => by
    rw [Instr.references,List.forall_mem_append] at declared
    rw [Instr.toStmt,readStmt,readCondition_text declared.1,readStmts_toStmts body declared.2]
    rfl
  | .ifElse _ body otherwise, declared => by
    simp only [Instr.references,List.forall_mem_append] at declared
    obtain ⟨⟨tested,first⟩,second⟩ := declared
    rw [Instr.toStmt,readStmt,readCondition_text tested,readStmts_toStmts body first,
      readStmts_toStmts otherwise second]
    rfl
  | .block kind body, declared => by
    rw [Instr.toStmt,readStmt,readKind_self,readStmts_toStmts body declared]
    rfl
  | .alternative n, _ => readLine_alternative n
  | .element n, _ => readLine_element n
  | .blank, _ => rfl

/-- The statements of code read as the code. -/
theorem readStmts_toStmts : (body : List Instr) →
    (∀ r ∈ Instr.referencesAll body, Declared code r) →
    readStmts imports code (Instr.toStmts (spelled imports) body) = some body
  | [], _ => rfl
  | instr :: rest, declared => by
    rw [Instr.referencesAll,List.forall_mem_append] at declared
    rw [Instr.toStmts,readStmts,readStmt_toStmt instr declared.1,readStmts_toStmts rest declared.2]
    rfl

end

/-! Whole subroutines. -/

section Locals

variable {s : Locals} {letter : Char} (word : s.letter.toList = [letter]) (tight : letter ≠ ' ')
  (other : letter ≠ ',')
include word tight other

private theorem takeLocals_declared (some : s.declared ≠ 0) (rest : List Stmt) :
    takeLocals s.type letter (s.declaration.toList.map Stmt.line ++ rest) =
      (List.range s.declared,rest) := by
  have name (n : Nat) : (s.name n).toList = letter :: Nat.toDigits 10 n := by
    have text : s.name n = s.letter ++ toString n := rfl
    simp [text,word]
  have read := names_intercalate tight other name (List.range s.declared)
  rw [Locals.declaration,if_neg some]
  generalize ", ".intercalate ((List.range s.declared).map s.name) = joined at read ⊢
  have declares : readLocals s.type letter (s.type ++ " " ++ joined ++ ";") =
      .some (List.range s.declared) := by
    simp [readLocals,read]
  simp [takeLocals,declares]

private theorem takeLocals_blank (rest : List Stmt) :
    takeLocals s.type letter (s.declaration.toList.map Stmt.line ++ .blank :: rest) =
      (List.range s.declared,.blank :: rest) := by
  by_cases none : s.declared = 0
  · rw [Locals.declaration,if_pos none,none]
    rfl
  · exact takeLocals_declared word tight other none _

end Locals

private theorem readReturn_name (slot : Nat) :
    readReturn ("return " ++ valueName slot ++ ";") = some slot := by
  simp [readReturn]

private theorem readHeader_name (name : String) :
    readHeader imports ("private " ++ imports.className "Object" ++ " " ++ subroutineName name ++
      "() \x7b") = some name := by
  have stem : subroutineName name = "parse$" ++ name := rfl
  simp [readHeader,stem]

private theorem readBody_toStmts {body : List Instr}
    (declared : ∀ r ∈ Instr.referencesAll body, Declared code r) (slot : Nat) :
    readBody imports code (.blank :: (Instr.toStmts (spelled imports) body ++
      [.blank,.line ("return " ++ valueName slot ++ ";")])) = some (body,slot) := by
  have read : readStmts imports code (Instr.toStmts (spelled imports) body) = some body :=
    readStmts_toStmts body declared
  generalize Instr.toStmts (spelled imports) body = stmts at read ⊢
  have front : (stmts ++ [Stmt.blank,.line ("return " ++ valueName slot ++ ";")]).length - 2 =
      stmts.length := by
    simp
  rw [readBody,front,List.drop_left,List.take_left,read]
  dsimp only
  rw [readReturn_name]
  rfl

def routineCode (imports : Imports) (sub : Subroutine) : List Stmt :=
  (sub.values.declaration.toList ++ sub.positions.declaration.toList).map Stmt.line ++
    [.blank] ++ Instr.toStmts (spelled imports) sub.body ++
    [.blank,.line ("return " ++ valueName 0 ++ ";")]

def routineMark (sub : Subroutine) : String :=
  "(name=" ++ stringLiteral sub.name ++ ", isStart=" ++ toString sub.isStart ++ ")"

theorem toStmts_eq (sub : Subroutine) (imports : Imports) : sub.toStmts imports = .ok [
    .line ("@" ++ imports.className "Rule" ++ routineMark sub),
    .block ("private " ++ imports.className "Object" ++ " " ++ subroutineName sub.name ++ "() \x7b")
      (routineCode imports sub) "\x7d"] := by
  have known {short : String} (member : short ∈ Imports.knownNames) := imports.resolve_eq member
  simp only [Subroutine.toStmts,known (by simp [Imports.knownNames] : "Rule" ∈ _),
    known (by simp [Imports.knownNames] : "Object" ∈ _),
    known (by simp [Imports.knownNames] : "List" ∈ _),
    known (by simp [Imports.knownNames] : "Number" ∈ _)]
  simp only [routineMark,← String.append_assoc]
  rfl

structure LocalsOf (imports : Imports) (values positions : Locals) : Prop where
  valueLetter : values.letter = valueLetter
  valueType : values.type = imports.className "Object"
  positionLetter : positions.letter = positionLetter
  positionType : positions.type = imports.className "Position"
  some : values.declared ≠ 0

/-- The statements of a subroutine read as the subroutine. -/
theorem readRoutine_toStmts {sub : Subroutine} (locals : LocalsOf imports sub.values sub.positions)
    (declared : ∀ r ∈ Instr.referencesAll sub.body, Declared code r) {stmts : List Stmt}
    (printed : sub.toStmts imports = .ok stmts) :
    readRoutine imports code stmts = some sub.routine := by
  obtain rfl := Except.ok.inj (printed.symm.trans (toStmts_eq sub imports))
  have values : sub.values.letter.toList = ['r'] := by
    rw [locals.valueLetter]
    rfl
  have positions : sub.positions.letter.toList = ['l'] := by
    rw [locals.positionLetter]
    rfl
  have first := takeLocals_declared values (by decide) (by decide) locals.some
    (sub.positions.declaration.toList.map Stmt.line ++ .blank ::
      (Instr.toStmts (spelled imports) sub.body ++
        [.blank,.line ("return " ++ valueName 0 ++ ";")]))
  have second := takeLocals_blank positions (by decide) (by decide)
    (Instr.toStmts (spelled imports) sub.body ++ [.blank,.line ("return " ++ valueName 0 ++ ";")])
  rw [locals.valueType] at first
  rw [locals.positionType] at second
  simp only [readRoutine,readHeader_name,routineCode,List.map_append,List.append_assoc,List.cons_append,
    List.nil_append,first,second,readBody_toStmts declared]
  rfl

end PegCompiler.Semantics
