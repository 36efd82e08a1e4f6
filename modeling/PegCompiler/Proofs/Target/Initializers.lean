import PegCompiler.Proofs.Lowering.Effects
import PegCompiler.Proofs.Target.Classes
import PegCompiler.Proofs.Target.Literals

/-! Initializers of constants can be told apart. A string literal ends at its closing quote whatever
follows, so the parts of an initializer are found again from left to right; the text of a class gives
its members back, as a hyphen or a caret of the class itself is quoted and an operator is not. -/
namespace PegCompiler

namespace Target

private theorem readLiteral_written (s : String) (rest : List Char) :
    readLiteral (codeUnits true ((stringLiteral s).toList ++ rest)) =
      some (s.toList.flatMap utf16,codeUnits true rest) := by
  have text : (stringLiteral s).toList ++ rest = '"' :: (s.toList.flatMap escapeChar ++ '"' :: rest) := by
    simp [stringLiteral,stringBody]
  have closing (left : List SourceUnit) : readBody (⟨0x22,['"']⟩ :: left) = some ([],left) := by
    rw [readBody,if_pos rfl]
  rw [text,codeUnits_quote,codeUnits_escaped,codeUnits_quote,readLiteral,if_pos rfl,readBody_escaped,
    closing]
  simp

theorem stringLiteral_append_inj {a b : String} {rest others : List Char}
    (same : (stringLiteral a).toList ++ rest = (stringLiteral b).toList ++ others) :
    a = b ∧ rest = others := by
  have read := congrArg (fun text => readLiteral (codeUnits true text)) same
  simp only [readLiteral_written,Option.some.injEq,Prod.mk.injEq] at read
  constructor
  · have pieces := congrArg (fun units => Json.joinPieces (units.map .unit)) read.1
    simp only [joinPieces_flatMap_utf16,Option.some.injEq] at pieces
    exact String.toList_inj.mp pieces
  · have sources := congrArg (fun units => units.flatMap (·.source)) read.2
    simpa only [codeUnits_source] using sources

end Target

open Target

private theorem literalOrNull_eq (text : Option String) : literalOrNull text =
    if text.getD "" = "" then "null" else stringLiteral (text.getD "") := by
  cases text <;> simp [literalOrNull]

theorem literalOrNull_append_inj {a b : Option String} {rest others : List Char}
    (same : (literalOrNull a).toList ++ rest = (literalOrNull b).toList ++ others) :
    a.getD "" = b.getD "" ∧ rest = others := by
  have opens (s : String) : ∃ body, (stringLiteral s).toList = '"' :: body := by
    simp [stringLiteral]
  rw [literalOrNull_eq,literalOrNull_eq] at same
  split at same
  next none =>
    split at same
    next none' => exact ⟨none.trans none'.symm,List.append_cancel_left same⟩
    next =>
      obtain ⟨body,text⟩ := opens (b.getD "")
      rw [text] at same
      exact absurd (List.cons.inj same).1 (by decide)
  next =>
    split at same
    next =>
      obtain ⟨body,text⟩ := opens (a.getD "")
      rw [text] at same
      exact absurd (List.cons.inj same).1 (by decide)
    next => exact stringLiteral_append_inj same

private theorem display_append_inj {kind other : ExpectedKind} {rest others : List Char}
    (same : kind.display.toList ++ rest = other.display.toList ++ others) :
    kind = other ∧ rest = others := by
  by_cases equal : kind = other
  · subst equal
    exact ⟨rfl,List.append_cancel_left same⟩
  · cases kind <;> cases other <;> simp [ExpectedKind.display] at same equal

theorem expectedInitializer_inj {className : String} {kind other : ExpectedKind}
    {value value' description description' : Option String} :
    expectedInitializer className kind value description =
        expectedInitializer className other value' description' ↔
      kind = other ∧ value.getD "" = value'.getD "" ∧ description.getD "" = description'.getD "" := by
  have text (kind : ExpectedKind) (value description : Option String) :
      (expectedInitializer className kind value description).toList =
        ("new " ++ className ++ "(" ++ className ++ ".Type.").toList ++ (kind.display.toList ++
          (',' :: ' ' :: ((literalOrNull value).toList ++
            (',' :: ' ' :: ((literalOrNull description).toList ++ [')']))))) := by
    simp [expectedInitializer,toString]
  constructor
  · intro same
    have texts := congrArg String.toList same
    rw [text,text] at texts
    obtain ⟨kinds,behind⟩ := display_append_inj (List.append_cancel_left texts)
    obtain ⟨values,last⟩ := literalOrNull_append_inj (List.cons.inj (List.cons.inj behind).2).2
    obtain ⟨descriptions,-⟩ := literalOrNull_append_inj (List.cons.inj (List.cons.inj last).2).2
    exact ⟨kinds,values,descriptions⟩
  · rintro ⟨rfl,values,descriptions⟩
    have literal {a b : Option String} (equal : a.getD "" = b.getD "") :
        literalOrNull a = literalOrNull b := by
      rw [literalOrNull_eq,literalOrNull_eq,equal]
    rw [expectedInitializer,expectedInitializer,literal values,literal descriptions]

theorem patternInitializer_inj {className source source' : String} {ignoreCase ignoreCase' : Bool} :
    patternInitializer className source ignoreCase = patternInitializer className source' ignoreCase' ↔
      source = source' ∧ ignoreCase = ignoreCase' := by
  have text (source : String) (ignoreCase : Bool) :
      (patternInitializer className source ignoreCase).toList =
        (className ++ ".compile(").toList ++ ((stringLiteral source).toList ++ (',' :: ' ' ::
          ((if ignoreCase then className ++ ".CASE_INSENSITIVE | " else "").toList ++
            (className ++ ".DOTALL | " ++ className ++ ".UNICODE_CASE)").toList))) := by
    simp [patternInitializer,toString]
  constructor
  · intro same
    have texts := congrArg String.toList same
    rw [text,text] at texts
    obtain ⟨sources,behind⟩ := stringLiteral_append_inj (List.append_cancel_left texts)
    have flags := List.append_cancel_right (List.cons.inj (List.cons.inj behind).2).2
    refine ⟨sources,?_⟩
    cases ignoreCase <;> cases ignoreCase' <;> simp at flags ⊢
  · rintro ⟨rfl,rfl⟩
    rfl

/-! Classes. -/

private theorem sign_hyphen (parts : List ClassPart) (rest : List ClassSign) :
    parts.flatMap partSigns ≠ .plain '-' :: rest := by
  intro same
  cases parts with
  | nil => exact nomatch same
  | cons part others =>
    cases part <;> exact classSign_special (by decide) (List.cons.inj same).1

private theorem classSign_inj {c d : Char} (same : classSign c = classSign d) : c = d := by
  have chars := congrArg ClassSign.char same
  rwa [classSign_char,classSign_char] at chars

theorem partSigns_inj {parts others : List ClassPart}
    (same : parts.flatMap partSigns = others.flatMap partSigns) : parts = others := by
  induction parts generalizing others with
  | nil =>
    cases others with
    | nil => rfl
    | cons part rest => cases part <;> exact nomatch same
  | cons part rest ih =>
    cases others with
    | nil => cases part <;> exact nomatch same
    | cons other rest' =>
      rw [List.flatMap_cons,List.flatMap_cons] at same
      cases part with
      | single c =>
        cases other with
        | single d =>
          obtain ⟨first,tail⟩ := List.cons.inj same
          rw [classSign_inj first,ih tail]
        | range lo hi => exact absurd (List.cons.inj same).2 (sign_hyphen rest _)
      | range lo hi =>
        cases other with
        | single d => exact absurd (List.cons.inj same).2.symm (sign_hyphen rest' _)
        | range lo' hi' =>
          obtain ⟨low,tail⟩ := List.cons.inj same
          obtain ⟨high,tail⟩ := List.cons.inj (List.cons.inj tail).2
          rw [classSign_inj low,classSign_inj high,ih tail]

open Lowering

private theorem classSigns_shown (parts : List ClassPart) (inverted : Bool) :
    classSigns (classShown parts inverted).toList = some (.plain '[' ::
      ((if inverted then [.plain '^'] else []) ++ (parts.flatMap partSigns ++ [.plain ']']))) := by
  have written : (classShown parts inverted).toList =
      '[' :: ((if inverted then ['^'] else []) ++ ((classBody parts).toList ++ [']'])) := by
    cases inverted <;> simp [classShown]
  rw [written,classSigns_plain (by decide)]
  cases inverted with
  | false =>
    simp only [Bool.false_eq_true,if_false,List.nil_append,classSigns_body]
    rfl
  | true =>
    simp only [if_true,List.singleton_append]
    rw [classSigns_plain (by decide),classSigns_body]
    rfl

theorem classShown_inj {parts others : List ClassPart} {inverted inverted' : Bool} :
    classShown parts inverted = classShown others inverted' ↔
      parts = others ∧ inverted = inverted' := by
  constructor
  · intro same
    have signs := congrArg (fun text => classSigns text.toList) same
    simp only [classSigns_shown,Option.some.injEq,List.cons.injEq,true_and] at signs
    -- a caret in front is the inversion, as one of the class itself is quoted
    have straight {parts : List ClassPart} {rest : List ClassSign} :
        parts.flatMap partSigns ++ [.plain ']'] ≠ .plain '^' :: rest := by
      intro caret
      obtain ⟨tail,first⟩ := next_sign parts
      rw [first] at caret
      cases parts with
      | nil => exact absurd (List.cons.inj caret).1 (by decide)
      | cons part _ => exact classSign_special (by decide) (List.cons.inj caret).1
    cases inverted <;> cases inverted'
    · exact ⟨partSigns_inj (List.append_cancel_right signs),rfl⟩
    · exact absurd signs straight
    · exact absurd signs.symm straight
    · exact ⟨partSigns_inj (List.append_cancel_right (List.cons.inj signs).2),rfl⟩
  · rintro ⟨rfl,rfl⟩
    rfl

theorem classPattern_inj {parts others : List ClassPart} :
    classPattern parts = classPattern others ↔ parts = others := by
  have bracketed {parts : List ClassPart} (nonempty : parts ≠ []) :
      classPattern parts = classShown parts false := by
    rw [classPattern,if_neg (by simpa using nonempty),classShown]
    rfl
  have opens (parts : List ClassPart) : classShown parts false ≠ "(?!)" := by
    intro same
    have text := congrArg String.toList same
    simp [classShown] at text
  constructor
  · intro same
    by_cases left : parts = []
    · by_cases right : others = []
      · rw [left,right]
      · rw [left,bracketed right] at same
        exact absurd same.symm (opens others)
    · by_cases right : others = []
      · rw [right,bracketed left] at same
        exact absurd same (opens parts)
      · rw [bracketed left,bracketed right] at same
        exact (classShown_inj.mp same).1
  · rintro rfl
    rfl

end PegCompiler
