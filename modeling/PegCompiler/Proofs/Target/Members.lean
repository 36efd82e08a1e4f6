import PegCompiler.Proofs.Target.Layout

/-! Members of the parser class, as its statements show them: fields are told by their modifiers, and
an entry point has a class body; a method that takes input alone starts at the default rule; and the
subroutine of a rule has a mark in front. -/
namespace PegCompiler.Target

open Lowering Semantics

namespace Stmt

def isField : Stmt → Bool
  | .line code => "private static final ".toList.isPrefixOf code.toList ||
      "private final ".toList.isPrefixOf code.toList
  | .block header _ _ => "public static final ".toList.isPrefixOf header.toList
  | _ => false

def isEntry : Stmt → Bool
  | .block _ _ footer => footer.toList.getLast? == some ';'
  | _ => false

def takesInput : Stmt → Bool
  | .block header _ _ => " input) \x7b".toList.isSuffixOf header.toList
  | _ => false

def isMark : Stmt → Bool
  | .line code => code.toList.head? == some '@' && code.toList.getLast? == some ')'
  | _ => false

end Stmt

def lastClass (stmts : List Stmt) : Option (List Stmt) :=
  match stmts.getLast? with
  | some (.block _ body _) => some body
  | _ => none

def IsEntryPoint (options : Options) (imports : Imports) (rule constant type : String)
    (stmt : Stmt) : Prop :=
  let base := imports.className "IBaseParser" ++ "<" ++ type ++ ">"
  ∃ methods, stmt = .block ("public static final " ++ base ++ " " ++ constant ++ " = new " ++
      base ++ "() " ++ "\x7b") methods "\x7d;" ∧
    methods.filter Stmt.takesInput = (inputs imports).map (entryMethod options rule type)

def parseMethod (object rule input : String) : Stmt :=
  .block ("public " ++ object ++ " parse(" ++ input ++ " input) " ++ "\x7b")
    [.line "super.init(input);",.line ("return super.finalize(" ++ subroutineName rule ++ "());")]
    "\x7d"

def IsRoutine (imports : Imports) (rule : String) (isStart : Bool) (stmts : List Stmt) : Prop :=
  ∃ code, stmts = [
    .line ("@" ++ imports.className "Rule" ++ "(name=" ++ stringLiteral rule ++ ", isStart=" ++
      toString isStart ++ ")"),
    .block ("private " ++ imports.className "Object" ++ " " ++ subroutineName rule ++ "() \x7b") code
      "\x7d"]

/-! What the statement of a member shows of it. -/

namespace Member

def isDefinition : Member → Bool
  | .definition _ => true
  | _ => false

def isField : Member → Bool
  | .definition _ | .field .. | .entry .. => true
  | _ => false

def isEntry : Member → Bool
  | .entry .. => true
  | _ => false

def takesInput : Member → Bool
  | .method _ _ _ params _ => " input".toList.isSuffixOf params.toList
  | _ => false

def isMark : Member → Bool
  | .tag text => text.toList.getLast? == some ')'
  | _ => false

variable {imports : Imports}

private theorem isPrefixOf_append {w : List Char} {c : Char} (other : c ∉ w) (front rest : List Char) :
    w.isPrefixOf (front ++ c :: rest) = w.isPrefixOf front := by
  induction w generalizing front with
  | nil => simp
  | cons first more ih =>
    rw [List.mem_cons,not_or] at other
    cases front with
    | nil => simp [List.isPrefixOf,Ne.symm other.1]
    | cons next front => simp [List.isPrefixOf,ih other.2]

theorem takesInput_stmt (m : Member) : (m.stmt imports).takesInput = m.takesInput := by
  cases m with
  | method access type name params code =>
    have shown (before : List Char) :
        " input) \x7b".toList.isSuffixOf (before ++ '(' :: (params.toList ++ [')',' ','\x7b'])) =
          " input".toList.isSuffixOf params.toList := by
      simp [List.isSuffixOf,List.isPrefixOf]
      exact isPrefixOf_append (by decide) _ _
    have header : (access ++ " " ++ type ++ " " ++ name ++ "(" ++ params ++ ") \x7b").toList =
        (access ++ " " ++ type ++ " " ++ name).toList ++
          '(' :: (params.toList ++ [')',' ','\x7b']) := by
      simp
    rw [stmt,Stmt.takesInput,header]
    exact shown _
  | entry type name methods => simp [stmt,Stmt.takesInput,takesInput,List.isSuffixOf,List.isPrefixOf]
  | _ => rfl

theorem isEntry_stmt (m : Member) : (m.stmt imports).isEntry = m.isEntry := by
  cases m <;> rfl

end Member

theorem forall_mem_intercalate {α : Type} {P : α → Prop} {between : α} {parts : List (List α)}
    (apart : P between) (each : ∀ part ∈ parts, ∀ a ∈ part, P a) :
    ∀ a ∈ [between].intercalate parts, P a := by
  induction parts with
  | nil => exact nofun
  | cons first rest ih =>
    obtain ⟨here,later⟩ := List.forall_mem_cons.mp each
    cases rest with
    | nil => simpa using here
    | cons second others =>
      rw [List.intercalate_cons_cons]
      exact List.forall_mem_append.mpr
        ⟨List.forall_mem_append.mpr ⟨here,List.forall_mem_singleton.mpr apart⟩,ih later⟩

namespace ParserClass

inductive Has (p : ParserClass) : Member → Prop
  | definition {d : Definition} :
      d ∈ p.registries.patternDefinitions ++ p.registries.expectedDefinitions → p.Has (.definition d)
  | entry {entry : Entry} : entry ∈ p.entries → p.Has (entryMember p.options p.imports entry)
  | holder (value : String) : p.Has (.field (holderName p.options) "uc" value)
  | method {access name : String} (params : String) (code : List Stmt) :
      (access = "public" ∨ access = "private") →
      (name = "parse" ∨ name = "parseRule" ∨ ∃ rule, name = subroutineName rule) →
      p.Has (.method access (p.imports.className "Object") name params code)
  | tag (text : String) : p.Has (.tag text)
  | remark (text : String) : p.Has (.remark text)
  | fold (text : String) : p.Has (.fold text)
  | blank : p.Has .blank

theorem classMembers_has (p : ParserClass) : ∀ m ∈ p.classMembers, p.Has m := by
  have constants : ∀ m ∈ p.constantMembers, p.Has m := by
    simp only [constantMembers,List.forall_mem_append,List.forall_mem_singleton,List.forall_mem_map]
    exact ⟨⟨⟨.remark _,fun d member => .definition (List.mem_append_left _ member)⟩,.remark _⟩,
      fun d member => .definition (List.mem_append_right _ member)⟩
  have entries : ∀ m ∈ p.entries.map (entryMember p.options p.imports), p.Has m :=
    List.forall_mem_map.mpr fun _ => .entry
  have api : ∀ m ∈ interfaceMembers p.imports p.defaultRule, p.Has m := by
    refine List.forall_mem_append.mpr ⟨List.forall_mem_append.mpr ⟨?_,?_⟩,?_⟩
    · exact List.forall_mem_singleton.mpr (.fold _)
    · refine forall_mem_intercalate .blank (List.forall_mem_map.mpr fun input _ => ?_)
      simp only [parseMembers,parseMember,List.forall_mem_cons]
      exact ⟨.tag _,.method _ _ (.inl rfl) (.inl rfl),.tag _,
        .method _ _ (.inl rfl) (.inl rfl),List.forall_mem_nil _⟩
    · exact List.forall_mem_singleton.mpr (.fold _)
  have looking : ∀ m ∈ lookupMembers p.options p.imports, p.Has m := by
    simp only [lookupMembers,List.forall_mem_cons]
    exact ⟨.fold _,.method _ _ (.inr rfl) (.inr (.inl rfl)),.fold _,List.forall_mem_nil _⟩
  have routines : ∀ m ∈ [Member.blank].intercalate (p.subroutines.map (routineMembers p.imports)),
      p.Has m := by
    refine forall_mem_intercalate .blank (List.forall_mem_map.mpr fun sub _ => ?_)
    simp only [routineMembers,List.forall_mem_cons]
    exact ⟨.tag _,.method _ _ (.inr rfl) (.inr (.inr ⟨sub.name,rfl⟩)),List.forall_mem_nil _⟩
  simp only [classMembers,frontMembers,List.forall_mem_append,List.forall_mem_cons]
  refine ⟨⟨⟨⟨⟨⟨⟨⟨⟨constants,?_⟩,entries⟩,?_⟩,api⟩,?_⟩,looking⟩,?_⟩,routines⟩,?_⟩
  · exact ⟨.remark _,List.forall_mem_nil _⟩
  · exact ⟨.holder _,.blank,List.forall_mem_nil _⟩
  · exact ⟨.blank,List.forall_mem_nil _⟩
  · exact ⟨.blank,.fold _,List.forall_mem_nil _⟩
  · exact ⟨.fold _,List.forall_mem_nil _⟩

variable {p : ParserClass} {m : Member}

/-- Constants are private. -/
private theorem constant_text {d : Definition}
    (member : d ∈ p.registries.patternDefinitions ++ p.registries.expectedDefinitions) :
    ∃ rest, d.text p.imports = "private static final " ++ rest := by
  rcases List.mem_append.mp member with inside | inside
  all_goals
    obtain ⟨index,initializer,-,rfl⟩ := Definition.mem_ofEntries.mp inside
    simp only [Definition.text,String.append_assoc]
    exact ⟨_,rfl⟩

private theorem isPrefixOf_self (w rest : String) : w.toList.isPrefixOf (w ++ rest).toList := by
  rw [List.isPrefixOf_iff_prefix,String.toList_append]
  exact List.prefix_append _ _

/-- A field that is written in one line starts with a small letter. -/
private theorem isField_line {code : String} {first : Char} {rest : List Char}
    (starts : code.toList = first :: rest) (other : 'p' ≠ first) :
    Stmt.isField (.line code) = false := by
  have modifiers : ∀ w ∈ ["private static final ","private final "],
      ∃ more, w.toList = 'p' :: more :=
    List.forall_mem_cons.mpr ⟨⟨_,rfl⟩,List.forall_mem_cons.mpr ⟨⟨_,rfl⟩,List.forall_mem_nil _⟩⟩
  obtain ⟨more,constant⟩ := modifiers _ List.mem_cons_self
  obtain ⟨more',field⟩ := modifiers _ (List.mem_cons_of_mem _ List.mem_cons_self)
  simp only [Stmt.isField,starts,constant,field,List.isPrefixOf,beq_false_of_ne other,Bool.false_and,
    Bool.or_false]

theorem Has.isField (has : p.Has m) : (m.stmt p.imports).isField = m.isField := by
  cases has with
  | definition member =>
    obtain ⟨rest,text⟩ := constant_text member
    rw [Member.stmt,Stmt.isField,text,isPrefixOf_self]
    rfl
  | holder value =>
    rw [Member.stmt,Stmt.isField,String.append_assoc,String.append_assoc,String.append_assoc,
      String.append_assoc,isPrefixOf_self,Bool.or_true]
    rfl
  | entry member =>
    rw [entryMember,Member.stmt,Stmt.isField]
    simp only [String.append_assoc,isPrefixOf_self]
    rfl
  | tag text => exact isField_line (String.toList_append ..) (by decide)
  | remark text =>
    rw [Member.stmt,String.append_assoc]
    exact isField_line (String.toList_append ..) (by decide)
  | fold text => exact isField_line (String.toList_append ..) (by decide)
  | blank => rfl
  | method params code known _ =>
    obtain ⟨first,rest,object,other⟩ : ∃ first rest,
        (p.imports.className "Object").toList = first :: rest ∧ 's' ≠ first := by
      obtain ⟨_ | _⟩ := p.imports
      · exact ⟨_,_,rfl,by decide⟩
      · exact ⟨_,_,rfl,by decide⟩
    rcases known with rfl | rfl <;>
      simp [Member.stmt,Stmt.isField,Member.isField,object,other,List.isPrefixOf]

theorem Has.isMark (has : p.Has m) : (m.stmt p.imports).isMark = m.isMark := by
  cases has with
  | definition member =>
    obtain ⟨rest,text⟩ := constant_text member
    simp [Member.stmt,Stmt.isMark,Member.isMark,text]
  | tag text =>
    rw [Member.stmt,Stmt.isMark,Member.isMark,String.toList_append]
    cases last : text.toList.getLast? <;> simp [List.getLast?_cons,last]
  | _ => simp [Member.stmt,Stmt.isMark,Member.isMark,entryMember]

/-- The statements of a kind are those of the members of this kind. -/
theorem filter_stmts {ms : List Member} (has : ∀ m ∈ ms, p.Has m) {shown : Stmt → Bool}
    {kind : Member → Bool} (same : ∀ m, p.Has m → shown (m.stmt p.imports) = kind m) :
    (ms.map (Member.stmt p.imports)).filter shown = (ms.filter kind).map (Member.stmt p.imports) := by
  rw [List.filter_map]
  exact congrArg _ (List.filter_congr fun m member => same m (has m member))

theorem filter_intercalate {α : Type} {f : α → Bool} {between : α} (skipped : f between = false)
    (parts : List (List α)) :
    ([between].intercalate parts).filter f = parts.flatMap (List.filter f) := by
  induction parts with
  | nil => rfl
  | cons first rest ih =>
    cases rest with
    | nil => simp
    | cons second others =>
      rw [List.intercalate_cons_cons,List.filter_append,List.filter_append,ih,List.filter_singleton,
        skipped,cond_false,List.append_nil,← List.flatMap_cons]

section Kinds

variable {kind : Member → Bool}

/-- A kind of members that remarks are not of. -/
private theorem front_filter (remark : ∀ text, kind (.remark text) = false)
    (fold : ∀ text, kind (.fold text) = false) (blank : kind .blank = false)
    (looking : (lookupMembers p.options p.imports).filter kind = []) :
    p.frontMembers.filter kind =
      ((p.registries.patternDefinitions ++ p.registries.expectedDefinitions).map
          Member.definition).filter kind ++
        (p.entries.map (entryMember p.options p.imports)).filter kind ++
        [p.holderMember].filter kind ++
        (inputs p.imports).flatMap fun input =>
          (parseMembers p.imports p.defaultRule input).filter kind := by
  have heading (text : String) : [Member.title text].filter kind = [] :=
    List.filter_cons_of_neg (by simp [Member.title,remark])
  have start (text : String) : [Member.foldStart text].filter kind = [] :=
    List.filter_cons_of_neg (by simp [Member.foldStart,fold])
  have ending : [Member.foldEnd].filter kind = [] :=
    List.filter_cons_of_neg (by simp [Member.foldEnd,fold])
  have between : [Member.blank].filter kind = [] := List.filter_cons_of_neg (by simp [blank])
  have pair (a b : Member) : [a,b].filter kind = [a].filter kind ++ [b].filter kind :=
    List.filter_append [a] [b]
  have constants : p.constantMembers.filter kind =
      (p.registries.patternDefinitions.map Member.definition).filter kind ++
        (p.registries.expectedDefinitions.map Member.definition).filter kind := by
    rw [constantMembers,List.filter_append,List.filter_append,List.filter_append,heading,heading,
      List.nil_append,List.append_nil]
  have api : (interfaceMembers p.imports p.defaultRule).filter kind =
      (inputs p.imports).flatMap fun input =>
        (parseMembers p.imports p.defaultRule input).filter kind := by
    rw [interfaceMembers,List.filter_append,List.filter_append,start,ending,filter_intercalate blank,
      List.flatMap_map,List.nil_append,List.append_nil]
  rw [frontMembers]
  iterate 7 rw [List.filter_append]
  rw [constants,heading,pair,between,api,looking,pair,between,start]
  simp only [List.append_nil,List.append_assoc,List.map_append,List.filter_append]

private theorem class_filter (fold : ∀ text, kind (.fold text) = false) (blank : kind .blank = false)
    (routine : ∀ sub, (routineMembers p.imports sub).filter kind = []) :
    p.classMembers.filter kind = p.frontMembers.filter kind := by
  have ending : kind .foldEnd = false := fold _
  have silent : ([Member.blank].intercalate (p.subroutines.map (routineMembers p.imports))).filter
      kind = [] := by
    rw [filter_intercalate blank,List.flatMap_map,List.flatMap_eq_nil_iff]
    exact fun sub _ => routine sub
  rw [classMembers,List.filter_append,List.filter_append,silent]
  simp [ending]

theorem class_definitions (p : ParserClass) : p.classMembers.filter Member.isDefinition =
    (p.registries.patternDefinitions ++ p.registries.expectedDefinitions).map Member.definition := by
  rw [class_filter (fun _ => rfl) rfl fun _ => rfl,front_filter (fun _ => rfl) (fun _ => rfl) rfl rfl]
  simp [List.filter_map,Function.comp_def,Member.isDefinition,entryMember,holderMember,inputs,
    parseMembers,parseMember]

theorem class_fields (p : ParserClass) : p.classMembers.filter Member.isField =
    (p.registries.patternDefinitions ++ p.registries.expectedDefinitions).map Member.definition ++
      p.entries.map (entryMember p.options p.imports) ++ [p.holderMember] := by
  rw [class_filter (fun _ => rfl) rfl fun _ => rfl,front_filter (fun _ => rfl) (fun _ => rfl) rfl rfl]
  simp [List.filter_map,Function.comp_def,Member.isField,entryMember,holderMember,inputs,
    parseMembers,parseMember,List.filter_cons]

theorem class_entries (p : ParserClass) : p.classMembers.filter Member.isEntry =
    p.entries.map (entryMember p.options p.imports) := by
  rw [class_filter (fun _ => rfl) rfl fun _ => rfl,front_filter (fun _ => rfl) (fun _ => rfl) rfl rfl]
  simp [List.filter_map,Function.comp_def,Member.isEntry,entryMember,holderMember,inputs,
    parseMembers,parseMember]

theorem class_methods (p : ParserClass) : p.classMembers.filter Member.takesInput =
    (inputs p.imports).map (parseMember p.imports p.defaultRule) := by
  have looking : (lookupMembers p.options p.imports).filter Member.takesInput = [] := by
    simp [lookupMembers,Member.takesInput,Member.foldStart,Member.foldEnd,List.isSuffixOf,
      List.isPrefixOf]
  rw [class_filter (fun _ => rfl) rfl fun _ => rfl,
    front_filter (fun _ => rfl) (fun _ => rfl) rfl looking]
  simp [List.filter_map,Function.comp_def,Member.takesInput,entryMember,holderMember,inputs,
    parseMembers,parseMember,List.isSuffixOf,List.isPrefixOf]

theorem front_marks (p : ParserClass) : p.frontMembers.filter Member.isMark = [] := by
  have override : (p.imports.className "Override").toList.getLast? ≠ some ')' := by
    obtain ⟨_ | _⟩ := p.imports <;> decide
  rw [front_filter (fun _ => rfl) (fun _ => rfl) rfl rfl]
  simp [List.filter_map,Function.comp_def,Member.isMark,entryMember,holderMember,inputs,
    parseMembers,parseMember,override]

end Kinds

/-! The statements of the parser class. -/

private theorem takesInput_block (before : String) (body : List Stmt) (footer : String) :
    Stmt.takesInput (.block (before ++ " input) " ++ "\x7b") body footer) = true := by
  simp [Stmt.takesInput]

theorem entry_isEntryPoint (options : Options) (imports : Imports) (entry : Entry) :
    IsEntryPoint options imports entry.rule entry.constant (imports.boxedSpelling entry.type)
      ((entryMember options imports entry).stmt imports) := by
  have opening : "() \x7b" = "() " ++ "\x7b" := by simp
  refine ⟨_,congrArg (Stmt.block · _ "\x7d;") ?_,?_⟩
  · simp only [opening,String.append_assoc]
  · rw [List.filter_flatMap,List.map_eq_flatMap]
    refine List.flatMap_congr fun input _ => ?_
    rw [List.filter_cons_of_neg (by exact Bool.false_ne_true)]
    exact List.filter_cons_of_pos (takesInput_block _ _ _)

theorem routine_isRoutine (imports : Imports) (sub : Subroutine) :
    IsRoutine imports sub.name sub.isStart ((routineMembers imports sub).map (Member.stmt imports)) := by
  have access : "private " = "private" ++ " " := by simp
  have opening : "() \x7b" = "(" ++ ("" ++ ") \x7b") := by simp
  refine ⟨routineCode imports sub,?_⟩
  simp only [routineMembers,List.map_cons,List.map_nil,Member.stmt,routineMark,access,opening,
    String.append_assoc]

theorem parse_isParse (imports : Imports) (rule input : String) :
    (parseMember imports rule input).stmt imports =
      parseMethod (imports.className "Object") rule input := by
  have access : "public " = "public" ++ " " := by simp
  have name : " parse(" = " " ++ ("parse" ++ "(") := by simp
  have alone : " input) " = " input" ++ ") " := by simp
  have opening : ") \x7b" = ") " ++ "\x7b" := by simp
  simp only [parseMember,parseMethod,Member.stmt,access,name,alone,opening,String.append_assoc]

theorem stmts_marked (p : ParserClass) : ∃ front,
    p.classMembers.map (Member.stmt p.imports) =
      front ++ [Stmt.blank].intercalate p.pieces ++ [foldEnd] ∧ front.filter Stmt.isMark = [] := by
  refine ⟨p.frontMembers.map (Member.stmt p.imports),?_,?_⟩
  · simp only [classMembers,pieces,List.map_append,map_intercalate,List.map_map]
    rfl
  · have has : ∀ m ∈ p.frontMembers, p.Has m := fun m member =>
      p.classMembers_has m (List.mem_append_left _ (List.mem_append_left _ member))
    rw [filter_stmts has fun m => Has.isMark,front_marks]
    rfl

theorem toStmts_body (lettered : p.Lettered) {stmts : List Stmt} (ok : p.toStmts = .ok stmts) :
    lastClass stmts = some (p.classMembers.map (Member.stmt p.imports)) := by
  obtain ⟨opening,header,-,rfl⟩ := toStmts_lays lettered ok
  simp [lastClass]

end ParserClass

end PegCompiler.Target
