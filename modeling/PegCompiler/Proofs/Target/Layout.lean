import PegCompiler.Proofs.Target.Boxing
import PegCompiler.Proofs.Target.Definitions

/-! The layout of the generated source, member by member: behind its opening lines, the class that
holds the author's code and the parser class. A member declares a name, unless it is a remark, an
annotation or text of the author. -/
namespace PegCompiler.Target

open Lowering Semantics

inductive Member where
  | definition (d : Definition)
  | field (type name value : String)
  | entry (type name : String) (methods : List Stmt)
  | constructor (name params code : String)
  | method (access type name params : String) (code : List Stmt)
  | tag (text : String)
  | remark (text : String)
  | fold (text : String)
  | blank
  | authored (text : String)

namespace Member

def stmt (imports : Imports) : Member → Stmt
  | .definition d => .line (d.text imports)
  | .field type name value => .line ("private final " ++ type ++ " " ++ name ++ value ++ ";")
  | .entry type name methods =>
    .block ("public static final " ++ type ++ " " ++ name ++ " = new " ++ type ++ "() \x7b") methods
      "\x7d;"
  | .constructor name params code =>
    .line (name ++ "(" ++ params ++ ") \x7b " ++ code ++ " \x7d")
  | .method access type name params code =>
    .block (access ++ " " ++ type ++ " " ++ name ++ "(" ++ params ++ ") \x7b") code "\x7d"
  | .tag text => .line ("@" ++ text)
  | .remark text => .line ("/*" ++ text ++ "*/")
  | .fold text => .line ("//" ++ text)
  | .blank => .blank
  | .authored text => .line text

def declares : Member → Option String
  | .definition d => some d.target.name
  | .field _ name _ => some name
  | .entry _ name _ => some name
  | .constructor name _ _ => some name
  | .method _ _ name _ _ => some name
  | _ => none

def title (text : String) : Member :=
  let fill := 56 - (text.utf8ByteSize + 2)
  let left := fill / 2
  .remark ("".pushn '~' left ++ " " ++ text ++ " " ++ "".pushn '~' (fill - left))

def foldStart (description : String) : Member :=
  .fold ("<editor-fold defaultstate=\"collapsed\" desc=\"" ++ description ++ "\">")

def foldEnd : Member := .fold "</editor-fold>"

end Member

def namespaceMembers (registries : Registries) (ns : Option String) : List Member :=
  let remark := ns.toList.map fun name => Member.remark (" namespace " ++ name ++ " ")
  let initializer := (registries.userCode.initializer ns).toList.flatMap fun text =>
    [Member.title "INITIALIZER",.authored text]
  [.blank] ++ remark ++ initializer ++
    [.title "PREDICATES"] ++ (registries.methodDefinitions .predicate ns).map .definition ++
    [.title "ACTIONS"] ++ (registries.methodDefinitions .action ns).map .definition

def inputs (imports : Imports) : List String :=
  [imports.className "CharSequence",imports.className "ByteBuffer","byte[]"]

def entryMethod (options : Options) (rule type input : String) : Stmt :=
  .block ("public " ++ type ++ " parse(" ++ input ++ " input) " ++ "\x7b")
    [.line ("final " ++ options.className ++ " p = new " ++ options.className ++ "();"),
      .line "p.init(input);",
      .line ("return (" ++ type ++ ")p.finalize(p." ++ subroutineName rule ++ "());")]
    "\x7d"

def entryMember (options : Options) (imports : Imports) (entry : Entry) : Member :=
  let type := imports.boxedSpelling entry.type
  .entry (imports.className "IBaseParser" ++ "<" ++ type ++ ">") entry.constant
    ((inputs imports).flatMap fun input =>
      [.line ("@" ++ imports.className "Override"),entryMethod options entry.rule type input])

def parseMember (imports : Imports) (rule input : String) : Member :=
  .method "public" (imports.className "Object") "parse" (input ++ " input")
    [.line "super.init(input);",.line ("return super.finalize(" ++ subroutineName rule ++ "());")]

def parseMembers (imports : Imports) (rule input : String) : List Member :=
  let override := imports.className "Override"
  [.tag override,parseMember imports rule input,.tag override,
    .method "public" (imports.className "Object") "parse"
      (input ++ " input, " ++ imports.className "String" ++ " startRule")
      [.line "super.init(input);",.line "return super.finalize(parseRule(startRule));"]]

def interfaceMembers (imports : Imports) (rule : String) : List Member :=
  [.foldStart "API"] ++ [Member.blank].intercalate ((inputs imports).map (parseMembers imports rule)) ++
    [.foldEnd]

def lookupCode (options : Options) (imports : Imports) : List Stmt :=
  let refusal := "throw new " ++ imports.className "NoSuchRuleException"
  let caught := ["IllegalAccessException","IllegalArgumentException","InvocationTargetException",
    "NoSuchMethodException","SecurityException"].map imports.className
  let rule := imports.className "Rule"
  [.block "try \x7b"
      [.line ("final " ++ imports.className "Method" ++ " m = " ++ options.className ++
          ".class.getDeclaredMethod(" ++ "\"" ++ subroutineStem ++ "\" + ruleName);"),
        .line ("final " ++ rule ++ " a = m.getAnnotation(" ++ rule ++ ".class);"),
        .ifThen "a == null"
          [.line (refusal ++ "(" ++ "\"\\\"\" + ruleName + \"\\\" is not a rule name\");")],
        .ifThen "!a.isStart()"
          [.line (refusal ++ "(" ++ "\"Can't start parsing from rule \\\"\" + ruleName + \"\\\".\");")],
        .line "return m.invoke(this);"] "",
    .block ("\x7d catch (" ++ " | ".intercalate caught ++ " ex) \x7b")
      [.line (refusal ++ "(ex);")] "\x7d"]

def lookupMembers (options : Options) (imports : Imports) : List Member :=
  [.foldStart "Helpers",
    .method "private" (imports.className "Object") "parseRule"
      (imports.className "String" ++ " ruleName") (lookupCode options imports),
    .foldEnd]

def routineMembers (imports : Imports) (sub : Subroutine) : List Member :=
  [.tag (imports.className "Rule" ++ routineMark sub),
    .method "private" (imports.className "Object") (subroutineName sub.name) ""
      (routineCode imports sub)]

namespace ParserClass

def holderMembers (p : ParserClass) : List Member :=
  [.field p.options.className "parser" "",
    .constructor (holderName p.options) (p.options.className ++ " parser") "this.parser = parser;"] ++
    p.registries.userCode.namespaces.flatMap fun n => namespaceMembers p.registries n.name

def constantMembers (p : ParserClass) : List Member :=
  [.title "PATTERNS"] ++ p.registries.patternDefinitions.map .definition ++
    [.title "EXPECTED DEFINITIONS"] ++ p.registries.expectedDefinitions.map .definition

def holderMember (p : ParserClass) : Member :=
  .field (holderName p.options) "uc" (" = new " ++ holderName p.options ++ "(this)")

def frontMembers (p : ParserClass) : List Member :=
  p.constantMembers ++
    [.title "ALLOWED START RULES"] ++ p.entries.map (entryMember p.options p.imports) ++
    [p.holderMember,.blank] ++ interfaceMembers p.imports p.defaultRule ++ [.blank] ++
    lookupMembers p.options p.imports ++ [.blank,.foldStart "Rule functions"]

def classMembers (p : ParserClass) : List Member :=
  p.frontMembers ++ [Member.blank].intercalate (p.subroutines.map (routineMembers p.imports)) ++
    [.foldEnd]

def members (p : ParserClass) : List Member :=
  p.holderMembers ++ p.classMembers

def pieces (p : ParserClass) : List (List Stmt) :=
  p.subroutines.map fun sub => (routineMembers p.imports sub).map (Member.stmt p.imports)

def Lays (p : ParserClass) (stmts : List Stmt) : Prop :=
  ∃ opening header,
    (∀ stmt ∈ opening, stmt = .blank ∨
      ∃ text, stmt = .line ("package " ++ text) ∨ stmt = .line ("import " ++ text)) ∧
    stmts = opening ++
      [.block ("final class " ++ holderName p.options ++ " \x7b")
          (p.holderMembers.map (Member.stmt p.imports)) "\x7d",
        .blank,.line ("@" ++ p.imports.className "Grammar"),
        .block ("public class " ++ p.options.className ++ " " ++ header)
          (p.classMembers.map (Member.stmt p.imports)) "\x7d"]

section Spelled

variable {imports : Imports}

private theorem known (imports : Imports) (short : String)
    (member : short ∈ Imports.knownNames := by simp [Imports.knownNames]) :
    imports.resolve short = .ok (imports.className short) :=
  imports.resolve_eq member

theorem map_intercalate {α β : Type} (f : α → β) (between : α) (parts : List (List α)) :
    ([between].intercalate parts).map f = [f between].intercalate (parts.map (List.map f)) := by
  induction parts with
  | nil => rfl
  | cons first rest ih =>
    cases rest with
    | nil => simp
    | cons second others =>
      rw [List.intercalate_cons_cons,List.map_append,List.map_append,ih]
      exact List.intercalate_cons_cons.symm

private theorem toString_text (text : String) : toString text = text := rfl

@[simp] private theorem blank_stmt : Member.blank.stmt imports = .blank := rfl

@[simp] private theorem tag_stmt (text : String) :
    (Member.tag text).stmt imports = .line ("@" ++ text) := rfl

@[simp] private theorem foldEnd_stmt : Member.foldEnd.stmt imports = foldEnd := rfl

theorem title_stmt (text : String) : (Member.title text).stmt imports = banner text := by
  simp only [Member.title,Member.stmt,banner,String.append_assoc]

theorem foldStart_stmt (description : String) :
    (Member.foldStart description).stmt imports = foldStart description :=
  congrArg Stmt.line (String.toList_inj.mp (by simp [toString_text]))

theorem definitions_stmts (definitions : List Definition) :
    (definitions.map Member.definition).map (Member.stmt imports) =
      (definitions.map (Definition.text imports)).map Stmt.line := by
  rw [List.map_map,List.map_map]
  rfl

theorem namespace_stmts (registries : Registries) (ns : Option String) :
    (namespaceMembers registries ns).map (Member.stmt imports) =
      namespaceStmts registries.userCode ns := by
  have remark (name : String) : (Member.remark (" namespace " ++ name ++ " ")).stmt imports =
      .line s!"/* namespace {name} */" :=
    congrArg Stmt.line (String.toList_inj.mp (by simp [toString_text]))
  have authored (text : String) : (Member.authored text).stmt imports = .line text := rfl
  unfold namespaceMembers namespaceStmts
  simp only [List.map_append,definitions_stmts,method_lines]
  simp only [List.map_cons,List.map_nil,title_stmt,List.map_map,List.map_flatMap,Function.comp_def,
    remark,authored]
  rfl

theorem holder_stmts (p : ParserClass) : holderClass p.options p.registries.userCode =
    .block ("final class " ++ holderName p.options ++ " \x7b")
      (p.holderMembers.map (Member.stmt p.imports)) "\x7d" := by
  have parser : (Member.field p.options.className "parser" "").stmt p.imports =
      .line s!"private final {p.options.className} parser;" :=
    congrArg Stmt.line (String.toList_inj.mp (by simp [toString_text]))
  have maker : (Member.constructor (holderName p.options) (p.options.className ++ " parser")
      "this.parser = parser;").stmt p.imports =
      .line (s!"{holderName p.options}({p.options.className} parser) " ++
        "\x7b this.parser = parser; \x7d") :=
    congrArg Stmt.line (String.toList_inj.mp (by simp [toString_text]))
  simp only [holderClass,holderMembers,List.map_append,List.map_flatMap,namespace_stmts,List.map_cons,
    List.map_nil,parser,maker]

theorem entry_stmt (options : Options) (entry : Entry) :
    entryPoint options imports entry = .ok ((entryMember options imports entry).stmt imports) := by
  have opening : "() \x7b" = "() " ++ "\x7b" := by simp
  simp only [entryPoint,inputTypes,imports.renderBoxed_eq,known imports "IBaseParser",
    known imports "Override",known imports "CharSequence",known imports "ByteBuffer"]
  simp only [entryMember,entryMethod,Member.stmt,inputs,opening,toString_text,String.append_assoc]
  rfl

private theorem parse_stmts (rule input : String) :
    (parseMembers imports rule input).map (Member.stmt imports) =
      let object := imports.className "Object"
      let string := imports.className "String"
      let override := imports.className "Override"
      [.line s!"@{override}",
        .block (s!"public {object} parse({input} input) " ++ "\x7b")
          [.line "super.init(input);",.line s!"return super.finalize({subroutineName rule}());"] "\x7d",
        .line s!"@{override}",
        .block (s!"public {object} parse({input} input, {string} startRule) " ++ "\x7b")
          [.line "super.init(input);",.line "return super.finalize(parseRule(startRule));"] "\x7d"] := by
  have access : "public " = "public" ++ " " := by simp
  have name : " parse(" = " " ++ ("parse" ++ "(") := by simp
  have alone : " input) " = " input" ++ ") " := by simp
  have named : " startRule) " = " startRule" ++ ") " := by simp
  have opening : ") \x7b" = ") " ++ "\x7b" := by simp
  simp only [parseMembers,parseMember,List.map_cons,List.map_nil,Member.stmt,access,name,alone,named,
    opening,toString_text,String.append_assoc]

theorem interface_stmts (rule : String) : interface imports rule =
    .ok ((interfaceMembers imports rule).map (Member.stmt imports)) := by
  simp only [interface,inputTypes,known imports "Object",known imports "String",
    known imports "Override",known imports "CharSequence",known imports "ByteBuffer"]
  simp only [interfaceMembers,List.map_append,map_intercalate,List.map_map,Function.comp_def,parse_stmts,
    List.map_cons,List.map_nil,foldStart_stmt,foldEnd_stmt,blank_stmt]
  rfl

theorem lookup_stmts (options : Options) : ruleLookup options imports =
    .ok ((lookupMembers options imports).map (Member.stmt imports)) := by
  have access : "private " = "private" ++ " " := by simp
  have name : " parseRule(" = " " ++ ("parseRule" ++ "(") := by simp
  have parameter : " ruleName) " = " ruleName" ++ ") " := by simp
  have opening : ") \x7b" = ") " ++ "\x7b" := by simp
  simp only [ruleLookup,known imports "NoSuchRuleException",known imports "Rule",
    known imports "Method",known imports "Object",known imports "String"]
  simp only [List.mapM_cons,List.mapM_nil,known imports "IllegalAccessException",
    known imports "IllegalArgumentException",known imports "InvocationTargetException",
    known imports "NoSuchMethodException",known imports "SecurityException"]
  simp only [lookupMembers,List.map_cons,List.map_nil,Member.stmt,lookupCode,access,name,parameter,
    opening,toString_text,String.append_assoc]
  rfl

theorem routine_stmts (sub : Subroutine) :
    sub.toStmts imports = .ok ((routineMembers imports sub).map (Member.stmt imports)) := by
  have access : "private " = "private" ++ " " := by simp
  have opening : "() \x7b" = "(" ++ ("" ++ ") \x7b") := by simp
  rw [toStmts_eq]
  simp only [routineMembers,List.map_cons,List.map_nil,Member.stmt,access,opening,String.append_assoc]

private theorem mapM_spelled {ε α β : Type} {f : α → Except ε β} {g : α → β}
    (each : ∀ a, f a = .ok (g a)) (as : List α) : as.mapM f = .ok (as.map g) := by
  rw [funext each]
  exact List.mapM_pure

end Spelled

variable {p : ParserClass}

theorem body_eq (lettered : p.Lettered) :
    p.body = .ok (p.classMembers.map (Member.stmt p.imports)) := by
  have holder : p.holderMember.stmt p.imports =
      .line s!"private final {holderName p.options} uc = new {holderName p.options}(this);" :=
    congrArg Stmt.line (String.toList_inj.mp (by simp [toString_text]))
  simp only [body,mapM_spelled (entry_stmt p.options),interface_stmts,lookup_stmts,
    mapM_spelled routine_stmts]
  change Except.ok _ = Except.ok _
  simp only [classMembers,frontMembers,constantMembers,List.map_append,definitions_stmts,
    pattern_lines lettered,expected_lines lettered]
  simp only [List.map_cons,List.map_nil,title_stmt,foldStart_stmt,holder,blank_stmt,foldEnd_stmt,
    List.map_map,map_intercalate]
  rfl

theorem toStmts_lays (lettered : p.Lettered) {stmts : List Stmt} (ok : p.toStmts = .ok stmts) :
    p.Lays stmts := by
  simp only [toStmts,body_eq lettered,known p.imports "Grammar",known p.imports "IParser",
    known p.imports "Object",known p.imports "State"] at ok
  cases ok
  have header (base parser object : String) :
      s!"public class {p.options.className} extends {base} implements " ++
          s!"{parser}<{object}> " ++ "\x7b" =
        "public class " ++ p.options.className ++ " " ++
          ("extends " ++ base ++ " implements " ++ parser ++ "<" ++ object ++ "> \x7b") :=
    String.toList_inj.mp (by simp [toString_text])
  rw [holder_stmts,header]
  refine ⟨_,_,?_,rfl⟩
  intro stmt member
  rcases List.mem_append.mp member with named | listed
  · obtain ⟨name,-,inside⟩ := List.mem_flatMap.mp named
    rcases List.mem_cons.mp inside with rfl | last
    · exact .inr ⟨name ++ ";",.inl (congrArg Stmt.line (String.toList_inj.mp (by simp [toString_text])))⟩
    · exact .inl (List.mem_singleton.mp last)
  · split at listed
    next => cases listed
    next =>
      rcases List.mem_append.mp listed with inside | last
      · simp only [Imports.declarations,List.map_map,List.mem_map] at inside
        obtain ⟨full,-,rfl⟩ := inside
        exact .inr ⟨full ++ ";",.inr (congrArg Stmt.line (String.append_assoc ..))⟩
      · exact .inl (List.mem_singleton.mp last)

end ParserClass

end PegCompiler.Target
