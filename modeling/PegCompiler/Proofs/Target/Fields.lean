import PegCompiler.Proofs.Lowering.Sharing
import PegCompiler.Proofs.Target.Starts

/-! Fields of the parser class. Their names are distinct, and only an entry point can have the name of
the sentinel that the code of the rules compares with. -/
namespace PegCompiler

open Target Lowering

def entryBase (imports : Imports) (type : String) : String :=
  imports.className "IBaseParser" ++ "<" ++ type ++ ">"

inductive DeclaresField (options : Options) (imports : Imports) : String → Stmt → Prop
  | constant {letter type : String} (index : Nat) (value : String) :
      (letter,type) ∈ [(patternLetter,imports.className "Pattern"),
        (expectedLetter,imports.className "Expected")] →
      DeclaresField options imports (letter ++ toString index)
        (.line ("private static final " ++ type ++ " " ++ (letter ++ toString index) ++ " = " ++
          value ++ ";"))
  | entry {name : String} (type : String) (methods : List Stmt) : (∀ c ∈ name.toList, ¬c.isLower) →
      DeclaresField options imports name
        (.block ("public static final " ++ entryBase imports type ++ " " ++ name ++ " = new " ++
          entryBase imports type ++ "() \x7b") methods "\x7d;")
  | holder : DeclaresField options imports "uc"
      (.line ("private final " ++ holderName options ++ " uc = new " ++ holderName options ++
        "(this);"))

def numbered (letter : String) (count : Nat) : List String :=
  (List.range count).map fun index => letter ++ toString index

def fieldNames (g : Grammar) (options : Options) (patterns expected : Nat) : List String :=
  numbered patternLetter patterns ++ numbered expectedLetter expected ++
    (startNames g options).eraseDups.map upperSnake ++ ["uc"]

/-! Names that differ. -/

private theorem toUpper_not_lower (c : Char) : ¬c.toUpper.isLower := by
  delta Char.toUpper Char.isLower
  grind

private theorem upper_not_lower {c : Char} (upper : c.isUpper) : ¬c.isLower := by
  delta Char.isUpper at upper
  delta Char.isLower
  grind

/-- No small letter is in the name of an entry point. -/
theorem upperSnake_not_lower (name : String) : ∀ c ∈ (upperSnake name).toList, ¬c.isLower := by
  have chars (started inRun : Bool) (cs : List Char) :
      ∀ c ∈ upperSnakeChars started inRun cs, ¬c.isLower := by
    fun_induction upperSnakeChars started inRun cs with
    | case1 => exact nofun
    | case2 started inRun c rest upper fresh ih =>
      exact List.forall_mem_cons.mpr ⟨by decide,List.forall_mem_cons.mpr ⟨upper_not_lower upper,ih⟩⟩
    | case3 started inRun c rest upper fresh ih =>
      exact List.forall_mem_cons.mpr ⟨upper_not_lower upper,ih⟩
    | case4 started inRun c rest other ih =>
      exact List.forall_mem_cons.mpr ⟨toUpper_not_lower c,ih⟩
  rw [upperSnake,String.toList_ofList]
  exact chars false false _

theorem numbered_nodup (letter : String) (count : Nat) : (numbered letter count).Nodup := by
  refine List.nodup_range.map fun i j same => ?_
  exact (@ConstantPool.nameOf_inj ⟨letter,"",{}⟩ i j).mp same

private theorem numbered_head {letter name : String} {count : Nat} {c : Char}
    (starts : letter.toList.head? = some c) (member : name ∈ numbered letter count) :
    name.toList.head? = some c := by
  obtain ⟨index,-,rfl⟩ := List.mem_map.mp member
  rw [String.toList_append,List.head?_append,starts,Option.some_or]

private theorem upperSnake_head {name : String} {c : Char} (lower : c.isLower) :
    (upperSnake name).toList.head? ≠ some c :=
  fun starts => upperSnake_not_lower name c (List.mem_of_head? starts) lower

private theorem ne_of_head {name other : String} {c : Char} (starts : name.toList.head? = some c)
    (differs : other.toList.head? ≠ some c) : name ≠ other := by
  rintro rfl
  exact differs starts

/-- Each kind of field has a first letter that no other kind has. -/
theorem fieldNames_nodup {g : Grammar} {options : Options}
    (constants : ((startNames g options).eraseDups.map upperSnake).Nodup) (patterns expected : Nat) :
    (fieldNames g options patterns expected).Nodup := by
  have first {name : String} (member : name ∈ numbered patternLetter patterns) :
      name.toList.head? = some 'p' := numbered_head rfl member
  have second {name : String} (member : name ∈ numbered expectedLetter expected) :
      name.toList.head? = some 'e' := numbered_head rfl member
  have last : "uc".toList.head? = some 'u' := rfl
  have numbers : (numbered patternLetter patterns ++ numbered expectedLetter expected).Nodup := by
    refine List.nodup_append.mpr ⟨numbered_nodup _ _,numbered_nodup _ _,fun a left b right => ?_⟩
    exact ne_of_head (first left) (by simp [second right])
  have named : (numbered patternLetter patterns ++ numbered expectedLetter expected ++
      (startNames g options).eraseDups.map upperSnake).Nodup := by
    refine List.nodup_append.mpr ⟨numbers,constants,fun a left b right => ?_⟩
    obtain ⟨name,-,rfl⟩ := List.mem_map.mp right
    rcases List.mem_append.mp left with pattern | expectation
    · exact ne_of_head (first pattern) (upperSnake_head (by decide))
    · exact ne_of_head (second expectation) (upperSnake_head (by decide))
  refine List.nodup_append.mpr ⟨named,List.nodup_singleton _,fun a left b right => ?_⟩
  obtain rfl := List.mem_singleton.mp right
  symm
  rcases List.mem_append.mp left with numbered | constant
  · rcases List.mem_append.mp numbered with pattern | expectation
    · exact ne_of_head last (by simp [first pattern])
    · exact ne_of_head last (by simp [second expectation])
  · obtain ⟨name,-,rfl⟩ := List.mem_map.mp constant
    exact ne_of_head last (upperSnake_head (by decide))

/-- A field has the name of the sentinel just when a start rule gives it. -/
theorem sentinel_mem_fieldNames {g : Grammar} {options : Options} {patterns expected : Nat} :
    Value.failed.text ∈ fieldNames g options patterns expected ↔
      ∃ name ∈ startNames g options, upperSnake name = Value.failed.text := by
  have unnumbered {letter : String} {count : Nat} {c : Char} (starts : letter.toList.head? = some c)
      (differs : c ≠ 'F') : Value.failed.text ∉ numbered letter count := by
    intro member
    exact differs (Option.some.inj (numbered_head starts member)).symm
  simp only [fieldNames,List.mem_append,List.mem_map,List.mem_eraseDups,List.mem_singleton]
  constructor
  · rintro (((pattern | expectation) | constant) | holder)
    · exact absurd pattern (unnumbered rfl (by decide))
    · exact absurd expectation (unnumbered rfl (by decide))
    · exact constant
    · exact absurd holder (by decide)
  · exact fun constant => .inl (.inr constant)

/-! Names that are declared. -/

/-- What stands between two copies of a text, if it also stands between two copies of a longer one. -/
private theorem between_copies {a b v w : List Char} (same : a ++ (v ++ a) = b ++ (w ++ b))
    (short : a.length ≤ b.length) : ∃ x y, v = x ++ (w ++ y) ∧ x.length = y.length := by
  obtain ⟨x,front⟩ : a <+: b :=
    List.prefix_of_prefix_length_le ⟨v ++ a,same⟩ (List.prefix_append ..) short
  obtain ⟨y,back⟩ : a <:+ b :=
    List.suffix_of_suffix_length_le ⟨a ++ v,(List.append_assoc ..).trans same⟩
      ⟨b ++ w,List.append_assoc ..⟩ short
  refine ⟨x,y,?_,?_⟩
  · have whole : a ++ (v ++ a) = a ++ (x ++ (w ++ y) ++ a) := by
      calc a ++ (v ++ a) = b ++ (w ++ b) := same
        _ = (a ++ x) ++ (w ++ (y ++ a)) := by rw [front,back]
        _ = a ++ (x ++ (w ++ y) ++ a) := by simp only [List.append_assoc]
    exact List.append_cancel_right (List.append_cancel_left whole)
  · have lengths := congrArg List.length (front.trans back.symm)
    simp only [List.length_append] at lengths
    omega

private def declared (name : List Char) : List Char :=
  ' ' :: name ++ " = new ".toList

private theorem declared_lower {name : List Char} (plain : ∀ c ∈ name, ¬c.isLower) :
    (declared name).countP Char.isLower = 3 := by
  rw [declared,List.countP_append,List.countP_cons_of_neg (by decide),List.countP_eq_zero.mpr plain]
  rfl

private theorem declared_wrapped {n m x y : List Char} (plain : ∀ c ∈ n, ¬c.isLower)
    (plain' : ∀ c ∈ m, ¬c.isLower) (same : declared n = x ++ (declared m ++ y)) : y = [] := by
  have counts := congrArg (List.countP Char.isLower) same
  rw [List.countP_append,List.countP_append,declared_lower plain,declared_lower plain'] at counts
  have none : 'w' ∉ y := fun member =>
    List.countP_eq_zero.mp (by omega : y.countP Char.isLower = 0) 'w' member (by decide)
  have word : ['w',' '] <:+ declared n := ⟨' ' :: n ++ " = ne".toList,by simp [declared]⟩
  have last : y <:+ declared n := ⟨x ++ declared m,by rw [List.append_assoc,same]⟩
  match y with
  | [] => rfl
  | [c] =>
    have blank : [' ',c] <:+ declared n :=
      ⟨x ++ (' ' :: m ++ " = new".toList),by rw [same]; simp [declared]⟩
    have alike := (List.suffix_of_suffix_length_le word blank (by simp)).eq_of_length rfl
    exact absurd alike (by simp)
  | c :: d :: rest =>
    have inside := List.suffix_of_suffix_length_le word last (by simp)
    exact absurd (inside.subset List.mem_cons_self) none

private theorem declared_inj {base other n m : List Char} (plain : ∀ c ∈ n, ¬c.isLower)
    (plain' : ∀ c ∈ m, ¬c.isLower)
    (same : base ++ (declared n ++ base) = other ++ (declared m ++ other))
    (short : base.length ≤ other.length) : n = m := by
  obtain ⟨x,y,wrapped,lengths⟩ := between_copies same short
  obtain rfl := declared_wrapped plain plain' wrapped
  obtain rfl := List.length_eq_zero_iff.mp lengths
  rw [List.nil_append,List.append_nil] at wrapped
  exact (List.cons.inj (List.append_cancel_right wrapped)).2

private theorem index_eq {i j : Nat} {rest rest' : List Char}
    (same : (toString i).toList ++ (" = ".toList ++ rest) =
      (toString j).toList ++ (" = ".toList ++ rest')) : i = j := by
  have read (n : Nat) (rest : List Char) :
      Scan.number ((toString n).toList ++ (" = ".toList ++ rest)) = some (n," = ".toList ++ rest) := by
    rw [show (toString n).toList = Nat.toDigits 10 n by simp,Scan.number_digits (by simp)]
  have numbers := congrArg Scan.number same
  rw [read,read] at numbers
  exact congrArg Prod.fst (Option.some.inj numbers)

/-- The classes of the two kinds of constants start with different letters. -/
private theorem classes_apart (imports : Imports) {rest rest' : List Char} :
    (imports.className "Pattern").toList ++ rest ≠ (imports.className "Expected").toList ++ rest' := by
  intro same
  have heads := congrArg List.head? same
  obtain ⟨_ | _⟩ := imports
  · exact absurd (Option.some.inj heads) (by decide)
  · exact absurd (Option.some.inj heads) (by decide)

private theorem constant_ne_holder {rest rest' : String} :
    "private static final " ++ rest ≠ "private final " ++ rest' := by
  simp [← String.toList_inj]

private theorem header_toList (base name : String) :
    ("public static final " ++ base ++ " " ++ name ++ " = new " ++ base ++ "() \x7b").toList =
      "public static final ".toList ++
        ((base.toList ++ (declared name.toList ++ base.toList)) ++ "() \x7b".toList) := by
  simp [declared]

private theorem name_eq {base other : List Char} {n m : String} (plain : ∀ c ∈ n.toList, ¬c.isLower)
    (plain' : ∀ c ∈ m.toList, ¬c.isLower) (same : base ++ (declared n.toList ++ base) =
      other ++ (declared m.toList ++ other)) : n = m := by
  rcases Nat.le_total base.length other.length with short | short
  · exact String.toList_inj.mp (declared_inj plain plain' same short)
  · exact (String.toList_inj.mp (declared_inj plain' plain same.symm short)).symm

theorem DeclaresField.unique {options : Options} {imports : Imports} {name other : String} {stmt : Stmt}
    (first : DeclaresField options imports name stmt)
    (second : DeclaresField options imports other stmt) : name = other := by
  generalize again : stmt = copy at second
  cases first with
  | constant i value known =>
    cases second with
    | constant j value' known' =>
      have same := congrArg String.toList (Stmt.line.inj again)
      simp only [String.toList_append,List.append_assoc,List.append_cancel_left_eq] at same
      simp only [List.mem_cons,Prod.mk.injEq,List.not_mem_nil,or_false] at known known'
      rcases known with ⟨l,t⟩ | ⟨l,t⟩ <;> rcases known' with ⟨l',t'⟩ | ⟨l',t'⟩ <;> subst l t l' t'
      · simp only [List.append_cancel_left_eq] at same
        rw [index_eq same]
      · exact absurd same (classes_apart imports)
      · exact absurd same.symm (classes_apart imports)
      · simp only [List.append_cancel_left_eq] at same
        rw [index_eq same]
    | entry => exact nomatch again
    | holder =>
      simp only [String.append_assoc] at again
      exact absurd (Stmt.line.inj again) constant_ne_holder
  | entry type methods plain =>
    cases second with
    | entry type' methods' plain' =>
      have same := congrArg String.toList (Stmt.block.inj again).1
      rw [header_toList,header_toList] at same
      exact name_eq plain plain' (List.append_cancel_right (List.append_cancel_left same))
    | _ => exact nomatch again
  | holder =>
    cases second with
    | constant j value' known' =>
      simp only [String.append_assoc] at again
      exact absurd (Stmt.line.inj again).symm constant_ne_holder
    | entry => exact nomatch again
    | holder => rfl

theorem Started.fields_declared {g : Grammar} {table : TypeTable} {options : Options} {p : ParserClass}
    (started : Started g table options p) :
    List.Forall₂ (DeclaresField options ⟨options.useFullyQualifiedNames⟩)
      (fieldNames g options p.registries.patterns.values.entries.length
        p.registries.expected.values.entries.length)
      ((p.classMembers.map (Member.stmt p.imports)).filter Stmt.isField) := by
  rw [← started.spelling]
  have constants {α : Type} (t : Interner α) {letter : String} {target : Nat → Alias}
      {resource : α → Resource} (declared : ∀ index value, DeclaresField options p.imports
        (letter ++ toString index) (.line (Definition.text p.imports ⟨target index,resource value⟩))) :
      List.Forall₂ (DeclaresField options p.imports) (numbered letter t.entries.length)
        (((Definition.ofEntries target resource t.toList).map Member.definition).map
          (Member.stmt p.imports)) := by
    rw [numbered,← t.toList_map_fst,Definition.ofEntries]
    simp only [List.map_map,List.forall₂_map_left_iff,List.forall₂_map_right_iff,List.forall₂_same]
    exact fun entry _ => declared entry.1 entry.2
  have entries : List.Forall₂ (DeclaresField options p.imports)
      ((startNames g options).eraseDups.map upperSnake)
      ((p.entries.map (entryMember p.options p.imports)).map (Member.stmt p.imports)) := by
    rw [started.entries,entriesFor]
    simp only [List.map_map,List.forall₂_map_left_iff,List.forall₂_map_right_iff,List.forall₂_same]
    exact fun name _ => .entry _ _ (upperSnake_not_lower name)
  have field : DeclaresField options p.imports "uc" (p.holderMember.stmt p.imports) := by
    have name : " uc = new " = " " ++ ("uc" ++ " = new ") := by simp
    have value : "(this);" = "(this)" ++ ";" := by simp
    have made : DeclaresField options p.imports "uc" _ := .holder
    simp only [name,value,← started.given] at made
    simpa only [ParserClass.holderMember,Member.stmt,String.append_assoc,started.given] using made
  rw [ParserClass.filter_stmts p.classMembers_has fun m => ParserClass.Has.isField,
    ParserClass.class_fields]
  simp only [List.map_append,List.map_cons,List.map_nil]
  refine List.rel_append (List.rel_append (List.rel_append (constants _ ?_) (constants _ ?_)) entries)
    (.cons field .nil)
  · exact fun _ _ => .constant _ _ (by simp)
  · exact fun _ _ => .constant _ _ (by simp)

theorem generate_fields {g : Grammar} {table : TypeTable} {options : Options}
    {source : Except Fault String} (ok : generate g table options = .ok source) :
    ∃ stmts body patterns expected, source = Stmt.render stmts options.indent ∧
      lastClass stmts = some body ∧
      List.Forall₂ (DeclaresField options ⟨options.useFullyQualifiedNames⟩)
        (fieldNames g options patterns expected) (body.filter Stmt.isField) ∧
      ((startNames g options).eraseDups.map upperSnake).Nodup := by
  simp only [generate,generateStmts,bind_eq_ok] at ok
  obtain ⟨stmts,⟨p,laid,printed⟩,rendered⟩ := ok
  obtain ⟨-,-,before,bare,all⟩ := parserClass_lowered laid
  have last := ParserClass.toStmts_body (lettered_of_bare bare all) (internalError_ok printed)
  have started := parserClass_started laid
  exact ⟨stmts,_,_,_,(Except.ok.inj rendered).symm,last,started.fields_declared,
    started.constants_nodup⟩

/-- The fields of the parser class declare these names and no others, which are distinct, and only the
constant of a start rule can hide the sentinel that the code of the rules compares with. -/
theorem sentinel_hidden_by_start_rules (g : Grammar) (table : TypeTable) (options : Options)
    (source : Except Fault String) (ok : generate g table options = .ok source) :
    ∃ stmts body patterns expected, source = Stmt.render stmts options.indent ∧
      lastClass stmts = some body ∧
      (∀ names, List.Forall₂ (DeclaresField options ⟨options.useFullyQualifiedNames⟩) names
        (body.filter Stmt.isField) ↔ names = fieldNames g options patterns expected) ∧
      (fieldNames g options patterns expected).Nodup ∧
      (Value.failed.text ∈ fieldNames g options patterns expected ↔
        ∃ name ∈ startNames g options, upperSnake name = Value.failed.text) := by
  obtain ⟨stmts,body,patterns,expected,rendered,last,fields,constants⟩ := generate_fields ok
  have unique : Relator.LeftUnique (DeclaresField options ⟨options.useFullyQualifiedNames⟩) :=
    fun _ _ _ => DeclaresField.unique
  refine ⟨stmts,body,patterns,expected,rendered,last,fun names => ?_,fieldNames_nodup constants _ _,
    sentinel_mem_fieldNames⟩
  constructor
  · exact fun others => List.left_unique_forall₂' unique others fields
  · rintro rfl
    exact fields

def failedGrammar : Grammar := .ofRules [] [
  { name := "failed", body := .choice {} [.literal {} "x" false,.any {}] },
  { name := "list", body := .repeated {} .zeroOrMore (.ruleRef {} "failed") }]

/-- A rule may be called like the sentinel if parsing does not start from it. -/
theorem failedGrammar_list : ∃ source stmts body patterns expected,
    generate failedGrammar (check failedGrammar none).table { allowedStartRules := ["list"] } =
      .ok source ∧
    source = Stmt.render stmts 2 ∧ lastClass stmts = some body ∧
    List.Forall₂ (DeclaresField { allowedStartRules := ["list"] } ⟨false⟩)
      (fieldNames failedGrammar { allowedStartRules := ["list"] } patterns expected)
      (body.filter Stmt.isField) ∧
    Value.failed.text ∉ fieldNames failedGrammar { allowedStartRules := ["list"] } patterns expected := by
  have generated : (generate failedGrammar (check failedGrammar none).table
      { allowedStartRules := ["list"] }).toOption.isSome = true := by decide +kernel
  cases ok : generate failedGrammar (check failedGrammar none).table
      { allowedStartRules := ["list"] } with
  | error error =>
    rw [ok] at generated
    exact nomatch generated
  | ok source =>
    obtain ⟨stmts,body,patterns,expected,rendered,last,fields,-,hidden⟩ :=
      sentinel_hidden_by_start_rules failedGrammar _ { allowedStartRules := ["list"] } source ok
    refine ⟨source,stmts,body,patterns,expected,rfl,rendered,last,(fields _).mpr rfl,?_⟩
    rw [hidden]
    decide +kernel

/-- Parsing from the rule declares a field with the name of the sentinel. -/
theorem failedGrammar_hides_sentinel : ∃ source stmts body stmt,
    generate failedGrammar (check failedGrammar none).table {} = .ok source ∧
    source = Stmt.render stmts 2 ∧ lastClass stmts = some body ∧ stmt ∈ body ∧
    DeclaresField {} ⟨false⟩ Value.failed.text stmt := by
  have generated : (generate failedGrammar (check failedGrammar none).table {}).toOption.isSome = true := by
    decide +kernel
  cases ok : generate failedGrammar (check failedGrammar none).table {} with
  | error error =>
    rw [ok] at generated
    exact nomatch generated
  | ok source =>
    obtain ⟨stmts,body,patterns,expected,rendered,last,fields,-⟩ := generate_fields ok
    have named : Value.failed.text ∈ fieldNames failedGrammar {} patterns expected :=
      sentinel_mem_fieldNames.mpr ⟨"failed",by decide +kernel,by decide +kernel⟩
    obtain ⟨stmt,member,field⟩ := related fields named
    exact ⟨source,stmts,body,stmt,rfl,rendered,last,List.mem_of_mem_filter member,field⟩

end PegCompiler
