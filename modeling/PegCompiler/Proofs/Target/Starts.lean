import PegCompiler.Proofs.Lowering.Order
import PegCompiler.Proofs.Lowering.Refusal
import PegCompiler.Proofs.Target.Members

/-! Start rules of the generated source. -/
namespace PegCompiler

open Target Lowering

def startNames (g : Grammar) (options : Options) : List String :=
  match options.allowedStartRules, g.rules with
  | [], [] => []
  | [], first :: _ => [first.name]
  | listed, _ => listed

theorem startNames_eq (g : Grammar) (options : Options) :
    startNames g options = options.startRules (g.rules.head?.map (·.name)) := by
  unfold startNames Options.startRules
  cases options.allowedStartRules with
  | nil => cases g.rules <;> rfl
  | cons name rest => rfl

/-- What is wrong with a start rule behind `earlier` ones: it is not declared, or its entry point
would have the name of an earlier one. -/
inductive Blames (g : Grammar) (earlier : List String) (name : String) : GenerateError → Prop
  | undeclared : ¬g.Declares name → Blames g earlier name (.unknownStartRule name)
  | clash {first : String} : g.Declares name → first ∈ earlier → first ≠ name →
      upperSnake first = upperSnake name →
      Blames g earlier name (.entryPointClash (upperSnake name) first name)

def Blameless (g : Grammar) (names : List String) : Prop :=
  ∀ earlier name later, names = earlier ++ name :: later → ∀ error, ¬Blames g earlier name error

def FirstDefect (g : Grammar) (names : List String) (error : GenerateError) : Prop :=
  ∃ earlier name later, names = earlier ++ name :: later ∧ Blameless g earlier ∧
    Blames g earlier name error

section Scanning

variable {g : Grammar} {table : TypeTable} {names earlier : List String} {name : String}
  {error : GenerateError}

theorem blameless_nil : Blameless g [] := by
  intro earlier name later same
  simp at same

theorem blameless_snoc : Blameless g (names ++ [name]) ↔
    Blameless g names ∧ ∀ error, ¬Blames g names name error := by
  constructor
  · intro all
    refine ⟨fun earlier other later same => ?_,all names name [] rfl⟩
    exact all earlier other (later ++ [name]) (by rw [same,List.append_assoc,List.cons_append])
  · rintro ⟨before,here⟩ earlier other later same
    rcases List.eq_nil_or_concat later with rfl | ⟨more,last,rfl⟩
    · obtain ⟨rfl,rfl⟩ := List.concat_inj.mp (by simpa using same)
      exact here
    · have shorter : names ++ [name] = (earlier ++ other :: more) ++ [last] := by simpa using same
      obtain ⟨rfl,-⟩ := List.append_inj' shorter rfl
      exact before earlier other more rfl

theorem blameless_declares (all : Blameless g names) (member : name ∈ names) : g.Declares name := by
  obtain ⟨earlier,later,rfl⟩ := List.append_of_mem member
  by_contra missing
  exact all earlier name later rfl _ (.undeclared missing)

theorem blameless_apart (all : Blameless g names) : Apart names := by
  induction names using List.reverseRecOn with
  | nil => simp [Apart]
  | append_singleton names last ih =>
    obtain ⟨before,here⟩ := blameless_snoc.mp all
    have apart := ih before
    have declared : g.Declares last := blameless_declares all (by simp)
    have alone (a : String) (member : a ∈ names) (same : upperSnake a = upperSnake last) : a = last := by
      by_contra other
      exact here _ (.clash declared member other same)
    intro a left b right same
    rw [List.mem_append,List.mem_singleton] at left right
    rcases left with left | rfl
    · rcases right with right | rfl
      · exact apart a left b right same
      · exact alone a left same
    · rcases right with right | rfl
      · exact (alone b right same.symm).symm
      · rfl

/-- A scan meets a defect or none. -/
theorem blameless_or_defect (g : Grammar) (names : List String) :
    Blameless g names ∨ ∃ error, FirstDefect g names error := by
  induction names using List.reverseRecOn with
  | nil => exact .inl blameless_nil
  | append_singleton names last ih =>
    rcases ih with before | ⟨error,earlier,name,later,rfl,before,blamed⟩
    · by_cases here : ∃ error, Blames g names last error
      · obtain ⟨error,blamed⟩ := here
        exact .inr ⟨error,names,last,[],rfl,before,blamed⟩
      · exact .inl (blameless_snoc.mpr ⟨before,not_exists.mp here⟩)
    · exact .inr ⟨error,earlier,name,later ++ [last],by simp,before,blamed⟩

def entryFor (g : Grammar) (table : TypeTable) (name : String) : Entry :=
  ⟨name,upperSnake name,((g.ruleIndex name).bind table.rule).getD .object⟩

def entriesFor (g : Grammar) (table : TypeTable) (names : List String) : List Entry :=
  names.eraseDups.map (entryFor g table)

private theorem entriesFor_snoc (g : Grammar) (table : TypeTable) (names : List String) (name : String) :
    entriesFor g table (names ++ [name]) = if name ∈ names then entriesFor g table names
      else entriesFor g table names ++ [entryFor g table name] := by
  unfold entriesFor
  rw [eraseDups_snoc]
  split <;> simp

private theorem find_entry {entry : Entry}
    (found : (entriesFor g table names).find? (fun e => e.constant == upperSnake name) = some entry) :
    entry.rule ∈ names ∧ upperSnake entry.rule = upperSnake name := by
  obtain ⟨first,member,rfl⟩ := List.mem_map.mp (List.mem_of_find?_eq_some found)
  exact ⟨List.mem_eraseDups.mp member,by simpa [entryFor] using List.find?_some found⟩

private theorem find_none
    (missing : (entriesFor g table names).find? (fun e => e.constant == upperSnake name) = none)
    {other : String} (member : other ∈ names) : upperSnake other ≠ upperSnake name := by
  have listed : entryFor g table other ∈ entriesFor g table names :=
    List.mem_map_of_mem (List.mem_eraseDups.mpr member)
  simpa [entryFor] using List.find?_eq_none.mp missing _ listed

/-- One name with which nothing is wrong gets its entry point, unless it has one. -/
theorem startEntries_step (clear : ∀ error, ¬Blames g earlier name error) (rest : List String) :
    startEntries g table (entriesFor g table earlier) (name :: rest) =
      startEntries g table (entriesFor g table (earlier ++ [name])) rest := by
  have declared : g.Declares name := by
    by_contra missing
    exact clear _ (.undeclared missing)
  rw [startEntries,entriesFor_snoc]
  cases found : g.ruleIndex name with
  | none => exact absurd declared (Grammar.ruleIndex_none.mp found)
  | some index =>
    dsimp only
    split
    next entry there =>
      obtain ⟨member,same⟩ := find_entry there
      have again : entry.rule = name := by
        by_contra other
        exact clear _ (.clash declared member other same)
      rw [if_pos again,if_pos (again ▸ member)]
    next missing =>
      have new : name ∉ earlier := fun member => find_none missing member rfl
      rw [if_neg new]
      simp [entryFor,found]

/-- A name with which something is wrong stops the scan. -/
theorem startEntries_stop (before : Blameless g earlier) (blamed : Blames g earlier name error)
    (rest : List String) :
    startEntries g table (entriesFor g table earlier) (name :: rest) = .error error := by
  rw [startEntries]
  cases blamed with
  | undeclared missing => rw [Grammar.ruleIndex_none.mpr missing]
  | @clash first declared member other same =>
    cases found : g.ruleIndex name with
    | none => exact absurd declared (Grammar.ruleIndex_none.mp found)
    | some index =>
      dsimp only
      split
      next entry there =>
        obtain ⟨listed,folded⟩ := find_entry there
        -- among the earlier names only one has this constant
        have only : entry.rule = first :=
          blameless_apart before _ listed _ member (folded.trans same.symm)
        rw [if_neg (only ▸ other),only]
      next missing => exact absurd same (find_none missing member)

theorem startEntries_blameless (all : Blameless g (earlier ++ names)) :
    startEntries g table (entriesFor g table earlier) names =
      .ok (entriesFor g table (earlier ++ names)) := by
  induction names generalizing earlier with
  | nil => rw [startEntries,List.append_nil]
  | cons name rest ih =>
    rw [startEntries_step (all earlier name rest rfl)]
    have moved : earlier ++ name :: rest = (earlier ++ [name]) ++ rest := by simp
    rw [ih (moved ▸ all),moved]

theorem startEntries_defect {middle : List String} (before : Blameless g (earlier ++ middle))
    (blamed : Blames g (earlier ++ middle) name error) (later : List String) :
    startEntries g table (entriesFor g table earlier) (middle ++ name :: later) = .error error := by
  induction middle generalizing earlier with
  | nil =>
    rw [List.append_nil] at before blamed
    exact startEntries_stop before blamed later
  | cons first rest ih =>
    rw [List.cons_append,startEntries_step (before earlier first rest rfl)]
    have moved : earlier ++ first :: rest = (earlier ++ [first]) ++ rest := by simp
    exact ih (moved ▸ before) (moved ▸ blamed)

theorem startEntries_ok (all : Blameless g names) :
    startEntries g table [] names = .ok (entriesFor g table names) := by
  have runs : startEntries g table (entriesFor g table []) names = .ok (entriesFor g table ([] ++ names)) :=
    startEntries_blameless all
  exact runs

/-- The scan of start rules gives the error of the first defect, or an entry point a name. -/
theorem startEntries_error_iff :
    startEntries g table [] names = .error error ↔ FirstDefect g names error := by
  have stops {error : GenerateError} (defect : FirstDefect g names error) :
      startEntries g table [] names = .error error := by
    obtain ⟨earlier,name,later,rfl,before,blamed⟩ := defect
    have stopped : startEntries g table (entriesFor g table []) (earlier ++ name :: later) = _ :=
      startEntries_defect before blamed later
    exact stopped
  constructor
  · intro failed
    rcases blameless_or_defect g names with all | ⟨other,defect⟩
    · exact nomatch failed.symm.trans (startEntries_ok all)
    · obtain rfl := Except.error.inj (failed.symm.trans (stops defect))
      exact defect
  · exact stops

end Scanning

def GenerateError.AboutStarts : GenerateError → Prop
  | .unknownStartRule _ => True
  | .entryPointClash _ _ _ => True
  | .noStartRules => True
  | _ => False

def noStartErrors (cfg : Setting) : Policy cfg where
  moves _ _ := True
  raises error := ¬error.AboutStarts
  knows _ _ := True
  refl _ := trivial
  trans _ _ := trivial
  fault _ := id
  bind _ _ := trivial

private theorem noStartErrors_permits (cfg : Setting) (visit : Visit) :
    (noStartErrors cfg).Permits visit := by
  obtain ⟨node,base,bound⟩ := visit
  cases node with
  | action site act body => exact ⟨fun _ => id,fun _ _ _ _ _ => trivial⟩
  | labeled site label body => exact fun _ => id
  | repeated site repetition body => exact ⟨fun _ _ _ _ _ => id,fun _ _ _ _ _ _ _ => id⟩
  | predicate site isNegative code ns => exact fun _ _ _ => trivial
  | charClass site parts inverted ignoreCase rawText => exact ⟨fun _ => trivial,fun _ => trivial⟩
  | named | literal => exact fun _ => trivial
  | _ => trivial

theorem lowerRules_aboutStarts {cfg : Setting} {starts : List String} {before : Registries}
    {rules : List Rule} {error : GenerateError}
    (failed : lowerRules cfg starts before rules = .error error) : ¬error.AboutStarts := by
  obtain ⟨rule,-,isStart,registries,raised⟩ := lowerRules_error failed
  have permitted (visit : Visit) (_ : visit ∈ rule.body.visits 0 []) :=
    noStartErrors_permits cfg visit
  have kept := (noStartErrors cfg).keeps_rule trivial permitted isStart registries
  exact kept.2 _ raised

private theorem internalError_aboutStarts {α : Type} {x : Except Fault α} {error : GenerateError}
    (failed : internalError x = .error error) : ¬error.AboutStarts := by
  cases x with
  | error fault =>
    cases failed
    exact id
  | ok a => exact nomatch failed

section Generating

variable {g : Grammar} {table : TypeTable} {options : Options}

private theorem FirstDefect.aboutStarts {names : List String} {error : GenerateError}
    (defect : FirstDefect g names error) : error.AboutStarts ∧ error ≠ .noStartRules := by
  obtain ⟨earlier,name,later,-,-,blamed⟩ := defect
  cases blamed <;> exact ⟨trivial,nofun⟩

/-- What laying out a class says about the start rules. -/
theorem parserClass_error (typed : ∀ index < g.rules.length, (table.rule index).isSome)
    {error : GenerateError} (about : error.AboutStarts) :
    parserClass g table options = .error error ↔
      (startNames g options = [] ∧ error = .noStartRules) ∨
        FirstDefect g (startNames g options) error := by
  have complete : firstUntyped table 0 g.rules = none := firstUntyped_none (by simpa using typed)
  unfold parserClass
  rw [complete,← startNames_eq]
  dsimp only
  cases startNames g options with
  | nil =>
    have none : ¬FirstDefect g [] error := by
      rintro ⟨earlier,name,later,same,-⟩
      simp at same
    simp [none,throw,throwThe,MonadExceptOf.throw,eq_comm]
  | cons first rest =>
    simp only [bind_eq_error,List.cons_ne_nil,false_and,false_or,startEntries_error_iff]
    constructor
    · rintro (defect | ⟨_,-,fresh | ⟨_,-,lowering | ⟨_,-,done⟩⟩⟩)
      · exact defect
      · exact absurd about (internalError_aboutStarts fresh)
      · exact absurd about (lowerRules_aboutStarts lowering)
      · exact nomatch done
    · exact .inl

theorem generate_error (typed : ∀ index < g.rules.length, (table.rule index).isSome)
    (error : GenerateError) (about : error.AboutStarts) :
    generate g table options = .error error ↔
      (startNames g options = [] ∧ error = .noStartRules) ∨
        FirstDefect g (startNames g options) error := by
  rw [← parserClass_error typed about]
  simp only [generate,generateStmts,bind_eq_error]
  constructor
  · rintro ((laid | ⟨p,-,printed⟩) | ⟨stmts,-,done⟩)
    · exact laid
    · exact absurd about (internalError_aboutStarts printed)
    · cases done
  · exact fun laid => .inl (.inl laid)

/-- How the parser class starts: an entry point a start rule, by name of the rule and type of its value;
parsing from the first of them when no rule is given; and a subroutine a rule, marked as a start rule
or not. -/
structure StartsFrom (g : Grammar) (table : TypeTable) (options : Options) (body : List Stmt) :
    Prop where
  entries : List.Forall₂ (fun name stmt => ∃ index ty type, g.ruleIndex name = some index ∧
      table.rule index = some ty ∧ Imports.renderBoxed ⟨options.useFullyQualifiedNames⟩ ty = .ok type ∧
      IsEntryPoint options ⟨options.useFullyQualifiedNames⟩ name (upperSnake name) type stmt)
    (startNames g options).eraseDups (body.filter Stmt.isEntry)
  distinct : ((startNames g options).eraseDups.map upperSnake).Nodup
  default : ∀ first rest, startNames g options = first :: rest →
    body.filter Stmt.takesInput = (inputs ⟨options.useFullyQualifiedNames⟩).map
      (parseMethod (Imports.className ⟨options.useFullyQualifiedNames⟩ "Object") first)
  rules : ∃ front pieces, body = front ++ [Stmt.blank].intercalate pieces ++ [foldEnd] ∧
    front.filter Stmt.isMark = [] ∧
    List.Forall₂ (fun rule stmts => IsRoutine ⟨options.useFullyQualifiedNames⟩ rule.name
      (decide (rule.name ∈ startNames g options)) stmts) g.rules pieces

theorem lowerRule_heading {cfg : Setting} {rule : Rule} {isStart : Bool} {before after : Registries}
    {sub : Subroutine} (lowered : lowerRule cfg rule isStart before = (.ok sub,after)) :
    sub.name = rule.name ∧ sub.isStart = isStart := by
  obtain ⟨object,position,t,yields,rfl⟩ := lowerRule_ok lowered
  simp only [lowerBody,yields_bind,yields_get] at yields
  obtain ⟨⟨body,scope⟩,_,_,_,_,⟨rfl,rfl⟩,done⟩ := yields
  split at done
  · obtain ⟨rfl,rfl⟩ := (yields_pure _ _ _ _).mp done
    exact ⟨rfl,rfl⟩
  · exact absurd done (yields_throw _ _ _ _)

theorem lowerRules_headings {cfg : Setting} {starts : List String} {before after : Registries}
    {rules : List Rule} {subs : List Subroutine}
    (ok : lowerRules cfg starts before rules = .ok (subs,after)) :
    List.Forall₂ (fun rule sub => sub.name = rule.name ∧ sub.isStart = starts.contains rule.name)
      rules subs := by
  induction rules generalizing before subs with
  | nil =>
    cases ok
    exact .nil
  | cons rule rest ih =>
    rw [lowerRules] at ok
    cases run : lowerRule cfg rule (starts.contains rule.name) before with
    | mk result middle =>
      rw [run] at ok
      simp only [bind_eq_ok] at ok
      obtain ⟨sub,rfl,⟨others,last⟩,tail,ok⟩ := ok
      cases ok
      exact .cons (lowerRule_heading run) (ih tail)

structure Started (g : Grammar) (table : TypeTable) (options : Options) (p : ParserClass) : Prop where
  given : p.options = options
  spelling : p.imports = ⟨options.useFullyQualifiedNames⟩
  blameless : Blameless g (startNames g options)
  default : (startNames g options).head? = some p.defaultRule
  entries : p.entries = entriesFor g table (startNames g options)
  subroutines : List.Forall₂ (fun rule sub => sub.name = rule.name ∧
    sub.isStart = (startNames g options).contains rule.name) g.rules p.subroutines

theorem parserClass_started {p : ParserClass} (ok : parserClass g table options = .ok p) :
    Started g table options p := by
  unfold parserClass at ok
  rw [← startNames_eq] at ok
  split at ok
  · exact nomatch ok
  · dsimp only at ok
    cases starts : startNames g options with
    | nil =>
      rw [starts] at ok
      exact nomatch ok
    | cons first rest =>
      rw [starts] at ok
      simp only [bind_eq_ok] at ok
      obtain ⟨entries,scanned,fresh,-,⟨subroutines,registries⟩,lowered,ok⟩ := ok
      cases ok
      rw [← starts] at scanned lowered
      rcases blameless_or_defect g (startNames g options) with all | ⟨error,defect⟩
      · have entered : entries = _ := Except.ok.inj (scanned.symm.trans (startEntries_ok all))
        exact ⟨rfl,rfl,all,by rw [starts]; rfl,entered,lowerRules_headings lowered⟩
      · exact nomatch scanned.symm.trans (startEntries_error_iff.mpr defect)

/-- Start rules without a defect, and rules that all lower, make a class. -/
theorem parserClass_ok (typed : ∀ index < g.rules.length, (table.rule index).isSome)
    (some : startNames g options ≠ []) (all : Blameless g (startNames g options))
    (lowers : ∀ rule ∈ g.rules, ∃ before sub after,
      lowerRule ⟨⟨options.useFullyQualifiedNames⟩,table⟩ rule
        ((startNames g options).contains rule.name) before = (.ok sub,after)) :
    ∃ p, parserClass g table options = .ok p := by
  have complete : firstUntyped table 0 g.rules = none := firstUntyped_none (by simpa using typed)
  obtain ⟨first,rest,starts⟩ := List.exists_cons_of_ne_nil some
  have entries : startEntries g table [] (startNames g options) = _ := startEntries_ok all
  obtain ⟨fresh,started⟩ := fresh_ok ⟨options.useFullyQualifiedNames⟩
  have alone : ∀ rule ∈ g.rules, ∃ sub, (lowerRule ⟨⟨options.useFullyQualifiedNames⟩,table⟩ rule
      ((startNames g options).contains rule.name) fresh).1 = .ok sub := by
    intro rule member
    obtain ⟨before,sub,after,run⟩ := lowers rule member
    obtain ⟨sub',after',run',-⟩ := lowerRule_renumbers run fresh
    exact ⟨sub',congrArg Prod.fst run'⟩
  obtain ⟨subs,after,runs,-⟩ := lowerRules_ok alone
    { fresh with userCode := registerInitializers g fresh.userCode }
  rw [starts] at entries runs
  unfold parserClass
  rw [complete,← startNames_eq,starts]
  dsimp only
  simp only [bind_eq_ok]
  exact ⟨_,_,entries,fresh,by rw [started,internalError],(subs,after),runs,rfl⟩

private theorem typed_entry (typed : ∀ index < g.rules.length, (table.rule index).isSome)
    {name : String} (declared : g.Declares name) :
    ∃ index, g.ruleIndex name = some index ∧ table.rule index = some (entryFor g table name).type := by
  cases found : g.ruleIndex name with
  | none => exact absurd declared (Grammar.ruleIndex_none.mp found)
  | some index =>
    obtain ⟨ty,given⟩ := Option.isSome_iff_exists.mp (typed index (Inference.ruleIndex_lt found))
    exact ⟨index,rfl,by simp [entryFor,found,given]⟩

theorem Started.constants_nodup {p : ParserClass} (started : Started g table options p) :
    ((startNames g options).eraseDups.map upperSnake).Nodup := by
  refine (eraseDups_nodup _).map_on fun a left b right => ?_
  exact blameless_apart started.blameless a (List.mem_eraseDups.mp left) b (List.mem_eraseDups.mp right)

theorem Started.starts_from {p : ParserClass} (started : Started g table options p)
    (typed : ∀ index < g.rules.length, (table.rule index).isSome) :
    StartsFrom g table options (p.classMembers.map (Member.stmt p.imports)) := by
  have has := p.classMembers_has
  refine ⟨?_,started.constants_nodup,?_,?_⟩
  · have declared (name : String) (member : name ∈ (startNames g options).eraseDups) :
        g.Declares name := blameless_declares started.blameless (List.mem_eraseDups.mp member)
    rw [ParserClass.filter_stmts has fun m _ => m.isEntry_stmt,ParserClass.class_entries,started.entries,
      entriesFor,started.given,started.spelling,List.forall₂_map_right_iff,List.forall₂_map_right_iff,
      List.forall₂_map_right_iff,List.forall₂_same]
    intro name member
    obtain ⟨index,found,given⟩ := typed_entry typed (declared name member)
    exact ⟨index,_,_,found,given,Imports.renderBoxed_eq _ _,ParserClass.entry_isEntryPoint _ _ _⟩
  · intro first rest starts
    have default := started.default
    rw [starts,List.head?_cons,Option.some.injEq] at default
    rw [ParserClass.filter_stmts has fun m _ => m.takesInput_stmt,ParserClass.class_methods,List.map_map,
      started.spelling,default]
    exact List.map_congr_left fun input _ => ParserClass.parse_isParse _ _ _
  · obtain ⟨front,shape,unmarked⟩ := p.stmts_marked
    refine ⟨front,p.pieces,shape,unmarked,?_⟩
    rw [ParserClass.pieces,List.forall₂_map_right_iff]
    refine started.subroutines.imp ?_
    rintro rule sub ⟨name,flag⟩
    have routine := ParserClass.routine_isRoutine p.imports sub
    rw [name,flag,List.contains_eq_mem] at routine
    exact started.spelling ▸ routine

end Generating

/-- Start rules are resolved from the left. Without any there is an error; else the first name that is
not declared, or has the constant of an earlier other name, gives the error; and else, if all rules
lower, the parser class has an entry point for each name, starts at the first one, and marks just the
subroutines of these rules. -/
theorem start_rules_resolved (g : Grammar) (table : TypeTable) (options : Options)
    (typed : ∀ index < g.rules.length, (table.rule index).isSome) :
    (generate g table options = .error .noStartRules ↔ startNames g options = []) ∧
    (∀ name, generate g table options = .error (.unknownStartRule name) ↔
      FirstDefect g (startNames g options) (.unknownStartRule name)) ∧
    (∀ constant first second,
      generate g table options = .error (.entryPointClash constant first second) ↔
        FirstDefect g (startNames g options) (.entryPointClash constant first second)) ∧
    (startNames g options ≠ [] → (∀ error, ¬FirstDefect g (startNames g options) error) →
      (∀ rule ∈ g.rules, ∃ before sub after,
        lowerRule ⟨⟨options.useFullyQualifiedNames⟩,table⟩ rule
          ((startNames g options).contains rule.name) before = (.ok sub,after)) →
      ∃ stmts body, generate g table options = .ok (Stmt.render stmts options.indent) ∧
        lastClass stmts = some body ∧ StartsFrom g table options body) := by
  refine ⟨?_,fun name => ?_,fun constant first second => ?_,fun some clear lowers => ?_⟩
  · have none : ¬FirstDefect g (startNames g options) .noStartRules :=
      fun defect => defect.aboutStarts.2 rfl
    rw [generate_error typed .noStartRules trivial]
    simp [none]
  · rw [generate_error typed (.unknownStartRule name) trivial]
    simp
  · rw [generate_error typed (.entryPointClash constant first second) trivial]
    simp
  · have all : Blameless g (startNames g options) :=
      (blameless_or_defect g _).resolve_right fun ⟨error,defect⟩ => clear error defect
    obtain ⟨p,laid⟩ := parserClass_ok typed some all lowers
    obtain ⟨stmts,printed⟩ := ParserClass.toStmts_ok p
    obtain ⟨-,-,before,bare,lowered⟩ := parserClass_lowered laid
    have last := ParserClass.toStmts_body (lettered_of_bare bare lowered) printed
    refine ⟨stmts,_,?_,last,(parserClass_started laid).starts_from typed⟩
    simp only [generate,generateStmts,bind_eq_ok]
    exact ⟨stmts,⟨p,laid,by rw [printed,internalError]⟩,rfl⟩

def scriptGrammar : Grammar := .ofRules [] [
  { name := "script", body := .repeated {} .zeroOrMore (.ruleRef {} "callExpr") },
  { name := "callExpr", body := .literal {} "call" false },
  { name := "Script", body := .any {} }]

/-- Start rules may be listed twice, and in any order; a second name for a constant is refused. -/
theorem scriptGrammar_starts :
    (∃ stmts body,
      generate scriptGrammar (check scriptGrammar none).table
        { allowedStartRules := ["callExpr","script","callExpr"] } = .ok (Stmt.render stmts 2) ∧
      lastClass stmts = some body ∧
      StartsFrom scriptGrammar (check scriptGrammar none).table
        { allowedStartRules := ["callExpr","script","callExpr"] } body) ∧
    generate scriptGrammar (check scriptGrammar none).table
      { allowedStartRules := ["script","Script","lost"] } =
        .error (.entryPointClash "SCRIPT" "script" "Script") := by
  have typed : ∀ index < scriptGrammar.rules.length,
      ((check scriptGrammar none).table.rule index).isSome := by decide +kernel
  constructor
  · obtain ⟨-,-,-,starts⟩ := start_rules_resolved scriptGrammar (check scriptGrammar none).table
      { allowedStartRules := ["callExpr","script","callExpr"] } typed
    refine starts (List.cons_ne_nil _ _) (fun error defect => ?_) (fun rule member => ?_)
    · have scanned : (startEntries scriptGrammar (check scriptGrammar none).table []
          ["callExpr","script","callExpr"]).toOption.isSome := by decide +kernel
      have failed : startEntries scriptGrammar (check scriptGrammar none).table []
        ["callExpr","script","callExpr"] = .error error := startEntries_error_iff.mpr defect
      rw [failed] at scanned
      exact nomatch scanned
    · let empty : Registries := { patterns := ⟨"p","Pattern",{}⟩,expected := ⟨"e","Expected",{}⟩ }
      have lowers : ∀ rule ∈ scriptGrammar.rules,
          (lowerRule ⟨⟨false⟩,(check scriptGrammar none).table⟩ rule
            (["callExpr","script","callExpr"].contains rule.name) empty).1.toOption.isSome := by
        decide +kernel
      have ok := lowers rule member
      cases run : lowerRule ⟨⟨false⟩,(check scriptGrammar none).table⟩ rule
          (["callExpr","script","callExpr"].contains rule.name) empty with
      | mk result after =>
        rw [run] at ok
        cases result with
        | error error => exact nomatch ok
        | ok sub => exact ⟨empty,sub,after,run⟩
  · obtain ⟨-,-,clash,-⟩ := start_rules_resolved scriptGrammar (check scriptGrammar none).table
      { allowedStartRules := ["script","Script","lost"] } typed
    have stopped : startEntries scriptGrammar (check scriptGrammar none).table []
        ["script","Script","lost"] = .error (.entryPointClash "SCRIPT" "script" "Script") := by
      rfl
    exact (clash _ _ _).mpr (startEntries_error_iff.mp stopped)

end PegCompiler
