import PegCompiler.Proofs.Grammar.Records
import PegCompiler.Proofs.Grammar.Validity
import PegCompiler.Proofs.Json.Reading

/-! Grammars survive their layout as JSON. An expression is read in two turns: first its range and its
tag are taken out of its members, which are taken in as a whole, then the fields of its kind are read
from what is left. -/
namespace PegCompiler

open Json (Entry IsObject)

namespace Decode

private theorem each_laid {es : List Expr} {items : List Json} (laid : Layout.each es items) :
    List.Forall₂ Layout.expr es items := by
  induction es generalizing items with
  | nil =>
    obtain rfl : items = [] := laid
    exact .nil
  | cons e rest ih =>
    obtain ⟨item,others,rfl,first,tail⟩ := laid
    exact .cons first (ih tail)

private theorem splitLocation_append {access : Access} {levels : Nat} {found : Option Location}
    {before : List (String × Json)} (rest : List (String × Json))
    (plain : "location" ∉ before.map (·.1))
    (taken : ∀ key value, (key,value) ∈ before → access = .held ∨ value.fits levels = true) :
    splitLocation access levels found (before ++ rest) =
      (splitLocation access levels found rest).map fun split => (split.1,before ++ split.2) := by
  induction before with
  | nil =>
    rw [List.nil_append]
    cases splitLocation access levels found rest <;> rfl
  | cons member before ih =>
    obtain ⟨key,value⟩ := member
    simp only [List.map_cons,List.mem_cons,not_or] at plain
    have here := taken key value List.mem_cons_self
    have others := ih plain.2 fun key value member => taken key value (List.mem_cons_of_mem _ member)
    rw [List.cons_append,splitLocation,if_neg (Ne.symm plain.1),if_pos here,others]
    cases splitLocation access levels found rest <;> rfl

private theorem splitLocation_read {l : Location} {access : Access} {levels : Nat}
    {members : List (String × Json)} (laid : (Layout.range l).FoundIn members)
    (admitted : ∀ value, ("location",value) ∈ members → access.Admits value)
    (taken : ∀ key value, (key,value) ∈ members → key ≠ "location" →
      access = .held ∨ value.fits levels = true) :
    ∃ found, splitLocation access levels none members = .ok (found,members.filter (·.1 != "location")) ∧
      found.getD {} = l := by
  have takenFrom {part : List (String × Json)} (inside : part ⊆ members)
      (plain : "location" ∉ part.map (·.1)) (key : String) (value : Json) (member : (key,value) ∈ part) :
      access = .held ∨ value.fits levels = true := by
    apply taken key value (inside member)
    rintro rfl
    exact plain (List.mem_map_of_mem member)
  have whole {found : Option Location} {part : List (String × Json)} (inside : part ⊆ members)
      (plain : "location" ∉ part.map (·.1)) :
      splitLocation access levels found part = .ok (found,part) := by
    rw [← List.append_nil part,splitLocation_append [] plain (takenFrom inside plain)]
    rfl
  rcases laid.split with ⟨before,value,after,rfl,holds,others,noneBefore,noneAfter⟩ |
    ⟨missing,same,omitted⟩
  · have range : location access value = .ok l :=
      location_read holds (admitted value (List.mem_append_right _ List.mem_cons_self))
    have rest : splitLocation access levels (some l) after = .ok (some l,after) :=
      whole (fun _ member => List.mem_append_right _ (List.mem_cons_of_mem _ member)) noneAfter
    refine ⟨some l,?_,rfl⟩
    have takenBefore := takenFrom (List.subset_append_left _ _) noneBefore
    have run : splitLocation access levels none (before ++ ("location",value) :: after) =
        .ok (some l,before ++ after) := by
      rw [splitLocation_append _ noneBefore takenBefore]
      simp [splitLocation,range,rest,Except.map]
    exact run.trans (congrArg (fun others => Except.ok (some l,others)) others.symm)
  · refine ⟨none,?_,omitted.symm⟩
    rw [whole (List.Subset.refl _) missing]
    exact congrArg (fun others => Except.ok (none,others)) same.symm

private theorem tag_read (kind : Kind) : tag (.string kind.name) = .ok kind := by
  cases kind <;> rfl

private theorem splitTag_append {found : Option Kind} {before : List (String × Json)}
    (rest : List (String × Json)) (plain : "type" ∉ before.map (·.1)) :
    splitTag found (before ++ rest) =
      (splitTag found rest).map fun split => (split.1,before ++ split.2) := by
  induction before with
  | nil =>
    rw [List.nil_append]
    cases splitTag found rest <;> rfl
  | cons member before ih =>
    simp only [List.map_cons,List.mem_cons,not_or] at plain
    rw [List.cons_append,splitTag,if_neg (Ne.symm plain.1),ih plain.2]
    cases splitTag found rest <;> rfl

private theorem splitTag_read {kind : Kind} {members : List (String × Json)}
    (laid : Entry.FoundIn ⟨"type",Layout.text kind.name,False⟩ members) :
    splitTag none members = .ok (some kind,members.filter (·.1 != "type")) := by
  obtain ⟨before,value,after,rfl,holds,others,noneBefore,noneAfter⟩ :=
    laid.split.resolve_right fun missing => missing.2.2
  have rest : splitTag (some kind) after = .ok (some kind,after) := by
    rw [← List.append_nil after,splitTag_append [] noneAfter]
    rfl
  have tagged : tag value = .ok kind := by
    rw [show value = .string kind.name from holds]
    exact tag_read kind
  rw [others,splitTag_append _ noneBefore]
  simp [splitTag,tagged,rest,Except.map]

private def ExprDraft.only (draft : ExprDraft) (seen : List String) : ExprDraft where
  name := kept seen "name" draft.name
  label := kept seen "label" draft.label
  code := kept seen "code" draft.code
  ns := kept seen "namespace" draft.ns
  annotations := kept seen "annotations" draft.annotations
  expression := kept seen "expression" draft.expression
  alternatives := kept seen "alternatives" draft.alternatives
  elements := kept seen "elements" draft.elements
  min := kept seen "min" draft.min
  max := kept seen "max" draft.max
  value := kept seen "value" draft.value
  ignoreCase := kept seen "ignoreCase" draft.ignoreCase
  parts := kept seen "parts" draft.parts
  inverted := kept seen "inverted" draft.inverted
  rawText := kept seen "rawText" draft.rawText

private def draftOf : Expr → ExprDraft
  | .named _ name body => { name := some name, expression := some body.unnumbered }
  | .choice _ alternatives => { alternatives := some (alternatives.map Expr.unnumbered) }
  | .action _ act body =>
    { expression := some body.unnumbered, code := some act.code, ns := some act.ns,
      annotations := some act.annotations }
  | .sequence _ elements => { elements := some (elements.map Expr.unnumbered) }
  | .labeled _ label body => { label := some label, expression := some body.unnumbered }
  | .text _ body => { expression := some body.unnumbered }
  | .optional _ body => { expression := some body.unnumbered }
  | .repeated _ (.range min max) body =>
    { min := some min, max := some max, expression := some body.unnumbered }
  | .repeated _ _ body => { expression := some body.unnumbered }
  | .lookahead _ _ body => { expression := some body.unnumbered }
  | .predicate _ _ code ns => { code := some code, ns := some ns }
  | .ruleRef _ name => { name := some name }
  | .literal _ value ignoreCase => { value := some value, ignoreCase := some ignoreCase }
  | .charClass _ parts inverted ignoreCase rawText =>
    { parts := some parts, inverted := some inverted, ignoreCase := some ignoreCase,
      rawText := some rawText }
  | .any _ => {}

private theorem fields_keys (e : Expr) : (Layout.fields e).map (·.key) = fieldsOf e.kind := by
  cases e with
  | repeated site repetition body => cases repetition <;> rfl
  | lookahead site isNegative body => cases isNegative <;> rfl
  | predicate site isNegative code ns => cases isNegative <;> rfl
  | _ => rfl

private theorem fields_plain {e : Expr} {entry : Entry} (wanted : entry ∈ Layout.fields e) :
    entry.key ≠ "location" ∧ entry.key ≠ "type" := by
  have known : entry.key ∈ fieldsOf e.kind := by
    rw [← fields_keys]
    exact List.mem_map_of_mem wanted
  generalize e.kind = kind at known
  generalize entry.key = key at known
  revert key
  cases kind <;> simp [fieldsOf]

/-- With every field read that may not be left out, the expression is complete. -/
private theorem finish_read {e : Expr} {seen : List String}
    (given : ∀ entry ∈ Layout.fields e, entry.key ∈ seen ∨ entry.omittable) :
    finish { location := e.location } ((draftOf e).only seen) e.kind = .ok e.unnumbered := by
  cases e with
  | named | labeled =>
    simp only [Layout.fields,List.forall_mem_cons,or_false] at given
    obtain ⟨first,body,-⟩ := given
    simp only [finish,Expr.kind,ExprDraft.only,draftOf,kept_required first,kept_required body]
    rfl
  | choice | sequence =>
    simp only [Layout.fields,List.forall_mem_cons,or_false] at given
    simp only [finish,Expr.kind,ExprDraft.only,draftOf,kept_required given.1,Expr.unnumbered,
      Expr.unnumberedAll_eq]
    rfl
  | action =>
    simp only [Layout.fields,Layout.namespaceOf,Layout.notes,List.forall_mem_cons,or_false] at given
    obtain ⟨body,code,ns,annotations,-⟩ := given
    simp only [finish,Expr.kind,ExprDraft.only,draftOf,kept_required body,kept_required code,
      kept_getD ns,kept_getD annotations]
    rfl
  | text | optional =>
    simp only [Layout.fields,List.forall_mem_cons,or_false] at given
    simp only [finish,Expr.kind,ExprDraft.only,draftOf,kept_required given.1]
    rfl
  | lookahead site isNegative body =>
    simp only [Layout.fields,List.forall_mem_cons,or_false] at given
    cases isNegative
    all_goals
      simp only [finish,Expr.kind,ExprDraft.only,draftOf,kept_required given.1,if_true,
        Bool.false_eq_true,if_false]
      rfl
  | repeated site repetition body =>
    cases repetition with
    | range min max =>
      simp only [Layout.fields,Layout.bounds,List.cons_append,List.nil_append,List.forall_mem_cons,
        or_false] at given
      obtain ⟨lower,upper,body,-⟩ := given
      simp only [finish,Expr.kind,ExprDraft.only,draftOf,kept_required lower,kept_getD upper,
        kept_required body]
      rfl
    | zeroOrMore | oneOrMore =>
      simp only [Layout.fields,Layout.bounds,List.nil_append,List.forall_mem_cons,or_false] at given
      simp only [finish,Expr.kind,ExprDraft.only,draftOf,kept_required given.1]
      rfl
  | predicate site isNegative code ns =>
    simp only [Layout.fields,Layout.namespaceOf,List.forall_mem_cons,or_false] at given
    obtain ⟨code,ns,-⟩ := given
    cases isNegative
    all_goals
      simp only [finish,Expr.kind,ExprDraft.only,draftOf,kept_required code,kept_getD ns,if_true,
        Bool.false_eq_true,if_false]
      rfl
  | ruleRef =>
    simp only [Layout.fields,List.forall_mem_cons,or_false] at given
    simp only [finish,Expr.kind,ExprDraft.only,draftOf,kept_required given.1]
    rfl
  | literal =>
    simp only [Layout.fields,List.forall_mem_cons,or_false] at given
    obtain ⟨value,ignoreCase,-⟩ := given
    simp only [finish,Expr.kind,ExprDraft.only,draftOf,kept_required value,kept_getD ignoreCase]
    rfl
  | charClass =>
    simp only [Layout.fields,List.forall_mem_cons,or_false] at given
    obtain ⟨parts,inverted,ignoreCase,rawText,-⟩ := given
    simp only [finish,Expr.kind,ExprDraft.only,draftOf,kept_required parts,kept_getD inverted,
      kept_getD ignoreCase,kept_getD rawText]
    rfl
  | any => rfl

private theorem children_read {es : List Expr} {levels : Nat} {read : Json → Except DecodeError Expr}
    (parts : ∀ child ∈ es, ∀ json, Layout.expr child json → json.height ≤ levels →
      read json = .ok child.unnumbered) {value : Json} (laid : Layout.isArray (Layout.each es) value)
    (bounded : value.height ≤ levels) :
    listOf (fun _ => read) .held value = .ok (es.map Expr.unnumbered) := by
  obtain ⟨items,rfl,laid⟩ := laid
  apply mapM_read Expr.unnumbered (each_laid laid)
  intro child part item member holds
  have below := Json.height_item member
  exact parts child part item holds (by omega)

/-- One field. Whatever has been read before, it joins the draft with its value. -/
private theorem exprField_read {e : Expr} {levels : Nat} {read : Json → Except DecodeError Expr}
    (parts : ∀ child ∈ e.children, ∀ json, Layout.expr child json → json.height ≤ levels →
      read json = .ok child.unnumbered) :
    ∀ entry ∈ Layout.fields e, ∀ value seen, entry.holds value → value.height ≤ levels →
      exprField read ((draftOf e).only seen) entry.key value =
        .ok ((draftOf e).only (entry.key :: seen)) := by
  have body {child : Expr} (part : child ∈ e.children) {value : Json}
      (holds : Layout.node child (Layout.fields child) value) (bounded : value.height ≤ levels) :
      read value = .ok child.unnumbered := parts child part value holds bounded
  cases e with
  | named site name inner | labeled site name inner =>
    simp only [Layout.fields,List.forall_mem_cons]
    refine ⟨?_,?_,by simp⟩
    all_goals intro value seen holds bounded
    · simp [exprField,text_read holds,ExprDraft.only,draftOf]
    · simp [exprField,body List.mem_cons_self holds bounded,ExprDraft.only,draftOf]
  | choice | sequence =>
    simp only [Layout.fields,List.forall_mem_cons]
    refine ⟨?_,by simp⟩
    intro value seen holds bounded
    simp [exprField,children_read parts holds bounded,ExprDraft.only,draftOf,Expr.children]
  | action site act inner =>
    simp only [Layout.fields,Layout.namespaceOf,Layout.notes,List.forall_mem_cons]
    refine ⟨?_,?_,?_,?_,by simp⟩
    all_goals intro value seen holds bounded
    · simp [exprField,body List.mem_cons_self holds bounded,ExprDraft.only,draftOf]
    · simp [exprField,text_read holds,ExprDraft.only,draftOf]
    · simp [exprField,nullableText_read holds,ExprDraft.only,draftOf]
    · have read : listOf annotation .held value = .ok act.annotations := notes_read holds trivial
      simp [exprField,read,ExprDraft.only,draftOf]
  | text | optional | lookahead =>
    simp only [Layout.fields,List.forall_mem_cons]
    refine ⟨?_,by simp⟩
    intro value seen holds bounded
    simp [exprField,body List.mem_cons_self holds bounded,ExprDraft.only,draftOf]
  | repeated site repetition inner =>
    cases repetition with
    | range min max =>
      simp only [Layout.fields,Layout.bounds,List.cons_append,List.nil_append,List.forall_mem_cons]
      refine ⟨?_,?_,?_,by simp⟩
      all_goals intro value seen holds bounded
      · simp [exprField,lowerBound_read holds,ExprDraft.only,draftOf]
      · simp [exprField,upperBound_read holds,ExprDraft.only,draftOf]
      · simp [exprField,body List.mem_cons_self holds bounded,ExprDraft.only,draftOf]
    | zeroOrMore | oneOrMore =>
      simp only [Layout.fields,Layout.bounds,List.nil_append,List.forall_mem_cons]
      refine ⟨?_,by simp⟩
      intro value seen holds bounded
      simp [exprField,body List.mem_cons_self holds bounded,ExprDraft.only,draftOf]
  | predicate site isNegative code ns =>
    simp only [Layout.fields,Layout.namespaceOf,List.forall_mem_cons]
    refine ⟨?_,?_,by simp⟩
    all_goals intro value seen holds bounded
    · simp [exprField,text_read holds,ExprDraft.only,draftOf]
    · simp [exprField,nullableText_read holds,ExprDraft.only,draftOf]
  | ruleRef site name =>
    simp only [Layout.fields,List.forall_mem_cons]
    refine ⟨?_,by simp⟩
    intro value seen holds bounded
    simp [exprField,text_read holds,ExprDraft.only,draftOf]
  | literal site value ignoreCase =>
    simp only [Layout.fields,List.forall_mem_cons]
    refine ⟨?_,?_,by simp⟩
    all_goals intro value seen holds bounded
    · simp [exprField,text_read holds,ExprDraft.only,draftOf]
    · simp [exprField,bool_read holds,ExprDraft.only,draftOf]
  | charClass site members inverted ignoreCase rawText =>
    simp only [Layout.fields,List.forall_mem_cons]
    refine ⟨?_,?_,?_,?_,by simp⟩
    all_goals intro value seen holds bounded
    · have read : listOf (fun _ => classPart) .held value = .ok members :=
        listOf_read holds trivial fun _ _ _ laid _ => classPart_read laid
      simp [exprField,read,ExprDraft.only,draftOf]
    · simp [exprField,bool_read holds,ExprDraft.only,draftOf]
    · simp [exprField,bool_read holds,ExprDraft.only,draftOf]
    · simp [exprField,text_read holds,ExprDraft.only,draftOf]
  | any => simp [Layout.fields]

/-- The range of an expression, taken out of members that are taken in. -/
private theorem splitLocation_node {l : Location} {levels : Nat} {isHeld : Bool}
    {members : List (String × Json)} (laid : (Layout.range l).FoundIn members)
    (below : ∀ key value, (key,value) ∈ members → value.height ≤ levels)
    (taken : isHeld = true ∨ Layout.MembersReadable (.object members)) :
    ∃ found, splitLocation (if isHeld = true then .held else .passing levels) levels none members =
        .ok (found,members.filter (·.1 != "location")) ∧ found.getD {} = l := by
  cases isHeld with
  | true => exact splitLocation_read laid (fun _ _ => trivial) fun _ _ _ _ => .inl rfl
  | false =>
    have readable := taken.resolve_left Bool.false_ne_true
    refine splitLocation_read laid (below "location") fun key value member other => .inr ?_
    rw [Json.fits_iff]
    exact ⟨readable key value member other,below key value member⟩

private theorem expr_read {e : Expr} {levels : Nat} {isHeld : Bool} {json : Json}
    (laid : Layout.expr e json) (bounded : json.height ≤ levels)
    (taken : isHeld = true ∨ Layout.MembersReadable json) :
    expr levels isHeld json = .ok e.unnumbered := by
  induction e using Expr.children_induction generalizing levels isHeld json with
  | parts e ih =>
    obtain ⟨members,rfl,found⟩ := laid
    have nested : 0 < (Json.object members).height := Nat.zero_lt_succ _
    obtain ⟨levels,rfl⟩ := Nat.exists_eq_add_one_of_ne_zero (by omega : levels ≠ 0)
    have below (key : String) (value : Json) (member : (key,value) ∈ members) :
        value.height ≤ levels := by
      have inside := Json.height_member member
      omega
    simp only [List.forall_mem_cons] at found
    obtain ⟨tagged,ranged,fields⟩ := found
    obtain ⟨location,split,located⟩ := splitLocation_node ranged below taken
    have tag := splitTag_read (tagged.others (by simp : "type" ≠ "location"))
    -- what is left holds the fields as before
    have left (entry : Entry) (wanted : entry ∈ Layout.fields e) :
        entry.FoundIn ((members.filter (·.1 != "location")).filter (·.1 != "type")) := by
      have plain := fields_plain wanted
      exact ((fields entry wanted).others plain.1).others plain.2
    have step := exprField_read fun child part json laid bounded =>
      show expr levels true json = _ from ih child part laid bounded (.inl rfl)
    obtain ⟨seen,run,given⟩ := readMembers_found (draftOf e).only left
      fun entry wanted value seen member holds => by
        have inside := (List.mem_filter.mp (List.mem_filter.mp member).1).1
        exact step entry wanted value seen holds (below entry.key value inside)
    have nothing : (draftOf e).only [] = {} := by simp only [ExprDraft.only,kept_nil]
    rw [fields_keys,nothing] at run
    rw [expr]
    simp only [split,tag,ok_bind,required,located,run]
    exact finish_read given

private theorem initializer_read {i : Initializer} {access : Access} {json : Json}
    (laid : Layout.initializer i json) (admitted : access.Admits json) :
    initializer access json = .ok i := by
  let only (seen : List String) : InitializerDraft :=
    ⟨kept seen "code" (some i.code),kept seen "namespace" (some i.ns),
      kept seen "annotations" (some i.annotations),kept seen "location" (some i.location)⟩
  obtain ⟨seen,run,given⟩ := record_kept ["code","namespace","annotations","location"]
    initializerField {} only laid admitted rfl rfl (by
      simp only [List.forall_mem_cons,Layout.namespaceOf,Layout.notes,Layout.range]
      refine ⟨?_,?_,?_,?_,by simp⟩
      all_goals intro inner value seen _ _ holds admitted
      · simp [initializerField,text_read holds,only]
      · simp [initializerField,nullableText_read holds,only]
      · simp [initializerField,notes_read holds admitted,only]
      · simp [initializerField,location_read holds admitted,only])
  simp only [List.forall_mem_cons,or_false,Layout.namespaceOf,Layout.notes,Layout.range] at given
  obtain ⟨code,ns,annotations,range,-⟩ := given
  simp only [initializer,run,ok_bind,only,kept_required code,kept_getD ns,kept_getD annotations,
    kept_getD range]
  rfl

private theorem rule_read {r : Rule} {levels : Nat} {json : Json} (laid : Layout.rule r json)
    (admitted : (Access.passing levels).Admits json)
    (taken : ∀ body, ("expression",body) ∈ json.members → Layout.MembersReadable body) :
    rule (.passing levels) json = .ok { r with body := r.body.unnumbered } := by
  let only (seen : List String) : RuleDraft :=
    ⟨kept seen "name" (some r.name),kept seen "expression" (some r.body.unnumbered),
      kept seen "annotations" (some r.annotations),kept seen "location" (some r.location)⟩
  obtain ⟨seen,run,given⟩ := record_kept ["name","expression","annotations","location"]
    ruleField {} only laid admitted rfl rfl (by
      simp only [List.forall_mem_cons,Layout.notes,Layout.range]
      refine ⟨?_,?_,?_,?_,by simp⟩
      all_goals intro inner value seen entered member holds admitted
      · simp [ruleField,text_read holds,only]
      · have body : exprAt inner value = .ok r.body.unnumbered := by
          obtain ⟨fewer,rfl⟩ := Access.enter_passing entered
          exact expr_read holds admitted (.inr (taken value member))
        simp [ruleField,body,only]
      · simp [ruleField,notes_read holds admitted,only]
      · simp [ruleField,location_read holds admitted,only])
  simp only [List.forall_mem_cons,or_false,Layout.notes,Layout.range] at given
  obtain ⟨name,body,annotations,range,-⟩ := given
  simp only [rule,run,ok_bind,only,kept_required name,kept_required body,kept_getD annotations,
    kept_getD range]
  rfl

private theorem grammar_read {g : Grammar} {single : Option Initializer} {levels : Nat} {json : Json}
    (laid : Layout.grammar g single json) (admitted : (Access.passing levels).Admits json)
    (taken : Layout.BodiesReadable json) :
    grammar (.passing levels) json =
      .ok { g.unnumbered with initializers := single.toList ++ g.initializers } := by
  let only (seen : List String) : GrammarDraft :=
    ⟨kept seen "initializers" (some g.initializers),kept seen "initializer" (some single),
      kept seen "rules" (some g.unnumbered.rules),kept seen "location" (some g.location)⟩
  obtain ⟨seen,run,given⟩ := record_kept ["initializers","initializer","rules","location"]
    grammarField {} only laid admitted rfl rfl (by
      simp only [List.forall_mem_cons,Layout.range]
      refine ⟨?_,?_,?_,?_,by simp⟩
      all_goals intro inner value seen entered member holds admitted
      · have read : listOf initializer inner value = .ok g.initializers :=
          listOf_read holds admitted fun _ _ _ laid admitted => initializer_read laid admitted
        simp [grammarField,read,only]
      · have read : nullable (initializer inner) value = .ok single :=
          nullable_read holds (fun _ laid => laid.solid rfl) fun _ laid => initializer_read laid admitted
        simp [grammarField,read,only]
      · have read : listOf rule inner value = .ok g.unnumbered.rules := by
          obtain ⟨levels,rfl⟩ := Access.enter_passing entered
          refine listOf_map _ holds admitted fun r _ access item listed into laid admitted => ?_
          obtain ⟨fewer,rfl⟩ := Access.enter_passing into
          exact rule_read laid admitted (taken value member item listed)
        simp [grammarField,read,only]
      · simp [grammarField,location_read holds admitted,only])
  simp only [List.forall_mem_cons,or_false,Layout.range] at given
  obtain ⟨initializers,legacy,rules,range,-⟩ := given
  simp only [grammar,run,ok_bind,only,kept_getD initializers,kept_getD legacy,kept_required rules,
    kept_getD range]
  rfl

end Decode

namespace Grammar

/-- The format loses nothing: a text of a valid grammar, with the members of every object in any order
and any others among them, is loaded as that grammar, a single initializer before the others, its nodes
numbered in the order of traversal. -/
theorem load_reads_back {g : Grammar} {single : Option Initializer} {json : Json} {source : String}
    (valid : g.Valid) (laid : Layout.grammar g single json) (written : Json.Written json source)
    (bounded : json.height ≤ 127) (readable : Layout.BodiesReadable json) :
    ∃ loaded, load source = .ok loaded ∧
      loaded.unnumbered = { g.unnumbered with initializers := single.toList ++ g.initializers } ∧
      loaded.nodes.map Expr.id = List.range loaded.nodeCount := by
  have parsed := Json.parse_written written
  let draft : Grammar := { g.unnumbered with initializers := single.toList ++ g.initializers }
  have read : Decode.grammar (.passing Decode.nestingLimit) json = .ok draft :=
    Decode.grammar_read laid bounded readable
  have kept : draft.numbered.unnumbered = draft := by
    rw [unnumbered_numbered]
    exact congrArg (fun h : Grammar => { h with initializers := single.toList ++ g.initializers })
      g.unnumbered_unnumbered
  have valid : draft.numbered.Valid := valid.renumbered (by rw [kept])
  have ids := draft.numbered_ids
  have count : draft.numbered.nodeCount = draft.nodeCount := by
    simpa [nodeCount] using congrArg List.length ids
  refine ⟨draft.numbered,?_,kept,?_⟩
  · have decoded : decode source = .ok draft.numbered := by
      simp only [decode,parsed,read]
      rfl
    simp only [load,decoded,valid.validate]
  · rw [ids,count]

section Samples

open Json Json.Spells

def oneRule : Grammar := { rules := [{ name := "a", body := .any {} }] }

private theorem oneRule_valid : oneRule.Valid where
  distinct := List.nodup_singleton "a"
  resolved := by simp [oneRule,nodes,Expr.nodes]

def extended (extra : Json) : Json :=
  .array [.object [("name",.string "a"),("expression",.object [("type",.string "any"),("x",extra)])]]

private theorem extended_laid (extra : Json) :
    Layout.list Layout.rule oneRule.rules (extended extra) := by
  have body : Layout.expr (.any {}) (.object [("type",.string "any"),("x",extra)]) := by
    refine ⟨_,rfl,?_⟩
    simp only [Layout.fields,Layout.range,List.forall_mem_cons]
    exact ⟨.inl ⟨_,rfl,rfl⟩,.inr ⟨rfl,rfl⟩,by simp⟩
  refine ⟨_,rfl,.cons ⟨_,rfl,?_⟩ .nil⟩
  simp only [Layout.notes,Layout.range,List.forall_mem_cons]
  exact ⟨.inl ⟨_,rfl,rfl⟩,.inl ⟨_,rfl,body⟩,.inr ⟨rfl,trivial⟩,.inr ⟨rfl,trivial⟩,by simp⟩

private theorem extended_spelled {extra : Json} {text : List Char} (spelled : Spells (.value extra) text) :
    Spells (.value (extended extra))
      ("[\x7b\"name\":\"a\",\"expression\":\x7b\"type\":\"any\",\"x\":".toList ++ text ++
        "\x7d\x7d]".toList) := by
  have name := Spells.string (spellsString_plain "a" rfl)
  have tag := Spells.string (spellsString_plain "any" rfl)
  have body := object (moreMembers "type" rfl tag (oneMember "x" rfl spelled))
  have rule := object (moreMembers "name" rfl name (oneMember "expression" rfl body))
  simpa [extended] using array (oneItem rule)

private theorem huge_spelled : Spells (.value .unreadable) "1e999".toList := by
  have spelled : SpellsNumeral ⟨false,[1],none,some (false,[9,9,9])⟩ "1e999".toList := by
    have one : SpellsDigits [1] ['1'] := ⟨by simp,List.all_eq_true.mp rfl,rfl⟩
    have nines : SpellsDigits [9,9,9] ['9','9','9'] := ⟨by simp,List.all_eq_true.mp rfl,rfl⟩
    refine ⟨['1'],[],['e','9','9','9'],one,by simp,rfl,?_,rfl⟩
    exact ⟨'e',[],['9','9','9'],.inl rfl,.inl rfl,rfl,nines⟩
  apply Spells.noNumber spelled
  simp [Numeral.value,Numeral.gather,Numeral.wholeNumber,Numeral.scale,Numeral.valueOf,Binary64.twoTo]

def shuffledSource : String :=
  "\x7b\"y\":1e999,\"rules\":[\x7b\"name\":\"a\",\"expression\":\x7b\"type\":\"any\",\"x\":[]\x7d\x7d]," ++
    "\"initializer\":\x7b\"code\":\"c\"\x7d\x7d"

/-- Unknown keys and a single initializer behind the rules. -/
theorem shuffledSource_loaded : ∃ loaded, load shuffledSource = .ok loaded ∧
    loaded.unnumbered = { oneRule.unnumbered with initializers := [{ code := "c" }] } ∧
    loaded.nodes.map Expr.id = List.range loaded.nodeCount := by
  have empty : Spells (.value (.array [])) ('[' :: [] ++ [']']) := emptyArray (by simp [Blank])
  have code := Spells.string (spellsString_plain "c" rfl)
  have single := oneMember "initializer" rfl (object (oneMember "code" rfl code))
  have whole := moreMembers "y" rfl huge_spelled (moreMembers "rules" rfl (extended_spelled empty) single)
  have laid : Layout.grammar oneRule (some { code := "c" })
      (.object [("y",.unreadable),("rules",extended (.array [])),
        ("initializer",.object [("code",.string "c")])]) := by
    refine ⟨_,rfl,?_⟩
    simp only [Layout.range,List.forall_mem_cons]
    refine ⟨.inr ⟨rfl,rfl⟩,.inl ⟨_,rfl,?_⟩,.inl ⟨_,rfl,extended_laid _⟩,.inr ⟨rfl,rfl⟩,by simp⟩
    refine ⟨_,rfl,?_⟩
    simp only [Layout.namespaceOf,Layout.notes,Layout.range,List.forall_mem_cons]
    exact ⟨.inl ⟨_,rfl,rfl⟩,.inr ⟨rfl,trivial⟩,.inr ⟨rfl,trivial⟩,.inr ⟨rfl,trivial⟩,by simp⟩
  refine load_reads_back oneRule_valid laid (written_plain (object whole)) (by decide) ?_
  intro rules given rule listed body inside key value member _
  obtain rfl : rules = extended (.array []) := by simpa [Json.members] using given
  obtain rfl : rule = _ := by simpa [extended,Json.items] using listed
  obtain rfl : body = _ := by simpa [Json.members] using inside
  have either : key = "type" ∧ value = .string "any" ∨ key = "x" ∧ value = .array [] := by
    simpa [Json.members] using member
  rcases either with ⟨-,rfl⟩ | ⟨-,rfl⟩ <;> rfl

def hugeSource : String :=
  "\x7b\"rules\":[\x7b\"name\":\"a\",\"expression\":\x7b\"type\":\"any\",\"x\":1e999\x7d\x7d]\x7d"

/-- The members of an expression are taken in before its kind is known, also under unknown keys. -/
theorem hugeSource_refused :
    oneRule.Valid ∧ Layout.grammar oneRule none (.object [("rules",extended .unreadable)]) ∧
      Written (.object [("rules",extended .unreadable)]) hugeSource ∧
      (Json.object [("rules",extended .unreadable)]).height ≤ 127 ∧
      load hugeSource = .error (.decode .malformed) := by
  have written : Written (.object [("rules",extended .unreadable)]) hugeSource :=
    written_plain (object (oneMember "rules" rfl (extended_spelled huge_spelled)))
  refine ⟨oneRule_valid,⟨_,rfl,?_⟩,written,by decide,?_⟩
  · simp only [Layout.range,List.forall_mem_cons]
    exact ⟨.inr ⟨rfl,rfl⟩,.inr ⟨rfl,trivial⟩,.inl ⟨_,rfl,extended_laid _⟩,.inr ⟨rfl,rfl⟩,by simp⟩
  · simp only [load,decode,parse_written written]
    rfl

end Samples

end Grammar

end PegCompiler
