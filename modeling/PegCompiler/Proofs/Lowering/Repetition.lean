import PegCompiler.Proofs.Lowering.Labels
import PegCompiler.Proofs.Lowering.Shape

/-! Repetitions. One turn of the loop matches one item more or leaves; from it follows, by
induction over the turns of a run and over the items of a derivation, that the loop collects what
the repetition means. -/
namespace PegCompiler.Semantics

open Lowering

variable {ω π : Type} {cfg : Setting} {c : Context ω π} {call : String → Parser ω π}
  {base depth : Nat} {scope : Scope} {code : List Instr} {body : Expr} {m u : Machine ω π}
  {labels : Labels ω} {max : Option Boundary} {most : Option Bound} {items : List (Datum ω)}

/-- The limit of a repetition in front of an item: the loop is left where it is reached. -/
theorem runs_limit {x : Exit} {rest : List Instr} (held : Represents cfg m scope labels)
    (bounded : max.map (boundIn scope) = most.map some)
    (list : m.values base = .matched (.list items)) :
    Runs c ((most.toList.map fun bound => Instr.brief (.atLeast base bound) .leave) ++ rest) m x u ↔
      ∃ limit, max.mapM ((c.runtime.meaning cfg).count labels) = some limit ∧
        ((Full limit items.length ∧ x = .left ∧ u = m) ∨
          (¬Full limit items.length ∧ Runs c rest m x u)) := by
  cases most with
  | none =>
    obtain rfl : max = none := by simpa using bounded
    simp [Full]
  | some bound =>
    obtain ⟨boundary,rfl,found⟩ :
        ∃ boundary, max = some boundary ∧ boundIn scope boundary = some bound := by
      simpa using bounded
    have test (answer : Bool) : TestIs c m (.atLeast base bound) answer ↔
        ∃ limit, (c.runtime.meaning cfg).count labels boundary = some limit ∧
          (answer = true ↔ limit ≤ items.length) := by
      simp [TestIs,list,bound_iff held found]
    simp only [Option.toList_some,List.map_cons,List.map_nil,List.singleton_append,runs_brief,
      runs_ifThen,runs_leave,test]
    have limited (limit : Option Int) :
        (some boundary).mapM ((c.runtime.meaning cfg).count labels) = some limit ↔
          ∃ n, (c.runtime.meaning cfg).count labels boundary = some n ∧ limit = some n := by
      simp [@eq_comm _ limit]
    simp only [limited]
    constructor
    · rintro (⟨⟨n,counted,full⟩,left⟩ | ⟨⟨n,counted,full⟩,inner⟩)
      · exact ⟨some n,⟨n,counted,rfl⟩,.inl ⟨⟨n,rfl,by simpa using full⟩,left⟩⟩
      · refine ⟨some n,⟨n,counted,rfl⟩,.inr ⟨?_,inner⟩⟩
        simpa [Full] using full
    · rintro ⟨_,⟨n,counted,rfl⟩,⟨⟨_,same,reached⟩,left⟩ | ⟨free,inner⟩⟩
      · obtain rfl := Option.some.inj same
        exact .inl ⟨⟨n,counted,by simpa using reached⟩,left⟩
      · refine .inr ⟨⟨n,counted,?_⟩,inner⟩
        simpa [Full] using free

inductive Turn (ends : Outcome ω → π → Prop) (limit : Option Int) (items : List (Datum ω))
    (p : π) : Exit → List (Datum ω) → π → Prop
  | full : Full limit items.length → Turn ends limit items p .left items p
  | stop {q} : ¬Full limit items.length → ends .failed q → Turn ends limit items p .left items p
  | more {d q} : ¬Full limit items.length → ends (.matched d) q →
      Turn ends limit items p .done (items ++ [d]) q

theorem turn_sound {x : Exit} (inner : Simulates cfg c call body (base + 1) depth scope code)
    (inPlace : ∀ labels, FailsInPlace (Eval (c.runtime.meaning cfg) call body labels))
    (held : Represents cfg m scope labels) (bounded : max.map (boundIn scope) = most.map some)
    (list : m.values base = .matched (.list items))
    (run : Runs c (loopBody base most code) m x u) :
    Frame base depth m u ∧ ∃ limit items',
      max.mapM ((c.runtime.meaning cfg).count labels) = some limit ∧
      u.values base = .matched (.list items') ∧
      Turn (Eval (c.runtime.meaning cfg) call body labels m.current) limit items m.current x
        items' u.current := by
  rw [loopBody,List.append_assoc,runs_limit held bounded list] at run
  obtain ⟨limit,limited,⟨full,rfl,rfl⟩ | ⟨free,run⟩⟩ := run
  · exact ⟨.refl _ _ _,limit,items,limited,list,.full full⟩
  rcases runs_append.mp run with ⟨-,left⟩ | ⟨v,first,behind⟩
  · obtain ⟨ended,-⟩ := (inner held).sound left
    cases ended
  obtain ⟨-,frame,ended⟩ := (inner held).sound first
  have kept : v.values base = .matched (.list items) := by
    rw [frame.values base (Nat.lt_succ_self base),list]
  rw [runs_brief,runs_ifFailed] at behind
  cases result : v.values (base + 1) with
  | failed =>
    rw [result] at ended behind
    obtain ⟨rfl,rfl⟩ := runs_leave.mp behind
    refine ⟨frame.mono (Nat.le_succ _) (Nat.le_refl _),limit,items,limited,kept,?_⟩
    rw [inPlace _ _ _ ended]
    exact .stop free ended
  | matched d =>
    rw [result] at ended behind
    obtain ⟨items',d',listed,found,behind⟩ := runs_append_step.mp behind
    obtain ⟨rfl,rfl⟩ := runs_nil.mp behind
    obtain rfl : items' = items := by simpa [kept] using listed.symm
    obtain rfl : d' = d := by simpa [result] using found.symm
    have frame' : Frame base depth v (v.setValue base (.matched (.list (items' ++ [d'])))) :=
      .setValue (Nat.le_refl base) _
    exact ⟨(frame.mono (Nat.le_succ _) (Nat.le_refl _)).trans frame',limit,_,limited,
      v.setValue_self base _,.more free ended⟩

private theorem turn_complete {x : Exit} {limit : Option Int} {items' : List (Datum ω)} {q : π}
    (inner : Simulates cfg c call body (base + 1) depth scope code)
    (inPlace : ∀ labels, FailsInPlace (Eval (c.runtime.meaning cfg) call body labels))
    (held : Represents cfg m scope labels) (bounded : max.map (boundIn scope) = most.map some)
    (list : m.values base = .matched (.list items))
    (limited : max.mapM ((c.runtime.meaning cfg).count labels) = some limit)
    (turn : Turn (Eval (c.runtime.meaning cfg) call body labels m.current) limit items m.current x
      items' q) :
    ∃ u, Runs c (loopBody base most code) m x u ∧ u.values base = .matched (.list items') ∧
      u.current = q := by
  simp only [loopBody,List.append_assoc,runs_limit held bounded list]
  cases turn with
  | full full => exact ⟨m,⟨limit,limited,.inl ⟨full,rfl,rfl⟩⟩,list,rfl⟩
  | stop free ended =>
    obtain ⟨y,v,first,result,rfl⟩ := (inner held).complete ended
    obtain ⟨rfl,frame,-⟩ := (inner held).sound first
    refine ⟨v,⟨limit,limited,.inr ⟨free,runs_append.mpr (.inr ⟨v,first,?_⟩)⟩⟩,?_,?_⟩
    · rw [runs_brief,runs_ifFailed,result]
      exact runs_leave.mpr ⟨rfl,rfl⟩
    · rw [frame.values base (Nat.lt_succ_self base),list]
    · exact inPlace _ _ _ ended
  | more free ended =>
    obtain ⟨y,v,first,result,rfl⟩ := (inner held).complete ended
    obtain ⟨rfl,frame,-⟩ := (inner held).sound first
    refine ⟨_,⟨limit,limited,.inr ⟨free,runs_append.mpr (.inr ⟨v,first,?_⟩)⟩⟩,
      v.setValue_self base _,rfl⟩
    rw [runs_brief,runs_ifFailed,result]
    refine runs_append_step.mpr ⟨items,_,?_,result,runs_nil.mpr ⟨rfl,rfl⟩⟩
    rw [frame.values base (Nat.lt_succ_self base),list]

private theorem loop_sound (inner : Simulates cfg c call body (base + 1) depth scope code)
    (inPlace : ∀ labels, FailsInPlace (Eval (c.runtime.meaning cfg) call body labels))
    (below : ScopeBelow scope base) (bounded : max.map (boundIn scope) = most.map some)
    (loop : Loop (Runs c (loopBody base most code)) m u) (held : Represents cfg m scope labels)
    (list : m.values base = .matched (.list items)) :
    Frame base depth m u ∧ ∃ limit ds,
      max.mapM ((c.runtime.meaning cfg).count labels) = some limit ∧
      u.values base = .matched (.list (items ++ ds)) ∧
      Repeat (c.runtime.meaning cfg) call body labels limit items.length m.current ds u.current := by
  induction loop generalizing items with
  | @leave m u run =>
    obtain ⟨frame,limit,_,limited,value,turn⟩ := turn_sound inner inPlace held bounded list run
    refine ⟨frame,limit,[],limited,?_⟩
    generalize u.current = q at turn ⊢
    cases turn with
    | full full => exact ⟨by rw [value,List.append_nil],.full full⟩
    | stop free ended => exact ⟨by rw [value,List.append_nil],.stop free ended⟩
  | again run _ ih =>
    obtain ⟨frame,limit,_,limited,value,turn⟩ := turn_sound inner inPlace held bounded list run
    cases turn with
    | more free ended =>
      obtain ⟨frame',limit',ds,limited',value',items'⟩ := ih (held.frame below frame) value
      obtain rfl := Option.some.inj (limited'.symm.trans limited)
      rw [List.length_append,List.length_singleton] at items'
      refine ⟨frame.trans frame',limit',_ :: ds,limited,?_,.more free ended items'⟩
      rw [value',List.append_assoc,List.singleton_append]

private theorem loop_complete {limit : Option Int} {ds : List (Datum ω)} {q : π}
    (inner : Simulates cfg c call body (base + 1) depth scope code)
    (inPlace : ∀ labels, FailsInPlace (Eval (c.runtime.meaning cfg) call body labels))
    (below : ScopeBelow scope base) (bounded : max.map (boundIn scope) = most.map some)
    (held : Represents cfg m scope labels) (list : m.values base = .matched (.list items))
    (limited : max.mapM ((c.runtime.meaning cfg).count labels) = some limit)
    (repeated : Repeat (c.runtime.meaning cfg) call body labels limit items.length m.current ds q) :
    ∃ u, Loop (Runs c (loopBody base most code)) m u ∧
      u.values base = .matched (.list (items ++ ds)) ∧ u.current = q := by
  induction ds generalizing m items with
  | nil =>
    have turn : Turn (Eval (c.runtime.meaning cfg) call body labels m.current) limit items m.current
        .left items q := by
      cases repeated with
      | full full => exact .full full
      | stop free ended => exact .stop free ended
    obtain ⟨u,run,value,position⟩ := turn_complete inner inPlace held bounded list limited turn
    exact ⟨u,.leave run,by rw [value,List.append_nil],position⟩
  | cons d ds ih =>
    cases repeated with
    | more free ended rest =>
      obtain ⟨u,run,value,rfl⟩ :=
        turn_complete inner inPlace held bounded list limited (.more free ended)
      have frame := (turn_sound inner inPlace held bounded list run).1
      obtain ⟨v,loop,value',position⟩ := ih (held.frame below frame) value
        (by rwa [List.length_append,List.length_singleton])
      refine ⟨v,.again run loop,?_,position⟩
      rw [value',List.append_assoc,List.singleton_append]

/-- The list in the first local and the loop around the items. -/
private theorem loop_meets (implements : c.methods.Implement c.runtime)
    (inner : Simulates cfg c call body (base + 1) depth scope code)
    (inPlace : ∀ labels, FailsInPlace (Eval (c.runtime.meaning cfg) call body labels))
    (below : ScopeBelow scope base) (bounded : max.map (boundIn scope) = most.map some)
    (held : Represents cfg m scope labels) :
    Meets c ToEnd base depth
      [.step (.assign base (.array [])),.block .range (loopBody base most code)] m
      fun o q => ∃ limit ds, max.mapM ((c.runtime.meaning cfg).count labels) = some limit ∧
        Repeat (c.runtime.meaning cfg) call body labels limit 0 m.current ds q ∧
        o = .matched (.list ds) := by
  let empty := m.setValue base (.matched (.list []))
  have list : empty.values base = .matched (.list []) := m.setValue_self base _
  have frame : Frame base depth m empty := .setValue (Nat.le_refl base) _
  refine .of_step (runs_assign_empty implements) frame ⟨fun run => ?_,?_⟩
  · obtain ⟨v,loop,ended⟩ := runs_loop.mp run
    obtain ⟨rfl,rfl⟩ := runs_nil.mp ended
    obtain ⟨frame',limit,ds,limited,value,repeated⟩ :=
      loop_sound inner inPlace below bounded loop (held.frame below frame) list
    exact ⟨rfl,frame',limit,ds,limited,repeated,value⟩
  · rintro o q ⟨limit,ds,limited,repeated,rfl⟩
    obtain ⟨v,loop,value,position⟩ :=
      loop_complete inner inPlace below bounded (held.frame below frame) list limited repeated
    exact ⟨.done,v,runs_loop.mpr ⟨v,loop,runs_nil.mpr ⟨rfl,rfl⟩⟩,value,position⟩

private def Counted (μ : Meaning ω π) (labels : Labels ω) (min : Boundary) (start : π)
    (o : Outcome ω) (q : π) (o' : Outcome ω) (q' : π) : Prop :=
  ∃ ds n, o = .matched (.list ds) ∧ μ.count labels min = some n ∧
    ((n ≤ ds.length ∧ o' = o ∧ q' = q) ∨ ((ds.length : Int) < n ∧ o' = .failed ∧ q' = start))

/-- A repetition that can fail but does not go back needs one item. -/
private theorem one_of_noRollback {μ : Meaning ω π} {min : Boundary} {n : Int}
    (failing : canFail min = true) (stays : needsRollback min = false)
    (counted : μ.count labels min = some n) : n = 1 := by
  cases min with
  | label name => simp [needsRollback] at stays
  | count k =>
    simp only [canFail,needsRollback,decide_eq_true_eq,decide_eq_false_iff_not,
      UInt32.lt_iff_toNat_lt] at failing stays
    simp only [Meaning.count,Option.ite_none_right_eq_some,Option.some.injEq] at counted
    have one : UInt32.toNat 1 = 1 := rfl
    have zero : UInt32.toNat 0 = 0 := rfl
    omega

private theorem count_of_cannotFail {μ : Meaning ω π} {min : Boundary}
    (safe : canFail min = false) : μ.count labels min = some 0 := by
  cases min with
  | label name => simp [canFail] at safe
  | count k =>
    simp only [canFail,decide_eq_false_iff_not,UInt32.lt_iff_toNat_lt] at safe
    have zero : UInt32.toNat 0 = 0 := rfl
    have none : k.toNat = 0 := by omega
    rw [Meaning.count,none]
    exact if_pos (Nat.zero_le _)

private theorem shortage_meets {min : Boundary} {least : Bound} {start : π}
    (held : Represents cfg u scope labels) (lower : boundIn scope min = some least)
    (list : u.values base = .matched (.list items))
    (saved : needsRollback min = true → u.positions depth = start)
    (atStart : items = [] → u.current = start) :
    Meets c ToEnd base depth (shortage min base depth least) u
      (Counted (c.runtime.meaning cfg) labels min start (.matched (.list items)) u.current) := by
  cases failing : canFail min with
  | false =>
    rw [shortage,failing]
    refine Meets.nil.congr fun o q => ?_
    rw [list]
    constructor
    · rintro ⟨rfl,rfl⟩
      exact ⟨items,0,rfl,count_of_cannotFail failing,.inl ⟨by omega,rfl,rfl⟩⟩
    · rintro ⟨ds,n,-,counted,⟨-,same⟩ | ⟨short,-⟩⟩
      · exact same
      · obtain rfl := Option.some.inj ((count_of_cannotFail failing).symm.trans counted)
        omega
  | true =>
    have test (answer : Bool) : TestIs c u (.fewer base least) answer ↔
        ∃ n, (c.runtime.meaning cfg).count labels min = some n ∧
          (answer = true ↔ (items.length : Int) < n) := by
      simp [TestIs,list,bound_iff held lower]
    have undo : Meets c ToEnd base depth (undone min depth ++ [.step (.assign base .failed)] ++ []) u
        fun o q => o = .failed ∧ q = if needsRollback min then start else u.current := by
      rw [List.append_nil,undone]
      cases rollback : needsRollback min with
      | true =>
        refine .restore ?_
        rw [saved rollback]
        exact .assign_only fun _ _ => Iff.rfl
      | false => exact .assign_only fun _ _ => Iff.rfl
    rw [shortage,failing,if_pos rfl]
    refine Meets.congr (.ifThen undo .nil) fun o q => ?_
    simp only [test,list,true_iff,Bool.false_eq_true,false_iff,Int.not_lt]
    have back {n : Int} (counted : (c.runtime.meaning cfg).count labels min = some n)
        (short : (items.length : Int) < n) :
        (if needsRollback min then start else u.current) = start := by
      cases rollback : needsRollback min with
      | true => rfl
      | false =>
        obtain rfl := one_of_noRollback failing rollback counted
        exact atStart (List.length_eq_zero_iff.mp (by omega))
    constructor
    · rintro (⟨⟨n,counted,short⟩,rfl,rfl⟩ | ⟨⟨n,counted,enough⟩,same⟩)
      · exact ⟨items,n,rfl,counted,.inr ⟨short,rfl,back counted short⟩⟩
      · exact ⟨items,n,rfl,counted,.inl ⟨enough,same⟩⟩
    · rintro ⟨ds,n,listed,counted,⟨enough,same⟩ | ⟨short,rfl,rfl⟩⟩
      all_goals obtain rfl : items = ds := by simpa using listed
      · exact .inr ⟨⟨n,counted,enough⟩,same⟩
      · exact .inl ⟨⟨n,counted,short⟩,rfl,(back counted short).symm⟩

/-- Behind the loop: enough items make a list, too few a failure. -/
private theorem eval_repeated_iff {site : Site} {repetition : Repetition} {p q : π}
    {o : Outcome ω} {μ : Meaning ω π} :
    (∃ o' q', (∃ limit ds, repetition.max.mapM (μ.count labels) = some limit ∧
        Repeat μ call body labels limit 0 p ds q' ∧ o' = .matched (.list ds)) ∧
      Counted μ labels repetition.min p o' q' o q) ↔
      Eval μ call (.repeated site repetition body) labels p o q := by
  constructor
  · rintro ⟨_,q',⟨limit,ds,limited,items,rfl⟩,ds',n,listed,counted,following⟩
    obtain rfl : ds = ds' := by simpa using listed
    rcases following with ⟨enough,rfl,rfl⟩ | ⟨short,rfl,rfl⟩
    · exact .repeated_matched counted limited items enough
    · exact .repeated_failed counted limited items short
  · intro ended
    cases ended with
    | repeated_matched counted limited items enough =>
      exact ⟨_,_,⟨_,_,limited,items,rfl⟩,_,_,rfl,counted,.inl ⟨enough,rfl,rfl⟩⟩
    | repeated_failed counted limited items short =>
      exact ⟨_,_,⟨_,_,limited,items,rfl⟩,_,_,rfl,counted,.inr ⟨short,rfl,rfl⟩⟩

private theorem repeat_nil {μ : Meaning ω π} {limit : Option Int} {count : Nat} {p q : π}
    (none : Repeat μ call body labels limit count p [] q) : q = p := by
  cases none <;> rfl

theorem repeated_simulates (implements : c.methods.Implement c.runtime) {site : Site}
    {repetition : Repetition} {least : Bound}
    (lower : boundIn scope repetition.min = some least)
    (upper : repetition.max.map (boundIn scope) = most.map some)
    (inner : Simulates cfg c call body (base + 1)
      (if needsRollback repetition.min then depth + 1 else depth) scope code)
    (inPlace : ∀ labels, FailsInPlace (Eval (c.runtime.meaning cfg) call body labels))
    (below : ScopeBelow scope base) :
    Simulates cfg c call (.repeated site repetition body) base depth scope
      ((if needsRollback repetition.min then [.step (.save depth)] else []) ++
        [.step (.assign base (.array [])),.block .range (loopBody base most code)] ++
        shortage repetition.min base depth least) := by
  intro m labels held
  rw [List.append_assoc]
  cases rollback : needsRollback repetition.min with
  | true =>
    rw [rollback,if_pos rfl] at inner
    rw [if_pos rfl,List.singleton_append]
    have held' : Represents cfg (m.savePosition depth) scope labels := held.of_values fun _ _ => rfl
    refine .save (.append (Counted (c.runtime.meaning cfg) labels repetition.min m.current)
      (loop_meets implements inner inPlace below upper held') (Nat.le_refl _) (Nat.le_succ _)
      (fun u frame ended => ?_) fun o q => eval_repeated_iff)
    obtain ⟨limit,ds,-,items,list⟩ := ended
    rw [list]
    refine shortage_meets (held'.frame below frame) lower list (fun _ => ?_) ?_
    · rw [frame.positions depth (Nat.lt_succ_self depth),Machine.savePosition_self]
    · rintro rfl
      exact repeat_nil items
  | false =>
    rw [rollback,if_neg Bool.false_ne_true] at inner
    rw [if_neg Bool.false_ne_true,List.nil_append]
    refine .append (Counted (c.runtime.meaning cfg) labels repetition.min m.current)
      (loop_meets implements inner inPlace below upper held) (Nat.le_refl _) (Nat.le_refl _)
      (fun u frame ended => ?_) fun o q => eval_repeated_iff
    obtain ⟨limit,ds,-,items,list⟩ := ended
    rw [list]
    refine shortage_meets (held.frame below frame) lower list (fun needed => ?_) ?_
    · exact nomatch rollback.symm.trans needed
    · rintro rfl
      exact repeat_nil items

end PegCompiler.Semantics
