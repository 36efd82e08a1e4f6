import PegCompiler.Proofs.Lowering.Framing
import PegCompiler.Proofs.Lowering.Preservation
import PegCompiler.Proofs.Semantics.Silence

/-! Where control goes in emitted code. The code of an expression is woven of instructions of its
own and of the code of its parts. A `leave` among its own instructions stands in the block that the
expression itself puts around its parts, and in no block inside that one; so emitted code always
runs to its end, and every silence that begins in it ends in it. -/
namespace PegCompiler

open Instr

namespace Expr

def block? : Expr → Option BlockKind
  | .choice .. => some .choice
  | .sequence .. => some .sequence
  | .repeated .. => some .range
  | _ => none

def silences : Expr → Bool
  | .named .. => true
  | .lookahead .. => true
  | _ => false

end Expr

namespace Lowering

/-- `code` consists of the instructions `own` with the codes `parts` in between, in order. Parts may
stand inside blocks of `own`, but inside no other instruction. -/
inductive Woven : (own : List Instr) → (parts : List (List Instr)) → (code : List Instr) → Prop
  | nil : Woven [] [] []
  | own {own parts code} (instr : Instr) : Woven own parts code →
      Woven (instr :: own) parts (instr :: code)
  | part {own parts code} (part : List Instr) : Woven own parts code →
      Woven own (part :: parts) (part ++ code)
  | block {inner within body own parts code} (kind : BlockKind) : Woven inner within body →
      Woven own parts code →
      Woven (.block kind inner :: own) (within ++ parts) (.block kind body :: code)

namespace Woven

variable {own own' : List Instr} {parts parts' : List (List Instr)} {code code' : List Instr}

theorem append (first : Woven own parts code) (second : Woven own' parts' code') :
    Woven (own ++ own') (parts ++ parts') (code ++ code') := by
  induction first with
  | nil => exact second
  | own instr _ ih => exact .own instr ih
  | part part _ ih =>
    rw [List.append_assoc]
    exact .part part ih
  | block kind inside _ _ ih =>
    rw [List.append_assoc]
    exact .block kind inside ih

theorem of_own (own : List Instr) : Woven own [] own := by
  induction own with
  | nil => exact .nil
  | cons instr rest ih => exact .own instr ih

theorem around (front part back : List Instr) :
    Woven (front ++ back) [part] (front ++ part ++ back) := by
  rw [List.append_assoc]
  exact (of_own front).append (.part part (of_own back))

/-- Code is left early only by an instruction of its own or by a part. -/
theorem escapes (woven : Woven own parts code) (kept : escapesAll own = false)
    (parts_kept : ∀ part ∈ parts, escapesAll part = false) : escapesAll code = false := by
  induction woven with
  | nil => rfl
  | own instr _ ih =>
    obtain ⟨first,others⟩ : instr.escapes = false ∧ escapesAll _ = false := by simpa using kept
    simp [first,ih others parts_kept]
  | part part _ ih =>
    have rest := ih kept fun other member => parts_kept other (List.mem_cons_of_mem _ member)
    simp [parts_kept part List.mem_cons_self,rest]
  | block kind _ _ _ ih =>
    have rest := ih (by simpa using kept) fun other member =>
      parts_kept other (List.mem_append_right _ member)
    simp [rest]

open Semantics in
/-- Code is calm if its parts are and its own instructions leave silence alone. -/
theorem calm {ω π : Type} {c : Context ω π} (keeps : c.KeepsSilence)
    (woven : Woven own parts code) (quiet : hushesAll own = false)
    (parts_calm : ∀ part ∈ parts, Calm c part) : Calm c code := by
  induction woven with
  | nil => exact .of_quiet keeps rfl
  | @own _ _ code instr _ ih =>
    obtain ⟨first,others⟩ : instr.hushes = false ∧ hushesAll _ = false := by simpa using quiet
    have single : Calm c [instr] := .of_quiet keeps (by simpa using first)
    exact single.append (ih others parts_calm)
  | part part _ ih =>
    exact (parts_calm part List.mem_cons_self).append
      (ih quiet fun other member => parts_calm other (List.mem_cons_of_mem _ member))
  | block kind _ _ inside behind =>
    obtain ⟨first,others⟩ : hushesAll _ = false ∧ hushesAll _ = false := by simpa using quiet
    have body := inside first fun other member => parts_calm other (List.mem_append_left _ member)
    exact (body.block kind).append
      (behind others fun other member => parts_calm other (List.mem_append_right _ member))

end Woven

/-- Where the `leave`s among the own instructions of an expression stand: each in a block among
these instructions, which is of the kind that the expression puts around its parts, and holds no
block. -/
structure LeavesOwn (kind : Option BlockKind) (own : List Instr) : Prop where
  kept : escapesAll own = false
  blocks : ∀ block ∈ blocksAll own, kind = some block.1 ∧ blocksAll block.2 = []

/-- The code of an expression, in which every `leave` stands in the block of the node that it
belongs to, with no other block in between. -/
inductive Contained : Expr → List Instr → Prop
  | node {e own parts code} : Woven own parts code → List.Forall₂ Contained e.children parts →
      LeavesOwn e.block? own → Contained e code

/-- What holds of the codes of all children holds of all parts. -/
private theorem forall_parts {R : Expr → List Instr → Prop} {P : List Instr → Prop}
    {children : List Expr} {parts : List (List Instr)} (related : List.Forall₂ R children parts)
    (all : ∀ child ∈ children, ∀ part, R child part → P part) : ∀ part ∈ parts, P part := by
  induction related with
  | nil => simp
  | cons head _ ih =>
    rw [List.forall_mem_cons] at all ⊢
    exact ⟨all.1 _ head,ih all.2⟩

theorem Contained.escapes {e : Expr} {code : List Instr} (contained : Contained e code) :
    escapesAll code = false := by
  induction e using Expr.children_induction generalizing code with
  | parts e ih =>
    obtain ⟨woven,parts,leaves⟩ := contained
    exact woven.escapes leaves.kept (forall_parts parts fun child member _ => ih child member)

/-! Emitted code is woven of own instructions and the emitted code of the parts. -/

section Weaving

variable {cfg : Setting} {final : Registries} {base depth : Nat} {scope scope' : Scope}
  {caller : Option (Site × Action)} {e : Expr} {code : List Instr}

def Emitted (cfg : Setting) (final : Registries) (e : Expr) (code : List Instr) : Prop :=
  ∃ base depth caller scope scope', Emits cfg final e base depth caller scope code scope'

theorem Emits.emitted (emits : Emits cfg final e base depth caller scope code scope') :
    Emitted cfg final e code :=
  ⟨_,_,_,_,_,emits⟩

def Weaves (cfg : Setting) (final : Registries) (e : Expr) (code : List Instr) : Prop :=
  ∃ own parts, Woven own parts code ∧ List.Forall₂ (Emitted cfg final) e.children parts ∧
    LeavesOwn e.block? own ∧ (e.silences = false → hushesAll own = false)

private theorem LeavesOwn.of_plain {kind : Option BlockKind} {own : List Instr}
    (kept : escapesAll own = false) (plain : blocksAll own = []) : LeavesOwn kind own :=
  ⟨kept,by simp [plain]⟩

/-- The code of one part with instructions around it that have no blocks. -/
private theorem Weaves.around {body : Expr} {inner : List Instr} (front back : List Instr)
    (emitted : Emitted cfg final body inner) (children : e.children = [body])
    (kept : escapesAll (front ++ back) = false) (plain : blocksAll (front ++ back) = [])
    (quiet : e.silences = false → hushesAll (front ++ back) = false) :
    Weaves cfg final e (front ++ inner ++ back) :=
  ⟨_,_,.around front inner back,children ▸ .cons emitted .nil,.of_plain kept plain,quiet⟩

private theorem Weaves.same {body : Expr} (emitted : Emitted cfg final body code)
    (children : e.children = [body]) : Weaves cfg final e code := by
  have whole : Weaves cfg final e ([] ++ code ++ []) :=
    .around [] [] emitted children rfl rfl fun _ => rfl
  rwa [List.append_nil] at whole

private theorem Weaves.leaf (children : e.children = []) (kept : escapesAll code = false)
    (plain : blocksAll code = []) (quiet : hushesAll code = false) : Weaves cfg final e code :=
  ⟨_,_,.of_own code,children ▸ .nil,.of_plain kept plain,fun _ => quiet⟩

private def WeavesAll (cfg : Setting) (final : Registries) (es : List Expr) (code : List Instr) :
    Prop :=
  ∃ own parts, Woven own parts code ∧ List.Forall₂ (Emitted cfg final) es parts ∧
    blocksAll own = [] ∧ hushesAll own = false

private theorem WeavesAll.cons {es : List Expr} {first rest : List Instr} (front back : List Instr)
    (emitted : Emitted cfg final e first) (others : WeavesAll cfg final es rest)
    (plain : blocksAll (front ++ back) = []) (quiet : hushesAll (front ++ back) = false) :
    WeavesAll cfg final (e :: es) (front ++ first ++ back ++ rest) := by
  obtain ⟨own,parts,woven,related,plain',quiet'⟩ := others
  refine ⟨_,_,(Woven.around front first back).append woven,.cons emitted related,?_,?_⟩
  · rw [blocksAll_append,plain,plain',List.nil_append]
  · rw [hushesAll_append,quiet,quiet',Bool.or_self]

private theorem alternatives_weave {alternatives : List Expr} {n : Nat}
    (emitted : EmitsAlternatives cfg final alternatives base depth n scope code) :
    WeavesAll cfg final alternatives code := by
  induction alternatives generalizing n code with
  | nil => cases emitted
  | cons e rest ih =>
    cases emitted with
    | @last _ _ _ _ _ code _ first =>
      have alone := WeavesAll.cons [.alternative n] [] first.emitted ⟨[],[],.nil,.nil,rfl,rfl⟩
        rfl rfl
      rwa [List.append_nil,List.append_nil] at alone
    | cons _ first others =>
      exact .cons [.alternative n] [.brief (.matched base) .leave,.blank] first.emitted
        (ih others) rfl rfl

private theorem abandoned_plain (base depth index : Nat) :
    blocksAll (abandoned base depth index) = [] ∧
    hushesAll (abandoned base depth index) = false := by
  unfold abandoned
  split <;> exact ⟨rfl,rfl⟩

private theorem elements_weave {elements : List Expr} {index : Nat}
    (emitted : EmitsElements cfg final elements base depth index scope code scope') :
    WeavesAll cfg final elements code := by
  induction elements generalizing index scope code with
  | nil =>
    cases emitted
    exact ⟨[],[],.nil,.nil,rfl,rfl⟩
  | cons e rest ih =>
    cases emitted with
    | cons first others =>
      obtain ⟨plain,quiet⟩ := abandoned_plain base depth index
      exact .cons [.element (index + 1)]
        [.ifThen (.failed (base + index)) (abandoned base depth index),.blank]
        first.emitted (ih others) (by simp [plain]) (by simp [quiet])

private theorem Closes.plain {count : Nat}
    (closes : Closes cfg final base depth count scope caller code) :
    escapesAll code = false ∧ blocksAll code = [] ∧ hushesAll code = false := by
  cases closes <;> exact ⟨rfl,rfl,rfl⟩

private theorem shortage_plain (min : Boundary) (base depth : Nat) (least : Bound) :
    escapesAll (shortage min base depth least) = false ∧
      blocksAll (shortage min base depth least) = [] ∧
      hushesAll (shortage min base depth least) = false := by
  unfold shortage undone
  split_ifs <;> exact ⟨rfl,rfl,rfl⟩

private theorem limits_plain (base : Nat) (most : Option Bound) :
    blocksAll (most.toList.map fun bound => .brief (.atLeast base bound) .leave) = [] ∧
      hushesAll (most.toList.map fun bound => .brief (.atLeast base bound) .leave) = false := by
  cases most <;> exact ⟨rfl,rfl⟩

theorem emits_weaves (emitted : Emits cfg final e base depth caller scope code scope') :
    Weaves cfg final e code := by
  cases emitted with
  | named _ inner =>
    exact .around [.step .silence,.blank] _ inner.emitted rfl rfl rfl nofun
  | choice_empty => exact .leaf rfl rfl rfl rfl
  | choice _ alternatives =>
    obtain ⟨own,parts,woven,related,plain,quiet⟩ := alternatives_weave alternatives
    refine ⟨_,_,.block .choice woven .nil,?_,⟨rfl,?_⟩,?_⟩
    · rwa [List.append_nil]
    · simp [Expr.block?,plain]
    · simp [quiet]
  | action_sequence inner => exact .same inner.emitted rfl
  | action _ inner _ =>
    exact .around [.step (.save depth),.blank] _ inner.emitted rfl rfl rfl fun _ => rfl
  | sequence_empty closes =>
    obtain ⟨kept,plain,quiet⟩ := closes.plain
    refine .leaf rfl ?_ ?_ ?_ <;> cases caller <;> simp [kept,plain,quiet]
  | sequence _ elements closes =>
    obtain ⟨own,parts,woven,related,plain,quiet⟩ := elements_weave elements
    obtain ⟨-,plain',quiet'⟩ := closes.plain
    refine ⟨_,_,.own (.step (.save depth)) (.block .sequence (woven.append (.of_own _)) .nil),
      ?_,⟨rfl,?_⟩,?_⟩
    · rwa [List.append_nil,List.append_nil]
    · simp [Expr.block?,plain,plain']
    · simp [quiet,quiet']
  | labeled _ inner => exact .same inner.emitted rfl
  | text inner => exact .around [.step (.save depth)] _ inner.emitted rfl rfl rfl fun _ => rfl
  | optional inner => exact .around [] _ inner.emitted rfl rfl rfl fun _ => rfl
  | @repeated _ repetition _ _ _ _ _ code _ least most _ _ inner =>
    obtain ⟨kept,plain,quiet⟩ := shortage_plain repetition.min base depth least
    have loop := Woven.around
      (most.toList.map fun bound => .brief (.atLeast base bound) .leave) code
      [.brief (.failed (base + 1)) .leave,.step (.append base (base + 1))]
    rw [List.append_assoc]
    refine ⟨_,_,(Woven.of_own _).append (.own (.step (.assign base (.array [])))
      (.block .range loop (.of_own _))),.cons inner.emitted .nil,⟨?_,?_⟩,fun _ => ?_⟩
    · split <;> simp [kept]
    · split <;> simp [Expr.block?,plain,limits_plain]
    · split <;> simp [quiet,limits_plain]
  | @lookahead _ isNegative _ _ _ _ _ code _ inner =>
    rw [List.append_assoc]
    refine .around [.step (.save depth),.step .silence] _ inner.emitted rfl ?_ ?_ nofun <;>
      cases isNegative <;> rfl
  | predicate _ => exact .leaf rfl rfl rfl rfl
  | ruleRef => exact .leaf rfl rfl rfl rfl
  | literal _ => exact .leaf rfl rfl rfl rfl
  | charClass _ _ => exact .leaf rfl rfl rfl rfl
  | any => exact .leaf rfl rfl rfl rfl

theorem Emitted.contained (emitted : Emitted cfg final e code) : Contained e code := by
  induction e using Expr.children_induction generalizing code with
  | parts e ih =>
    obtain ⟨_,_,_,_,_,emits⟩ := emitted
    obtain ⟨own,parts,woven,related,leaves,-⟩ := emits_weaves emits
    have known : List.Forall₂ (fun child part =>
        (∀ code, Emitted cfg final child code → Contained child code) ∧
          Emitted cfg final child part) e.children parts :=
      (List.forall₂_and_left _ _).mpr ⟨fun child member code => ih child member,related⟩
    exact .node woven (known.imp fun _ part both => both.1 part both.2) leaves

end Weaving

/-! Silence is balanced. -/

section Balance

open Semantics

variable {cfg : Setting} {final : Registries} {e : Expr} {code : List Instr} {ω π : Type}
  {c : Context ω π}

def hushed (inner : List Instr) : List Instr :=
  [.step .silence,.blank] ++ inner ++ [.blank,.step .unsilence]

def namedFailure (base expected : Nat) : Instr :=
  .ifThen (.failed base) [.step (.assign base (.reportFailure expected))]

theorem named_shape {site : Site} {name : String} {body : Expr} {base depth : Nat}
    {caller : Option (Site × Action)} {scope scope' : Scope}
    (emits : Emits cfg final (.named site name body) base depth caller scope code scope') :
    ∃ inner expected, Emitted cfg final body inner ∧
      code = hushed inner ++ [namedFailure base expected] := by
  cases emits with
  | @named _ _ _ _ _ _ _ inner _ expected _ part =>
    exact ⟨inner,expected,part.emitted,by simp [hushed,namedFailure]⟩

theorem hushed_escapes {inner : List Instr} (kept : escapesAll inner = false) :
    escapesAll (hushed inner) = false := by
  simp [hushed,kept]

theorem hushed_calm (keeps : c.KeepsSilence) {inner : List Instr} (calm : Calm c inner)
    (kept : escapesAll inner = false) : Calm c (hushed inner) := by
  have blank : Calm c [.blank] := .of_quiet keeps rfl
  have spaced : Calm c (.blank :: inner ++ [.blank]) := (blank.append calm).append blank
  have whole := spaced.silenced (by simp [kept])
  simpa [hushed] using whole

/-- Emitted code leaves the depth of silence as it was, if the rules that it calls do. -/
theorem Emitted.calm (keeps : c.KeepsSilence) (emitted : Emitted cfg final e code) :
    Calm c code := by
  induction e using Expr.children_induction generalizing code with
  | parts e ih =>
    obtain ⟨base,depth,_,_,_,emits⟩ := emitted
    obtain ⟨own,parts,woven,related,-,quiet⟩ := emits_weaves emits
    cases silences : e.silences with
    | false =>
      exact woven.calm keeps (quiet silences)
        (forall_parts related fun child member _ => ih child member)
    | true =>
      -- the own instructions do change silence here, but in pairs around a part that runs to its end
      cases e with
      | named site name body =>
        obtain ⟨inner,expected,part,rfl⟩ := named_shape emits
        have calm := ih body List.mem_cons_self part
        have failure : Calm c [namedFailure base expected] := .of_quiet keeps rfl
        exact (hushed_calm keeps calm part.contained.escapes).append failure
      | lookahead site isNegative body =>
        cases emits with
        | lookahead inner =>
          have part := inner.emitted
          have saved : Calm c [.step (.save depth)] := .of_quiet keeps rfl
          have ahead := (ih body List.mem_cons_self part).silenced part.contained.escapes
          have turned : Calm c (.step (.restore depth) :: negated isNegative base) :=
            .of_quiet keeps (by cases isNegative <;> rfl)
          have whole := (saved.append ahead).append turned
          simpa using whole
      | _ => exact nomatch silences

theorem lowered_keepSilence (rt : Runtime ω π) {methods : Methods ω π}
    (keep : methods.KeepSilence) (registries : Registries) {subs : List Subroutine}
    (lowered : ∀ sub ∈ subs, ∃ cfg rule isStart before after,
      lowerRule cfg rule isStart before = (.ok sub,after)) :
    KeepsSilence (Semantics.calls rt methods registries (subs.map Subroutine.routine)) := by
  refine calls_keepSilence rt registries (List.forall_mem_map.mpr fun sub member call keeps => ?_)
  obtain ⟨cfg,rule,isStart,before,after,run⟩ := lowered sub member
  have own : Lowered cfg after rule sub := ⟨isStart,before,after,run,.refl after⟩
  obtain ⟨-,scope,emits⟩ := own.emits
  exact emits.emitted.calm ⟨keeps,keep⟩

/-- Every run of code with code in front that is not left early passes between the two. -/
private theorem runs_behind {front back : List Instr} (calm : Calm c front)
    (kept : escapesAll front = false) {m m' : Machine ω π} {x : Exit}
    (run : Runs c (front ++ back) m x m') :
    ∃ u, Runs c front m .done u ∧ u.silent = m.silent ∧ Runs c back u x m' := by
  rcases runs_append.mp run with ⟨-,left⟩ | ⟨u,inner,behind⟩
  · cases runs_done front kept left
  · exact ⟨u,inner,calm _ _ _ inner,behind⟩

end Balance

open Semantics in
/-- Control flow is contained and silence is balanced, for every expression that is lowered. No
`leave` of the code leaves the code: each stands in the block of the choice, sequence or repetition
that it belongs to, with no other block in between. However the code runs, whatever matches and
whatever rules it calls, it runs to its end, and the depth of silence is then what it was. A named
expression reports its failure, if at all, behind its silenced body, and silence is then as deep as
where the expression was entered. -/
theorem leaves_contained_silence_balanced (cfg : Setting) {e : Expr} {base : Nat}
    {caller : Option (Site × Action)} {scope scope' : Scope} {s t : State} {code : List Instr}
    (ok : Yields (lower cfg e base caller scope) s (code,scope') t) :
    Contained e code ∧ escapesAll code = false ∧
    ∀ {ω π : Type} (rt : Runtime ω π) (methods : Methods ω π) (registries : Registries)
        (subs : List Subroutine), methods.KeepSilence →
      (∀ sub ∈ subs, ∃ cfg rule isStart before after,
        lowerRule cfg rule isStart before = (.ok sub,after)) →
      let c : Context ω π := ⟨rt,methods,registries,
        Semantics.calls rt methods registries (subs.map Subroutine.routine)⟩
      (∀ m x m', Runs c code m x m' → x = .done ∧ m'.silent = m.silent) ∧
      ∀ site name body, e = .named site name body → ∃ inner expected, Contained body inner ∧
        code = hushed inner ++ [namedFailure base expected] ∧
        ∀ m x m', Runs c code m x m' → ∃ u, Runs c (hushed inner) m .done u ∧
          u.silent = m.silent ∧ Runs c [namedFailure base expected] u x m' := by
  have emits := lower_emits cfg e ok (lower_at_base ok) (.refl _)
  have emitted := emits.emitted
  have contained := emitted.contained
  refine ⟨contained,contained.escapes,fun rt methods registries subs keep lowered => ?_⟩
  intro c
  have keeps : c.KeepsSilence := ⟨lowered_keepSilence rt keep registries lowered,keep⟩
  refine ⟨fun m x m' run => ?_,?_⟩
  · exact ⟨runs_done code contained.escapes run,emitted.calm keeps _ _ _ run⟩
  · rintro site name body rfl
    obtain ⟨inner,expected,part,rfl⟩ := named_shape emits
    have kept := part.contained.escapes
    refine ⟨inner,expected,part.contained,rfl,fun m x m' run => ?_⟩
    exact runs_behind (hushed_calm keeps (part.calm keeps) kept) (hushed_escapes kept) run

def namedChains : Expr :=
  .named {} "chains" (.sequence {} [.repeated {} .oneOrMore (.ruleRef {} "chain"),
    .lookahead {} true (.any {})])

open Semantics in
/-- Its code has blocks in a block and a silence in a silence, and calls a rule with blocks. -/
theorem namedChains_balanced : ∃ code scope' t sub after inner expected,
    Yields (lower countedSetting namedChains 2 none []) countedState (code,scope') t ∧
    lowerRule countedSetting chainRule true countedState.registries = (.ok sub,after) ∧
    escapesAll code = false ∧ Contained namedChains code ∧
    code = hushed inner ++ [namedFailure 2 expected] ∧
    ∀ m x m', Runs ⟨inputRuntime ['b','b'],(inputRuntime ['b','b']).methods,after,
        Semantics.calls (inputRuntime ['b','b']) (inputRuntime ['b','b']).methods after
          [sub.routine]⟩ code m x m' → x = .done ∧ m'.silent = m.silent := by
  have lowers : (outcome (lower countedSetting namedChains 2 none [])
      countedState).1.toOption.isSome = true := by decide +kernel
  have called : (lowerRule countedSetting chainRule true
      countedState.registries).1.toOption.isSome = true := by decide +kernel
  cases run : (outcome (lower countedSetting namedChains 2 none []) countedState).1 with
  | error _ =>
    rw [run] at lowers
    exact nomatch lowers
  | ok found =>
    cases rule : lowerRule countedSetting chainRule true countedState.registries with
    | mk result after =>
      rw [rule] at called
      cases result with
      | error _ => exact nomatch called
      | ok sub =>
        have ok := Yields.of_fst run
        obtain ⟨contained,kept,runs⟩ := leaves_contained_silence_balanced countedSetting ok
        let rt := inputRuntime ['b','b']
        obtain ⟨balanced,named⟩ := runs rt rt.methods after [sub] rt.methods_implement.keepSilence
          (List.forall_mem_singleton.mpr ⟨_,_,_,_,_,rule⟩)
        obtain ⟨inner,expected,-,shape,-⟩ := named _ _ _ rfl
        exact ⟨found.1,found.2,_,sub,after,inner,expected,ok,rfl,kept,contained,shape,balanced⟩

end Lowering

end PegCompiler
