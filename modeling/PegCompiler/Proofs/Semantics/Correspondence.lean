import PegCompiler.Proofs.Semantics.Execution

/-! When code computes what a parser gives. `Meets` says that the runs of code from a state end in
exactly the outcomes and positions that are asked for, that the outcome stands in one local, and
that no local below is touched. It is closed under what code is built from. -/
namespace PegCompiler.Semantics

variable {ω π : Type} {c : Context ω π} {base depth : Nat} {m m' u : Machine ω π}

structure Frame (base depth : Nat) (m m' : Machine ω π) : Prop where
  values : ∀ slot < base, m'.values slot = m.values slot
  positions : ∀ position < depth, m'.positions position = m.positions position

namespace Frame

/-- A frame holds whatever happens to the shared state. -/
theorem of_locals (values : m'.values = m.values) (positions : m'.positions = m.positions) :
    Frame base depth m m' :=
  ⟨fun slot _ => congrFun values slot,fun position _ => congrFun positions position⟩

theorem refl (base depth : Nat) (m : Machine ω π) : Frame base depth m m := of_locals rfl rfl

theorem trans (first : Frame base depth m u) (second : Frame base depth u m') :
    Frame base depth m m' where
  values slot below := (second.values slot below).trans (first.values slot below)
  positions position below :=
    (second.positions position below).trans (first.positions position below)

theorem mono {base' depth' : Nat} (frame : Frame base' depth' m m') (values : base ≤ base')
    (positions : depth ≤ depth') : Frame base depth m m' where
  values slot below := frame.values slot (by omega)
  positions position below := frame.positions position (by omega)

theorem setValue {slot : Nat} (above : base ≤ slot) (o : Outcome ω) :
    Frame base depth m (m.setValue slot o) where
  values other below := by
    have different : other ≠ slot := by omega
    simp [Machine.setValue,different]
  positions _ _ := rfl

theorem savePosition {position : Nat} (above : depth ≤ position) :
    Frame base depth m (m.savePosition position) where
  values _ _ := rfl
  positions other below := by
    have different : other ≠ position := by omega
    simp [Machine.savePosition,different]

end Frame

@[simp] theorem Machine.setValue_self (m : Machine ω π) (slot : Nat) (o : Outcome ω) :
    (m.setValue slot o).values slot = o := by
  simp [Machine.setValue]

@[simp] theorem Machine.savePosition_self (m : Machine ω π) (position : Nat) :
    (m.savePosition position).positions position = m.current := by
  simp [Machine.savePosition]

def ToEnd : Exit → Prop := (· = .done)

def Anyhow : Exit → Prop := fun _ => True

/-- From `m` the code ends as `exits` allows, with an outcome in the local `base` and at a position
that satisfy `ends`, and it can end in all of these. -/
structure Meets (c : Context ω π) (exits : Exit → Prop) (base depth : Nat) (code : List Instr)
    (m : Machine ω π) (ends : Outcome ω → π → Prop) : Prop where
  sound : ∀ {x m'}, Runs c code m x m' →
    exits x ∧ Frame base depth m m' ∧ ends (m'.values base) m'.current
  complete : ∀ {o q}, ends o q → ∃ x m', Runs c code m x m' ∧ m'.values base = o ∧ m'.current = q

namespace Meets

variable {exits : Exit → Prop} {code rest : List Instr} {ends ends' : Outcome ω → π → Prop}

theorem congr (meets : Meets c exits base depth code m ends)
    (same : ∀ o q, ends o q ↔ ends' o q) : Meets c exits base depth code m ends' where
  sound run := by
    obtain ⟨exit,frame,ended⟩ := meets.sound run
    exact ⟨exit,frame,(same _ _).mp ended⟩
  complete ended := meets.complete ((same _ _).mpr ended)

theorem anyhow (meets : Meets c exits base depth code m ends) :
    Meets c Anyhow base depth code m ends where
  sound run := ⟨trivial,(meets.sound run).2⟩
  complete := meets.complete

/-- Code in front that does one thing. -/
theorem of_step {code' : List Instr} (step : ∀ {x m'}, Runs c code m x m' ↔ Runs c code' u x m')
    (frame : Frame base depth m u) (meets : Meets c exits base depth code' u ends) :
    Meets c exits base depth code m ends where
  sound run := by
    obtain ⟨exit,frame',ended⟩ := meets.sound (step.mp run)
    exact ⟨exit,frame.trans frame',ended⟩
  complete ended := by
    obtain ⟨x,m',run,value,position⟩ := meets.complete ended
    exact ⟨x,m',step.mpr run,value,position⟩

theorem nil : Meets c ToEnd base depth [] m fun o q => o = m.values base ∧ q = m.current where
  sound run := by
    obtain ⟨rfl,rfl⟩ := runs_nil.mp run
    exact ⟨rfl,.refl _ _ _,rfl,rfl⟩
  complete := by
    rintro o q ⟨rfl,rfl⟩
    exact ⟨.done,m,runs_nil.mpr ⟨rfl,rfl⟩,rfl,rfl⟩

/-- Code behind code that runs to its end. What the code in front leaves in its own local decides
by `next` what is asked of the code behind it. -/
theorem append {base' depth' : Nat} {first : Outcome ω → π → Prop}
    (next : Outcome ω → π → Outcome ω → π → Prop)
    (front : Meets c ToEnd base' depth' code m first) (values : base ≤ base')
    (positions : depth ≤ depth')
    (behind : ∀ u, Frame base' depth' m u → first (u.values base') u.current →
      Meets c exits base depth rest u (next (u.values base') u.current))
    (same : ∀ o q, (∃ o' q', first o' q' ∧ next o' q' o q) ↔ ends o q) :
    Meets c exits base depth (code ++ rest) m ends where
  sound run := by
    rcases runs_append.mp run with ⟨-,left⟩ | ⟨u,inner,outer⟩
    · exact nomatch (front.sound left).1
    · obtain ⟨-,frame,ended⟩ := front.sound inner
      obtain ⟨exit,frame',result⟩ := (behind u frame ended).sound outer
      exact ⟨exit,(frame.mono values positions).trans frame',(same _ _).mp ⟨_,_,ended,result⟩⟩
  complete := by
    intro o q asked
    obtain ⟨o',q',ended,result⟩ := (same o q).mpr asked
    obtain ⟨x,u,inner,rfl,rfl⟩ := front.complete ended
    obtain ⟨rfl,frame,-⟩ := front.sound inner
    obtain ⟨y,v,outer,value,position⟩ := (behind u frame ended).complete result
    exact ⟨y,v,runs_append.mpr (.inr ⟨u,inner,outer⟩),value,position⟩

/-- A block that runs once contains what leaves it. -/
theorem block {kind : BlockKind} (once : kind.repeats = false)
    (body : Meets c Anyhow base depth code m ends) :
    Meets c ToEnd base depth [.block kind code] m ends where
  sound run := by
    obtain ⟨y,u,inner,outer⟩ := (runs_block once).mp run
    obtain ⟨rfl,rfl⟩ := runs_nil.mp outer
    exact ⟨rfl,(body.sound inner).2⟩
  complete ended := by
    obtain ⟨y,u,inner,value,position⟩ := body.complete ended
    exact ⟨.done,u,(runs_block once).mpr ⟨y,u,inner,runs_nil.mpr ⟨rfl,rfl⟩⟩,value,position⟩

theorem save (meets : Meets c exits base depth code (m.savePosition depth) ends) :
    Meets c exits base depth (.step (.save depth) :: code) m ends :=
  meets.of_step runs_save (.savePosition (Nat.le_refl depth))

theorem blank (meets : Meets c exits base depth code m ends) :
    Meets c exits base depth (.blank :: code) m ends :=
  meets.of_step runs_blank (.refl base depth m)

theorem alternative {n : Nat} (meets : Meets c exits base depth code m ends) :
    Meets c exits base depth (.alternative n :: code) m ends :=
  meets.of_step runs_alternative (.refl base depth m)

theorem element {n : Nat} (meets : Meets c exits base depth code m ends) :
    Meets c exits base depth (.element n :: code) m ends :=
  meets.of_step runs_element (.refl base depth m)

theorem silence (meets : Meets c exits base depth code { m with silent := m.silent + 1 } ends) :
    Meets c exits base depth (.step .silence :: code) m ends :=
  meets.of_step runs_silence (.of_locals rfl rfl)

theorem unsilence (meets : Meets c exits base depth code { m with silent := m.silent - 1 } ends) :
    Meets c exits base depth (.step .unsilence :: code) m ends :=
  meets.of_step runs_unsilence (.of_locals rfl rfl)

theorem restore {position : Nat}
    (meets : Meets c exits base depth code (m.goTo (m.positions position)) ends) :
    Meets c exits base depth (.step (.restore position) :: code) m ends :=
  meets.of_step runs_restore (.of_locals rfl rfl)

theorem mark {position : Nat}
    (meets : Meets c exits base depth code { m with mark := m.positions position } ends) :
    Meets c exits base depth (.step (.mark position) :: code) m ends :=
  meets.of_step runs_mark (.of_locals rfl rfl)

theorem ifFailed {slot : Nat} {body : List Instr}
    (failed : m.values slot = .failed → Meets c exits base depth (body ++ rest) m ends)
    (matched : ∀ d, m.values slot = .matched d → Meets c exits base depth rest m ends) :
    Meets c exits base depth (.ifThen (.failed slot) body :: rest) m ends := by
  cases result : m.values slot with
  | failed => exact (failed result).of_step (by simp [result,Outcome.isFailed]) (.refl _ _ _)
  | matched d => exact (matched d result).of_step (by simp [result,Outcome.isFailed]) (.refl _ _ _)

theorem ifMatched {slot : Nat} {body : List Instr}
    (matched : ∀ d, m.values slot = .matched d → Meets c exits base depth (body ++ rest) m ends)
    (failed : m.values slot = .failed → Meets c exits base depth rest m ends) :
    Meets c exits base depth (.ifThen (.matched slot) body :: rest) m ends := by
  cases result : m.values slot with
  | failed => exact (failed result).of_step (by simp [result,Outcome.isFailed]) (.refl _ _ _)
  | matched d => exact (matched d result).of_step (by simp [result,Outcome.isFailed]) (.refl _ _ _)

theorem elseMatched {slot : Nat} {body otherwise : List Instr}
    (matched : ∀ d, m.values slot = .matched d → Meets c exits base depth (body ++ rest) m ends)
    (failed : m.values slot = .failed → Meets c exits base depth (otherwise ++ rest) m ends) :
    Meets c exits base depth (.ifElse (.matched slot) body otherwise :: rest) m ends := by
  cases result : m.values slot with
  | failed => exact (failed result).of_step (by simp [result,Outcome.isFailed]) (.refl _ _ _)
  | matched d => exact (matched d result).of_step (by simp [result,Outcome.isFailed]) (.refl _ _ _)

/-- A test that may come out either way. -/
theorem ifElse {test : Test} {body otherwise : List Instr}
    (yes : Meets c exits base depth (body ++ rest) m ends)
    (no : Meets c exits base depth (otherwise ++ rest) m ends') :
    Meets c exits base depth (.ifElse test body otherwise :: rest) m
      fun o q => (TestIs c m test true ∧ ends o q) ∨ (TestIs c m test false ∧ ends' o q) where
  sound run := by
    rcases runs_ifElse.mp run with ⟨passed,inner⟩ | ⟨missed,inner⟩
    · obtain ⟨exit,frame,ended⟩ := yes.sound inner
      exact ⟨exit,frame,.inl ⟨passed,ended⟩⟩
    · obtain ⟨exit,frame,ended⟩ := no.sound inner
      exact ⟨exit,frame,.inr ⟨missed,ended⟩⟩
  complete := by
    rintro o q (⟨passed,ended⟩ | ⟨missed,ended⟩)
    · obtain ⟨x,m',inner,value,position⟩ := yes.complete ended
      exact ⟨x,m',runs_ifElse.mpr (.inl ⟨passed,inner⟩),value,position⟩
    · obtain ⟨x,m',inner,value,position⟩ := no.complete ended
      exact ⟨x,m',runs_ifElse.mpr (.inr ⟨missed,inner⟩),value,position⟩

theorem ifThen {test : Test} {body : List Instr}
    (yes : Meets c exits base depth (body ++ rest) m ends)
    (no : Meets c exits base depth rest m ends') :
    Meets c exits base depth (.ifThen test body :: rest) m
      fun o q => (TestIs c m test true ∧ ends o q) ∨ (TestIs c m test false ∧ ends' o q) where
  sound run := by
    rcases runs_ifThen.mp run with ⟨passed,inner⟩ | ⟨missed,inner⟩
    · obtain ⟨exit,frame,ended⟩ := yes.sound inner
      exact ⟨exit,frame,.inl ⟨passed,ended⟩⟩
    · obtain ⟨exit,frame,ended⟩ := no.sound inner
      exact ⟨exit,frame,.inr ⟨missed,ended⟩⟩
  complete := by
    rintro o q (⟨passed,ended⟩ | ⟨missed,ended⟩)
    · obtain ⟨x,m',inner,value,position⟩ := yes.complete ended
      exact ⟨x,m',runs_ifThen.mpr (.inl ⟨passed,inner⟩),value,position⟩
    · obtain ⟨x,m',inner,value,position⟩ := no.complete ended
      exact ⟨x,m',runs_ifThen.mpr (.inr ⟨missed,inner⟩),value,position⟩

theorem brief {test : Test} {step : Step}
    (meets : Meets c exits base depth (.ifThen test [.step step] :: rest) m ends) :
    Meets c exits base depth (.brief test step :: rest) m ends :=
  meets.of_step runs_brief (.refl base depth m)

theorem leave : Meets c Anyhow base depth (.step .leave :: rest) m
    fun o q => o = m.values base ∧ q = m.current where
  sound run := by
    obtain ⟨rfl,rfl⟩ := runs_leave.mp run
    exact ⟨trivial,.refl _ _ _,rfl,rfl⟩
  complete := by
    rintro o q ⟨rfl,rfl⟩
    exact ⟨.left,m,runs_leave.mpr ⟨rfl,rfl⟩,rfl,rfl⟩

theorem assignFailed (meets : Meets c exits base depth code (m.setValue base .failed) ends) :
    Meets c exits base depth (.step (.assign base .failed) :: code) m ends :=
  meets.of_step runs_assign_failed (.setValue (Nat.le_refl base) .failed)

/-- A single assignment. -/
theorem assign {value : Value}
    (means : ∀ o q, (∃ s, ValueIs c m value o s ∧ s.current = q) ↔ ends o q) :
    Meets c ToEnd base depth [.step (.assign base value)] m ends where
  sound {x m'} run := by
    obtain ⟨o,s,given,ended⟩ := runs_assign.mp run
    obtain ⟨rfl,rfl⟩ := runs_nil.mp ended
    have frame : Frame base depth m (m.setValue base o) := .setValue (Nat.le_refl base) o
    refine ⟨rfl,frame.trans (.of_locals rfl rfl),?_⟩
    rw [show ({ m.setValue base o with toShared := s } : Machine ω π).values base = o from
      m.setValue_self base o]
    exact (means _ _).mp ⟨s,given,rfl⟩
  complete {o q} ended := by
    obtain ⟨s,given,rfl⟩ := (means o q).mpr ended
    exact ⟨.done,_,runs_assign.mpr ⟨o,s,given,runs_nil.mpr ⟨rfl,rfl⟩⟩,m.setValue_self base o,rfl⟩

/-- An assignment of a value that only depends on the state. -/
theorem assign_only {value : Value} {result : Outcome ω}
    (only : ∀ o s, ValueIs c m value o s ↔ o = result ∧ s = m.toShared) :
    Meets c ToEnd base depth [.step (.assign base value)] m
      fun o q => o = result ∧ q = m.current := by
  refine assign fun o q => ?_
  constructor
  · rintro ⟨s,given,rfl⟩
    obtain ⟨rfl,rfl⟩ := (only _ _).mp given
    exact ⟨rfl,rfl⟩
  · rintro ⟨rfl,rfl⟩
    exact ⟨m.toShared,(only _ _).mpr ⟨rfl,rfl⟩,rfl⟩

end Meets

end PegCompiler.Semantics
