import PegCompiler.Proofs.Semantics.Parsing
import PegCompiler.Types.Ty

/-! Types of values. `Inhabits` says which values a type has, `Admits` which values a cast to it
lets through; the code of the author is called with casts. `Reaches` and `Hands` say which calls an
evaluation comes to, also where it does not end. -/
namespace PegCompiler.Semantics

variable {ω π : Type}

/-- The values of a type. `named` are the values that code of the author may return where it is
declared to return a type of that name. -/
def Inhabits (named : String → Datum ω → Prop) : Ty → Datum ω → Prop
  | .object, _ => True
  | .char, d => ∃ c, d = .char c
  | .slice, d => ∃ s, d = .text s
  | .list elem, d => ∃ items, d = .list items ∧ ∀ item ∈ items, Inhabits named elem item
  | .option inner, d => d = .null ∨ Inhabits named inner d
  | .named name, d => named name d
  | .phantom _, _ => True

/-- What a cast to the spelling of a type lets through, where `boxed` asks for a class. A class
lets `null` through, a primitive type does not; a list is taken for a list whatever its items. -/
def Admits (named : String → Datum ω → Prop) : (boxed : Bool) → Ty → Datum ω → Prop
  | _, .object, _ => True
  | false, .char, d => ∃ c, d = .char c
  | true, .char, d => d = .null ∨ ∃ c, d = .char c
  | _, .slice, d => d = .null ∨ ∃ s, d = .text s
  | _, .list _, d => d = .null ∨ ∃ items, d = .list items
  | _, .option inner, d => Admits named true inner d
  | false, .named name, d => named name d
  | true, .named name, d => d = .null ∨ named name d
  | _, .phantom _, _ => True

section Values

variable {named : String → Datum ω → Prop} {d : Datum ω}

theorem admits_null (ty : Ty) : Admits named true ty .null := by
  induction ty with
  | object => trivial
  | char => exact .inl rfl
  | slice => exact .inl rfl
  | list elem => exact .inl rfl
  | option inner ih => exact ih
  | named name => exact .inl rfl
  | phantom rule => trivial

/-- A cast to a type lets every value of the type through. -/
theorem Inhabits.admits {ty : Ty} (typed : Inhabits named ty d) (boxed : Bool) :
    Admits named boxed ty d := by
  induction ty generalizing boxed with
  | object => trivial
  | char =>
    cases boxed with
    | false => exact typed
    | true => exact .inr typed
  | slice => exact .inr typed
  | list elem =>
    obtain ⟨items,rfl,-⟩ := typed
    exact .inr ⟨items,rfl⟩
  | option inner ih =>
    rcases typed with rfl | present
    · exact admits_null inner
    · exact ih present true
  | named name =>
    cases boxed with
    | false => exact typed
    | true => exact .inr typed
  | phantom rule => trivial

/-- All members of a union are its type, or the union is `object`. -/
private theorem union_fold (first : Ty) (rest : List Ty) :
    rest.foldl (fun acc t => if acc = t then acc else .object) first = .object ∨
      rest.foldl (fun acc t => if acc = t then acc else .object) first = first ∧
        ∀ ty ∈ rest, ty = first := by
  induction rest generalizing first with
  | nil => exact .inr ⟨rfl,by simp⟩
  | cons next rest ih =>
    rw [List.foldl_cons]
    by_cases same : first = next
    · rw [if_pos same]
      rcases ih first with collapsed | ⟨kept,others⟩
      · exact .inl collapsed
      · exact .inr ⟨kept,List.forall_mem_cons.mpr ⟨same.symm,others⟩⟩
    · rw [if_neg same]
      rcases ih .object with collapsed | ⟨kept,-⟩
      · exact .inl collapsed
      · exact .inl kept

theorem Inhabits.union {types : List Ty} {ty : Ty} (member : ty ∈ types)
    (typed : Inhabits named ty d) : Inhabits named (.union types) d := by
  cases types with
  | nil => exact nomatch member
  | cons first rest =>
    rcases union_fold first rest with collapsed | ⟨kept,others⟩
    · rw [Ty.union,collapsed]
      trivial
    · have same : ty = first := by
        rcases List.mem_cons.mp member with here | later
        · exact here
        · exact others ty later
      rw [Ty.union,kept,← same]
      exact typed

end Values

structure Point (ω π : Type) where
  expr : Expr
  labels : Labels ω
  position : π

inductive Rounds (μ : Meaning ω π) (call : String → Parser ω π) (e : Expr) (ls : Labels ω) :
    Nat → π → π → Prop
  | none {p} : Rounds μ call e ls 0 p p
  | more {n p q d r} : Rounds μ call e ls n p q → Eval μ call e ls q (.matched d) r →
      Rounds μ call e ls (n + 1) p r

inductive Enters (μ : Meaning ω π) (rules : List Rule) : Point ω π → Point ω π → Prop
  | named {site name body ls p} : Enters μ rules ⟨.named site name body,ls,p⟩ ⟨body,ls,p⟩
  | choice {site before e after ls p q} :
      Choose μ (ruleParser μ rules) before ls p .failed q →
      Enters μ rules ⟨.choice site (before ++ e :: after),ls,p⟩ ⟨e,ls,p⟩
  | action {site act body ls p} : Enters μ rules ⟨.action site act body,ls,p⟩ ⟨body,ls,p⟩
  | sequence {site before e after ls p ds ls' q} :
      All μ (ruleParser μ rules) before ls p ds ls' q →
      Enters μ rules ⟨.sequence site (before ++ e :: after),ls,p⟩ ⟨e,ls',q⟩
  | labeled {site label body ls p} : Enters μ rules ⟨.labeled site label body,ls,p⟩ ⟨body,ls,p⟩
  | text {site body ls p} : Enters μ rules ⟨.text site body,ls,p⟩ ⟨body,ls,p⟩
  | optional {site body ls p} : Enters μ rules ⟨.optional site body,ls,p⟩ ⟨body,ls,p⟩
  | repeated {site repetition body ls p n q limit}
      (max : repetition.max.mapM (μ.count ls) = some limit) :
      Rounds μ (ruleParser μ rules) body ls n p q → ¬Full limit n →
      Enters μ rules ⟨.repeated site repetition body,ls,p⟩ ⟨body,ls,q⟩
  | lookahead {site isNegative body ls p} :
      Enters μ rules ⟨.lookahead site isNegative body,ls,p⟩ ⟨body,ls,p⟩
  | ruleRef {site name rule ls p} : (rules.find? fun r => r.name == name) = some rule →
      Enters μ rules ⟨.ruleRef site name,ls,p⟩ ⟨rule.body,[],p⟩

inductive Reaches (μ : Meaning ω π) (rules : List Rule) (start : Point ω π) : Point ω π → Prop
  | start : Reaches μ rules start start
  | step {here next} : Reaches μ rules start here → Enters μ rules here next →
      Reaches μ rules start next

inductive Hands (μ : Meaning ω π) (rules : List Rule) : Point ω π → Labels ω → Prop
  | predicate {site isNegative code ns ls p} :
      Hands μ rules ⟨.predicate site isNegative code ns,ls,p⟩ ls
  | action {site act body ls p d q} (plain : body.isSequence = false) :
      Eval μ (ruleParser μ rules) body ls p (.matched d) q →
      Hands μ rules ⟨.action site act body,ls,p⟩ (exports ls d body)
  | action_sequence {site act inner elements ls p ds ls' q} :
      All μ (ruleParser μ rules) elements ls p ds ls' q →
      Hands μ rules ⟨.action site act (.sequence inner elements),ls,p⟩ ls'

end PegCompiler.Semantics
