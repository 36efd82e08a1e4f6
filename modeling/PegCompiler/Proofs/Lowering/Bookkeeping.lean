import PegCompiler.Proofs.Lowering.Outcome
import Mathlib.Data.List.Infix

/-! Stacks of locals under any sequence of requests. A request names locals by their distance from the
pointer, which it moves at once, and is refused when one of the numbers so found is negative; nothing
else keeps track of how many locals are taken. The pointer never passes the highest local that was ever
taken, so the declaration at the end covers whatever the requests gave back. -/
namespace PegCompiler.Locals

inductive Request where
  | push (expr : String)
  | reclaim
  | pop
  | popMany (n : Nat)
  | replace (expr : String)
  | top
deriving DecidableEq, Repr

def highest (s : Locals) : Int :=
  (s.declared : Int) - 1

def names (s : Locals) : List String :=
  (List.range (s.highest + 1).toNat).map s.name

namespace Request

def answer (s : Locals) : Request → Except Fault (List String × Locals)
  | .push expr => .ok ([s.assignment s.push.1 expr],s.push.2)
  | .reclaim => .ok ([],s.reclaim)
  | .pop => do
    let (slot,after) ← s.pop
    return ([s.name slot],after)
  | .popMany n => do
    let (slots,after) ← s.popMany n
    return (slots.map s.name,after)
  | .replace expr => do
    let (slot,after) ← s.replace
    return ([s.assignment slot expr],after)
  | .top => do
    let slot ← s.top
    return ([s.name slot],s)

def shift : Request → Int
  | .push _ => 1
  | .reclaim => 1
  | .pop => -1
  | .popMany n => -n
  | .replace _ => 0
  | .top => 0

def named (pointer : Int) : Request → List Int
  | .push _ => [pointer + 1]
  | .reclaim => []
  | .pop => [pointer]
  | .popMany n => (List.range n).map fun i : Nat => pointer - n + 1 + i
  | .replace _ => [pointer]
  | .top => [pointer]

def needs : Request → Nat
  | .push _ => 0
  | .reclaim => 0
  | .pop => 1
  | .popMany n => n
  | .replace _ => 1
  | .top => 1

def spell (s : Locals) (slot : Nat) : Request → String
  | .push expr => s.assignment slot expr
  | .replace expr => s.assignment slot expr
  | _ => s.name slot

end Request

def moved (s : Locals) (shift : Int) : Locals :=
  { s with
    occupied := (s.occupied + shift).toNat
    declared := max s.declared (s.occupied + shift).toNat }

/-- Locals are named in order, up to the first negative number. -/
theorem slots_eq (s : Locals) (numbers : List Int) :
    numbers.mapM s.slotAt =
      match numbers.find? (· < 0) with
      | some number => .error (.underflow s.letter number)
      | none => .ok (numbers.map Int.toNat) := by
  induction numbers with
  | nil => rfl
  | cons number rest ih =>
    rw [List.mapM_cons,ih,slotAt,List.find?_cons]
    by_cases negative : number < 0
    · simp only [negative,if_true,decide_true]
      rfl
    · simp only [negative,if_false,decide_false]
      cases rest.find? (· < 0) <;> rfl

theorem moved_down {s : Locals} {shift : Int} {left : Nat} (after : (s.occupied : Int) + shift = left)
    (within : left ≤ s.declared) : s.moved shift = { s with occupied := left } := by
  rw [moved,after,Int.toNat_natCast,Nat.max_eq_left within]

namespace Request

variable {s : Locals}

/-- A request is served by naming its locals one by one, and moving the pointer. -/
theorem answer_eq (within : s.occupied ≤ s.declared) (request : Request) :
    request.answer s = do
      let slots ← (request.named s.pointer).mapM s.slotAt
      return (slots.map fun slot => request.spell s slot,s.moved request.shift) := by
  rw [slots_eq]
  cases request with
  | push expr =>
    have next : s.pointer + 1 = s.occupied := by simp [pointer]
    simp only [named,next,List.find?_singleton,answer,shift]
    rw [if_neg (by simp)]
    rfl
  | reclaim => rfl
  | pop =>
    cases taken : s.occupied with
    | zero => simp [answer,named,pop_zero taken,pointer,taken,bind,Except.bind]
    | succ n =>
      have left : s.moved (-1) = { s with occupied := n } := moved_down (by omega) (by omega)
      simp [answer,named,shift,spell,pop_succ taken,left,pointer,taken,bind,Except.bind]
  | popMany n =>
    by_cases enough : n ≤ s.occupied
    · have above : ((popMany n).named s.pointer).find? (· < 0) = none := by
        simp only [named,pointer,List.find?_eq_none,List.mem_map,List.mem_range]
        rintro number ⟨i,-,rfl⟩
        simp only [decide_eq_true_eq]
        omega
      have slots : ((popMany n).named s.pointer).map Int.toNat =
          (List.range n).map (s.occupied - n + ·) := by
        simp only [named,pointer,List.map_map]
        refine List.map_congr_left fun i _ => ?_
        simp only [Function.comp_apply]
        omega
      have left : s.moved (-n) = { s with occupied := s.occupied - n } :=
        moved_down (by omega) (by omega)
      simp only [above,slots,answer,Locals.popMany,if_pos enough,shift,left]
      rfl
    · obtain ⟨more,rfl⟩ : ∃ more, n = more + 1 := Nat.exists_eq_succ_of_ne_zero (by omega)
      have below : (s.occupied : Int) - (more + 1 : Nat) < 0 := by omega
      have first : ((popMany (more + 1)).named s.pointer).find? (· < 0) =
          some ((s.occupied : Int) - (more + 1 : Nat)) := by
        have start : s.pointer - (more + 1 : Nat) + 1 + (0 : Nat) =
            (s.occupied : Int) - (more + 1 : Nat) := by
          simp only [pointer]
          omega
        rw [named,List.range_succ_eq_map,List.map_cons,start,List.find?_cons_of_pos]
        simpa using below
      simp only [first,answer,Locals.popMany,if_neg enough]
      rfl
  | replace expr =>
    cases taken : s.occupied with
    | zero => simp [answer,named,replace_zero taken,pointer,taken,bind,Except.bind]
    | succ n =>
      simp [answer,named,shift,spell,replace_succ taken,moved,pointer,taken,bind,Except.bind]
      rfl
  | top =>
    cases taken : s.occupied with
    | zero => simp [answer,named,top_zero taken,pointer,taken,bind,Except.bind]
    | succ n =>
      have same : s.moved 0 = s := moved_down (by omega) within
      simp [answer,named,shift,spell,top_succ taken,same,pointer,taken,bind,Except.bind]

/-- A request is refused at the first negative number. -/
theorem answer_error (within : s.occupied ≤ s.declared) {request : Request} {fault : Fault} :
    request.answer s = .error fault ↔ ∃ number,
      (request.named s.pointer).find? (· < 0) = some number ∧ fault = .underflow s.letter number := by
  rw [request.answer_eq within,slots_eq]
  cases (request.named s.pointer).find? (· < 0) with
  | none => simp [bind,Except.bind,pure,Except.pure]
  | some number => simp [bind,Except.bind,eq_comm]

theorem refused_iff (within : s.occupied ≤ s.declared) (request : Request) :
    (∃ fault, request.answer s = .error fault) ↔ ∃ number ∈ request.named s.pointer, number < 0 := by
  have found : (∃ number, (request.named s.pointer).find? (· < 0) = some number) ↔
      ∃ number ∈ request.named s.pointer, number < 0 := by
    simp [← Option.isSome_iff_exists]
  rw [← found]
  constructor
  · rintro ⟨fault,refused⟩
    obtain ⟨number,first,-⟩ := (answer_error within).mp refused
    exact ⟨number,first⟩
  · rintro ⟨number,first⟩
    exact ⟨_,(answer_error within).mpr ⟨number,first,rfl⟩⟩

theorem answer_ok (within : s.occupied ≤ s.declared) {request : Request} {texts : List String}
    {after : Locals} (ok : request.answer s = .ok (texts,after)) :
    (∀ number ∈ request.named s.pointer, 0 ≤ number) ∧
      texts = ((request.named s.pointer).map Int.toNat).map (fun slot => request.spell s slot) ∧
      after = s.moved request.shift := by
  rw [request.answer_eq within,slots_eq] at ok
  cases first : (request.named s.pointer).find? (· < 0) with
  | some number =>
    rw [first] at ok
    exact nomatch ok
  | none =>
    rw [first] at ok
    cases ok
    exact ⟨by simpa using first,rfl,rfl⟩

/-- Too few locals are taken when a number would be negative. -/
theorem below_iff (request : Request) :
    (∃ number ∈ request.named s.pointer, number < 0) ↔ s.occupied < request.needs := by
  cases request with
  | push expr | reclaim | pop | replace expr | top => simp [named,needs,pointer]; try omega
  | popMany n =>
    simp only [named,needs,pointer,List.mem_map,List.mem_range]
    constructor
    · rintro ⟨number,⟨i,-,rfl⟩,below⟩
      omega
    · intro short
      exact ⟨_,⟨0,by omega,rfl⟩,by omega⟩

/-- The locals that a request names lie up to the pointer, before the request or behind it. -/
theorem named_le {request : Request} {pointer number : Int}
    (member : number ∈ request.named pointer) : number ≤ max pointer (pointer + request.shift) := by
  cases request with
  | reclaim => exact nomatch member
  | push expr | pop | replace expr | top =>
    obtain rfl := List.mem_singleton.mp member
    simp only [shift]
    omega
  | popMany n =>
    simp only [named,List.mem_map,List.mem_range] at member
    obtain ⟨i,inside,rfl⟩ := member
    omega

theorem moved_pointer {request : Request}
    (named : ∀ number ∈ request.named s.pointer, 0 ≤ number) :
    (s.moved request.shift).pointer = s.pointer + request.shift := by
  have enough : request.needs ≤ s.occupied := by
    by_contra short
    obtain ⟨number,member,below⟩ := (below_iff request).mpr (not_le.mp short)
    exact absurd (named number member) (by omega)
  have down : -request.shift ≤ request.needs := by
    cases request <;> simp [shift,needs]
  simp only [moved,pointer]
  omega

end Request

def history (s : Locals) : List Request → Except Fault (List (List String) × Locals)
  | [] => .ok ([],s)
  | request :: rest => do
    let (texts,next) ← request.answer s
    let (others,last) ← history next rest
    return (texts :: others,last)

theorem history_cons {s next : Locals} {request : Request} {rest : List Request}
    {texts : List String} (answered : request.answer s = .ok (texts,next)) :
    history s (request :: rest) =
      (history next rest).map fun tail => (texts :: tail.1,tail.2) := by
  rw [history,answered]
  change (history next rest >>= fun tail => pure (texts :: tail.1,tail.2)) = _
  cases history next rest <;> rfl

def shifted : List Request → Int
  | [] => 0
  | request :: rest => request.shift + shifted rest

theorem pointer_ge (s : Locals) : -1 ≤ s.pointer := by
  simp only [pointer]
  omega

theorem pointer_le {s : Locals} (within : s.occupied ≤ s.declared) : s.pointer ≤ s.highest := by
  simp only [pointer,highest]
  omega

def Covers (s : Locals) (text : String) : Prop :=
  ∃ name ∈ s.names, text = name ∨ ∃ expr : String, text = s!"{name} = {expr};"

theorem mem_names {s : Locals} {name : String} :
    name ∈ s.names ↔ ∃ slot < s.declared, s.name slot = name := by
  simp [names,highest]

structure Follows (s : Locals) (requests : List Request) (replies : List (List String))
    (t : Locals) : Prop where
  letter : t.letter = s.letter
  type : t.type = s.type
  pointer : t.pointer = s.pointer + shifted requests
  within : t.occupied ≤ t.declared
  grown : s.declared ≤ t.declared
  above : ∀ before, before <+: requests →
    -1 ≤ s.pointer + shifted before ∧ s.pointer + shifted before ≤ t.highest
  reached : t.declared = s.declared ∨
    ∃ before, before <+: requests ∧ t.highest = s.pointer + shifted before
  covered : ∀ texts ∈ replies, ∀ text ∈ texts, t.Covers text

theorem Follows.nil {s : Locals} (within : s.occupied ≤ s.declared) : Follows s [] [] s where
  letter := rfl
  type := rfl
  pointer := by simp [shifted]
  within := within
  grown := le_rfl
  above := by
    intro before front
    obtain rfl := List.prefix_nil.mp front
    simpa [shifted] using And.intro s.pointer_ge (pointer_le within)
  reached := .inl rfl
  covered := nofun

theorem Follows.cons {s t : Locals} {request : Request} {rest : List Request}
    {others : List (List String)} (within : s.occupied ≤ s.declared)
    (named : ∀ number ∈ request.named s.pointer, 0 ≤ number)
    (later : Follows (s.moved request.shift) rest others t) :
    Follows s (request :: rest)
      (((request.named s.pointer).map Int.toNat).map (fun slot => request.spell s slot) :: others)
      t := by
  have pointed := Request.moved_pointer named
  have grown : s.declared ≤ (s.moved request.shift).declared := Nat.le_max_left _ _
  have bound : (s.moved request.shift).occupied ≤ (s.moved request.shift).declared :=
    Nat.le_max_right _ _
  have final := later.grown
  refine ⟨later.letter,later.type,?_,later.within,grown.trans final,?_,?_,?_⟩
  · rw [later.pointer,pointed,shifted,Int.add_assoc]
  · intro before front
    rcases List.prefix_cons_iff.mp front with rfl | ⟨inner,rfl,behind⟩
    · have top : s.highest ≤ t.highest := by
        simp only [highest]
        omega
      simpa [shifted] using And.intro s.pointer_ge (Int.le_trans (pointer_le within) top)
    · have inside := later.above inner behind
      simpa only [pointed,Int.add_assoc,shifted] using inside
  · rcases later.reached with same | ⟨inner,front,top⟩
    · -- the highest local is as before, or it is the one where the request left the pointer
      rcases Nat.le_total (s.moved request.shift).occupied s.declared with below | above
      · exact .inl (same.trans (Nat.max_eq_left below))
      · have top : (s.moved request.shift).declared = (s.moved request.shift).occupied :=
          Nat.max_eq_right above
        have one : shifted [request] = request.shift := by simp [shifted]
        refine .inr ⟨[request],by simp,?_⟩
        rw [highest,same,top,one]
        exact pointed
    · refine .inr ⟨request :: inner,by simpa using front,?_⟩
      rw [top,pointed,shifted,Int.add_assoc]
  · intro texts member text inside
    rcases List.mem_cons.mp member with rfl | member
    · obtain ⟨slot,listed,rfl⟩ := List.mem_map.mp inside
      obtain ⟨number,found,rfl⟩ := List.mem_map.mp listed
      have positive := named number found
      have low := Request.named_le found
      have declared : number.toNat < t.declared := by
        rw [← pointed] at low
        simp only [Locals.pointer] at low
        omega
      refine ⟨s.name number.toNat,mem_names.mpr ⟨_,declared,?_⟩,?_⟩
      · rw [name,name,later.letter]
        rfl
      · cases request with
        | push expr | replace expr => exact .inr ⟨expr,rfl⟩
        | reclaim | pop | popMany n | top => exact .inl rfl
    · exact later.covered texts member text inside

theorem history_follows {s t : Locals} {requests : List Request} {replies : List (List String)}
    (within : s.occupied ≤ s.declared) (served : history s requests = .ok (replies,t)) :
    Follows s requests replies t := by
  induction requests generalizing s replies with
  | nil =>
    cases served
    exact .nil within
  | cons request rest ih =>
    cases answered : request.answer s with
    | error fault =>
      rw [history,answered] at served
      exact nomatch served
    | ok reply =>
      obtain ⟨texts,next⟩ := reply
      rw [history_cons answered] at served
      obtain ⟨named,rfl,rfl⟩ := Request.answer_ok within answered
      cases onward : history (s.moved request.shift) rest with
      | error fault =>
        rw [onward] at served
        exact nomatch served
      | ok tail =>
        rw [onward] at served
        cases served
        exact .cons within named (ih (Nat.le_max_right _ _) onward)

/-- Requests are refused when one of them names a negative number behind those in front of it. -/
theorem history_error {s : Locals} {requests : List Request} (within : s.occupied ≤ s.declared) :
    (∃ fault, history s requests = .error fault) ↔
      ∃ before request after, requests = before ++ request :: after ∧
        ∃ number ∈ request.named (s.pointer + shifted before), number < 0 := by
  induction requests generalizing s with
  | nil => simp [history]
  | cons request rest ih =>
    have here := Request.refused_iff within request
    cases answered : request.answer s with
    | error fault =>
      have below := here.mp ⟨fault,answered⟩
      have refused : history s (request :: rest) = .error fault := by
        rw [history,answered]
        rfl
      exact ⟨fun _ => ⟨[],request,rest,rfl,by simpa [shifted] using below⟩,fun _ => ⟨fault,refused⟩⟩
    | ok reply =>
      obtain ⟨texts,next⟩ := reply
      have onward : (∃ fault, history s (request :: rest) = .error fault) ↔
          ∃ fault, history next rest = .error fault := by
        rw [history_cons answered]
        cases history next rest <;> simp [Except.map]
      obtain ⟨named,-,rfl⟩ := Request.answer_ok within answered
      rw [onward,ih (Nat.le_max_right _ _)]
      simp only [Request.moved_pointer named,Int.add_assoc]
      constructor
      · rintro ⟨before,refused,after,rfl,below⟩
        exact ⟨request :: before,refused,after,rfl,by simpa [shifted] using below⟩
      · rintro ⟨before,refused,after,split,number,member,below⟩
        cases before with
        | nil =>
          -- the first request was served
          cases split
          have positive := named number (by simpa [shifted] using member)
          omega
        | cons first before =>
          cases split
          exact ⟨before,refused,after,rfl,number,by simpa [shifted] using member,below⟩

def pointerAfter (requests : List Request) : Int :=
  -1 + shifted requests

structure Kept (letter type : String) (requests : List Request) (replies : List (List String))
    (s : Locals) : Prop where
  pointer : s.pointer = pointerAfter requests
  bounded : -1 ≤ s.pointer ∧ s.pointer ≤ s.highest
  highest : (∃ before, before <+: requests ∧ s.highest = pointerAfter before) ∧
    ∀ before, before <+: requests → pointerAfter before ≤ s.highest
  refuses : ∀ (request : Request) fault, request.answer s = .error fault ↔ ∃ number,
    (request.named s.pointer).find? (· < 0) = some number ∧ fault = .underflow letter number
  short : ∀ request : Request,
    (∃ number ∈ request.named s.pointer, number < 0) ↔ s.occupied < request.needs
  released : ∀ n ≤ s.occupied, ∃ after, after.pointer = s.pointer - n ∧
    (Request.popMany n).answer s = .ok ((List.range' (s.occupied - n) n).map s.name,after)
  declares : s.declaration =
    if s.highest < 0 then none else some (type ++ " " ++ ", ".intercalate s.names ++ ";")
  named : s.names = (List.range (s.highest + 1).toNat).map fun slot => s!"{letter}{slot}"
  covers : ∀ texts ∈ replies, ∀ text ∈ texts, s.Covers text

theorem Follows.kept {letter type : String} {requests : List Request} {replies : List (List String)}
    {s : Locals} (follows : Follows { letter,type } requests replies s) :
    Kept letter type requests replies s where
  pointer := follows.pointer
  bounded := ⟨s.pointer_ge,pointer_le follows.within⟩
  highest := by
    refine ⟨?_,fun before front => (follows.above before front).2⟩
    rcases follows.reached with none | reached
    · refine ⟨[],List.nil_prefix,?_⟩
      rw [Locals.highest,none]
      rfl
    · exact reached
  refuses := by
    intro request fault
    rw [Request.answer_error follows.within,follows.letter]
  short := Request.below_iff
  released := by
    intro n enough
    refine ⟨{ s with occupied := s.occupied - n },?_,?_⟩
    · simp only [Locals.pointer]
      omega
    · simp only [Request.answer,popMany,if_pos enough,bind,Except.bind,List.range'_eq_map_range]
      rfl
  declares := by
    have width : (s.highest + 1).toNat = s.declared := by simp [Locals.highest]
    by_cases none : s.declared = 0
    · rw [declaration,if_pos none,if_pos (by omega)]
    · rw [declaration,if_neg none,if_neg (by omega),names,width,follows.type]
  named := by
    rw [names]
    refine List.map_congr_left fun slot _ => ?_
    rw [name,follows.letter]
  covers := follows.covered

/-- Requests to a fresh stack of locals are refused just when they name a negative number; otherwise
the pointer stays between -1 and the highest local, and all that was named gets declared. -/
theorem locals_bookkeeping (letter type : String) (requests : List Request) :
    ((∃ fault, history { letter,type } requests = .error fault) ↔
      ∃ before request after, requests = before ++ request :: after ∧
        ∃ number ∈ request.named (pointerAfter before), number < 0) ∧
    ∀ replies s, history { letter,type } requests = .ok (replies,s) →
      Kept letter type requests replies s :=
  ⟨history_error le_rfl,fun _ _ served => (history_follows le_rfl served).kept⟩

def reuse : List Request := [.push "x",.push "y",.push "z",.popMany 3,.push "w"]

/-- All three stay declared, and four are more than there are. -/
theorem reuse_kept :
    Kept "l" "Position" reuse [["l0 = x;"],["l1 = y;"],["l2 = z;"],["l0","l1","l2"],["l0 = w;"]]
      ⟨"l","Position",1,3⟩ ∧
    Locals.declaration ⟨"l","Position",1,3⟩ = some "Position l0, l1, l2;" ∧
    ∃ fault, history { letter := "l",type := "Position" } (reuse.take 3 ++ [.popMany 4]) =
      .error fault := by
  obtain ⟨refused,-⟩ := locals_bookkeeping "l" "Position" (reuse.take 3 ++ [.popMany 4])
  obtain ⟨-,kept⟩ := locals_bookkeeping "l" "Position" reuse
  refine ⟨kept _ _ (by decide +kernel),by decide +kernel,refused.mpr ?_⟩
  exact ⟨reuse.take 3,.popMany 4,[],rfl,-1,by decide,by decide⟩

end PegCompiler.Locals
