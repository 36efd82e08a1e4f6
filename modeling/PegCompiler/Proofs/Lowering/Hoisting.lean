import PegCompiler.Proofs.Lowering.Interning

/-! Hoisted code, request by request. The namespaces, the methods of both kinds and the initializers
are stored apart from each other; together they tell which requests were made: each namespace and
each method once, in the order of the first request for it, and the last initializer of a namespace. -/
namespace PegCompiler

open Lowering

namespace Interner

end Interner

namespace UserCode

structure Argument where
  name : String
  type : String
  localName : String

inductive Request where
  | initializer (ns : Option String) (text : String)
  | method (kind : MethodKind) (ns : Option String) (type body : String) (arguments : List Argument)

structure Answer where
  number : Nat
  call : String

def Argument.param (a : Argument) : String × String := (a.name,a.type)

def Argument.passed (a : Argument) : String × String := (a.type,a.localName)

def Answer.calling (kind : MethodKind) (number : Nat) (arguments : List Argument) : Answer :=
  ⟨number,UserCode.call kind number (arguments.map Argument.passed)⟩

def serve (code : UserCode) : Request → Option Answer × UserCode
  | .initializer ns text => (none,code.setInitializer ns text)
  | .method kind ns type body arguments =>
    let (number,code) := code.add kind ⟨ns,type,body,arguments.map Argument.param⟩
    (some (.calling kind number arguments),code)

def serveAll (code : UserCode) : List Request → List (Option Answer) × UserCode
  | [] => ([],code)
  | request :: rest =>
    let (answer,code) := code.serve request
    let (answers,code) := code.serveAll rest
    (answer :: answers,code)

namespace Request

def ns : Request → Option String
  | .initializer ns _ => ns
  | .method _ ns .. => ns

def unit (kind : MethodKind) : Request → Option UserMethod
  | .initializer .. => none
  | .method other ns type body arguments =>
    if other = kind then some ⟨ns,type,body,arguments.map Argument.param⟩ else none

def text (ns : Option String) : Request → Option String
  | .initializer other text => if other = ns then some text else none
  | .method .. => none

end Request

def units (kind : MethodKind) (requests : List Request) : List UserMethod :=
  (requests.filterMap (Request.unit kind)).eraseDups

def Request.answer (requests : List Request) : Request → Option Answer
  | .initializer .. => none
  | .method kind ns type body arguments =>
    let method : UserMethod := ⟨ns,type,body,arguments.map Argument.param⟩
    some (.calling kind ((units kind requests).idxOf method) arguments)

structure Tells (requests : List Request) (code : UserCode) : Prop where
  names : code.namespaces.map (·.name) = (requests.map Request.ns).eraseDups
  methods : ∀ kind, (code.methods kind).entries = units kind requests
  initializers : ∀ ns, code.initializer ns = (requests.filterMap (Request.text ns)).getLast?

section Steps

variable {requests : List Request} {code : UserCode}

theorem mention_initializer (code : UserCode) (ns other : Option String) :
    (code.mention ns).initializer other = code.initializer other := by
  unfold mention initializer
  split
  · rfl
  · rw [List.find?_append]
    cases code.namespaces.find? fun n => n.name == other with
    | some n => rfl
    | none => by_cases same : ns = other <;> simp [same]

theorem setInitializer_initializer (code : UserCode) (ns other : Option String) (text : String) :
    (code.setInitializer ns text).initializer other =
      if ns = other then some text else code.initializer other := by
  have name (n : Namespace) :
      (if n.name == ns then { n with initializer := some text } else n).name = n.name := by
    split <;> rfl
  rw [← mention_initializer code ns other]
  simp only [setInitializer,initializer,List.find?_map,Function.comp_def,name]
  cases found : (code.mention ns).namespaces.find? fun n => n.name == other with
  | some n =>
    have named : n.name = other := by simpa using List.find?_some found
    subst named
    by_cases same : ns = n.name
    · simp [same]
    · simp [same,Ne.symm same]
  | none =>
    have known : ns ∈ (code.mention ns).namespaces.map (·.name) := mem_mention.mpr (.inr rfl)
    obtain ⟨n,member,named⟩ := List.mem_map.mp known
    have differs : ns ≠ other := by
      rintro rfl
      have missed := List.find?_eq_none.mp found n member
      simp [named] at missed
    simp [differs]

private theorem names_serve (code : UserCode) (request : Request) :
    (code.serve request).2.namespaces.map (·.name) =
      (code.mention request.ns).namespaces.map (·.name) := by
  cases request with
  | initializer ns text => exact setInitializer_names code ns text
  | method kind ns type body arguments => exact congrArg _ (add_namespaces code kind _)

private theorem methods_serve (code : UserCode) (request : Request) (kind : MethodKind) :
    ((code.serve request).2.methods kind).entries =
      match request.unit kind with
      | none => (code.methods kind).entries
      | some method => ((code.methods kind).intern method).2.entries := by
  cases request with
  | initializer ns text => exact congrArg _ (setInitializer_methods code ns text kind)
  | method other ns type body arguments =>
    have added := add_methods code other kind ⟨ns,type,body,arguments.map Argument.param⟩
    by_cases same : other = kind
    · subst same
      rw [if_pos rfl] at added
      simp only [serve,Request.unit,if_true,added]
    · rw [if_neg (Ne.symm same)] at added
      simp only [serve,Request.unit,if_neg same,added]

private theorem initializer_serve (code : UserCode) (request : Request) (ns : Option String) :
    (code.serve request).2.initializer ns = (request.text ns).or (code.initializer ns) := by
  cases request with
  | initializer other text =>
    simp only [serve,setInitializer_initializer,Request.text]
    split <;> simp
  | method kind other type body arguments =>
    simp only [serve,Request.text,Option.none_or]
    rw [← mention_initializer code other ns]
    simp only [initializer,add_namespaces]

/-- What is stored tells of one request more once it is served. -/
theorem Tells.serve (tells : Tells requests code) (request : Request) :
    Tells (requests ++ [request]) (code.serve request).2 where
  names := by
    rw [names_serve,mention_names,tells.names,List.map_append,List.map_singleton,eraseDups_snoc]
    simp only [List.mem_eraseDups]
  methods kind := by
    rw [methods_serve,units,List.filterMap_append]
    cases wanted : request.unit kind with
    | none => simp [wanted,tells.methods,units]
    | some method =>
      have last : [request].filterMap (Request.unit kind) = [method] := by simp [wanted]
      rw [last]
      exact Interner.intern_snoc (tells.methods kind) method
  initializers ns := by
    rw [initializer_serve,tells.initializers,List.filterMap_append,List.getLast?_append]
    cases set : request.text ns <;> simp [set]

private theorem add_number (code : UserCode) (kind : MethodKind) (method : UserMethod) :
    (code.add kind method).1 = ((code.add kind method).2.methods kind).entries.idxOf method := by
  rw [add_methods,if_pos rfl,← Interner.intern_number]
  cases kind <;> simp [add,methods]

theorem Tells.answer (tells : Tells requests code) (request : Request) :
    (code.serve request).1 = request.answer (requests ++ [request]) := by
  have after := (tells.serve request).methods
  cases request with
  | initializer ns text => rfl
  | method kind ns type body arguments =>
    simp only [Request.answer,← after]
    exact congrArg (fun number => some (Answer.calling kind number arguments)) (add_number code kind _)

theorem units_append (kind : MethodKind) (requests more : List Request) :
    units kind requests <+: units kind (requests ++ more) := by
  rw [units,units,List.filterMap_append,List.eraseDups_append]
  exact List.prefix_append _ _

theorem mem_units {kind : MethodKind} {method : UserMethod} :
    method ∈ units kind requests ↔ ∃ request ∈ requests, request.unit kind = some method := by
  rw [units,List.mem_eraseDups,List.mem_filterMap]

/-- Later requests do not change what a request is answered with. -/
theorem Request.answer_append {request : Request} (made : request ∈ requests) (more : List Request) :
    request.answer (requests ++ more) = request.answer requests := by
  cases request with
  | initializer ns text => rfl
  | method kind ns type body arguments =>
    have known := mem_units.mpr ⟨_,made,if_pos rfl⟩
    obtain ⟨later,split⟩ := units_append kind requests more
    simp only [Request.answer,← split]
    rw [List.idxOf_append_of_mem known]

/-- What is stored tells of all requests that were served. -/
theorem Tells.serveAll (tells : Tells requests code) (rest : List Request) :
    (code.serveAll rest).1 = rest.map (Request.answer (requests ++ rest)) ∧
      Tells (requests ++ rest) (code.serveAll rest).2 := by
  induction rest generalizing requests code with
  | nil => exact ⟨rfl,by simpa [UserCode.serveAll] using tells⟩
  | cons request rest ih =>
    have split : requests ++ request :: rest = requests ++ [request] ++ rest := by simp
    obtain ⟨answers,told⟩ := ih (tells.serve request)
    have first : (code.serve request).1 = request.answer (requests ++ [request] ++ rest) :=
      (tells.answer request).trans (Request.answer_append (by simp) rest).symm
    rw [split,List.map_cons,← first,← answers]
    exact ⟨rfl,told⟩

theorem tells_nothing : Tells [] {} where
  names := rfl
  methods kind := by cases kind <;> rfl
  initializers ns := rfl

theorem served (requests : List Request) :
    (UserCode.serveAll {} requests).1 = requests.map (Request.answer requests) ∧
      Tells requests (UserCode.serveAll {} requests).2 :=
  tells_nothing.serveAll requests

/-- The namespace of every method that is asked for is known. -/
theorem Tells.known (tells : Tells requests code) {kind : MethodKind} {method : UserMethod}
    (asked : method ∈ units kind requests) : method.ns ∈ code.namespaces.map (·.name) := by
  obtain ⟨request,made,unit⟩ := mem_units.mp asked
  have same : request.ns = method.ns := by
    cases request with
    | initializer ns text => exact nomatch unit
    | method other ns type body arguments =>
      simp only [Request.unit,Option.ite_none_right_eq_some,Option.some.injEq] at unit
      rw [← unit.2]
      rfl
  rw [tells.names,List.mem_eraseDups,← same]
  exact List.mem_map_of_mem made

end Steps

/-- The third request is for the first method again, with its argument in another local. -/
example : (serveAll {} [.method .action none "int" "return a;" [⟨"a","int","r0"⟩],
    .method .action (some "n") "int" "return a;" [⟨"a","int","r0"⟩],
    .method .action none "int" "return a;" [⟨"a","int","r3"⟩]]).1.map (·.map (·.call)) =
      [some "f0((int)r0)",some "f1((int)r0)",some "f0((int)r3)"] := by
  decide +kernel

end UserCode

end PegCompiler
