import PegCompiler.Grammar.Decode
import Mathlib.Data.List.Forall2

/-! The layout of a grammar as JSON. Every record is an object. Its members may come in any order and
others may stand between them; a member with a default may be left out where it has that value. The
numbers of nodes are not written. -/
namespace PegCompiler

namespace Json

mutual

def height : Json → Nat
  | .array items => heightAll items + 1
  | .object members => heightMembers members + 1
  | _ => 0

def heightAll : List Json → Nat
  | [] => 0
  | item :: rest => max item.height (heightAll rest)

def heightMembers : List (String × Json) → Nat
  | [] => 0
  | (_,value) :: rest => max value.height (heightMembers rest)

end

mutual

def readable : Json → Bool
  | .array items => readableAll items
  | .object members => readableMembers members
  | .unreadable => false
  | _ => true

def readableAll : List Json → Bool
  | [] => true
  | item :: rest => item.readable && readableAll rest

def readableMembers : List (String × Json) → Bool
  | [] => true
  | (_,value) :: rest => value.readable && readableMembers rest

end

mutual

/-- A value can be taken in as a whole if it is readable and not too deep. -/
theorem fits_iff (levels : Nat) : (json : Json) →
    (json.fits levels = true ↔ json.readable = true ∧ json.height ≤ levels)
  | .null => by simp [fits,readable,height]
  | .bool _ => by simp [fits,readable,height]
  | .number _ => by simp [fits,readable,height]
  | .string _ => by simp [fits,readable,height]
  | .unreadable => by simp [fits,readable]
  | .array items => by
    have inside := fitsAll_iff (levels - 1) items
    simp only [fits,readable,height,Bool.and_eq_true,decide_eq_true_eq,inside]
    grind
  | .object members => by
    have inside := fitsMembers_iff (levels - 1) members
    simp only [fits,readable,height,Bool.and_eq_true,decide_eq_true_eq,inside]
    grind

theorem fitsAll_iff (levels : Nat) : (items : List Json) →
    (fitsAll levels items = true ↔ readableAll items = true ∧ heightAll items ≤ levels)
  | [] => by simp [fitsAll,readableAll,heightAll]
  | item :: rest => by
    have first := fits_iff levels item
    have others := fitsAll_iff levels rest
    simp only [fitsAll,readableAll,heightAll,Bool.and_eq_true,first,others]
    grind

theorem fitsMembers_iff (levels : Nat) : (members : List (String × Json)) →
    (fitsMembers levels members = true ↔ readableMembers members = true ∧ heightMembers members ≤ levels)
  | [] => by simp [fitsMembers,readableMembers,heightMembers]
  | (_,value) :: rest => by
    have first := fits_iff levels value
    have others := fitsMembers_iff levels rest
    simp only [fitsMembers,readableMembers,heightMembers,Bool.and_eq_true,first,others]
    grind

end

theorem height_item {items : List Json} {item : Json} (member : item ∈ items) :
    item.height < (Json.array items).height := by
  rw [height,Nat.lt_succ_iff]
  induction items with
  | nil => exact absurd member List.not_mem_nil
  | cons first rest ih =>
    rw [heightAll]
    rcases List.mem_cons.mp member with rfl | inside
    · exact Nat.le_max_left _ _
    · exact Nat.le_trans (ih inside) (Nat.le_max_right _ _)

theorem height_member {members : List (String × Json)} {key : String} {value : Json}
    (member : (key,value) ∈ members) : value.height < (Json.object members).height := by
  rw [height,Nat.lt_succ_iff]
  induction members with
  | nil => exact absurd member List.not_mem_nil
  | cons first rest ih =>
    rw [heightMembers]
    rcases List.mem_cons.mp member with rfl | inside
    · exact Nat.le_max_left _ _
    · exact Nat.le_trans (ih inside) (Nat.le_max_right _ _)

def members : Json → List (String × Json)
  | .object members => members
  | _ => []

def items : Json → List Json
  | .array items => items
  | _ => []

structure Entry where
  key : String
  holds : Json → Prop
  omittable : Prop

def Entry.FoundIn (entry : Entry) (members : List (String × Json)) : Prop :=
  (∃ value, members.filter (·.1 == entry.key) = [(entry.key,value)] ∧ entry.holds value) ∨
    members.filter (·.1 == entry.key) = [] ∧ entry.omittable

def IsObject (entries : List Entry) (json : Json) : Prop :=
  ∃ members, json = .object members ∧ ∀ entry ∈ entries, entry.FoundIn members

end Json

namespace Layout

open Json (Entry IsObject)

def text (s : String) (json : Json) : Prop :=
  json = .string s

def flag (b : Bool) (json : Json) : Prop :=
  json = .bool b

def word (n : UInt32) (json : Json) : Prop :=
  json = .number (.natural n.toNat)

def nullable {α : Type} (layout : α → Json → Prop) : Option α → Json → Prop
  | none,json => json = .null
  | some a,json => layout a json

def isArray (holds : List Json → Prop) (json : Json) : Prop :=
  ∃ items, json = .array items ∧ holds items

def list {α : Type} (layout : α → Json → Prop) (as : List α) : Json → Prop :=
  isArray (List.Forall₂ layout as)

def position (p : Position) : Json → Prop :=
  IsObject [⟨"offset",word p.offset,False⟩,⟨"line",word p.line,False⟩,⟨"column",word p.column,False⟩]

def location (l : Location) : Json → Prop :=
  IsObject [⟨"start",position l.start,False⟩,⟨"end",position l.stop,False⟩]

def range (l : Location) : Entry :=
  ⟨"location",location l,l = {}⟩

def note (a : Annotation) : Json → Prop :=
  IsObject [⟨"name",text a.name,False⟩,⟨"params",list text a.params,a.params = []⟩,range a.location]

def notes (annotations : List Annotation) : Entry :=
  ⟨"annotations",list note annotations,annotations = []⟩

def namespaceOf (ns : Option String) : Entry :=
  ⟨"namespace",nullable text ns,ns = none⟩

def boundValue : UInt32 ⊕ String → Json → Prop
  | .inl n => word n
  | .inr label => text label

def bound (constant : Bool) (value : Option (UInt32 ⊕ String)) : Json → Prop :=
  IsObject [⟨"constant",flag constant,False⟩,⟨"value",nullable boundValue value,value = none⟩]

def boundary : Boundary → Json → Prop
  | .count n => bound true (some (.inl n))
  | .label name => bound false (some (.inr name))

def upperBound : Option Boundary → Json → Prop
  | none,json => json = .null ∨ ∃ constant, bound constant none json
  | some b,json => boundary b json

def char (c : Char) : Json → Prop :=
  text (String.singleton c)

def classPart : ClassPart → Json → Prop
  | .single c,json => char c json
  | .range lo hi,json => ∃ first last, json = .array [first,last] ∧ char lo first ∧ char hi last

def bounds : Repetition → List Entry
  | .range min max => [⟨"min",boundary min,False⟩,⟨"max",upperBound max,max = none⟩]
  | _ => []

def node (e : Expr) (fields : List Entry) : Json → Prop :=
  IsObject (⟨"type",text e.kind.name,False⟩ :: range e.location :: fields)

mutual

def fields : Expr → List Entry
  | .named _ name body => [⟨"name",text name,False⟩,⟨"expression",node body (fields body),False⟩]
  | .choice _ alternatives => [⟨"alternatives",isArray (each alternatives),False⟩]
  | .action _ act body =>
    [⟨"expression",node body (fields body),False⟩,⟨"code",text act.code,False⟩,namespaceOf act.ns,
      notes act.annotations]
  | .sequence _ elements => [⟨"elements",isArray (each elements),False⟩]
  | .labeled _ label body => [⟨"label",text label,False⟩,⟨"expression",node body (fields body),False⟩]
  | .text _ body => [⟨"expression",node body (fields body),False⟩]
  | .optional _ body => [⟨"expression",node body (fields body),False⟩]
  | .repeated _ repetition body => bounds repetition ++ [⟨"expression",node body (fields body),False⟩]
  | .lookahead _ _ body => [⟨"expression",node body (fields body),False⟩]
  | .predicate _ _ code ns => [⟨"code",text code,False⟩,namespaceOf ns]
  | .ruleRef _ name => [⟨"name",text name,False⟩]
  | .literal _ value ignoreCase =>
    [⟨"value",text value,False⟩,⟨"ignoreCase",flag ignoreCase,ignoreCase = false⟩]
  | .charClass _ parts inverted ignoreCase rawText =>
    [⟨"parts",list classPart parts,False⟩,⟨"inverted",flag inverted,inverted = false⟩,
      ⟨"ignoreCase",flag ignoreCase,ignoreCase = false⟩,⟨"rawText",text rawText,rawText = ""⟩]
  | .any _ => []

def each : List Expr → List Json → Prop
  | [],items => items = []
  | e :: rest,items => ∃ item others, items = item :: others ∧ node e (fields e) item ∧ each rest others

end

def expr (e : Expr) : Json → Prop :=
  node e (fields e)

def initializer (i : Initializer) : Json → Prop :=
  IsObject [⟨"code",text i.code,False⟩,namespaceOf i.ns,notes i.annotations,range i.location]

def rule (r : Rule) : Json → Prop :=
  IsObject [⟨"name",text r.name,False⟩,⟨"expression",expr r.body,False⟩,notes r.annotations,
    range r.location]

def grammar (g : Grammar) (single : Option Initializer) : Json → Prop :=
  IsObject [⟨"initializers",list initializer g.initializers,g.initializers = []⟩,
    ⟨"initializer",nullable initializer single,single = none⟩,⟨"rules",list rule g.rules,False⟩,
    range g.location]

def MembersReadable (json : Json) : Prop :=
  ∀ key value, (key,value) ∈ json.members → key ≠ "location" → value.readable = true

def BodiesReadable (json : Json) : Prop :=
  ∀ rules, ("rules",rules) ∈ json.members → ∀ rule ∈ rules.items, ∀ body,
    ("expression",body) ∈ rule.members → MembersReadable body

end Layout

end PegCompiler
