import PegCompiler.Proofs.Grammar.Layout

/-! Records are read back from their layout. Members are taken one by one: whatever their order, the
draft holds the fields seen so far, each with the value that was laid out, and in the end only fields
are missing that may be left out. -/
namespace PegCompiler

open Json (Entry IsObject)

namespace Json.Entry.FoundIn

variable {entry : Entry} {members : List (String × Json)} (found : entry.FoundIn members)
include found

theorem holds {value : Json} (member : (entry.key,value) ∈ members) : entry.holds value := by
  have kept : (entry.key,value) ∈ members.filter (·.1 == entry.key) := by simpa using member
  rcases found with ⟨other,only,holds⟩ | ⟨none,-⟩
  · rw [only] at kept
    simp only [List.mem_singleton,Prod.mk.injEq,true_and] at kept
    rwa [kept]
  · rw [none] at kept
    exact absurd kept List.not_mem_nil

theorem once : (members.map (·.1)).count entry.key ≤ 1 := by
  have same : (members.map (·.1)).count entry.key = (members.filter (·.1 == entry.key)).length := by
    rw [List.count,List.countP_map,List.countP_eq_length_filter]
    rfl
  rw [same]
  rcases found with ⟨other,only,-⟩ | ⟨none,-⟩
  · rw [only]
    exact Nat.le_refl 1
  · rw [none]
    exact Nat.zero_le 1

theorem given : entry.key ∈ members.map (·.1) ∨ entry.omittable := by
  rcases found with ⟨value,only,-⟩ | ⟨-,omitted⟩
  · have member : (entry.key,value) ∈ members.filter (·.1 == entry.key) := by simp [only]
    exact .inl (List.mem_map_of_mem (List.mem_filter.mp member).1)
  · exact .inr omitted

theorem others {key : String} (different : entry.key ≠ key) :
    entry.FoundIn (members.filter (·.1 != key)) := by
  have same : (members.filter (·.1 != key)).filter (·.1 == entry.key) =
      members.filter (·.1 == entry.key) := by
    rw [List.filter_filter]
    apply List.filter_congr
    grind
  unfold Entry.FoundIn
  rwa [same]

/-- A wanted member stands between members with other keys. -/
theorem split :
    (∃ before value after, members = before ++ (entry.key,value) :: after ∧ entry.holds value ∧
      members.filter (·.1 != entry.key) = before ++ after ∧ entry.key ∉ before.map (·.1) ∧
      entry.key ∉ after.map (·.1)) ∨
    entry.key ∉ members.map (·.1) ∧ members.filter (·.1 != entry.key) = members ∧ entry.omittable := by
  have absent {list : List (String × Json)} (none : list.filter (·.1 == entry.key) = []) :
      entry.key ∉ list.map (·.1) ∧ list.filter (·.1 != entry.key) = list := by
    rw [List.filter_eq_nil_iff] at none
    constructor
    · intro listed
      obtain ⟨member,inside,same⟩ := List.mem_map.mp listed
      exact none member inside (by simp [same])
    · apply List.filter_eq_self.mpr
      intro member inside
      simpa using none member inside
  rcases found with ⟨value,only,holds⟩ | ⟨none,omitted⟩
  · obtain ⟨before,after,rfl,unlike,-,rest⟩ := List.filter_eq_cons_iff.mp only
    obtain ⟨noneBefore,keptBefore⟩ := absent (List.filter_eq_nil_iff.mpr unlike)
    obtain ⟨noneAfter,keptAfter⟩ := absent rest
    refine .inl ⟨before,value,after,rfl,holds,?_,noneBefore,noneAfter⟩
    simp [keptBefore,keptAfter]
  · obtain ⟨missing,same⟩ := absent none
    exact .inr ⟨missing,same,omitted⟩

end Json.Entry.FoundIn

theorem Json.IsObject.solid {entries : List Entry} {json : Json} (laid : IsObject entries json) :
    json ≠ .null := by
  obtain ⟨members,rfl,-⟩ := laid
  exact Json.noConfusion

namespace Decode

def Access.Admits : Access → Json → Prop
  | .passing levels,json => json.height ≤ levels
  | .held,_ => True

theorem Access.enter_admitted {access : Access} {json : Json} (admitted : access.Admits json)
    (nested : 0 < json.height) :
    ∃ inner, access.enter = .ok inner ∧ ∀ part : Json, part.height < json.height → inner.Admits part := by
  cases access with
  | passing levels =>
    have bounded : json.height ≤ levels := admitted
    obtain ⟨levels,rfl⟩ := Nat.exists_eq_add_one_of_ne_zero (by omega : levels ≠ 0)
    refine ⟨.passing levels,rfl,fun part below => ?_⟩
    exact Nat.le_of_lt_succ (Nat.lt_of_lt_of_le below bounded)
  | held => exact ⟨.held,rfl,fun _ _ => trivial⟩

theorem Access.enter_passing {levels : Nat} {inner : Access}
    (entered : (Access.passing levels).enter = .ok inner) : ∃ fewer, inner = .passing fewer := by
  cases levels with
  | zero => simp [enter] at entered
  | succ levels => exact ⟨levels,by simpa [enter] using entered.symm⟩

@[simp] theorem ok_bind {α β : Type} (a : α) (next : α → Except DecodeError β) :
    (Except.ok a >>= next) = next a := rfl

@[simp] theorem pure_ok {α : Type} (a : α) : (pure a : Except DecodeError α) = .ok a := rfl

def kept {α : Type} (seen : List String) (key : String) (field : Option α) : Option α :=
  if key ∈ seen then field else none

section Kept

variable {α : Type} {seen : List String} {key other : String} {field : Option α} {value default : α}

@[simp] theorem kept_nil : kept [] key field = none := if_neg List.not_mem_nil

@[simp] theorem kept_self : kept (key :: seen) key field = field := if_pos List.mem_cons_self

@[simp] theorem kept_other (different : key ≠ other) :
    kept (other :: seen) key field = kept seen key field := by
  simp [kept,different]

@[simp] theorem kept_none : kept seen key (none : Option α) = none := ite_self none

theorem kept_required (given : key ∈ seen) : required (kept seen key (some value)) = .ok value := by
  rw [kept,if_pos given]
  rfl

theorem kept_getD (given : key ∈ seen ∨ value = default) :
    (kept seen key (some value)).getD default = value := by
  rw [kept]
  split
  next => rfl
  next unseen => exact (given.resolve_left unseen).symm

end Kept

/-! Members of an object. -/

/-- One pass over the members. A known key comes once, so it has not been seen when it is met. -/
private theorem readMembers_kept {σ : Type} {keys : List String}
    {read : σ → String → Json → Except DecodeError σ} (only : List String → σ)
    {members : List (String × Json)} (seen : List String)
    (step : ∀ key value seen, (key,value) ∈ members → key ∈ keys →
      read (only seen) key value = .ok (only (key :: seen)))
    (once : ∀ key ∈ keys, (members.map (·.1)).count key ≤ 1)
    (unseen : ∀ key ∈ keys, key ∈ members.map (·.1) → key ∉ seen) :
    ∃ after, readMembers keys read seen (only seen) members = .ok (only after) ∧
      ∀ key ∈ keys, key ∈ seen ∨ key ∈ members.map (·.1) → key ∈ after := by
  induction members generalizing seen with
  | nil => exact ⟨seen,rfl,by simp⟩
  | cons member rest ih =>
    obtain ⟨key,value⟩ := member
    have stepRest (k : String) (v : Json) (seen : List String) (member : (k,v) ∈ rest) :=
      step k v seen (List.mem_cons_of_mem _ member)
    have onceRest : ∀ k ∈ keys, (rest.map (·.1)).count k ≤ 1 := fun k known =>
      Nat.le_trans List.count_le_count_cons (once k known)
    by_cases known : key ∈ keys
    · have new : key ∉ seen := unseen key known (by simp)
      have absent : key ∉ rest.map (·.1) := by
        have count := once key known
        rw [List.map_cons,List.count_cons_self] at count
        exact List.count_eq_zero.mp (by omega)
      obtain ⟨after,run,covers⟩ := ih (key :: seen) stepRest onceRest (by
        intro k kKnown inRest
        have different : k ≠ key := fun same => absent (same ▸ inRest)
        simpa [different] using unseen k kKnown (List.mem_cons_of_mem _ inRest))
      refine ⟨after,?_,?_⟩
      · simp only [readMembers,List.contains_eq_mem,known,new,decide_true,decide_false,if_true,
          step key value seen List.mem_cons_self known]
        exact run
      · intro k kKnown met
        apply covers k kKnown
        simp only [List.map_cons,List.mem_cons] at met ⊢
        tauto
    · obtain ⟨after,run,covers⟩ := ih seen stepRest onceRest (fun k kKnown inRest =>
        unseen k kKnown (List.mem_cons_of_mem _ inRest))
      refine ⟨after,?_,?_⟩
      · simp only [readMembers,List.contains_eq_mem,known,decide_false]
        exact run
      · intro k kKnown met
        apply covers k kKnown
        have different : k ≠ key := fun same => known (same ▸ kKnown)
        simpa [different] using met

/-- Reading the wanted members of an object, in any order and among others. -/
theorem readMembers_found {σ : Type} {entries : List Entry}
    {read : σ → String → Json → Except DecodeError σ} (only : List String → σ)
    {members : List (String × Json)} (found : ∀ entry ∈ entries, entry.FoundIn members)
    (step : ∀ entry ∈ entries, ∀ value seen, (entry.key,value) ∈ members → entry.holds value →
      read (only seen) entry.key value = .ok (only (entry.key :: seen))) :
    ∃ seen, readMembers (entries.map (·.key)) read [] (only []) members = .ok (only seen) ∧
      ∀ entry ∈ entries, entry.key ∈ seen ∨ entry.omittable := by
  have stepKnown : ∀ key value seen, (key,value) ∈ members → key ∈ entries.map (·.key) →
      read (only seen) key value = .ok (only (key :: seen)) := by
    intro key value seen member known
    obtain ⟨entry,wanted,rfl⟩ := List.mem_map.mp known
    exact step entry wanted value seen member ((found entry wanted).holds member)
  have once : ∀ key ∈ entries.map (·.key), (members.map (·.1)).count key ≤ 1 := by
    intro key known
    obtain ⟨entry,wanted,rfl⟩ := List.mem_map.mp known
    exact (found entry wanted).once
  obtain ⟨seen,run,covers⟩ :=
    readMembers_kept only [] stepKnown once fun _ _ _ => List.not_mem_nil
  refine ⟨seen,run,?_⟩
  intro entry wanted
  have known : entry.key ∈ entries.map (·.key) := List.mem_map_of_mem wanted
  exact (found entry wanted).given.imp_left fun member => covers entry.key known (.inr member)

/-- A record in its layout is read into the draft of the keys that stand there, and a key that is
missing may be left out. -/
theorem record_kept {σ : Type} (keys : List String)
    (read : Access → σ → String → Json → Except DecodeError σ) (start : σ) (only : List String → σ)
    {entries : List Entry} {access : Access} {json : Json} (laid : IsObject entries json)
    (admitted : access.Admits json) (known : entries.map (·.key) = keys) (nothing : only [] = start)
    (step : ∀ entry ∈ entries, ∀ inner value seen, access.enter = .ok inner →
      (entry.key,value) ∈ json.members → entry.holds value → inner.Admits value →
      read inner (only seen) entry.key value = .ok (only (entry.key :: seen))) :
    ∃ seen, record keys read start access json = .ok (only seen) ∧
      ∀ entry ∈ entries, entry.key ∈ seen ∨ entry.omittable := by
  obtain ⟨members,rfl,found⟩ := laid
  obtain ⟨inner,entered,parts⟩ := access.enter_admitted admitted (Nat.zero_lt_succ _)
  obtain ⟨seen,run,given⟩ := readMembers_found only found fun entry wanted value seen member holds =>
    step entry wanted inner value seen entered member holds (parts value (Json.height_member member))
  refine ⟨seen,?_,given⟩
  rw [known,nothing] at run
  simp only [record,entered]
  exact run

/-! Lists and optional values. -/

theorem mapM_read {α β : Type} {layout : α → Json → Prop} {read : Json → Except DecodeError β}
    (value : α → β) {as : List α} {items : List Json} (laid : List.Forall₂ layout as items)
    (each : ∀ a ∈ as, ∀ item ∈ items, layout a item → read item = .ok (value a)) :
    items.mapM read = .ok (as.map value) := by
  induction laid with
  | nil => rfl
  | @cons a item as items first _ ih =>
    have head := each a List.mem_cons_self item List.mem_cons_self first
    have tail := ih fun a listed item member =>
      each a (List.mem_cons_of_mem _ listed) item (List.mem_cons_of_mem _ member)
    rw [List.mapM_cons,head,tail]
    rfl

theorem listOf_map {α β : Type} {layout : α → Json → Prop} {read : Access → Json → Except DecodeError β}
    (value : α → β) {as : List α} {access : Access} {json : Json} (laid : Layout.list layout as json)
    (admitted : access.Admits json)
    (each : ∀ a ∈ as, ∀ inner, ∀ item ∈ json.items, access.enter = .ok inner → layout a item →
      inner.Admits item → read inner item = .ok (value a)) :
    listOf read access json = .ok (as.map value) := by
  obtain ⟨items,rfl,laid⟩ := laid
  obtain ⟨inner,entered,parts⟩ := access.enter_admitted admitted (Nat.zero_lt_succ _)
  have run := mapM_read value laid fun a listed item member holds =>
    each a listed inner item member entered holds (parts item (Json.height_item member))
  simp only [listOf,entered]
  exact run

theorem listOf_read {α : Type} {layout : α → Json → Prop} {read : Access → Json → Except DecodeError α}
    {as : List α} {access : Access} {json : Json} (laid : Layout.list layout as json)
    (admitted : access.Admits json)
    (each : ∀ a inner item, layout a item → inner.Admits item → read inner item = .ok a) :
    listOf read access json = .ok as := by
  have run := listOf_map id laid admitted fun a _ inner item _ _ holds admitted =>
    each a inner item holds admitted
  rwa [List.map_id] at run

theorem nullable_solid {α : Type} {read : Json → Except DecodeError α} {json : Json}
    (solid : json ≠ .null) : nullable read json = some <$> read json := by
  cases json with
  | null => exact absurd rfl solid
  | _ => rfl

theorem nullable_read {α : Type} {layout : α → Json → Prop} {read : Json → Except DecodeError α}
    {value : Option α} {json : Json} (laid : Layout.nullable layout value json)
    (solid : ∀ a, ¬layout a .null) (each : ∀ a, layout a json → read json = .ok a) :
    nullable read json = .ok value := by
  cases value with
  | none =>
    obtain rfl : json = .null := laid
    rfl
  | some a =>
    have laid : layout a json := laid
    have other : json ≠ .null := by
      rintro rfl
      exact solid a laid
    rw [nullable_solid other,each a laid]
    rfl

/-! The records of a grammar, from the innermost on. -/

theorem text_read {s : String} {json : Json} (laid : Layout.text s json) : text json = .ok s := by
  rw [laid]
  rfl

theorem bool_read {b : Bool} {json : Json} (laid : Layout.flag b json) : bool json = .ok b := by
  rw [laid]
  rfl

theorem word_read {n : UInt32} {json : Json} (laid : Layout.word n json) : word json = .ok n := by
  rw [laid]
  simp [word,n.toNat_lt]

theorem nullableText_read {s : Option String} {json : Json} (laid : Layout.nullable Layout.text s json) :
    nullable text json = .ok s :=
  nullable_read laid (fun _ => Json.noConfusion) fun _ => text_read

theorem position_read {p : Position} {access : Access} {json : Json} (laid : Layout.position p json)
    (admitted : access.Admits json) : position access json = .ok p := by
  let only (seen : List String) : PositionDraft :=
    ⟨kept seen "offset" (some p.offset),kept seen "line" (some p.line),kept seen "column" (some p.column)⟩
  obtain ⟨seen,run,given⟩ := record_kept ["offset","line","column"]
    positionField {} only laid admitted rfl rfl (by
      simp only [List.forall_mem_cons]
      refine ⟨?_,?_,?_,by simp⟩
      all_goals
        intro inner value seen _ _ holds _
        simp [positionField,word_read holds,only])
  simp only [List.forall_mem_cons,or_false] at given
  obtain ⟨offset,line,column,-⟩ := given
  simp only [position,run,ok_bind,only,kept_required offset,kept_required line,kept_required column]
  rfl

theorem location_read {l : Location} {access : Access} {json : Json} (laid : Layout.location l json)
    (admitted : access.Admits json) : location access json = .ok l := by
  let only (seen : List String) : LocationDraft :=
    ⟨kept seen "start" (some l.start),kept seen "end" (some l.stop)⟩
  obtain ⟨seen,run,given⟩ := record_kept ["start","end"]
    locationField {} only laid admitted rfl rfl (by
      simp only [List.forall_mem_cons]
      refine ⟨?_,?_,by simp⟩
      all_goals
        intro inner value seen _ _ holds admitted
        simp [locationField,position_read holds admitted,only])
  simp only [List.forall_mem_cons,or_false] at given
  obtain ⟨start,stop,-⟩ := given
  simp only [location,run,ok_bind,only,kept_required start,kept_required stop]
  rfl

theorem param_read {s : String} {access : Access} {json : Json} (laid : Layout.text s json) :
    param access json = .ok s := by
  rw [laid]
  cases access <;> rfl

theorem annotation_read {a : Annotation} {access : Access} {json : Json}
    (laid : Layout.note a json) (admitted : access.Admits json) :
    annotation access json = .ok a := by
  let only (seen : List String) : AnnotationDraft :=
    ⟨kept seen "name" (some a.name),kept seen "params" (some a.params),
      kept seen "location" (some a.location)⟩
  obtain ⟨seen,run,given⟩ := record_kept ["name","params","location"]
    annotationField {} only laid admitted rfl rfl (by
      simp only [List.forall_mem_cons]
      refine ⟨?_,?_,?_,by simp⟩
      all_goals intro inner value seen _ _ holds admitted
      · simp [annotationField,text_read holds,only]
      · have params : listOf param inner value = .ok a.params :=
          listOf_read holds admitted fun _ _ _ laid _ => param_read laid
        simp [annotationField,params,only]
      · have range : location inner value = .ok a.location := location_read holds admitted
        simp [annotationField,Layout.range,range,only])
  simp only [List.forall_mem_cons,or_false,Layout.range] at given
  obtain ⟨name,params,range,-⟩ := given
  simp only [ annotation,run,ok_bind,only,kept_required name,kept_getD params,kept_getD range]
  rfl

theorem notes_read {annotations : List Annotation} {access : Access} {json : Json}
    (laid : Layout.list Layout.note annotations json) (admitted : access.Admits json) :
    listOf annotation access json = .ok annotations :=
  listOf_read laid admitted fun _ _ _ laid admitted => annotation_read laid admitted

private theorem boundaryValue_read {value : UInt32 ⊕ String} {json : Json}
    (laid : Layout.boundValue value json) : boundaryValue json = .ok value := by
  cases value with
  | inl n =>
    have count := word_read laid
    obtain rfl : json = .number (.natural n.toNat) := laid
    rw [boundaryValue,count]
    · rfl
    · exact fun s => Json.noConfusion
  | inr label =>
    obtain rfl : json = .string label := laid
    rfl

theorem bound_read {constant : Bool} {value : Option (UInt32 ⊕ String)} {access : Access} {json : Json}
    (laid : Layout.bound constant value json) (admitted : access.Admits json) :
    ∃ draft, record ["constant","value"] boundaryField {} access json = .ok draft ∧
      required draft.constant = .ok constant ∧ draft.value.getD none = value := by
  let only (seen : List String) : BoundaryDraft :=
    ⟨kept seen "constant" (some constant),kept seen "value" (some value)⟩
  obtain ⟨seen,run,given⟩ := record_kept ["constant","value"]
    boundaryField {} only laid admitted rfl rfl (by
      simp only [List.forall_mem_cons]
      refine ⟨?_,?_,by simp⟩
      all_goals intro inner json seen _ _ holds _
      · simp [boundaryField,bool_read holds,only]
      · have read : nullable boundaryValue json = .ok value := by
          apply nullable_read holds
          · rintro (n | label) <;> exact Json.noConfusion
          · exact fun _ => boundaryValue_read
        simp [boundaryField,read,only])
  simp only [List.forall_mem_cons,or_false] at given
  obtain ⟨isConstant,isValue,-⟩ := given
  exact ⟨only seen,run,kept_required isConstant,kept_getD isValue⟩

theorem openBoundary_read {b : Boundary} {access : Access} {json : Json} (laid : Layout.boundary b json)
    (admitted : access.Admits json) : openBoundary access json = .ok (some b) := by
  cases b with
  | count n | label n =>
    obtain ⟨draft,run,constant,value⟩ := bound_read laid admitted
    simp [openBoundary,run,constant,value]

theorem openBoundary_none {constant : Bool} {access : Access} {json : Json}
    (laid : Layout.bound constant none json) (admitted : access.Admits json) :
    openBoundary access json = .ok none := by
  obtain ⟨draft,run,isConstant,value⟩ := bound_read laid admitted
  simp [openBoundary,run,isConstant,value]

theorem lowerBound_read {b : Boundary} {json : Json} (laid : Layout.boundary b json) :
    lowerBound json = .ok b := by
  have read : openBoundary .held json = .ok (some b) := openBoundary_read laid trivial
  simp [lowerBound,read]

theorem upperBound_read {b : Option Boundary} {json : Json} (laid : Layout.upperBound b json) :
    upperBound json = .ok b := by
  cases b with
  | none =>
    have either : json = .null ∨ ∃ constant, Layout.bound constant none json := laid
    rcases either with rfl | ⟨constant,laid⟩
    · rfl
    · have read : openBoundary .held json = .ok none := openBoundary_none laid trivial
      rw [upperBound,nullable_solid laid.solid,read]
      rfl
  | some b =>
    have laid : Layout.boundary b json := laid
    have read : openBoundary .held json = .ok (some b) := openBoundary_read laid trivial
    have solid : json ≠ .null := by
      cases b <;> exact IsObject.solid laid
    rw [upperBound,nullable_solid solid,read]
    rfl

theorem char_read {c : Char} {json : Json} (laid : Layout.char c json) : char json = .ok c := by
  rw [char,text_read laid]
  simp

theorem classPart_read {part : ClassPart} {json : Json} (laid : Layout.classPart part json) :
    classPart json = .ok part := by
  cases part with
  | single c =>
    have read := char_read laid
    obtain rfl : json = .string (String.singleton c) := laid
    simp [classPart,read]
  | range lo hi =>
    obtain ⟨first,last,rfl,low,high⟩ := laid
    simp [classPart,char_read low,char_read high]

end Decode

end PegCompiler
