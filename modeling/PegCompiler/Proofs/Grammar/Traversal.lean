import PegCompiler.Grammar.Decode
import PegCompiler.Proofs.Grammar.Validity

/-! The traversal of expressions, read from the parts of a node alone. Visiting the nodes to change
their sites, in any monad, comes to going through the nodes of this traversal one after the other.
So numbers handed out on such a visit rise along the traversal, and a counter of 32 bits gives the same
numbers as long as it does not run over. -/
namespace PegCompiler

namespace Expr

theorem sizeOf_child {e child : Expr} (part : child ∈ e.children) : sizeOf child < sizeOf e := by
  cases e with
  | choice site parts | sequence site parts =>
    have smaller : sizeOf child < sizeOf parts := List.sizeOf_lt_of_mem part
    simp only [choice.sizeOf_spec,sequence.sizeOf_spec]
    omega
  | named | action | labeled | text | optional | repeated | lookahead =>
    obtain rfl := List.mem_singleton.mp part
    simp only [named.sizeOf_spec,action.sizeOf_spec,labeled.sizeOf_spec,text.sizeOf_spec,
      optional.sizeOf_spec,repeated.sizeOf_spec,lookahead.sizeOf_spec]
    omega
  | predicate | ruleRef | literal | charClass | any => exact nomatch part

def walk (e : Expr) : List Expr :=
  e :: e.children.attach.flatMap fun child => child.1.walk
termination_by sizeOf e
decreasing_by exact sizeOf_child child.2

theorem nodesAll_eq (es : List Expr) : nodesAll es = es.flatMap nodes := by
  induction es with
  | nil => rfl
  | cons e rest ih => rw [nodesAll,ih,List.flatMap_cons]

theorem walk_eq (e : Expr) : e.walk = e.nodes := by
  induction e using Expr.children_induction with
  | parts e ih =>
    have parts : (e.children.attach.flatMap fun child => child.1.walk) =
        e.children.attach.flatMap fun child => child.1.nodes :=
      List.flatMap_congr fun child _ => ih child.1 child.2
    rw [walk,nodes_eq,nodesAll_eq,parts]
    simp

mutual

def visit {m : Type → Type} [Monad m] (change : Site → m Site) : Expr → m Expr
  | .named site name body => return .named (← change site) name (← body.visit change)
  | .choice site alternatives => return .choice (← change site) (← visitAll change alternatives)
  | .action site act body => return .action (← change site) act (← body.visit change)
  | .sequence site elements => return .sequence (← change site) (← visitAll change elements)
  | .labeled site label body => return .labeled (← change site) label (← body.visit change)
  | .text site body => return .text (← change site) (← body.visit change)
  | .optional site body => return .optional (← change site) (← body.visit change)
  | .repeated site repetition body => return .repeated (← change site) repetition (← body.visit change)
  | .lookahead site isNegative body => return .lookahead (← change site) isNegative (← body.visit change)
  | .predicate site isNegative code ns => return .predicate (← change site) isNegative code ns
  | .ruleRef site name => return .ruleRef (← change site) name
  | .literal site value ignoreCase => return .literal (← change site) value ignoreCase
  | .charClass site parts inverted ignoreCase rawText =>
    return .charClass (← change site) parts inverted ignoreCase rawText
  | .any site => return .any (← change site)

def visitAll {m : Type → Type} [Monad m] (change : Site → m Site) : List Expr → m (List Expr)
  | [] => return []
  | e :: rest => return (← e.visit change) :: (← visitAll change rest)

end

section Order

variable {m : Type → Type} [Monad m] [LawfulMonad m] (change : Site → m Site)

theorem visitAll_order {es : List Expr}
    (all : ∀ e ∈ es, (fun e => e.nodes.map site) <$> e.visit change = (e.nodes.map site).mapM change) :
    (fun es => (nodesAll es).map site) <$> visitAll change es = ((nodesAll es).map site).mapM change := by
  induction es with
  | nil => simp [visitAll,nodesAll]
  | cons e rest ih =>
    have first := all e List.mem_cons_self
    have others := ih fun e member => all e (List.mem_cons_of_mem _ member)
    simp only [visitAll,nodesAll,List.map_append,List.mapM_append,← first,← others]
    simp [nodesAll]

/-- A visit changes the sites of the nodes in the order of the traversal, and what it gives back has
the new sites in this order. -/
theorem visit_order (e : Expr) :
    (fun e => e.nodes.map site) <$> e.visit change = (e.nodes.map site).mapM change := by
  induction e using Expr.induction with
  | choice here parts ih | sequence here parts ih =>
    simp only [visit,nodes,List.map_cons,List.mapM_cons,← visitAll_order change ih]
    simp [nodes,site]
  | named | action | labeled | text | optional | repeated | lookahead =>
    rename_i ih
    simp only [visit,nodes,List.map_cons,List.mapM_cons,← ih]
    simp [nodes,site]
  | predicate | ruleRef | literal | charClass | any => simp [visit,nodes,site]

end Order

def stamp (site : Site) : StateT UInt32 Option Site := fun next =>
  if next.toNat + 1 < UInt32.size then some ({ site with id := next.toNat },next + 1) else none

/-- A run takes numbers in a row, `size` of them, for a result that depends on the first one. It fails
if they do not all fit the counter. -/
def Counts {α : Type} (run : StateT UInt32 Option α) (size : Nat) (result : Nat → α) : Prop :=
  ∀ next : UInt32, run next =
    if next.toNat + size < UInt32.size then
      some (result next.toNat,next + UInt32.ofNat size)
    else none

namespace Counts

variable {α β : Type}

theorem pure (value : α) : Counts (pure value) 0 fun _ => value := by
  intro next
  have same : next + UInt32.ofNat 0 = next := UInt32.add_zero next
  rw [if_pos (by simpa using next.toNat_lt_size),same]
  rfl

theorem stamp (site : Site) : Counts (stamp site) 1 fun next => { site with id := next } :=
  fun _ => rfl

/-- A second run goes on behind the numbers of the first. -/
theorem bind {first : StateT UInt32 Option α} {size : Nat} {result : Nat → α}
    {second : α → StateT UInt32 Option β} {more : Nat} {final : α → Nat → β}
    (counts : Counts first size result) (others : ∀ value, Counts (second value) more (final value)) :
    Counts (first >>= second) (size + more) fun next => final (result next) (next + size) := by
  intro next
  have stepped : (first >>= second) next = (first next).bind fun done => second done.1 done.2 := rfl
  rw [stepped,counts]
  by_cases fits : next.toNat + size < UInt32.size
  · have after : (next + UInt32.ofNat size).toNat = next.toNat + size := by
      rw [UInt32.toNat_add,UInt32.toNat_ofNat']
      simp only [UInt32.size] at fits
      omega
    rw [if_pos fits,Option.bind_some,others,after,Nat.add_assoc,UInt32.ofNat_add,UInt32.add_assoc]
  · rw [if_neg fits,if_neg (by omega)]
    rfl

theorem leaf {build : Site → Expr} (site : Site) :
    Counts (do return build (← Expr.stamp site)) 1 fun next => build { site with id := next } :=
  (stamp site).bind fun here => pure (build here)

theorem around {parts : StateT UInt32 Option α} {size : Nat} {value : Nat → α} (site : Site)
    (build : Site → α → Expr) (inner : Counts parts size value) :
    Counts (do return build (← Expr.stamp site) (← parts)) (size + 1)
      fun next => build { site with id := next } (value (next + 1)) := by
  have whole := (stamp site).bind fun here => inner.bind fun given => pure (build here given)
  rwa [Nat.add_zero,Nat.add_comm] at whole

end Counts

theorem visitAll_counts {es : List Expr}
    (all : ∀ e ∈ es, Counts (e.visit stamp) e.nodes.length fun next => (e.number next).1) :
    Counts (visitAll stamp es) (nodesAll es).length fun next => (numberAll next es).1 := by
  induction es with
  | nil => exact .pure []
  | cons e rest ih =>
    have others := ih fun e member => all e (List.mem_cons_of_mem _ member)
    have whole := (all e List.mem_cons_self).bind fun first =>
      others.bind fun given => .pure (first :: given)
    simp only [nodesAll,numberAll,List.length_append,number_after]
    exact whole

/-- Visited with a counter, an expression has the numbers that numbering gives it. -/
theorem visit_counts (e : Expr) :
    Counts (e.visit stamp) e.nodes.length fun next => (e.number next).1 := by
  induction e using Expr.induction with
  | named site name body ih => exact .around site (.named · name) ih
  | choice site alternatives ih => exact .around site .choice (visitAll_counts ih)
  | action site act body ih => exact .around site (.action · act) ih
  | sequence site elements ih => exact .around site .sequence (visitAll_counts ih)
  | labeled site label body ih => exact .around site (.labeled · label) ih
  | text site body ih => exact .around site .text ih
  | optional site body ih => exact .around site .optional ih
  | repeated site repetition body ih => exact .around site (.repeated · repetition) ih
  | lookahead site isNegative body ih => exact .around site (.lookahead · isNegative) ih
  | predicate site isNegative code ns => exact .leaf site
  | ruleRef site name => exact .leaf site
  | literal site value ignoreCase => exact .leaf site
  | charClass site parts inverted ignoreCase rawText => exact .leaf site
  | any site => exact .leaf site

end Expr

namespace Grammar

def walked (g : Grammar) : List Expr :=
  g.rules.flatMap fun rule => rule.body.walk

theorem walked_eq (g : Grammar) : g.walked = g.nodes := by
  simp only [walked,nodes,Expr.walk_eq]

def stampRules : List Rule → StateT UInt32 Option (List Rule)
  | [] => return []
  | rule :: rest => do
    let body ← rule.body.visit Expr.stamp
    return { rule with body } :: (← stampRules rest)

def stamped (g : Grammar) : Option Grammar :=
  (stampRules g.rules 0).map fun done => { g with rules := done.1 }

theorem stampRules_counts (rules : List Rule) :
    Expr.Counts (stampRules rules) (rules.flatMap fun rule => rule.body.nodes).length
      fun next => numberRules next rules := by
  induction rules with
  | nil => exact .pure []
  | cons rule rest ih =>
    have whole := rule.body.visit_counts.bind fun body =>
      ih.bind fun given => .pure ({ rule with body } :: given)
    simp only [numberRules,List.flatMap_cons,List.length_append,Expr.number_after]
    exact whole

theorem stamped_eq (g : Grammar) :
    g.stamped = if g.nodeCount < UInt32.size then some g.numbered else none := by
  have counts := stampRules_counts g.rules 0
  have count : (0 : UInt32).toNat + (g.rules.flatMap fun rule => rule.body.nodes).length =
      g.nodeCount := by
    simp [nodeCount,nodes]
  rw [stamped,counts,count]
  split <;> rfl

theorem given_of_map {ε α β : Type} {result : Except ε α} {f : α → β} {value : β}
    (mapped : result.map f = .ok value) : ∃ given, result = .ok given ∧ f given = value := by
  cases result with
  | error error => exact nomatch mapped
  | ok given => exact ⟨given,rfl,Except.ok.inj mapped⟩

theorem load_decoded {source : String} {g : Grammar} (ok : load source = .ok g) :
    decode source = .ok g := by
  unfold load at ok
  split at ok
  · exact nomatch ok
  next decoded read =>
    split at ok
    · exact nomatch ok
    · cases ok
      exact read

/-- What is read from a text is a draft whose nodes were numbered. -/
theorem decode_draft {source : String} {g : Grammar} (ok : decode source = .ok g) :
    ∃ json draft, Json.parse source = .ok json ∧
      Decode.grammar (.passing Decode.nestingLimit) json = .ok draft ∧ g = draft.numbered := by
  unfold decode at ok
  split at ok
  · exact nomatch ok
  · exact nomatch ok
  next json parsed =>
    cases read : Decode.grammar (.passing Decode.nestingLimit) json with
    | error error =>
      rw [read] at ok
      exact nomatch ok
    | ok draft =>
      rw [read] at ok
      cases ok
      exact ⟨json,draft,parsed,read,rfl⟩

structure FollowsWalk (draft g : Grammar) : Prop where
  ids : g.walked.map Expr.id = List.range g.nodeCount
  count : g.nodeCount = g.walked.length
  nodes : g.walked.map Expr.unnumbered = draft.walked.map Expr.unnumbered
  stamped : draft.stamped = if g.nodeCount < UInt32.size then some g else none

theorem numbered_followsWalk (draft : Grammar) : FollowsWalk draft draft.numbered := by
  have nodes : draft.numbered.nodes.map Expr.unnumbered = draft.nodes.map Expr.unnumbered := by
    rw [← nodes_unnumbered,unnumbered_numbered,nodes_unnumbered]
  have count : draft.numbered.nodeCount = draft.nodeCount := by
    simpa [nodeCount] using congrArg List.length nodes
  constructor
  · rw [walked_eq,numbered_ids,count]
  · rw [walked_eq,nodeCount]
  · rw [walked_eq,walked_eq,nodes]
  · rw [stamped_eq,count]

/-- The nodes of a grammar, put together from rules or read from a text, have the numbers from 0 on in
the order of the traversal. That is the order in which any visit that changes the nodes meets them. -/
theorem ids_follow_walk :
    (∀ initializers rules, FollowsWalk { initializers,rules } (ofRules initializers rules)) ∧
    (∀ source g, load source = .ok g → ∃ json draft, Json.parse source = .ok json ∧
      Decode.grammar (.passing Decode.nestingLimit) json = .ok draft ∧ FollowsWalk draft g) ∧
    ∀ (m : Type → Type) [Monad m] [LawfulMonad m] (change : Site → m Site) (e : Expr),
      (fun e => e.walk.map Expr.site) <$> e.visit change = (e.walk.map Expr.site).mapM change := by
  refine ⟨fun initializers rules => numbered_followsWalk _,?_,?_⟩
  · intro source g ok
    obtain ⟨json,draft,parsed,read,rfl⟩ := decode_draft (load_decoded ok)
    exact ⟨json,draft,parsed,read,draft.numbered_followsWalk⟩
  · intro m _ _ change e
    simp only [Expr.walk_eq]
    exact e.visit_order change

def forkSource : String :=
  "\x7b\"rules\":[\x7b\"name\":\"a\",\"expression\":\x7b\"type\":\"choice\",\"alternatives\":[" ++
    "\x7b\"type\":\"sequence\",\"elements\":[\x7b\"type\":\"any\"\x7d," ++
    "\x7b\"type\":\"rule_ref\",\"name\":\"b\"\x7d]\x7d,\x7b\"type\":\"any\"\x7d]\x7d\x7d," ++
    "\x7b\"name\":\"b\",\"expression\":\x7b\"type\":\"any\"\x7d\x7d]\x7d"

/-- Its nodes are counted through both rules. -/
theorem forkSource_numbered : ∃ g, load forkSource = .ok g ∧
    g.walked.map Expr.id = [0,1,2,3,4,5] := by
  have size : (load forkSource).map nodeCount = .ok 6 := by decide +kernel
  obtain ⟨g,run,count⟩ := given_of_map size
  obtain ⟨-,loaded,-⟩ := ids_follow_walk
  obtain ⟨_,_,_,_,follows⟩ := loaded forkSource g run
  refine ⟨g,run,?_⟩
  rw [follows.ids,count]
  rfl

end Grammar

end PegCompiler
