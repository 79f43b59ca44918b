import Memoir.TypeInstructions
import Mathlib.Data.Finset.Card
import Mathlib.Data.Finset.Range
import Mathlib.Data.List.ReduceOption
import Mathlib.Logic.Relation

/-! When a query of the type analysis ends: when no value needs itself through a type or through an
object that is read. Such an operand is analysed by a query of its own, which forgets what was visited. -/
namespace Memoir.TypeAnalysis
open TypeGetters Outcomes

/-- The declared return type of a function with a body, or else what it returns. -/
def Function.followed (function : Function) : List Value :=
  if function.empty then []
  else
    match function.returnTypes with
    | type :: _ => [type]
    | [] => function.returned.reduceOption

/-- Allocations, assertions, accesses and calls of functions that declare what they return get a type
whenever their visit ends. -/
def Kind.isDefinite : Kind → Bool
  | .structAlloc _ | .tensorAlloc _ _ | .assocArrayAlloc _ _ | .sequenceAlloc _ | .read _
  | .structRead _ _ | .get _ | .structGet _ _ | .assertStructType _ _ | .assertCollectionType _ _
  | .returnType _ => true
  | .call true callee => !callee.empty && !callee.returnTypes.isEmpty
  | _ => false

def Kind.needed : Kind → List Value
  | .read object | .structRead object _ | .get object | .structGet object _ => [object]
  | .call _ callee => callee.followed
  | kind => kind.types

def Kind.followed : Kind → List Value
  | .forward _ collection | .assocKeys collection => [collection]
  | .swap fromCollection toCollection | .mutSeqSwap fromCollection toCollection =>
    [fromCollection,toCollection]
  | .call true callee => callee.followed
  | .indirectCall true candidates => candidates.flatMap Function.followed
  | .phi incoming => incoming
  | _ => []

def Kind.isSwap : Kind → Bool
  | .swap _ _ | .mutSeqSwap _ _ => true
  | _ => false

def Definite (module : Module) (value : Value) : Prop :=
  TypeValue module value ∨ (module.kind value).isDefinite

/-- The other collection of a swap whose first collection is definite is not asked for its type. -/
inductive Spared (module : Module) : Value → Value → Prop
  | swap {value fromCollection toCollection : Value}
    (isSwap : module.kind value = .swap fromCollection toCollection ∨
      module.kind value = .mutSeqSwap fromCollection toCollection)
    (definite : Definite module fromCollection) (other : toCollection ≠ fromCollection) :
    Spared module value toCollection

def Module.assertion (module : Module) (value : Value) : Option Value :=
  (module.users value).find? fun user => (module.kind user).assertedType.isSome

/-- The type of the first value is that of the second, or is found by it. -/
inductive Follows (module : Module) : Value → Value → Prop
  | operand {value operand : Value} (member : operand ∈ (module.kind value).followed)
    (asked : ¬ Spared module value operand) : Follows module value operand
  | load {value first : Value} {rest : List Value}
    (isLoad : module.kind value = .load (some (first :: rest))) (object : ¬ TypeValue module first) :
    Follows module value first
  | asserted {value user : Value} (indefinite : ¬ Definite module value)
    (first : module.assertion value = some user) : Follows module value user

/-- The visit may forget what was visited, and find no type: that of a reference type, or of an indirect
call that may return one. -/
inductive Forgets (module : Module) : Value → Prop
  | reference {value referenced : Value} (isReference : module.kind value = .referenceType referenced) :
    Forgets module value
  | operand {value operand : Value} (indefinite : ¬ Definite module value)
    (follows : Follows module value operand) (forgets : Forgets module operand) : Forgets module value

/-- The type of the first value is made from that of the second, or it may be asked for anew. -/
inductive Needs (module : Module) : Value → Value → Prop
  | part {value part : Value} (isType : TypeValue module value)
    (member : part ∈ (module.kind value).parts) : Needs module value part
  | definition {value name : Value} {definition : Definition}
    (isStruct : module.kind value = .structType name)
    (first : (module.definitions name).head? = some definition) : Needs module value definition.value
  | operand {value operand : Value} (definite : (module.kind value).isDefinite)
    (member : operand ∈ (module.kind value).needed) : Needs module value operand
  | anew {value operand : Value} (indefinite : ¬ Definite module value) (forgets : Forgets module value)
    (follows : Follows module value operand) : Needs module value operand

def DependsOn (module : Module) (value other : Value) : Prop :=
  Needs module value other ∨ Follows module value other

abbrev Depends (module : Module) : Value → Value → Prop := Relation.ReflTransGen (DependsOn module)

/-- No value that the query gets to needs what depends on it. -/
def Acyclic (module : Module) (query : Value) : Prop :=
  ∀ value other,Depends module query value → Needs module value other → ¬ Depends module other value

theorem acyclic_of_rank {module : Module} (rank : Value → Nat)
    (needs : ∀ value other,Needs module value other → rank other < rank value)
    (follows : ∀ value other,Follows module value other → rank other ≤ rank value) (query : Value) :
    Acyclic module query := by
  have descends : ∀ value other,Depends module value other → rank other ≤ rank value := by
    intro value other depends
    induction depends with
    | refl => exact Nat.le_refl _
    | tail _ step ih =>
      rcases step with needed | followed
      · exact (Nat.le_of_lt (needs _ _ needed)).trans ih
      · exact (follows _ _ followed).trans ih
  intro value other _ needed cycle
  exact absurd (descends other value cycle) (Nat.not_le_of_lt (needs value other needed))

section Count
open Classical
variable {length : Nat} {first second : Value → Prop}

noncomputable def count (length : Nat) (holds : Value → Prop) : Nat :=
  ((Finset.range length).filter holds).card

theorem count_le_length (length : Nat) (holds : Value → Prop) : count length holds ≤ length := by
  have bound := Finset.card_filter_le (Finset.range length) holds
  rw [Finset.card_range] at bound
  exact bound

theorem count_le (length : Nat) (implies : ∀ value,first value → second value) :
    count length first ≤ count length second := by
  apply Finset.card_le_card
  intro value member
  obtain ⟨inside,holds⟩ := Finset.mem_filter.mp member
  exact Finset.mem_filter.mpr ⟨inside,implies value holds⟩

theorem count_lt {value : Value} (implies : ∀ value,first value → second value)
    (known : value < length) (holds : second value) (fails : ¬ first value) :
    count length first < count length second := by
  apply Finset.card_lt_card
  refine ⟨?_,fun subset => ?_⟩
  · intro other member
    obtain ⟨inside,holds⟩ := Finset.mem_filter.mp member
    exact Finset.mem_filter.mpr ⟨inside,implies other holds⟩
  · have member := subset (Finset.mem_filter.mpr ⟨Finset.mem_range.mpr known,holds⟩)
    exact fails (Finset.mem_filter.mp member).2

end Count

structure Ranked (module : Module) (rank : Value → Nat) (inside : Value → Prop) : Prop where
  needs : ∀ value other,inside value → Needs module value other → inside other ∧ rank other < rank value
  follows : ∀ value other,inside value → Follows module value other →
    inside other ∧ rank other ≤ rank value

theorem definite_known {module : Module} {value : Value} (definite : Definite module value) :
    value < module.kinds.length := by
  rcases definite with isType | definite
  · exact isType.known
  · apply kind_known rfl
    intro isKind
    rw [isKind] at definite
    exact absurd definite (by simp [Kind.isDefinite])

theorem asserts_of_assertion {module : Module} {value user : Value}
    (first : module.assertion value = some user) : user ∈ module.users value ∧
      ∃ type,(module.kind user).assertedType = some type :=
  ⟨List.mem_of_find?_eq_some first,
    Option.isSome_iff_exists.mp (by simpa using List.find?_some first)⟩

theorem definite_of_asserts {module : Module} {value type : Value}
    (asserts : (module.kind value).assertedType = some type) :
    (module.kind value).isDefinite ∧ type ∈ (module.kind value).needed := by
  cases isKind : module.kind value with
  | assertStructType _ _ | assertCollectionType _ _ =>
    rw [isKind] at asserts
    obtain rfl := Option.some.inj asserts
    exact ⟨rfl,List.mem_cons_self⟩
  | _ =>
    rw [isKind] at asserts
    exact absurd asserts (by simp [Kind.assertedType])

/-- Of definite values, only reference types forget. -/
theorem Forgets.isReference {module : Module} {value : Value} (forgets : Forgets module value)
    (definite : Definite module value) : ∃ referenced,module.kind value = .referenceType referenced := by
  cases forgets with
  | reference isReference => exact ⟨_,isReference⟩
  | operand indefinite _ _ => exact absurd definite indefinite

theorem assertion_remembers {module : Module} {value type : Value}
    (asserts : (module.kind value).assertedType = some type) : ¬ Forgets module value := by
  intro forgets
  obtain ⟨referenced,isReference⟩ := forgets.isReference (.inr (definite_of_asserts asserts).1)
  rw [isReference] at asserts
  exact absurd asserts (by simp [Kind.assertedType])

theorem Forgets.known {module : Module} {value : Value} (forgets : Forgets module value) :
    value < module.kinds.length := by
  cases forgets with
  | reference isReference => exact kind_known isReference (by simp)
  | operand _ follows forgets =>
    cases follows with
    | operand member _ =>
      apply kind_known rfl
      intro isKind
      rw [isKind] at member
      exact absurd member List.not_mem_nil
    | load isLoad _ => exact kind_known isLoad (by simp)
    | asserted _ first =>
      obtain ⟨_,_,asserts⟩ := asserts_of_assertion first
      exact absurd forgets (assertion_remembers asserts)

theorem Needs.known {module : Module} {value other : Value} (needs : Needs module value other) :
    value < module.kinds.length := by
  cases needs with
  | part isType _ => exact isType.known
  | definition isStruct _ => exact kind_known isStruct (by simp)
  | operand definite _ => exact definite_known (.inr definite)
  | anew _ forgets _ => exact forgets.known

/-- The rank of a value counts what it depends on and what needs something. -/
noncomputable def rankOf (module : Module) (value : Value) : Nat :=
  count module.kinds.length fun other => Depends module value other ∧ ∃ needed,Needs module other needed

theorem ranked_of_acyclic {module : Module} {query : Value} (acyclic : Acyclic module query) :
    Ranked module (rankOf module) (Depends module query) := by
  refine ⟨?_,?_⟩
  · intro value other inside needs
    refine ⟨inside.tail (.inl needs),?_⟩
    apply count_lt _ needs.known ⟨.refl,other,needs⟩
    · rintro ⟨cycle,_⟩
      exact acyclic value other inside needs cycle
    · rintro last ⟨path,needed⟩
      exact ⟨path.head (.inl needs),needed⟩
  · intro value other inside follows
    refine ⟨inside.tail (.inr follows),count_le _ ?_⟩
    rintro last ⟨path,needed⟩
    exact ⟨path.head (.inr follows),needed⟩

/-- The definite values keep their types, and those that are visited in vain were so before. -/
structure Retains (module : Module) (before after : State) : Prop where
  types : ∀ value,Definite module value → before.valueToType value ≠ none →
    after.valueToType value ≠ none
  opened : ∀ value,Definite module value → value ∈ after.visited → after.valueToType value = none →
    value ∈ before.visited ∧ before.valueToType value = none

def Advances (module : Module) (before after : State) : Prop :=
  (∃ value,Definite module value ∧ before.valueToType value = none ∧ after.valueToType value ≠ none) ∨
    before.visited ⊆ after.visited

structure Progress (module : Module) (value : Value) (before after : State) : Prop where
  retains : Retains module before after
  advances : ¬ Forgets module value → Advances module before after

def Entered (module : Module) (rank : Value → Nat) (limit : Nat) (state : State) : Prop :=
  ∀ value,Definite module value → value ∈ state.visited → state.valueToType value = none →
    limit < rank value

section States
variable {module : Module} {rank : Value → Nat} {before state after : State} {value : Value}
  {limit : Nat} {type : Option Shape}

theorem Retains.refl (module : Module) (state : State) : Retains module state state :=
  ⟨fun _ _ typed => typed,fun _ _ visited untyped => ⟨visited,untyped⟩⟩

theorem Retains.trans (first : Retains module before state) (second : Retains module state after) :
    Retains module before after := by
  refine ⟨fun value definite typed => ?_,fun value definite visited untyped => ?_⟩
  · exact second.types value definite (first.types value definite typed)
  · obtain ⟨visited,untyped⟩ := second.opened value definite visited untyped
    exact first.opened value definite visited untyped

theorem Retains.of_clear (retains : Retains module before.clear after) :
    Retains module before after :=
  ⟨retains.types,fun value definite visited untyped =>
    absurd (retains.opened value definite visited untyped).1 List.not_mem_nil⟩

theorem Advances.refl (module : Module) (state : State) : Advances module state state :=
  .inr (List.Subset.refl _)

theorem Advances.trans (first : Advances module before state) (second : Advances module state after)
    (retains : Retains module before state) (retains' : Retains module state after) :
    Advances module before after := by
  rcases first with ⟨value,definite,untyped,typed⟩ | kept
  · exact .inl ⟨value,definite,untyped,retains'.types value definite typed⟩
  · rcases second with ⟨value,definite,untyped,typed⟩ | kept'
    · refine .inl ⟨value,definite,?_,typed⟩
      by_contra typed
      exact retains.types value definite typed untyped
    · exact .inr fun other visited => kept' (kept visited)

theorem Progress.refl (module : Module) (value : Value) (state : State) :
    Progress module value state state :=
  ⟨.refl module state,fun _ => .refl module state⟩

theorem Progress.trans (first : Progress module value before state)
    (second : Progress module value state after) : Progress module value before after :=
  ⟨first.retains.trans second.retains,fun remembers =>
    (first.advances remembers).trans (second.advances remembers) first.retains second.retains⟩

theorem Entered.retains (entered : Entered module rank limit before)
    (retains : Retains module before after) : Entered module rank limit after := by
  intro value definite visited untyped
  obtain ⟨visited,untyped⟩ := retains.opened value definite visited untyped
  exact entered value definite visited untyped

theorem Entered.le {limit' : Nat} (entered : Entered module rank limit state) (le : limit' ≤ limit) :
    Entered module rank limit' state :=
  fun value definite visited untyped =>
    Nat.lt_of_le_of_lt le (entered value definite visited untyped)

theorem Entered.markVisited (entered : Entered module rank limit state)
    (higher : Definite module value → limit < rank value) :
    Entered module rank limit (state.markVisited value) := by
  intro other definite visited untyped
  rcases List.mem_cons.mp visited with rfl | visited
  · exact higher definite
  · exact entered other definite visited untyped

theorem Entered.clear (module : Module) (rank : Value → Nat) (limit : Nat) (state : State) :
    Entered module rank limit state.clear :=
  fun _ _ visited _ => absurd visited List.not_mem_nil

/-- A definite value loses no type when it gets one, and others may lose theirs. -/
theorem Retains.memoize (retains : Retains module before state)
    (typed : Definite module value → type ≠ none) :
    Retains module before (state.memoize value type) := by
  refine ⟨fun other definite found => ?_,fun other definite visited untyped => ?_⟩
  · by_cases same : other = value
    · subst same
      rw [memoize_self]
      exact typed definite
    · rw [memoize_of_ne state type same]
      exact retains.types other definite found
  · by_cases same : other = value
    · subst same
      rw [memoize_self] at untyped
      exact absurd untyped (typed definite)
    · rw [memoize_of_ne state type same] at untyped
      exact retains.opened other definite visited untyped

theorem Advances.memoize (value : Value) (type : Option Shape) (advances : Advances module before state)
    (typed : Definite module value → type ≠ none) : Advances module before (state.memoize value type) := by
  rcases advances with ⟨other,definite,untyped,found⟩ | kept
  · refine .inl ⟨other,definite,untyped,?_⟩
    by_cases same : other = value
    · subst same
      rw [memoize_self]
      exact typed definite
    · rw [memoize_of_ne state type same]
      exact found
  · exact .inr kept

theorem Progress.memoize {owner : Value} (value : Value) (type : Option Shape)
    (progress : Progress module owner before state) (typed : Definite module value → type ≠ none) :
    Progress module owner before (state.memoize value type) :=
  ⟨progress.retains.memoize typed,fun remembers => (progress.advances remembers).memoize value type typed⟩

/-- The visit of a value that is not definite. -/
theorem Progress.of_markVisited (progress : Progress module value (before.markVisited value) after)
    (indefinite : ¬ Definite module value) : Progress module value before after := by
  refine ⟨⟨progress.retains.types,fun other definite visited untyped => ?_⟩,fun remembers => ?_⟩
  · obtain ⟨visited,untyped⟩ := progress.retains.opened other definite visited untyped
    refine ⟨(List.mem_cons.mp visited).resolve_left fun same => ?_,untyped⟩
    exact indefinite (same ▸ definite)
  · rcases progress.advances remembers with advanced | kept
    · exact .inl advanced
    · exact .inr fun other visited => kept (List.mem_cons_of_mem value visited)

/-- The visit of a definite value, which gets its type. -/
theorem Retains.of_markVisited (type : Shape)
    (retains : Retains module (before.markVisited value) state)
    (definite : Definite module value) (untyped : before.valueToType value = none) :
    Progress module value before (state.memoize value (some type)) := by
  have kept : Retains module (before.markVisited value) (state.memoize value (some type)) :=
    retains.memoize fun _ => by simp
  refine ⟨⟨kept.types,fun other definite visited untyped => ?_⟩,
    fun _ => .inl ⟨value,definite,untyped,?_⟩⟩
  · obtain ⟨visited',untyped'⟩ := kept.opened other definite visited untyped
    refine ⟨(List.mem_cons.mp visited').resolve_left fun same => ?_,untyped'⟩
    rw [same,memoize_self] at untyped
    exact absurd untyped (by simp)
  · rw [memoize_self]
    simp

end States

/-- The number of levels that suffice: by the rank, by the definite values without a type, and by the
values that are not visited. -/
noncomputable def levels (module : Module) (rank : Nat) (state : State) : Nat :=
  (rank * (module.kinds.length + 1) +
    count module.kinds.length fun value => Definite module value ∧ state.valueToType value = none) *
      (module.kinds.length + 1) + count module.kinds.length fun value => value ∉ state.visited

section Levels
variable {module : Module} {before after : State} {value : Value} {rank rank' : Nat}

theorem digits_lt {base high high' low : Nat} (lower : high < high') (small : low < base)
    (low' : Nat) : high * base + low < high' * base + low' := by
  calc
    high * base + low < high * base + base := Nat.add_lt_add_left small _
    _ = (high + 1) * base := (Nat.succ_mul high base).symm
    _ ≤ high' * base := Nat.mul_le_mul_right base lower
    _ ≤ high' * base + low' := Nat.le_add_right _ _

theorem levels_lt_of_rank (lower : rank < rank') (state state' : State) :
    levels module rank state < levels module rank' state' := by
  have untyped := count_le_length module.kinds.length fun value =>
    Definite module value ∧ state.valueToType value = none
  have unvisited := count_le_length module.kinds.length fun value => value ∉ state.visited
  apply digits_lt
  · exact digits_lt lower (Nat.lt_succ_of_le untyped) _
  · exact Nat.lt_succ_of_le unvisited

theorem levels_le_of_advances (le : rank ≤ rank') (retains : Retains module before after)
    (advances : Advances module before after) :
    levels module rank after ≤ levels module rank' before := by
  have untyped : ∀ value,Definite module value ∧ after.valueToType value = none →
      Definite module value ∧ before.valueToType value = none := by
    rintro value ⟨definite,untyped⟩
    refine ⟨definite,?_⟩
    by_contra typed
    exact retains.types value definite typed untyped
  have unvisited := count_le_length module.kinds.length fun value => value ∉ after.visited
  have ranks : rank * (module.kinds.length + 1) ≤ rank' * (module.kinds.length + 1) :=
    Nat.mul_le_mul_right _ le
  rcases advances with ⟨value,definite,isUntyped,typed⟩ | kept
  · have fewer := count_lt untyped (definite_known definite) ⟨definite,isUntyped⟩
      fun both => typed both.2
    apply Nat.le_of_lt
    exact digits_lt (Nat.add_lt_add_of_le_of_lt ranks fewer) (Nat.lt_succ_of_le unvisited) _
  · have fewer := count_le module.kinds.length untyped
    have fewer' : count module.kinds.length (fun value => value ∉ after.visited) ≤
        count module.kinds.length fun value => value ∉ before.visited :=
      count_le _ fun value unvisited visited => unvisited (kept visited)
    exact Nat.add_le_add (Nat.mul_le_mul_right _ (Nat.add_le_add ranks fewer)) fewer'

theorem levels_markVisited (known : value < module.kinds.length) (new : value ∉ before.visited) :
    levels module rank (before.markVisited value) < levels module rank before := by
  apply Nat.add_lt_add_left
  apply count_lt _ known new
  · exact fun unvisited => unvisited List.mem_cons_self
  · exact fun other unvisited visited => unvisited (List.mem_cons_of_mem value visited)

def levelsBound (module : Module) : Nat :=
  (module.kinds.length + 1) * (module.kinds.length + 1) * (module.kinds.length + 1)

theorem levels_lt_bound (few : rank ≤ module.kinds.length) (state : State) :
    levels module rank state < levelsBound module := by
  have untyped := count_le_length module.kinds.length fun value =>
    Definite module value ∧ state.valueToType value = none
  have unvisited := count_le_length module.kinds.length fun value => value ∉ state.visited
  have lower := digits_lt (Nat.lt_succ_of_le few) (Nat.lt_succ_of_le untyped) 0
  exact digits_lt lower (Nat.lt_succ_of_le unvisited) 0

end Levels

/-- What a visit that ends leaves. -/
structure Ended (module : Module) (value : Value) (before : State) (result : Option Shape)
    (after : State) : Prop where
  retains : Retains module before after
  advances : ¬ Forgets module value → Advances module before after
  typed : Definite module value → result ≠ none

def Ends (module : Module) (rank : Value → Nat) (inside : Value → Prop) (recurse : Visitor)
    (fuel : Nat) : Prop :=
  ∀ value state,inside value → Entered module rank (rank value) state →
    levels module (rank value) state < fuel →
    Routine.Meets True False (recurse value) state (Ended module value state)

structure Visiting (module : Module) (rank : Value → Nat) (inside : Value → Prop) (recurse : Visitor)
    (fuel : Nat) (value : Value) (state : State) : Prop where
  ranked : Ranked module rank inside
  ends : Ends module rank inside recurse fuel
  inside : inside value
  entered : Entered module rank (rank value) state
  enough : levels module (rank value) state ≤ fuel

abbrev Retaining {α : Type} (module : Module) (start : State) (run : Analysis α) : Prop :=
  Routine.Preserves True False (Retains module start) run

abbrev Advancing {α : Type} (module : Module) (value : Value) (start : State) (run : Analysis α) : Prop :=
  Routine.Preserves True False (Progress module value start) run

def Typing (module : Module) (start : State) (value : Value) (find : Analysis (Option Shape)) : Prop :=
  ∀ state,Retains module start state → Routine.Meets True False find state fun result after =>
    ∃ last type,result = some type ∧ Retains module start last ∧ after = last.memoize value (some type)

section Visits
variable {module : Module} {rank : Value → Nat} {inside : Value → Prop} {recurse : Visitor}
  {fuel : Nat} {value operand : Value} {start state : State}

theorem Typing.memoize (type : Shape) :
    Typing module start value (memoizeAndReturn value (some type)) :=
  fun state retains => ⟨state,type,rfl,retains,rfl⟩

theorem Typing.bind {α : Type} {run : Analysis α} {next : α → Analysis (Option Shape)}
    (first : Retaining module start run) (second : ∀ result,Typing module start value (next result)) :
    Typing module start value (run >>= next) := by
  intro state retains
  apply (first state retains).bind
  intro result after retains
  exact second result after retains

/-- After a null check. -/
theorem Typing.require (make : Shape → Shape) {result : Option Shape} :
    Typing module start value (do
      let type ← Routine.require result
      memoizeAndReturn value (some (make type))) := by
  apply Typing.bind (.require trivial result)
  exact fun type => Typing.memoize (make type)

theorem Visiting.meets_needed (visiting : Visiting module rank inside recurse fuel value state)
    (needs : Needs module value operand) {before : State}
    (retains : Retains module (state.markVisited value) before) :
    Routine.Meets True False (recurse operand) before fun result after =>
      Retains module (state.markVisited value) after ∧ (Definite module operand → result ≠ none) := by
  obtain ⟨isInside,lower⟩ := visiting.ranked.needs value operand visiting.inside needs
  have entered := (visiting.entered.le (Nat.le_of_lt lower)).markVisited fun _ => lower
  have enough := Nat.lt_of_lt_of_le (levels_lt_of_rank lower before state) visiting.enough
  apply (visiting.ends operand before isInside (entered.retains retains) enough).mono
  exact fun _ _ ended => ⟨retains.trans ended.retains,ended.typed⟩

theorem Visiting.needed (visiting : Visiting module rank inside recurse fuel value state)
    (needs : Needs module value operand) :
    Retaining module (state.markVisited value) (recurse operand) :=
  fun _ retains => (visiting.meets_needed needs retains).mono fun _ _ both => both.1

theorem Visiting.accessed (visiting : Visiting module rank inside recurse fuel value state)
    (needs : Needs module value operand) : Retaining module start (accessType recurse operand) := by
  intro before retains
  obtain ⟨isInside,lower⟩ := visiting.ranked.needs value operand visiting.inside needs
  have enough := Nat.lt_of_lt_of_le (levels_lt_of_rank lower before.clear state) visiting.enough
  simp only [accessType,analyze,Routine.meets_bind,Routine.meets_update]
  apply (visiting.ends operand before.clear isInside (.clear module rank _ before) enough).mono
  intro result after ended
  apply Routine.meets_require fun _ => trivial
  exact fun _ _ => retains.trans ended.retains.of_clear

theorem Visiting.followed (visiting : Visiting module rank inside recurse fuel value state)
    (follows : Follows module value operand) (indefinite : ¬ Definite module value)
    (known : value < module.kinds.length) (new : value ∉ state.visited) (before : State)
    (progress : Progress module value (state.markVisited value) before) :
    Routine.Meets True False (recurse operand) before fun result after =>
      Progress module value (state.markVisited value) after ∧ (Definite module operand → result ≠ none) := by
  have entered := visiting.entered.markVisited fun definite => absurd definite indefinite
  by_cases forgets : Forgets module value
  · obtain ⟨isInside,lower⟩ :=
      visiting.ranked.needs value operand visiting.inside (.anew indefinite forgets follows)
    have enough := Nat.lt_of_lt_of_le (levels_lt_of_rank lower before state) visiting.enough
    have entered := (entered.le (Nat.le_of_lt lower)).retains progress.retains
    apply (visiting.ends operand before isInside entered enough).mono
    intro result after ended
    exact ⟨⟨progress.retains.trans ended.retains,fun remembers => absurd forgets remembers⟩,ended.typed⟩
  · obtain ⟨isInside,le⟩ := visiting.ranked.follows value operand visiting.inside follows
    have enough : levels module (rank operand) before < fuel := by
      calc
        _ ≤ levels module (rank value) (state.markVisited value) :=
          levels_le_of_advances le progress.retains (progress.advances forgets)
        _ < levels module (rank value) state := levels_markVisited known new
        _ ≤ fuel := visiting.enough
    apply (visiting.ends operand before isInside ((entered.le le).retains progress.retains) enough).mono
    intro result after ended
    have advances := ended.advances fun forgotten => forgets (.operand indefinite follows forgotten)
    exact ⟨progress.trans ⟨ended.retains,fun _ => advances⟩,ended.typed⟩

theorem Visiting.advancing (visiting : Visiting module rank inside recurse fuel value state)
    (follows : Follows module value operand) (indefinite : ¬ Definite module value)
    (known : value < module.kinds.length) (new : value ∉ state.visited) :
    Advancing module value (state.markVisited value) (recurse operand) := by
  intro before progress
  apply (visiting.followed follows indefinite known new before progress).mono
  exact fun _ _ both => both.1

/-- The visit of a definite value. -/
theorem meets_definite {find : Analysis (Option Shape)} (definite : Definite module value)
    (entered : Entered module rank (rank value) state)
    (typing : Typing module (state.markVisited value) value find) :
    Routine.Meets True False (checkMemoized value find) state (Ended module value state) := by
  apply meets_checkMemoized
  · intro type _
    exact ⟨.refl module state,fun _ => .refl module state,fun _ => by simp⟩
  · intro untyped visited
    exact absurd (entered value definite visited untyped) (Nat.lt_irrefl _)
  · intro untyped _
    apply (typing _ (.refl module _)).mono
    rintro _ _ ⟨last,type,rfl,retains,rfl⟩
    have progress := retains.of_markVisited type definite untyped
    exact ⟨progress.retains,progress.advances,fun _ => by simp⟩

/-- The visit of another value. -/
theorem meets_indefinite {find : Analysis (Option Shape)} (indefinite : ¬ Definite module value)
    (advancing : value ∉ state.visited → Advancing module value (state.markVisited value) find) :
    Routine.Meets True False (checkMemoized value find) state (Ended module value state) := by
  have refl : ∀ result,Ended module value state result state := fun _ =>
    ⟨.refl module state,fun _ => .refl module state,fun definite => absurd definite indefinite⟩
  apply meets_checkMemoized
  · exact fun type _ => refl (some type)
  · exact fun _ _ => refl none
  · intro _ new
    apply (advancing new _ (.refl module value _)).mono
    intro result after progress
    have progress := progress.of_markVisited indefinite
    exact ⟨progress.retains,progress.advances,fun definite => absurd definite indefinite⟩

theorem Advancing.memoize (indefinite : ¬ Definite module value) (type : Option Shape) :
    Advancing module value start (memoizeAndReturn value type) := by
  apply Routine.Preserves.bind
  · exact .update fun _ progress => progress.memoize value type fun definite => absurd definite indefinite
  · exact fun _ => .pure type

/-- One part or operand, with a null check. -/
theorem Visiting.single (make : Shape → Shape)
    (visiting : Visiting module rank inside recurse fuel value state)
    (needs : Needs module value operand) (definite : Definite module value) :
    Routine.Meets True False (checkMemoized value do
      let type ← Routine.require (← recurse operand)
      memoizeAndReturn value (some (make type))) state (Ended module value state) := by
  apply meets_definite definite visiting.entered
  apply Typing.bind (visiting.needed needs)
  exact fun result => Typing.require make

theorem Visiting.access (make : Shape → Shape)
    (visiting : Visiting module rank inside recurse fuel value state)
    (needs : Needs module value operand) (definite : Definite module value) :
    Routine.Meets True False (checkMemoized value do
      let type ← accessType recurse operand
      memoizeAndReturn value (some (make type))) state (Ended module value state) := by
  apply meets_definite definite visiting.entered
  apply Typing.bind (visiting.accessed needs)
  exact fun type => Typing.memoize (make type)

theorem Visiting.define (definition : Definition)
    (visiting : Visiting module rank inside recurse fuel definition.value state)
    (isDefinition : module.kind definition.value =
      .defineStructType definition.name definition.fieldTypes) :
    Routine.Meets True False (visitDefineStructTypeInst module recurse definition) state
      (Ended module definition.value state) := by
  have isType : TypeValue module definition.value := .instruction (by rw [isDefinition]; rfl)
  apply meets_definite (.inl isType) visiting.entered
  apply Typing.bind
  · apply Routine.Preserves.each
    intro field member
    exact visiting.needed (.part isType (mem_parts isDefinition member))
  · intro fieldTypes
    apply Typing.bind (.require trivial _)
    intro name
    apply Typing.bind
    · apply Routine.Preserves.update
      intro last retains
      unfold State.define
      split
      · exact retains
      · exact ⟨retains.types,retains.opened⟩
    · exact fun _ => Typing.memoize (.struct name)

/-- The element types of accesses. -/
theorem Visiting.getElementType (visiting : Visiting module rank inside recurse fuel value state)
    (needs : Needs module value operand) : Retaining module start (getElementType recurse operand) := by
  apply (visiting.accessed needs).bind
  exact fun type => Routine.Preserves.read.bind fun _ => .require trivial _

theorem Visiting.getFieldElementType (visiting : Visiting module rank inside recurse fuel value state)
    (needs : Needs module value operand) (fieldIndex : Nat) :
    Retaining module start (getFieldElementType recurse operand fieldIndex) := by
  apply (visiting.accessed needs).bind
  intro type
  cases type with
  | struct name =>
    dsimp only
    split
    · exact Routine.Preserves.read.bind fun _ => .require trivial _
    · exact .abort trivial
  | _ => exact .abort trivial

/-- A value that is needed is visited with levels to spare. -/
theorem Visiting.deeper (visiting : Visiting module rank inside recurse fuel value state)
    (needs : Needs module value operand) {before : State}
    (retains : Retains module (state.markVisited value) before) :
    Visiting module rank inside recurse fuel operand before := by
  obtain ⟨isInside,lower⟩ := visiting.ranked.needs value operand visiting.inside needs
  have entered := (visiting.entered.le (Nat.le_of_lt lower)).markVisited fun _ => lower
  have enough := Nat.lt_of_lt_of_le (levels_lt_of_rank lower before state) visiting.enough
  exact ⟨visiting.ranked,visiting.ends,isInside,entered.retains retains,Nat.le_of_lt enough⟩

theorem Visiting.structType (visiting : Visiting module rank inside recurse fuel value state)
    (wellFormed : WellFormed module) {name : Value} (isStruct : module.kind value = .structType name) :
    Routine.Meets True False (visitStructTypeInst module recurse value name) state
      (Ended module value state) := by
  have isType : TypeValue module value := .instruction (by rw [isStruct]; rfl)
  apply meets_definite (.inl isType) visiting.entered
  intro before retains
  rw [Routine.meets_bind]
  apply Routine.meets_require fun _ => trivial
  intro definition first
  have isDefinition := (mem_definitions wellFormed (List.mem_of_mem_head? first)).1
  rw [Routine.meets_bind]
  apply ((visiting.deeper (.definition isStruct first) retains).define definition isDefinition).mono
  intro result after ended
  exact Typing.require id after (retains.trans ended.retains)

/-- Two parts or operands, with null checks. -/
theorem Visiting.pair {other : Value}
    (visiting : Visiting module rank inside recurse fuel value state)
    (needs : Needs module value operand) (needs' : Needs module value other)
    (definite : Definite module value) :
    Routine.Meets True False (visitAssocArrayAllocInst recurse value operand other) state
      (Ended module value state) := by
  apply meets_definite definite visiting.entered
  apply Typing.bind (visiting.needed needs)
  intro key
  apply Typing.bind (.require trivial key)
  intro key
  apply Typing.bind (visiting.needed needs')
  exact fun element => Typing.require (.assocArray _)

theorem Visiting.accessPair {other : Value}
    (visiting : Visiting module rank inside recurse fuel value state)
    (needs : Needs module value operand) (needs' : Needs module value other)
    (definite : Definite module value) :
    Routine.Meets True False (visitAssocArrayTypeInst recurse value operand other) state
      (Ended module value state) := by
  apply meets_definite definite visiting.entered
  apply Typing.bind (visiting.accessed needs)
  intro key
  apply Typing.bind (visiting.accessed needs')
  exact fun element => Typing.memoize (.assocArray key element)

theorem Visiting.element {element : Analysis Shape} (make : Shape → Shape)
    (visiting : Visiting module rank inside recurse fuel value state)
    (definite : Definite module value)
    (retaining : Retaining module (state.markVisited value) element) :
    Routine.Meets True False (checkMemoized value do
      let type ← element
      memoizeAndReturn value (some (make type))) state (Ended module value state) := by
  apply meets_definite definite visiting.entered
  apply Typing.bind retaining
  exact fun type => Typing.memoize (make type)

theorem indefinite_of_kind {kind : Kind} (isKind : module.kind value = kind)
    (notType : kind.isTypeInst = false) (notDefinite : kind.isDefinite = false)
    (notLoad : ∀ stored,kind ≠ .load stored) : ¬ Definite module value := by
  rintro (isType | definite)
  · exact not_typeValue (isKind ▸ notType) (isKind ▸ notLoad) isType
  · rw [isKind,notDefinite] at definite
    exact absurd definite (by simp)

theorem Visiting.swap {toCollection : Value}
    (visiting : Visiting module rank inside recurse fuel value state)
    (isSwap : module.kind value = .swap operand toCollection ∨
      module.kind value = .mutSeqSwap operand toCollection) :
    Routine.Meets True False (visitSwapInst recurse value operand toCollection) state
      (Ended module value state) := by
  have followed : (module.kind value).followed = [operand,toCollection] := by
    rcases isSwap with isSwap | isSwap <;> rw [isSwap] <;> rfl
  have indefinite : ¬ Definite module value := by
    rcases isSwap with isSwap | isSwap
    · exact indefinite_of_kind isSwap rfl rfl (by simp)
    · exact indefinite_of_kind isSwap rfl rfl (by simp)
  have known : value < module.kinds.length := by
    rcases isSwap with isSwap | isSwap <;> exact kind_known isSwap (by simp)
  have spared : ∀ {other},Spared module value other →
      Definite module operand ∧ other = toCollection ∧ toCollection ≠ operand := by
    intro other isSpared
    cases isSpared with | swap isSwap' definite differ =>
    rename_i first
    obtain ⟨rfl,rfl⟩ : operand = first ∧ toCollection = other := by
      rcases isSwap with isSwap | isSwap
      · simpa [isSwap] using isSwap'
      · simpa [isSwap] using isSwap'
    exact ⟨definite,rfl,differ⟩
  have follows : Follows module value operand := by
    refine .operand (followed ▸ List.mem_cons_self) fun isSpared => ?_
    obtain ⟨_,same,other⟩ := spared isSpared
    exact other same.symm
  apply meets_indefinite indefinite
  intro new before progress
  apply (visiting.followed follows indefinite known new before progress).bind
  rintro (_ | type) middle ⟨progress,typed⟩
  · have untyped : ¬ Definite module operand := fun definite => typed definite rfl
    have follows' : Follows module value toCollection :=
      .operand (followed ▸ List.mem_cons_of_mem _ List.mem_cons_self) fun isSpared =>
        untyped (spared isSpared).1
    apply (visiting.advancing follows' indefinite known new middle progress).bind
    intro type after progress
    have progress := progress.memoize operand type fun definite => absurd definite untyped
    exact Advancing.memoize indefinite type _ progress
  · have progress := progress.memoize toCollection (some type) fun _ => by simp
    exact Advancing.memoize indefinite (some type) _ progress

theorem Visiting.returnType {function : Function}
    (visiting : Visiting module rank inside recurse fuel value state)
    (indefinite : ¬ Definite module value) (known : value < module.kinds.length)
    (new : value ∉ state.visited)
    (follows : ∀ operand ∈ function.followed,Follows module value operand) :
    Advancing module value (state.markVisited value) (getReturnType recurse function) := by
  have advancing : ∀ operand ∈ function.followed,
      Advancing module value (state.markVisited value) (recurse operand) := fun operand member =>
    visiting.advancing (follows operand member) indefinite known new
  unfold getReturnType
  split
  · exact .pure none
  · rename_i filled
    rw [Function.followed,if_neg filled] at advancing
    cases isTypes : function.returnTypes with
    | cons type types => exact advancing type (by simp [isTypes])
    | nil =>
      apply Routine.Preserves.bind
      · apply Routine.Preserves.each
        intro returned member
        cases returned with
        | none => exact .pure none
        | some returned =>
          exact advancing returned (by simpa [isTypes] using List.reduceOption_mem_iff.mpr member)
      · exact fun types => .require trivial _

/-- A call of a function that declares what it returns. -/
theorem Visiting.declared {callee : Function} {type : Value} {types : List Value}
    (visiting : Visiting module rank inside recurse fuel value state) (wellFormed : WellFormed module)
    (isCall : module.kind value = .call true callee) (filled : callee.empty = false)
    (isTypes : callee.returnTypes = type :: types) :
    Routine.Meets True False (visitLLVMCallInst recurse value true callee) state
      (Ended module value state) := by
  have definite : (module.kind value).isDefinite := by simp [isCall,Kind.isDefinite,filled,isTypes]
  have needs : Needs module value type :=
    .operand definite (by simp [isCall,Kind.needed,Function.followed,filled,isTypes])
  have isType : TypeValue module type :=
    wellFormed.types value type (by simp [isCall,Kind.types,Kind.returnTypes,isTypes])
  apply meets_definite (.inr definite) visiting.entered
  intro before retains
  simp only [if_true,getReturnType,filled,isTypes]
  apply (visiting.meets_needed needs retains).bind
  rintro (_ | type) after ⟨retains,typed⟩
  · exact absurd rfl (typed (.inl isType))
  · exact Typing.memoize type after retains

theorem Advancing.visitIncoming {phi : Value} {values : List Value}
    (advancing : ∀ incoming ∈ values,Advancing module value start (recurse incoming)) :
    Advancing module value start (visitIncoming recurse phi values) := by
  induction values with
  | nil => exact .pure ()
  | cons incoming rest ih =>
    have ih := ih fun other member => advancing other (List.mem_cons_of_mem incoming member)
    apply Routine.Preserves.read.bind
    intro state
    split
    · exact ih
    · apply Routine.Preserves.bind
      · exact .update fun _ progress => ⟨⟨progress.retains.types,progress.retains.opened⟩,progress.advances⟩
      · intro _
        apply (advancing incoming List.mem_cons_self).bind
        intro type
        apply Routine.Preserves.bind _ fun _ => ih
        apply Routine.Preserves.update
        intro state progress
        cases type with
        | none => exact progress
        | some type =>
          exact ⟨⟨progress.retains.types,progress.retains.opened⟩,progress.advances⟩

end Visits

section Fuel
variable {module : Module} {rank : Value → Nat} {inside : Value → Prop} {recurse : Visitor}
  {fuel : Nat} {value : Value} {start state : State}

theorem Visiting.visit (visiting : Visiting module rank inside recurse fuel value state)
    (wellFormed : WellFormed module) :
    Routine.Meets True False (visit module recurse value) state (Ended module value state) := by
  have found : ∀ type,Ended module value state (some type) state := fun type =>
    ⟨.refl module state,fun _ => .refl module state,fun _ => by simp⟩
  have absent : ¬ Definite module value → Ended module value state none state := fun indefinite =>
    ⟨.refl module state,fun _ => .refl module state,fun definite => absurd definite indefinite⟩
  have part : ∀ {kind part},module.kind value = kind → kind.isTypeInst → part ∈ kind.parts →
      Needs module value part := fun isKind isType member =>
    .part (.instruction (isKind ▸ isType)) (isKind ▸ member)
  have operand : ∀ {kind operand},module.kind value = kind → kind.isDefinite →
      operand ∈ kind.needed → Needs module value operand := fun isKind definite member =>
    .operand (isKind ▸ definite) (isKind ▸ member)
  have followed : ∀ {kind operand},module.kind value = kind → kind.isSwap = false →
      operand ∈ kind.followed → Follows module value operand := by
    rintro _ operand rfl noSwap member
    refine .operand member ?_
    rintro ⟨isSwap | isSwap,_,_⟩
    · exact absurd noSwap (by simp [isSwap,Kind.isSwap])
    · exact absurd noSwap (by simp [isSwap,Kind.isSwap])
  have isType : ∀ {kind},module.kind value = kind → kind.isTypeInst → Definite module value :=
    fun isKind isType => .inl (.instruction (isKind ▸ isType))
  have definite : ∀ {kind},module.kind value = kind → kind.isDefinite → Definite module value :=
    fun isKind definite => .inr (isKind ▸ definite)
  unfold TypeAnalysis.visit
  cases isKind : module.kind value with
  | integerType type => exact found (.integer type)
  | floatType => exact found .float
  | doubleType => exact found .double
  | pointerType => exact found .pointer
  | referenceType type =>
    apply (visiting.accessed (part isKind rfl List.mem_cons_self) state (.refl module state)).bind
    intro referenced after retains
    exact ⟨retains,fun remembers => absurd (.reference isKind) remembers,fun _ => by simp⟩
  | defineStructType name fieldTypes =>
    exact visiting.define ⟨value,name,fieldTypes⟩ isKind
  | structType name => exact visiting.structType wellFormed isKind
  | staticTensorType type lengths =>
    exact visiting.access (.staticTensor · lengths) (part isKind rfl List.mem_cons_self)
      (isType isKind rfl)
  | tensorType type number =>
    exact visiting.access (.tensor · number) (part isKind rfl List.mem_cons_self)
      (isType isKind rfl)
  | assocArrayType keyType valueType =>
    exact visiting.accessPair (part isKind rfl List.mem_cons_self)
      (part isKind rfl (List.mem_cons_of_mem _ List.mem_cons_self)) (isType isKind rfl)
  | sequenceType type =>
    exact visiting.access .sequence (part isKind rfl List.mem_cons_self) (isType isKind rfl)
  | structAlloc type | assertStructType type _ | assertCollectionType type _ | returnType type =>
    exact visiting.single id (operand isKind rfl List.mem_cons_self) (definite isKind rfl)
  | tensorAlloc type number =>
    exact visiting.single (.tensor · number) (operand isKind rfl List.mem_cons_self)
      (definite isKind rfl)
  | sequenceAlloc type =>
    exact visiting.single .sequence (operand isKind rfl List.mem_cons_self) (definite isKind rfl)
  | assocArrayAlloc keyType valueType =>
    exact visiting.pair (operand isKind rfl List.mem_cons_self)
      (operand isKind rfl (List.mem_cons_of_mem _ List.mem_cons_self)) (definite isKind rfl)
  | read object =>
    exact visiting.element unwrap (definite isKind rfl)
      (visiting.getElementType (operand isKind rfl List.mem_cons_self))
  | structRead object fieldIndex =>
    exact visiting.element unwrap (definite isKind rfl)
      (visiting.getFieldElementType (operand isKind rfl List.mem_cons_self) fieldIndex)
  | get object =>
    exact visiting.element id (definite isKind rfl)
      (visiting.getElementType (operand isKind rfl List.mem_cons_self))
  | structGet object fieldIndex =>
    exact visiting.element id (definite isKind rfl)
      (visiting.getFieldElementType (operand isKind rfl List.mem_cons_self) fieldIndex)
  | forward operation collection =>
    have indefinite := indefinite_of_kind isKind rfl rfl (by simp)
    apply meets_indefinite indefinite
    intro new
    apply Routine.Preserves.bind
    · exact visiting.advancing (followed isKind rfl List.mem_cons_self) indefinite
        (kind_known isKind (by simp)) new
    · exact fun type => Advancing.memoize indefinite type
  | swap fromCollection toCollection | mutSeqSwap fromCollection toCollection =>
    exact visiting.swap (by simp [isKind])
  | assocKeys collection =>
    have indefinite := indefinite_of_kind isKind rfl rfl (by simp)
    apply meets_indefinite indefinite
    intro new
    apply Routine.Preserves.bind
    · exact visiting.advancing (followed isKind rfl List.mem_cons_self) indefinite
        (kind_known isKind (by simp)) new
    · intro type
      apply Routine.Preserves.bind (.require trivial _)
      exact fun keys => Advancing.memoize indefinite (some keys)
  | call returnsPointer callee =>
    by_cases declared : (module.kind value).isDefinite
    · rw [isKind] at declared
      cases returnsPointer with
      | false => exact absurd declared (by simp [Kind.isDefinite])
      | true =>
        cases isTypes : callee.returnTypes with
        | nil => exact absurd declared (by simp [Kind.isDefinite,isTypes])
        | cons type types =>
          have filled : callee.empty = false := by simpa [Kind.isDefinite,isTypes] using declared
          exact visiting.declared wellFormed isKind filled isTypes
    · have indefinite := indefinite_of_kind isKind rfl (by simpa [isKind] using declared) (by simp)
      apply meets_indefinite indefinite
      intro new
      split
      · rename_i returnsPointer
        subst returnsPointer
        apply Routine.Preserves.bind
        · exact visiting.returnType indefinite (kind_known isKind (by simp)) new
            fun operand member => followed isKind rfl member
        · exact fun type => Advancing.memoize indefinite type
      · exact .pure none
  | indirectCall returnsPointer candidates =>
    have indefinite := indefinite_of_kind isKind rfl rfl (by simp)
    apply meets_indefinite indefinite
    intro new
    split
    · rename_i returnsPointer
      subst returnsPointer
      apply Routine.Preserves.bind
      · apply Routine.Preserves.each
        intro function candidate
        exact visiting.returnType indefinite (kind_known isKind (by simp)) new
          fun operand member => followed isKind rfl (List.mem_flatMap.mpr ⟨function,candidate,member⟩)
      · intro types
        exact Routine.Preserves.bind (.require trivial _) fun _ => Advancing.memoize indefinite none
    · exact .pure none
  | load stored =>
    by_cases isLoad : TypeValue module value
    · cases isLoad with
      | instruction isInst => exact absurd isInst (by simp [isKind,Kind.isTypeInst])
      | load isLoad isStored =>
        rename_i part rest
        obtain rfl := Kind.load.inj (isKind.symm.trans isLoad)
        have isType : TypeValue module value := .load isLoad isStored
        exact visiting.single id (.part isType (mem_parts isKind List.mem_cons_self)) (.inl isType)
    · have indefinite : ¬ Definite module value := by
        rintro (isType | definite)
        · exact isLoad isType
        · exact absurd definite (by simp [isKind,Kind.isDefinite])
      apply meets_indefinite indefinite
      intro new
      rcases stored with _ | _ | ⟨first,rest⟩
      · exact .pure none
      · exact .pure none
      · have object : ¬ TypeValue module first := fun isType => isLoad (.load isKind isType)
        apply Routine.Preserves.bind
        · exact visiting.advancing (.load isKind object) indefinite
            (kind_known isKind (by simp)) new
        · intro type
          apply Routine.Preserves.bind (.require trivial _)
          exact fun type => Advancing.memoize indefinite (some type)
  | phi incoming =>
    have indefinite := indefinite_of_kind isKind rfl rfl (by simp)
    apply meets_indefinite indefinite
    intro new
    apply Routine.Preserves.bind
    · apply Advancing.visitIncoming
      intro value member
      exact visiting.advancing (followed isKind rfl member) indefinite
        (kind_known isKind (by simp)) new
    · intro _
      apply Routine.Preserves.read.bind
      intro state
      split
      · exact Advancing.memoize indefinite _
      · exact .pure none
  | globalString _ | getElementPtr _ | constantGetElementPtr _ | constantNull | argument | other =>
    exact absent (indefinite_of_kind isKind rfl rfl (by simp))

/-- The first assertion of a value gives a type. -/
theorem Visiting.asserted {before : State} {user type : Value}
    (visiting : Visiting module rank inside recurse fuel value state)
    (indefinite : ¬ Definite module value) (first : module.assertion value = some user)
    (asserts : (module.kind user).assertedType = some type)
    (progress : Progress module value state before) :
    Routine.Meets True False (visitAssertTypeInst recurse user type) before fun result after =>
      Progress module value state after ∧ result ≠ none := by
  have follows : Follows module value user := .asserted indefinite first
  obtain ⟨isInside,le⟩ := visiting.ranked.follows value user visiting.inside follows
  have entered := (visiting.entered.le le).retains progress.retains
  have enough : levels module (rank user) before ≤ fuel := by
    by_cases forgets : Forgets module value
    · have lower := (visiting.ranked.needs value user visiting.inside (.anew indefinite forgets follows)).2
      exact (Nat.le_of_lt (levels_lt_of_rank lower before state)).trans visiting.enough
    · exact (levels_le_of_advances le progress.retains (progress.advances forgets)).trans visiting.enough
  have visiting : Visiting module rank inside recurse fuel user before :=
    ⟨visiting.ranked,visiting.ends,isInside,entered,enough⟩
  obtain ⟨definite,needed⟩ := definite_of_asserts asserts
  apply (visiting.single id (.operand definite needed) (.inr definite)).mono
  intro result after ended
  exact ⟨progress.trans ⟨ended.retains,fun _ => ended.advances (assertion_remembers asserts)⟩,
    ended.typed (.inr definite)⟩

theorem Visiting.findAsserted {users : List Value}
    (visiting : Visiting module rank inside recurse fuel value state)
    (indefinite : ¬ Definite module value)
    (first : ∀ user,users.find? (fun user => (module.kind user).assertedType.isSome) = some user →
      module.assertion value = some user) :
    Advancing module value state (findAsserted module recurse value users) := by
  induction users with
  | nil => exact .pure none
  | cons user users ih =>
    unfold TypeAnalysis.findAsserted
    split
    · rename_i unasserted
      exact ih fun other found => first other (by rw [List.find?_cons,unasserted]; exact found)
    · rename_i type asserts
      intro before progress
      apply (visiting.asserted indefinite (first user (by simp [asserts])) asserts progress).bind
      rintro (_ | asserted) after ⟨progress,typed⟩
      · exact absurd rfl typed
      · exact Advancing.memoize indefinite (some asserted) after progress

theorem Visiting.resolve (visiting : Visiting module rank inside recurse fuel value state)
    (wellFormed : WellFormed module) :
    Routine.Meets True False (resolve module recurse value) state (Ended module value state) := by
  apply (visiting.visit wellFormed).bind
  intro result middle ended
  cases result with
  | some type => exact ended
  | none =>
    have indefinite : ¬ Definite module value := fun definite => ended.typed definite rfl
    have progress : Progress module value state middle := ⟨ended.retains,ended.advances⟩
    have ends : ∀ {result after},Progress module value state after →
        Ended module value state result after := fun progress =>
      ⟨progress.retains,progress.advances,fun definite => absurd definite indefinite⟩
    dsimp only
    split
    · exact ends progress
    · apply (visiting.findAsserted indefinite (fun _ first => first) middle progress).mono
      exact fun _ _ progress => ends progress

theorem ends_getTypeHelper (wellFormed : WellFormed module) (ranked : Ranked module rank inside)
    (fuel : Nat) : Ends module rank inside (getTypeHelper module fuel) fuel := by
  induction fuel with
  | zero =>
    intro value state _ _ none
    exact absurd none (Nat.not_lt_zero _)
  | succ fuel ih =>
    intro value state isInside entered enough
    exact Visiting.resolve ⟨ranked,ih,isInside,entered,Nat.le_of_lt_succ enough⟩ wellFormed

end Fuel

theorem query_ends {module : Module} {query : Value} {fuel : Nat} (wellFormed : WellFormed module)
    (acyclic : Acyclic module query) (enough : levelsBound module ≤ fuel) (state : State) :
    Routine.Meets True False (getType module fuel query) state fun _ _ => True := by
  have ranked := ranked_of_acyclic acyclic
  have few : rankOf module query ≤ module.kinds.length := count_le_length _ _
  have few := Nat.lt_of_lt_of_le (levels_lt_bound few state.clear) enough
  apply (ends_getTypeHelper wellFormed ranked fuel query state.clear .refl
    (.clear module _ _ state) few).mono
  exact fun _ _ _ => trivial

end Memoir.TypeAnalysis
