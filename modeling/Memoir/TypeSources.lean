import Memoir.TypeAnalysisEnds
import Memoir.TypeAnalysisSound

/-! What the analysis finds in a graph of collections whose sources have one type. A query gets this type
where it reaches a source, and where it reaches none only through swaps that were visited before. -/
namespace Memoir.TypeAnalysis
open TypeGetters Outcomes

def Kind.isAllocation : Kind → Bool
  | .structAlloc _ | .tensorAlloc _ _ | .assocArrayAlloc _ _ | .sequenceAlloc _ => true
  | _ => false

def Kind.isCollection : Kind → Bool
  | .forward _ _ | .swap _ _ | .mutSeqSwap _ _ | .phi _ | .argument => true
  | kind => kind.isAllocation

def allocatedShape (module : Module) (depth : Nat) : Kind → Option Shape
  | .structAlloc type => shapeOf module depth type
  | .tensorAlloc element number => (shapeOf module depth element).map (.tensor · number)
  | .assocArrayAlloc key value =>
    (shapeOf module depth key).bind fun key => (shapeOf module depth value).map (.assocArray key)
  | .sequenceAlloc element => (shapeOf module depth element).map .sequence
  | _ => none

structure Graph (module : Module) (type : Shape) (member : Value → Prop) : Prop where
  wellFormed : WellFormed module
  collections : ∀ value,member value → (module.kind value).isCollection
  operands : ∀ value,member value → ∀ operand ∈ (module.kind value).followed,member operand
  allocated : ∀ value,member value → (module.kind value).isAllocation →
    ∃ depth,(∀ operand ∈ (module.kind value).types,complete module depth operand) ∧
      allocatedShape module depth (module.kind value) = some type
  asserted : ∀ value,member value → ∀ user ∈ module.users value,∀ operand,
    (module.kind user).assertedType = some operand →
      ∃ depth,complete module depth operand ∧ shapeOf module depth operand = some type

def Asserted (module : Module) (value : Value) : Prop :=
  ∃ user ∈ module.users value,(module.kind user).assertedType ≠ none

def Source (module : Module) (value : Value) : Prop :=
  (module.kind value).isAllocation ∨ Asserted module value

abbrev Reaches (module : Module) : Value → Value → Prop :=
  Relation.ReflTransGen fun value operand => operand ∈ (module.kind value).followed

/-- A type can get to the value: from a source that it reaches, or by a swap that was touched, which
gives it to both of its collections. -/
inductive Given (module : Module) (touched : Value → Prop) : Value → Prop
  | source {value : Value} (isSource : Source module value) : Given module touched value
  | operand {value operand : Value} (member : operand ∈ (module.kind value).followed)
    (given : Given module touched operand) : Given module touched value
  | swapped {value operand : Value} (isSwap : (module.kind value).isSwap) (isTouched : touched value)
    (member : operand ∈ (module.kind value).followed) (given : Given module touched value) :
    Given module touched operand

section Graphs
variable {module : Module} {type : Shape} {member touched : Value → Prop} {value operand : Value}

theorem Given.of_reaches {source : Value} (reaches : Reaches module value source)
    (given : Given module touched source) : Given module touched value := by
  induction reaches using Relation.ReflTransGen.head_induction_on with
  | refl => exact given
  | head step _ ih => exact .operand step ih

theorem Given.mono {touched' : Value → Prop} (implies : ∀ value,touched value → touched' value)
    (given : Given module touched value) : Given module touched' value := by
  induction given with
  | source isSource => exact .source isSource
  | operand member _ ih => exact .operand member ih
  | swapped isSwap isTouched member _ ih => exact .swapped isSwap (implies _ isTouched) member ih

/-- The swaps that a query reaches give it nothing that it does not reach itself. -/
theorem Given.of_query {query : Value}
    (given : Given module (fun other => touched other ∨ Reaches module query other) query) :
    Given module touched query := by
  have either : ∀ {value},Given module (fun other => touched other ∨ Reaches module query other) value →
      Given module touched value ∨ Given module touched query := by
    intro value given
    induction given with
    | source isSource => exact .inl (.source isSource)
    | operand member _ ih => exact ih.imp_left (.operand member)
    | swapped isSwap isTouched member _ ih =>
      rcases ih with given | given
      · rcases isTouched with isTouched | reaches
        · exact .inl (.swapped isSwap isTouched member given)
        · exact .inr (given.of_reaches reaches)
      · exact .inr given
  exact (either given).elim id id

theorem Graph.isObject (graph : Graph module type member) (isMember : member value) :
    IsObject module value := by
  have isCollection := graph.collections value isMember
  refine ⟨?_,?_,?_⟩
  · apply kind_known rfl
    intro isKind
    rw [isKind] at isCollection
    exact absurd isCollection (by simp [Kind.isCollection,Kind.isAllocation])
  · apply not_typeValue
    · revert isCollection
      cases module.kind value <;> simp [Kind.isCollection,Kind.isAllocation,Kind.isTypeInst]
    · intro stored isKind
      rw [isKind] at isCollection
      exact absurd isCollection (by simp [Kind.isCollection,Kind.isAllocation])
  · revert isCollection
    cases module.kind value <;> simp [Kind.isCollection,Kind.isAllocation,Kind.isAssertion]

theorem Graph.unasserted (graph : Graph module type member) (isMember : member value) :
    (module.kind value).assertedType = none := by
  have isCollection := graph.collections value isMember
  revert isCollection
  cases module.kind value <;> simp [Kind.isCollection,Kind.isAllocation,Kind.assertedType]

theorem Graph.isDefinite (graph : Graph module type member) (isMember : member value) :
    (module.kind value).isDefinite = (module.kind value).isAllocation := by
  have isCollection := graph.collections value isMember
  revert isCollection
  cases module.kind value <;> simp [Kind.isCollection,Kind.isAllocation,Kind.isDefinite]

theorem Graph.indefinite (graph : Graph module type member) (isMember : member value)
    (unallocated : ¬ (module.kind value).isAllocation) : ¬ Definite module value := by
  rintro (isType | isDefinite)
  · exact (graph.isObject isMember).object isType
  · rw [graph.isDefinite isMember] at isDefinite
    exact unallocated isDefinite

/-- What a complete type depends on: its parts, and the definition of a struct type. -/
theorem dependsOn_of_complete {depth : Nat} {other : Value}
    (whole : complete module (depth + 1) value) (step : DependsOn module value other) :
    complete module depth other ∨ ∃ name definition,module.kind value = .structType name ∧
      (module.definitions name).head? = some definition ∧ other = definition.value := by
  have isType := typeValue_of_complete whole
  have plain : (module.kind value).followed = [] ∧ (module.kind value).isDefinite = false := by
    cases isType with
    | instruction isInst =>
      revert isInst
      cases module.kind value <;> simp [Kind.isTypeInst,Kind.followed,Kind.isDefinite]
    | load isLoad _ =>
      rw [isLoad]
      exact ⟨rfl,rfl⟩
  rcases step with needs | follows
  · cases needs with
    | part _ member => exact .inl (complete_parts whole member)
    | definition isStruct first => exact .inr ⟨_,_,isStruct,first,rfl⟩
    | operand definite _ => exact absurd definite (by simp [plain.2])
    | anew indefinite _ _ => exact absurd (.inl isType) indefinite
  · cases follows with
    | operand member _ =>
      rw [plain.1] at member
      exact absurd member List.not_mem_nil
    | load isLoad object =>
      rw [complete,isLoad] at whole
      exact absurd (typeValue_of_complete whole) object
    | asserted indefinite _ => exact absurd (.inl isType) indefinite

theorem complete_depends {depth : Nat} {other : Value} (wellFormed : WellFormed module)
    (whole : complete module depth value) (path : Depends module value other) :
    complete module depth other := by
  induction path with
  | refl => exact whole
  | tail _ step ih =>
    cases depth with
    | zero => exact absurd whole (by simp [complete])
    | succ depth =>
      rcases dependsOn_of_complete ih step with shallow | ⟨name,definition,isStruct,first,rfl⟩
      · exact complete_succ shallow
      · rw [complete_definition wellFormed isStruct first]
        exact ih

/-- A complete type is not made of itself. -/
theorem complete_acyclic {depth : Nat} {other : Value} (wellFormed : WellFormed module)
    (whole : complete module depth value) (step : DependsOn module value other) :
    ¬ Depends module other value := by
  intro cycle
  obtain ⟨least,_,whole,incomplete⟩ := exists_depth whole
  have shallow : ∀ {part},complete module least part → ¬ Depends module part value := by
    intro part isPart path
    rw [complete_depends wellFormed isPart path] at incomplete
    exact absurd incomplete (by simp)
  rcases dependsOn_of_complete whole step with isPart | ⟨name,definition,isStruct,first,rfl⟩
  · exact shallow isPart cycle
  · have isDefinition := (mem_definitions wellFormed (List.mem_of_mem_head? first)).1
    have whole' := (complete_definition wellFormed isStruct first (least + 1)).trans whole
    rcases Relation.ReflTransGen.cases_head cycle with same | ⟨part,step,path⟩
    · rw [same,isStruct] at isDefinition
      exact absurd isDefinition (by simp)
    · rcases dependsOn_of_complete whole' step with isPart | ⟨_,_,isStruct',_⟩
      · exact shallow isPart path
      · rw [isDefinition] at isStruct'
        exact absurd isStruct' (by simp)

/-- The values that a query in a graph gets to. -/
inductive Graph.Inside (module : Module) (member : Value → Prop) : Value → Prop
  | member {value : Value} (isMember : member value) : Inside module member value
  | assertion {value user type : Value} (isMember : member value) (used : user ∈ module.users value)
    (asserts : (module.kind user).assertedType = some type) : Inside module member user
  | type {depth : Nat} {value : Value} (whole : complete module depth value) :
    Inside module member value

theorem kind_of_asserts {user : Value} (asserts : (module.kind user).assertedType = some operand) :
    (module.kind user).needed = [operand] ∧ (module.kind user).isDefinite ∧
      (module.kind user).followed = [] ∧ ¬ TypeValue module user := by
  cases isKind : module.kind user with
  | assertStructType type object | assertCollectionType type object =>
    rw [isKind] at asserts
    obtain rfl := Option.some.inj asserts
    exact ⟨rfl,rfl,rfl,not_typeValue (by rw [isKind]; rfl) (by rw [isKind]; simp)⟩
  | _ => exact absurd asserts (by simp [isKind,Kind.assertedType])

theorem Graph.remembers (graph : Graph module type member) (forgets : Forgets module value) :
    ¬ member value := by
  induction forgets with
  | reference isReference =>
    intro isMember
    exact (graph.isObject isMember).object (.instruction (by rw [isReference]; rfl))
  | @operand value operand _ follows forgets ih =>
    intro isMember
    cases follows with
    | operand isOperand _ => exact ih (graph.operands value isMember operand isOperand)
    | load isLoad _ =>
      have isCollection := graph.collections value isMember
      rw [isLoad] at isCollection
      exact absurd isCollection (by simp [Kind.isCollection,Kind.isAllocation])
    | asserted _ first =>
      obtain ⟨_,_,asserts⟩ := asserts_of_assertion first
      exact assertion_remembers asserts forgets

/-- Only types are needed. -/
theorem Graph.needs {other : Value} (graph : Graph module type member)
    (inside : Graph.Inside module member value) (needs : Needs module value other) :
    ∃ depth,complete module depth other := by
  cases inside with
  | type whole => exact ⟨_,complete_depends graph.wellFormed whole (.single (.inl needs))⟩
  | member isMember =>
    have object := (graph.isObject isMember).object
    cases needs with
    | part isType _ => exact absurd isType object
    | definition isStruct _ => exact absurd (.instruction (by rw [isStruct]; rfl)) object
    | operand definite isNeeded =>
      have isAllocation := (graph.isDefinite isMember).symm.trans definite
      obtain ⟨depth,types,_⟩ := graph.allocated value isMember isAllocation
      refine ⟨depth,types other ?_⟩
      revert isAllocation isNeeded
      cases module.kind value <;> simp [Kind.isAllocation,Kind.needed]
    | anew _ forgets _ => exact absurd isMember (graph.remembers forgets)
  | assertion isMember used asserts =>
    obtain ⟨isNeeded,definite,_,object⟩ := kind_of_asserts asserts
    cases needs with
    | part isType _ => exact absurd isType object
    | definition isStruct _ => exact absurd (.instruction (by rw [isStruct]; rfl)) object
    | operand _ needed =>
      rw [isNeeded] at needed
      obtain rfl := List.mem_singleton.mp needed
      obtain ⟨depth,whole,_⟩ := graph.asserted _ isMember value used other asserts
      exact ⟨depth,whole⟩
    | anew indefinite _ _ => exact absurd (.inr definite) indefinite

/-- Members lead to members and their assertions. -/
theorem Graph.inside {other : Value} (graph : Graph module type member)
    (inside : Graph.Inside module member value) (step : DependsOn module value other) :
    Graph.Inside module member other := by
  rcases step with needs | follows
  · obtain ⟨depth,whole⟩ := graph.needs inside needs
    exact .type whole
  · cases inside with
    | type whole => exact .type (complete_depends graph.wellFormed whole (.single (.inr follows)))
    | member isMember =>
      cases follows with
      | operand isOperand _ => exact .member (graph.operands value isMember other isOperand)
      | load isLoad _ =>
        have isCollection := graph.collections value isMember
        rw [isLoad] at isCollection
        exact absurd isCollection (by simp [Kind.isCollection,Kind.isAllocation])
      | asserted _ first =>
        obtain ⟨used,_,asserts⟩ := asserts_of_assertion first
        exact .assertion isMember used asserts
    | assertion isMember used asserts =>
      obtain ⟨_,isDefinite,unfollowed,_⟩ := kind_of_asserts asserts
      cases follows with
      | operand isOperand _ =>
        rw [unfollowed] at isOperand
        exact absurd isOperand List.not_mem_nil
      | load isLoad _ =>
        rw [isLoad] at asserts
        exact absurd asserts (by simp [Kind.assertedType])
      | asserted indefinite _ => exact absurd (.inr isDefinite) indefinite

theorem Graph.acyclic (graph : Graph module type member) (inside : Graph.Inside module member value) :
    Acyclic module value := by
  have inside : ∀ other,Depends module value other → Graph.Inside module member other := by
    intro other path
    induction path with
    | refl => exact inside
    | tail _ step ih => exact graph.inside ih step
  intro other needed path needs cycle
  obtain ⟨depth,whole⟩ := graph.needs (inside other path) needs
  have whole := complete_depends graph.wellFormed whole cycle
  exact complete_acyclic graph.wellFormed whole (.inl needs) cycle

end Graphs

/-- What the analysis keeps in a graph. What is visited and definite has its type. -/
structure Tracks (module : Module) (type : Shape) (member touched : Value → Prop) (state : State) :
    Prop where
  sound : Sound module state
  opened : ∀ value ∈ state.visited,state.valueToType value = none → ¬ Definite module value
  typed : ∀ value,member value → ∀ found,state.valueToType value = some found →
    found = type ∧ Given module touched value
  edges : ∀ value,member value →
    state.edgeTypes value = [] ∨ state.edgeTypes value = [type] ∧ Given module touched value

def Seen (module : Module) (state : State) (value : Value) : Prop :=
  value ∈ state.visited ∨ (module.kind value).followed = [] ∧ ¬ Source module value

def Walked (module : Module) (state : State) : Prop :=
  ∀ phi,∀ incoming ∈ state.visitedEdges phi,Seen module state incoming

structure Quiet (module : Module) (before after : State) : Prop where
  kept : before.visited ⊆ after.visited
  fresh : ∀ value ∈ after.visited,value ∉ before.visited →
    ¬ Source module value ∧ ∀ operand ∈ (module.kind value).followed,Seen module after operand
  walked : Walked module after

structure Visited (module : Module) (type : Shape) (member touched : Value → Prop) (value : Value)
    (before : State) (result : Option Shape) (after : State) : Prop where
  tracks : Tracks module type member touched after
  typed : ∀ found,result = some found → found = type ∧ Given module touched value
  allocated : (module.kind value).isAllocation → result ≠ none
  edges : ∀ phi,before.edgeTypes phi ≠ [] → after.edgeTypes phi ≠ []
  quiet : (∀ phi,∀ incoming ∈ before.visitedEdges phi,incoming = value ∨ Seen module before incoming) →
    result = none → ¬ Source module value → Quiet module before after ∧ Seen module after value

structure Answered (module : Module) (type : Shape) (member touched : Value → Prop) (value : Value)
    (before : State) (result : Option Shape) (after : State) : Prop
    extends Visited module type member touched value before result after where
  source : Source module value → result ≠ none

section Walks
variable {module : Module} {type : Shape} {member touched : Value → Prop} {value operand : Value}
  {before state after : State} {result : Option Shape}

theorem Seen.kept (seen : Seen module before value) (kept : before.visited ⊆ after.visited) :
    Seen module after value := seen.imp_left (@kept value)

theorem Quiet.refl (walked : Walked module state) : Quiet module state state :=
  ⟨List.Subset.refl _,fun _ visited new => absurd visited new,walked⟩

theorem Quiet.trans (first : Quiet module before state) (second : Quiet module state after) :
    Quiet module before after := by
  refine ⟨List.Subset.trans first.kept second.kept,?_,second.walked⟩
  intro value visited new
  by_cases earlier : value ∈ state.visited
  · obtain ⟨unsourced,seen⟩ := first.fresh value earlier new
    exact ⟨unsourced,fun operand member => (seen operand member).kept second.kept⟩
  · exact second.fresh value visited earlier

theorem Quiet.memoize (quiet : Quiet module before after) (value : Value) (type : Option Shape) :
    Quiet module before (after.memoize value type) := ⟨quiet.kept,quiet.fresh,quiet.walked⟩

theorem Quiet.of_markVisited (quiet : Quiet module (before.markVisited value) after)
    (unsourced : ¬ Source module value)
    (seen : ∀ operand ∈ (module.kind value).followed,Seen module after operand) :
    Quiet module before after ∧ Seen module after value := by
  have isVisited : value ∈ after.visited := quiet.kept List.mem_cons_self
  refine ⟨⟨?_,?_,quiet.walked⟩,.inl isVisited⟩
  · exact List.Subset.trans (List.subset_cons_self _ _) quiet.kept
  · intro other visited new
    by_cases same : other = value
    · subst same
      exact ⟨unsourced,seen⟩
    · exact quiet.fresh other visited fun visited => new ((List.mem_cons.mp visited).resolve_left same)

theorem walked_markVisited
    (walked : ∀ phi,∀ incoming ∈ state.visitedEdges phi,incoming = value ∨ Seen module state incoming) :
    Walked module (state.markVisited value) := by
  intro phi incoming visited
  rcases walked phi incoming visited with rfl | seen
  · exact .inl List.mem_cons_self
  · exact seen.kept (List.subset_cons_self _ _)

theorem walked_visitEdge {phi incoming : Value} (walked : Walked module state) (other : Value) :
    ∀ incoming' ∈ (state.visitEdge phi incoming).visitedEdges other,
      incoming' = incoming ∨ Seen module (state.visitEdge phi incoming) incoming' := by
  intro incoming' visited
  by_cases same : other = phi
  · subst same
    simp only [State.visitEdge,Function.update_self] at visited
    exact (List.mem_cons.mp visited).imp_right (walked other incoming')
  · simp only [State.visitEdge,Function.update_of_ne same] at visited
    exact .inr (walked other incoming' visited)

theorem insertEdgeType_self (state : State) (phi : Value) (found : Shape) :
    (state.insertEdgeType phi (some found)).edgeTypes phi ≠ [] := by
  simp only [State.insertEdgeType,Function.update_self]
  exact List.ne_nil_of_mem List.mem_insert_self

theorem insertEdgeType_grows {phi : Value} (typed : state.edgeTypes phi ≠ []) (value : Value)
    (result : Option Shape) : (state.insertEdgeType value result).edgeTypes phi ≠ [] := by
  cases result with
  | none => exact typed
  | some found =>
    by_cases same : phi = value
    · subst same
      exact insertEdgeType_self state phi found
    · simp only [State.insertEdgeType,Function.update_of_ne same]
      exact typed

theorem Tracks.clear (tracks : Tracks module type member touched state) :
    Tracks module type member touched state.clear :=
  ⟨tracks.sound.clear,fun _ visited => absurd visited List.not_mem_nil,tracks.typed,tracks.edges⟩

/-- The analysis of a type. -/
theorem Tracks.settles (tracks : Tracks module type member touched before)
    (graph : Graph module type member) (sound : Sound module after)
    (settles : Settles module before after) : Tracks module type member touched after := by
  refine ⟨sound,fun value visited untyped => ?_,fun value isMember found isFound => ?_,?_⟩
  · obtain ⟨visited,untyped⟩ := settles.settled value visited untyped
    exact tracks.opened value visited untyped
  · rw [settles.objects value (graph.isObject isMember).object] at isFound
    exact tracks.typed value isMember found isFound
  · rw [settles.edges]
    exact tracks.edges

theorem Tracks.initial : Tracks module type member touched .initial :=
  ⟨.initial module,fun _ visited => absurd visited List.not_mem_nil,
    fun _ _ _ found => absurd found (by simp [State.initial]),fun _ _ => .inl rfl⟩

theorem Tracks.mono {touched' : Value → Prop} (tracks : Tracks module type member touched state)
    (implies : ∀ value,touched value → touched' value) : Tracks module type member touched' state :=
  ⟨tracks.sound,tracks.opened,
    fun value isMember found same => (tracks.typed value isMember found same).imp_right (.mono implies),
    fun value isMember => (tracks.edges value isMember).imp_right (And.imp_right (.mono implies))⟩

theorem Tracks.markVisited (tracks : Tracks module type member touched state)
    (indefinite : ¬ Definite module value) :
    Tracks module type member touched (state.markVisited value) := by
  refine ⟨tracks.sound.markVisited value,?_,tracks.typed,tracks.edges⟩
  intro other visited untyped
  rcases List.mem_cons.mp visited with rfl | visited
  · exact indefinite
  · exact tracks.opened other visited untyped

theorem Tracks.memoize (tracks : Tracks module type member touched state)
    (graph : Graph module type member) (isMember : member value)
    (typed : ∀ found,result = some found → found = type ∧ Given module touched value)
    (indefinite : result = none → ¬ Definite module value) :
    Tracks module type member touched (state.memoize value result) := by
  refine ⟨tracks.sound.memoize_object (graph.isObject isMember) result,?_,?_,tracks.edges⟩
  · intro other visited untyped
    by_cases same : other = value
    · subst same
      rw [memoize_self] at untyped
      exact indefinite untyped
    · rw [memoize_of_ne state result same] at untyped
      exact tracks.opened other visited untyped
  · intro other isMember found isFound
    by_cases same : other = value
    · subst same
      rw [memoize_self] at isFound
      exact typed found isFound
    · rw [memoize_of_ne state result same] at isFound
      exact tracks.typed other isMember found isFound

theorem Tracks.insertEdgeType (tracks : Tracks module type member touched state)
    (typed : ∀ found,result = some found → found = type ∧ Given module touched value) :
    Tracks module type member touched (state.insertEdgeType value result) := by
  cases result with
  | none => exact tracks
  | some found =>
    obtain ⟨rfl,given⟩ := typed found rfl
    refine ⟨⟨tracks.sound.types,tracks.sound.asserted,tracks.sound.defined,tracks.sound.known⟩,
      tracks.opened,tracks.typed,?_⟩
    intro other isMember
    by_cases same : other = value
    · subst same
      right
      rcases tracks.edges other isMember with none | ⟨one,_⟩
      · simp [State.insertEdgeType,none,given]
      · simp [State.insertEdgeType,one,given]
    · simp only [State.insertEdgeType,Function.update_of_ne same]
      exact tracks.edges other isMember

end Walks

/-- The run ends with the type for the value, from states in which only types were found. -/
def Providing (module : Module) (type : Shape) (start : State) (value : Value)
    (find : Analysis (Option Shape)) : Prop :=
  ∀ state,Sound module state → Settles module start state →
    Routine.Meets False True find state fun result after =>
      ∃ last,result = some type ∧ Sound module last ∧ Settles module start last ∧
        after = last.memoize value (some type)

structure Provided (module : Module) (type : Shape) (member touched : Value → Prop) (before : State)
    (result : Option Shape) (after : State) : Prop where
  result : result = some type
  tracks : Tracks module type member touched after
  edges : after.edgeTypes = before.edgeTypes

section Sources
variable {module : Module} {type : Shape} {member touched : Value → Prop} {recurse : Visitor}
  {value operand : Value} {start before state : State} {depth : Nat}

theorem meets_typeOperand {shape : Shape} (analyses : Analyses module True recurse depth)
    (pending : Pending module depth start) (sound : Sound module state)
    (settles : Settles module start state) (whole : complete module depth operand)
    (isShape : shapeOf module depth operand = some shape) :
    Routine.Meets False True (recurse operand) state fun result after =>
      result = some shape ∧ Sound module after ∧ Settles module start after := by
  apply (analyses operand state whole sound (pending.settles settles)).mono
  intro result after found
  refine ⟨?_,found.sound,settles.trans (found.settled.resolve_left id)⟩
  cases result with
  | none => exact (found.typed rfl).elim
  | some type => rw [found.type type rfl depth shape isShape]

theorem Providing.memoize : Providing module type start value (memoizeAndReturn value (some type)) :=
  fun state sound settles => ⟨state,rfl,sound,settles,rfl⟩

theorem Providing.bind {shape : Shape} {next : Shape → Analysis (Option Shape)}
    (analyses : Analyses module True recurse depth) (pending : Pending module depth start)
    (whole : complete module depth operand) (isShape : shapeOf module depth operand = some shape)
    (rest : Providing module type start value (next shape)) :
    Providing module type start value (do
      let type ← Routine.require (← recurse operand)
      next type) := by
  intro state sound settles
  apply (meets_typeOperand analyses pending sound settles whole isShape).bind
  rintro _ after ⟨rfl,sound,settles⟩
  exact rest after sound settles

theorem Tracks.pending (tracks : Tracks module type member touched state) (object : ¬ TypeValue module value)
    (depth : Nat) : Pending module depth (state.markVisited value) := by
  intro other visited untyped
  rw [← Bool.not_eq_true]
  intro whole
  have isType := typeValue_of_complete whole
  rcases List.mem_cons.mp visited with rfl | visited
  · exact object isType
  · exact tracks.opened other visited untyped (.inl isType)

/-- Only types are found before a value that provides the type gets it. -/
theorem Tracks.provide (tracks : Tracks module type member touched before)
    (graph : Graph module type member) (sound : Sound module state)
    (settles : Settles module (before.markVisited value) state) (definite : Definite module value)
    (object : ¬ TypeValue module value) (given : member value → Given module touched value)
    (asserted : ∀ operand,(module.kind value).assertedType = some operand → Fits module operand type) :
    Tracks module type member touched (state.memoize value (some type)) := by
  refine ⟨?_,?_,?_,?_⟩
  · apply sound.memoize fun _ => definite_known definite
    · exact fun _ _ isType => absurd isType object
    · intro found operand same asserts
      exact Option.some.inj same ▸ asserted operand asserts
  · intro other visited untyped
    by_cases same : other = value
    · subst same
      exact absurd ((memoize_self state other _).symm.trans untyped) (by simp)
    · rw [memoize_of_ne state _ same] at untyped
      obtain ⟨visited,untyped⟩ := settles.settled other visited untyped
      exact tracks.opened other ((List.mem_cons.mp visited).resolve_left same) untyped
  · intro other isMember found isFound
    by_cases same : other = value
    · subst same
      exact ⟨(Option.some.inj ((memoize_self state other _).symm.trans isFound)).symm,given isMember⟩
    · rw [memoize_of_ne state _ same,settles.objects other (graph.isObject isMember).object] at isFound
      exact tracks.typed other isMember found isFound
  · intro other isMember
    have same : (state.memoize value (some type)).edgeTypes = before.edgeTypes := settles.edges
    rw [same]
    exact tracks.edges other isMember

theorem meets_provided {find : Analysis (Option Shape)} (graph : Graph module type member)
    (tracks : Tracks module type member touched state) (definite : Definite module value)
    (object : ¬ TypeValue module value) (given : member value → Given module touched value)
    (asserted : ∀ operand,(module.kind value).assertedType = some operand → Fits module operand type)
    (stored : ∀ found,state.valueToType value = some found → found = type)
    (providing : Providing module type (state.markVisited value) value find) :
    Routine.Meets False True (checkMemoized value find) state
      (Provided module type member touched state) := by
  apply meets_checkMemoized
  · intro found isFound
    exact ⟨congrArg some (stored found isFound),tracks,rfl⟩
  · intro untyped visited
    exact absurd definite (tracks.opened value visited untyped)
  · intro _ _
    apply (providing _ (tracks.sound.markVisited value) (.refl module _)).mono
    rintro _ _ ⟨last,rfl,sound,settles,rfl⟩
    exact ⟨rfl,tracks.provide graph sound settles definite object given asserted,settles.edges⟩

theorem meets_allocation (graph : Graph module type member)
    (analyses : ∀ depth,Analyses module True recurse depth) (isMember : member value)
    (isAllocation : (module.kind value).isAllocation)
    (tracks : Tracks module type member touched state) :
    Routine.Meets False True (visit module recurse value) state
      (Provided module type member touched state) := by
  have object := (graph.isObject isMember).object
  have definite : Definite module value := .inr ((graph.isDefinite isMember).trans isAllocation)
  obtain ⟨depth,whole,isShape⟩ := graph.allocated value isMember isAllocation
  have pending := tracks.pending object depth
  have provided : ∀ {find},Providing module type (state.markVisited value) value find →
      Routine.Meets False True (checkMemoized value find) state
        (Provided module type member touched state) := by
    intro find
    apply meets_provided graph tracks definite object
    · exact fun _ => .source (.inl isAllocation)
    · exact fun operand asserts => absurd asserts (by simp [graph.unasserted isMember])
    · exact fun found isFound => (tracks.typed value isMember found isFound).1
  rw [TypeAnalysis.visit]
  cases isKind : module.kind value with
  | structAlloc type' =>
    rw [isKind] at whole isShape
    apply provided
    exact Providing.bind (analyses depth) pending (whole _ List.mem_cons_self) isShape .memoize
  | tensorAlloc element number =>
    rw [isKind] at whole isShape
    obtain ⟨shape,isElement,rfl⟩ := Option.map_eq_some_iff.mp isShape
    apply provided
    exact Providing.bind (analyses depth) pending (whole _ List.mem_cons_self) isElement .memoize
  | sequenceAlloc element =>
    rw [isKind] at whole isShape
    obtain ⟨shape,isElement,rfl⟩ := Option.map_eq_some_iff.mp isShape
    apply provided
    exact Providing.bind (analyses depth) pending (whole _ List.mem_cons_self) isElement .memoize
  | assocArrayAlloc keyType valueType =>
    rw [isKind] at whole isShape
    obtain ⟨key,isKey,isShape⟩ := Option.bind_eq_some_iff.mp isShape
    obtain ⟨shape,isElement,rfl⟩ := Option.map_eq_some_iff.mp isShape
    apply provided
    apply Providing.bind (analyses depth) pending (whole _ List.mem_cons_self) isKey
    exact Providing.bind (analyses depth) pending (whole _ (List.mem_cons_of_mem _ List.mem_cons_self))
      isElement .memoize
  | _ => exact absurd isAllocation (by simp [isKind,Kind.isAllocation])

theorem meets_assertion {user : Value} (graph : Graph module type member)
    (analyses : ∀ depth,Analyses module True recurse depth) (isMember : member value)
    (used : user ∈ module.users value) (asserts : (module.kind user).assertedType = some operand)
    (tracks : Tracks module type member touched state) :
    Routine.Meets False True (visitAssertTypeInst recurse user operand) state
      (Provided module type member touched state) := by
  obtain ⟨_,isDefinite,_,object⟩ := kind_of_asserts asserts
  obtain ⟨depth,whole,isShape⟩ := graph.asserted value isMember user used operand asserts
  apply meets_provided graph tracks (.inr isDefinite) object
  · intro isMember
    rw [graph.unasserted isMember] at asserts
    exact absurd asserts (by simp)
  · intro other asserts'
    obtain rfl := Option.some.inj (asserts.symm.trans asserts')
    exact fits_of_shapeOf isShape
  · intro found isFound
    exact tracks.sound.asserted user operand found asserts isFound depth type isShape
  · exact Providing.bind (analyses depth) (tracks.pending object depth) whole isShape .memoize

end Sources

/-- What a value ends with once it is marked as visited. -/
structure Explored (module : Module) (type : Shape) (member touched : Value → Prop) (value : Value)
    (before : State) (result : Option Shape) (after : State) : Prop where
  tracks : Tracks module type member touched after
  typed : ∀ found,result = some found → found = type ∧ Given module touched value
  edges : ∀ phi,before.edgeTypes phi ≠ [] → after.edgeTypes phi ≠ []
  quiet : Walked module before → result = none →
    Quiet module before after ∧ ∀ operand ∈ (module.kind value).followed,Seen module after operand

structure Answers (module : Module) (type : Shape) (member touched : Value → Prop)
    (recurse : Visitor) : Prop where
  graph : Graph module type member
  closed : ∀ value,touched value → ∀ operand ∈ (module.kind value).followed,touched operand
  types : ∀ depth,Analyses module True recurse depth
  members : ∀ value state,member value → touched value →
    Tracks module type member touched state →
    Routine.Meets False True (recurse value) state (Answered module type member touched value state)

section Visits
variable {module : Module} {type : Shape} {member touched : Value → Prop} {recurse : Visitor}
  {value operand : Value} {before state after : State} {result : Option Shape}

theorem Answered.quiet_of_walked
    (answered : Answered module type member touched value before none after)
    (walked : Walked module before) : Quiet module before after ∧ Seen module after value := by
  apply answered.quiet
  · exact fun phi incoming visited => .inr (walked phi incoming visited)
  · rfl
  · exact fun isSource => answered.source isSource rfl

theorem Answers.follow (answers : Answers module type member touched recurse)
    (isMember : member value) (isTouched : touched value)
    (isOperand : operand ∈ (module.kind value).followed)
    (tracks : Tracks module type member touched state) :
    Routine.Meets False True (recurse operand) state (Answered module type member touched operand state) :=
  answers.members operand state (answers.graph.operands value isMember operand isOperand)
    (answers.closed value isTouched operand isOperand) tracks

/-- The visit of a member that is no allocation. -/
theorem meets_member {find : Analysis (Option Shape)} (graph : Graph module type member)
    (isMember : member value) (unallocated : ¬ (module.kind value).isAllocation)
    (tracks : Tracks module type member touched state)
    (explored : Tracks module type member touched (state.markVisited value) →
      Routine.Meets False True find (state.markVisited value)
        (Explored module type member touched value (state.markVisited value))) :
    Routine.Meets False True (checkMemoized value find) state
      (Visited module type member touched value state) := by
  apply meets_checkMemoized
  · intro found isFound
    refine ⟨tracks,fun other same => ?_,fun _ => by simp,fun _ typed => typed,
      fun _ absent => absurd absent (by simp)⟩
    exact Option.some.inj same ▸ tracks.typed value isMember found isFound
  · intro _ visited
    refine ⟨tracks,fun _ absent => absurd absent (by simp),
      fun isAllocation => absurd isAllocation unallocated,fun _ typed => typed,
      fun walked _ _ => ⟨.refl fun phi incoming isEdge => ?_,.inl visited⟩⟩
    rcases walked phi incoming isEdge with rfl | seen
    · exact .inl visited
    · exact seen
  · intro _ _
    apply (explored (tracks.markVisited (graph.indefinite isMember unallocated))).mono
    intro result after explored
    refine ⟨explored.tracks,explored.typed,fun isAllocation => absurd isAllocation unallocated,
      explored.edges,?_⟩
    intro walked none unsourced
    obtain ⟨quiet,seen⟩ := explored.quiet (walked_markVisited walked) none
    exact quiet.of_markVisited unsourced seen

theorem Explored.memoize (explored : Explored module type member touched value before result after)
    (graph : Graph module type member) (isMember : member value)
    (unallocated : ¬ (module.kind value).isAllocation) :
    Routine.Meets False True (memoizeAndReturn value result) after
      (Explored module type member touched value before) := by
  refine ⟨?_,explored.typed,explored.edges,fun walked none => ?_⟩
  · exact explored.tracks.memoize graph isMember explored.typed fun _ =>
      graph.indefinite isMember unallocated
  · obtain ⟨quiet,seen⟩ := explored.quiet walked none
    exact ⟨quiet.memoize value result,seen⟩

theorem Answers.forward (answers : Answers module type member touched recurse)
    {operation : Forwarding} (isMember : member value) (isTouched : touched value)
    (isForward : module.kind value = .forward operation operand)
    (tracks : Tracks module type member touched state) :
    Routine.Meets False True (visitForwarding recurse value operand) state
      (Visited module type member touched value state) := by
  have unallocated : ¬ (module.kind value).isAllocation := by simp [isForward,Kind.isAllocation]
  have isOperand : operand ∈ (module.kind value).followed := by
    rw [isForward]
    exact List.mem_cons_self
  apply meets_member answers.graph isMember unallocated tracks
  intro tracks
  apply (answers.follow isMember isTouched isOperand tracks).bind
  intro result after answered
  apply Explored.memoize _ answers.graph isMember unallocated
  refine ⟨answered.tracks,fun found same => ?_,answered.edges,?_⟩
  · exact (answered.typed found same).imp_right (.operand isOperand)
  · rintro walked rfl
    obtain ⟨quiet,seen⟩ := answered.quiet_of_walked walked
    refine ⟨quiet,fun other isOther => ?_⟩
    rw [isForward] at isOther
    exact List.mem_singleton.mp isOther ▸ seen

/-- A swap gives the type that it finds to both of its collections. -/
theorem Answers.swap (answers : Answers module type member touched recurse)
    {fromCollection toCollection : Value} (isMember : member value) (isTouched : touched value)
    (isSwap : (module.kind value).isSwap)
    (follows : (module.kind value).followed = [fromCollection,toCollection])
    (tracks : Tracks module type member touched state) :
    Routine.Meets False True (visitSwapInst recurse value fromCollection toCollection) state
      (Visited module type member touched value state) := by
  have graph := answers.graph
  have unallocated : ¬ (module.kind value).isAllocation := by
    revert isSwap
    cases module.kind value <;> simp [Kind.isSwap,Kind.isAllocation]
  have isFrom : fromCollection ∈ (module.kind value).followed := by simp [follows]
  have isTo : toCollection ∈ (module.kind value).followed := by simp [follows]
  have both : ∀ {found},found = type ∧ Given module touched value → ∀ operand ∈ (module.kind value).followed,
      found = type ∧ Given module touched operand :=
    fun given operand member => given.imp_right (.swapped isSwap isTouched member)
  apply meets_member graph isMember unallocated tracks
  intro tracks
  apply (answers.follow isMember isTouched isFrom tracks).bind
  rintro (_ | found) middle answered
  · apply (answers.follow isMember isTouched isTo answered.tracks).bind
    intro result after answered'
    have typed : ∀ found,result = some found → found = type ∧ Given module touched value :=
      fun found same => (answered'.typed found same).imp_right (.operand isTo)
    rw [Routine.meets_bind,Routine.meets_update]
    apply Explored.memoize _ graph isMember unallocated
    refine ⟨?_,typed,fun phi typed => answered'.edges phi (answered.edges phi typed),?_⟩
    · apply answered'.tracks.memoize graph (graph.operands value isMember _ isFrom)
      · exact fun found same => both (typed found same) _ isFrom
      · intro _
        apply graph.indefinite (graph.operands value isMember _ isFrom)
        exact fun isAllocation => answered.allocated isAllocation rfl
    · rintro walked rfl
      obtain ⟨quiet,seen⟩ := answered.quiet_of_walked walked
      obtain ⟨quiet',seen'⟩ := answered'.quiet_of_walked quiet.walked
      refine ⟨(quiet.trans quiet').memoize _ none,fun other isOther => ?_⟩
      rw [follows] at isOther
      rcases List.mem_pair.mp isOther with rfl | rfl
      · exact seen.kept quiet'.kept
      · exact seen'
  · have typed : found = type ∧ Given module touched value :=
      (answered.typed found rfl).imp_right (.operand isFrom)
    rw [Routine.meets_bind,Routine.meets_update]
    apply Explored.memoize _ graph isMember unallocated
    refine ⟨?_,?_,answered.edges,fun _ absent => absurd absent (by simp)⟩
    · apply answered.tracks.memoize graph (graph.operands value isMember _ isTo)
      · rintro _ ⟨⟩
        exact both typed _ isTo
      · exact fun absent => absurd absent (by simp)
    · rintro _ ⟨⟩
      exact typed

theorem Answers.incoming (answers : Answers module type member touched recurse)
    (isMember : member value) (isTouched : touched value) {values : List Value}
    (follows : ∀ incoming ∈ values,incoming ∈ (module.kind value).followed)
    (tracks : Tracks module type member touched state) :
    Routine.Meets False True (visitIncoming recurse value values) state fun _ after =>
      Tracks module type member touched after ∧
      (∀ phi,state.edgeTypes phi ≠ [] → after.edgeTypes phi ≠ []) ∧
      (Walked module state → after.edgeTypes value = [] →
        Quiet module state after ∧ ∀ incoming ∈ values,Seen module after incoming) := by
  induction values generalizing state with
  | nil =>
    refine ⟨tracks,fun _ typed => typed,fun walked _ => ⟨.refl walked,?_⟩⟩
    exact fun _ member => absurd member List.not_mem_nil
  | cons incoming rest ih =>
    have ih := @ih
    have isOperand := follows incoming List.mem_cons_self
    have follows : ∀ other ∈ rest,other ∈ (module.kind value).followed :=
      fun other member => follows other (List.mem_cons_of_mem incoming member)
    rw [visitIncoming,Routine.meets_bind,Routine.meets_read]
    by_cases again : incoming ∈ state.visitedEdges value
    · rw [if_pos again]
      apply (ih follows tracks).mono
      rintro _ after ⟨tracks,edges,quiet⟩
      refine ⟨tracks,edges,fun walked none => ?_⟩
      obtain ⟨quiet,seen⟩ := quiet walked none
      refine ⟨quiet,fun other member => ?_⟩
      rcases List.mem_cons.mp member with rfl | member
      · exact (walked value other again).kept quiet.kept
      · exact seen other member
    · rw [if_neg again,Routine.meets_bind,Routine.meets_update]
      have entered : Tracks module type member touched (state.visitEdge value incoming) :=
        ⟨⟨tracks.sound.types,tracks.sound.asserted,tracks.sound.defined,tracks.sound.known⟩,
          tracks.opened,tracks.typed,tracks.edges⟩
      apply (answers.follow isMember isTouched isOperand entered).bind
      intro result middle answered
      rw [Routine.meets_bind,Routine.meets_update]
      have inserted := answered.tracks.insertEdgeType
        fun found same => (answered.typed found same).imp_right (.operand isOperand)
      apply (ih follows inserted).mono
      rintro _ after ⟨tracks,edges,quiet⟩
      refine ⟨tracks,fun phi typed => edges phi ?_,fun walked none => ?_⟩
      · exact insertEdgeType_grows (answered.edges phi typed) value result
      · cases result with
        | some found => exact absurd none (edges value (insertEdgeType_self middle value found))
        | none =>
          obtain ⟨first,seen⟩ := answered.quiet (walked_visitEdge walked) rfl
            fun isSource => answered.source isSource rfl
          have first : Quiet module state middle := ⟨first.kept,first.fresh,first.walked⟩
          obtain ⟨second,rest⟩ := quiet first.walked none
          refine ⟨first.trans second,fun other member => ?_⟩
          rcases List.mem_cons.mp member with rfl | member
          · exact seen.kept second.kept
          · exact rest other member

theorem Answers.phi (answers : Answers module type member touched recurse)
    {incoming : List Value} (isMember : member value) (isTouched : touched value)
    (isPhi : module.kind value = .phi incoming)
    (tracks : Tracks module type member touched state) :
    Routine.Meets False True (visitPHINode recurse value incoming) state
      (Visited module type member touched value state) := by
  have unallocated : ¬ (module.kind value).isAllocation := by simp [isPhi,Kind.isAllocation]
  have follows : (module.kind value).followed = incoming := by rw [isPhi]; rfl
  apply meets_member answers.graph isMember unallocated tracks
  intro tracks
  apply (answers.incoming isMember isTouched (fun other => follows ▸ id) tracks).bind
  rintro _ after ⟨tracks,edges,quiet⟩
  rw [Routine.meets_bind,Routine.meets_read]
  rcases tracks.edges value isMember with none | ⟨one,given⟩
  · simp only [none]
    refine ⟨tracks,fun _ absent => absurd absent (by simp),edges,fun walked _ => ?_⟩
    rw [follows]
    exact quiet walked none
  · simp only [one]
    apply Explored.memoize _ answers.graph isMember unallocated
    refine ⟨tracks,?_,edges,fun _ absent => absurd absent (by simp)⟩
    rintro _ ⟨⟩
    exact ⟨rfl,given⟩

theorem Answers.visit (answers : Answers module type member touched recurse) (isMember : member value)
    (isTouched : touched value) (tracks : Tracks module type member touched state) :
    Routine.Meets False True (visit module recurse value) state
      (Visited module type member touched value state) := by
  by_cases isAllocation : (module.kind value).isAllocation
  · apply (meets_allocation answers.graph answers.types isMember isAllocation tracks).mono
    rintro _ after ⟨rfl,tracks,edges⟩
    refine ⟨tracks,?_,fun _ => by simp,fun phi typed => edges ▸ typed,
      fun _ absent => absurd absent (by simp)⟩
    rintro _ ⟨⟩
    exact ⟨rfl,.source (.inl isAllocation)⟩
  · have isCollection := answers.graph.collections value isMember
    rw [TypeAnalysis.visit]
    cases isKind : module.kind value with
    | forward operation operand => exact answers.forward isMember isTouched isKind tracks
    | swap fromCollection toCollection | mutSeqSwap fromCollection toCollection =>
      apply answers.swap isMember isTouched _ _ tracks
      · rw [isKind]
        rfl
      · rw [isKind]
        rfl
    | phi incoming => exact answers.phi isMember isTouched isKind tracks
    | argument =>
      refine ⟨tracks,fun _ absent => absurd absent (by simp),
        fun isAllocation' => absurd isAllocation' isAllocation,fun _ typed => typed,?_⟩
      intro walked _ unsourced
      have seen : Seen module state value := .inr ⟨by rw [isKind]; rfl,unsourced⟩
      refine ⟨.refl fun phi incoming visited => ?_,seen⟩
      rcases walked phi incoming visited with rfl | seen'
      · exact seen
      · exact seen'
    | _ =>
      rw [isKind] at isCollection isAllocation
      exact absurd isCollection isAllocation

/-- The assertions of a value are asked one after another. -/
theorem Answers.findAsserted (answers : Answers module type member touched recurse)
    (isMember : member value) {users : List Value} (used : ∀ user ∈ users,user ∈ module.users value)
    (tracks : Tracks module type member touched state) :
    Routine.Meets False True (findAsserted module recurse value users) state fun result after =>
      Provided module type member touched state result after ∧ Asserted module value ∨
        result = none ∧ after = state ∧ ∀ user ∈ users,(module.kind user).assertedType = none := by
  induction users with
  | nil => exact .inr ⟨rfl,rfl,fun _ member => absurd member List.not_mem_nil⟩
  | cons user users ih =>
    have isUser := used user List.mem_cons_self
    have ih := ih fun other member => used other (List.mem_cons_of_mem user member)
    rw [TypeAnalysis.findAsserted]
    cases asserts : (module.kind user).assertedType with
    | none =>
      apply ih.mono
      rintro result after (provided | ⟨none,same,unasserted⟩)
      · exact .inl provided
      · refine .inr ⟨none,same,fun other member => ?_⟩
        rcases List.mem_cons.mp member with rfl | member
        · exact asserts
        · exact unasserted other member
    | some operand =>
      have asserted : Asserted module value := ⟨user,isUser,by simp [asserts]⟩
      apply (meets_assertion answers.graph answers.types isMember isUser asserts tracks).bind
      rintro _ after ⟨rfl,tracks,edges⟩
      refine .inl ⟨⟨rfl,?_,edges⟩,asserted⟩
      apply tracks.memoize answers.graph isMember
      · rintro _ ⟨⟩
        exact ⟨rfl,.source (.inr asserted)⟩
      · exact fun absent => absurd absent (by simp)

theorem Answers.resolve (answers : Answers module type member touched recurse)
    (isMember : member value) (isTouched : touched value)
    (tracks : Tracks module type member touched state) :
    Routine.Meets False True (resolve module recurse value) state
      (Answered module type member touched value state) := by
  apply (answers.visit isMember isTouched tracks).bind
  intro result middle visited
  cases result with
  | some found => exact ⟨visited,fun _ => by simp⟩
  | none =>
    dsimp only
    split
    · rename_i isNull
      have isCollection := answers.graph.collections value isMember
      rw [isNull] at isCollection
      exact absurd isCollection (by simp [Kind.isCollection,Kind.isAllocation])
    · apply (answers.findAsserted isMember (fun _ member => member) visited.tracks).mono
      rintro result after (⟨provided,asserted⟩ | ⟨rfl,rfl,unasserted⟩)
      · obtain ⟨rfl,tracks,edges⟩ := provided
        refine ⟨⟨tracks,?_,fun _ => by simp,fun phi typed => ?_,fun _ absent => absurd absent (by simp)⟩,
          fun _ => by simp⟩
        · rintro _ ⟨⟩
          exact ⟨rfl,.source (.inr asserted)⟩
        · rw [edges]
          exact visited.edges phi typed
      · refine ⟨visited,fun isSource => ?_⟩
        rcases isSource with isAllocation | ⟨user,used,asserts⟩
        · exact visited.allocated isAllocation
        · exact absurd (unasserted user used) asserts

theorem answers_getTypeHelper (graph : Graph module type member)
    (closed : ∀ value,touched value → ∀ operand ∈ (module.kind value).followed,touched operand)
    (fuel : Nat) : Answers module type member touched (getTypeHelper module fuel) := by
  have types : ∀ fuel depth,Analyses module True (getTypeHelper module fuel) depth :=
    fun fuel depth => analyses_getTypeHelper graph.wellFormed (.inr trivial)
  induction fuel with
  | zero => exact ⟨graph,closed,types 0,fun _ _ _ _ _ => trivial⟩
  | succ fuel ih =>
    refine ⟨graph,closed,types (fuel + 1),fun value state isMember isTouched tracks => ?_⟩
    exact ih.resolve isMember isTouched tracks

end Visits

section Queries
variable {module : Module} {type : Shape} {member touched : Value → Prop} {value query : Value}
  {fuel : Nat} {state : State}

/-- A source that a value reaches is found, when nothing was visited before the query. -/
theorem Quiet.unsourced {after : State} {source : Value} (quiet : Quiet module state.clear after)
    (seen : Seen module after value) (reaches : Reaches module value source) :
    ¬ Source module source := by
  have step : ∀ {other},Seen module after other → ¬ Source module other ∧
      ∀ operand ∈ (module.kind other).followed,Seen module after operand := by
    rintro other (visited | ⟨none,unsourced⟩)
    · exact quiet.fresh other visited List.not_mem_nil
    · exact ⟨unsourced,fun operand member => absurd (none ▸ member) List.not_mem_nil⟩
  have all : Seen module after source := by
    induction reaches with
    | refl => exact seen
    | tail _ member ih => exact (step ih).2 _ member
  exact (step all).1

/-- The values that queries reach. -/
def Touched (module : Module) (queries : List Value) (value : Value) : Prop :=
  ∃ query ∈ queries,Reaches module query value

theorem Touched.closed {queries : List Value} (value : Value)
    (isTouched : Touched module queries value) :
    ∀ operand ∈ (module.kind value).followed,Touched module queries operand := by
  obtain ⟨query,member,reaches⟩ := isTouched
  exact fun operand isOperand => ⟨query,member,reaches.tail isOperand⟩

/-- Queries of members, of their assertions and of types. -/
theorem Graph.keeps (graph : Graph module type member) (fuel : Nat)
    (closed : ∀ value,touched value → ∀ operand ∈ (module.kind value).followed,touched operand)
    (isTouched : touched query) (inside : Graph.Inside module member query)
    (tracks : Tracks module type member touched state) :
    Routine.Meets False True (getTypeHelper module fuel query) state fun _ after =>
      Tracks module type member touched after := by
  have answers := answers_getTypeHelper graph closed
  cases inside with
  | member isMember =>
    apply ((answers fuel).members query state isMember isTouched tracks).mono
    exact fun _ _ answered => answered.tracks
  | type whole =>
    apply ((answers fuel).types _ query state whole tracks.sound _).mono
    · exact fun _ _ found => tracks.settles graph found.sound (found.settled.resolve_left id)
    · intro value visited untyped
      rw [← Bool.not_eq_true]
      exact fun whole => tracks.opened value visited untyped (.inl (typeValue_of_complete whole))
  | assertion isMember used asserts =>
    cases fuel with
    | zero => trivial
    | succ fuel =>
      have provided := meets_assertion graph (answers fuel).types isMember used asserts tracks
      rw [getTypeHelper,resolve,TypeAnalysis.visit]
      cases isKind : module.kind query with
      | assertStructType type object | assertCollectionType type object =>
        rw [isKind] at asserts
        obtain rfl := Option.some.inj asserts
        apply provided.bind
        rintro _ after ⟨rfl,tracks,_⟩
        exact tracks
      | _ => exact absurd asserts (by simp [isKind,Kind.assertedType])

theorem Graph.keeps_query (graph : Graph module type member) {queries : List Value}
    (inside : Graph.Inside module member query) (isQuery : query ∈ queries)
    (enough : levelsBound module ≤ fuel)
    (tracks : Tracks module type member (Touched module queries) state) :
    Routine.Meets False False (getType module fuel query) state fun _ after =>
      Tracks module type member (Touched module queries) after := by
  have isTouched : Touched module queries query := ⟨query,isQuery,.refl⟩
  have ends := query_ends graph.wellFormed (graph.acyclic inside) enough state
  have keeps := graph.keeps fuel Touched.closed isTouched inside tracks.clear
  exact (ends.and keeps).mono fun _ _ both => both.2

/-- A query after others. -/
theorem Graph.answer (graph : Graph module type member) {queries : List Value}
    (isMember : member value) (enough : levelsBound module ≤ fuel)
    (tracks : Tracks module type member (Touched module queries) state) :
    Routine.Meets False False (getType module fuel value) state fun result _ =>
      (result = some type ∨ result = none) ∧
      ((∃ source,Reaches module value source ∧ Source module source) → result = some type) ∧
      (¬ Given module (Touched module queries) value → result = none) := by
  have closed : ∀ other,(Touched module queries other ∨ Reaches module value other) →
      ∀ operand ∈ (module.kind other).followed,
        Touched module queries operand ∨ Reaches module value operand := by
    rintro other (isTouched | reaches) operand isOperand
    · exact .inl (isTouched.closed other operand isOperand)
    · exact .inr (reaches.tail isOperand)
  have ends := query_ends graph.wellFormed (graph.acyclic (.member isMember)) enough state
  have tracks : Tracks module type member
      (fun other => Touched module queries other ∨ Reaches module value other) state.clear :=
    tracks.clear.mono fun _ isTouched => .inl isTouched
  have answered :=
    (answers_getTypeHelper graph closed fuel).members value state.clear isMember (.inr .refl) tracks
  apply (ends.and answered).mono
  rintro result after ⟨_,answered⟩
  cases result with
  | some found =>
    obtain ⟨rfl,given⟩ := answered.typed found rfl
    exact ⟨.inl rfl,fun _ => rfl,fun notGiven => absurd given.of_query notGiven⟩
  | none =>
    refine ⟨.inr rfl,?_,fun _ => rfl⟩
    rintro ⟨source,reaches,isSource⟩
    obtain ⟨quiet,seen⟩ := answered.quiet_of_walked fun _ _ visited => absurd visited List.not_mem_nil
    exact absurd isSource (quiet.unsourced seen reaches)

end Queries

/-- Queries of the values of a graph, of their assertions and of types, and a query of a value of the
graph after them. -/
theorem queries_find_type {module : Module} {type : Shape} {member : Value → Prop}
    (graph : Graph module type member) (queries : List Value)
    (inside : ∀ query ∈ queries,Graph.Inside module member query) (value : Value)
    (isMember : member value) :
    ∃ enough,∀ fuel ≥ enough,∃ results before result after,
      Routine.each (getType module fuel) queries .initial = .returned results before ∧
      getType module fuel value before = .returned result after ∧
      (result = some type ∨ result = none) ∧
      ((∃ source,Reaches module value source ∧ Source module source) → result = some type) ∧
      (¬ Given module (Touched module queries) value → result = none) := by
  refine ⟨levelsBound module,fun fuel enough => ?_⟩
  have kept : Routine.Preserves False False (Tracks module type member (Touched module queries))
      (Routine.each (getType module fuel) queries) := by
    apply Routine.Preserves.each
    exact fun query isQuery _ => graph.keeps_query (inside query isQuery) isQuery enough
  obtain ⟨results,before,ran,tracks⟩ := (kept .initial .initial).returns
  obtain ⟨result,after,ran',answer⟩ := (graph.answer isMember enough tracks).returns
  exact ⟨results,before,result,after,ran,ran',answer⟩

/-- A swap of a sequence with a PHI that has no source. -/
def swapModule : Module where
  kinds := [.integerType .u64,.sequenceAlloc 0,.phi [3],.forward .insert 2,.swap 1 2]
  users _ := []
  linked := by
    intro value user
    rcases user with _ | _ | _ | _ | _ | user
    · simp [Kind.operands]
    · simp [Kind.operands]
    · simp [Kind.operands]
    · simp [Kind.operands]
    · simp [Kind.operands]
    · simp

theorem swapModule_graph :
    Graph swapModule (.sequence (.integer .u64)) fun value => value ∈ [1,2,3,4] := by
  refine ⟨wellFormed_of_check (by decide),by decide,by decide,?_,?_⟩
  · intro value isMember isAllocation
    have only : value = 1 := by
      revert value
      decide
    subst only
    exact ⟨1,by decide,rfl⟩
  · exact fun _ _ _ used => absurd used List.not_mem_nil

/-- Whatever was queried before, the swap has the type of the sequence. -/
theorem swapModule_finds : ∃ enough,∀ fuel ≥ enough,∃ results before after,
    Routine.each (getType swapModule fuel) [2] .initial = .returned results before ∧
      getType swapModule fuel 4 before = .returned (some (.sequence (.integer .u64))) after := by
  obtain ⟨enough,finds⟩ := queries_find_type swapModule_graph [2] (by
    intro query member
    obtain rfl := List.mem_singleton.mp member
    exact .member (by decide)) 4 (by decide)
  refine ⟨enough,fun fuel le => ?_⟩
  obtain ⟨results,before,result,after,ran,ran',_,found,_⟩ := finds fuel le
  have reaches : Reaches swapModule 4 1 := .single List.mem_cons_self
  obtain rfl := found ⟨1,reaches,.inl rfl⟩
  exact ⟨results,before,after,ran,ran'⟩

/-- The PHI has no type, and has that of the sequence once the swap was queried. -/
theorem swapModule_query_forwards :
    Graph swapModule (.sequence (.integer .u64)) (fun value => value ∈ [1,2,3,4]) ∧
      (¬ ∃ source,Reaches swapModule 2 source ∧ Source swapModule source) ∧
      (∃ after,getType swapModule 8 2 .initial = .returned none after) ∧
      ∃ results before after,Routine.each (getType swapModule 8) [4] .initial = .returned results before ∧
        getType swapModule 8 2 before = .returned (some (.sequence (.integer .u64))) after := by
  have cycle : ∀ value,Reaches swapModule 2 value → value = 2 ∨ value = 3 := by
    intro value reaches
    induction reaches with
    | refl => exact .inl rfl
    | tail _ member ih =>
      rcases ih with rfl | rfl
      · exact .inr (List.mem_singleton.mp member)
      · exact .inl (List.mem_singleton.mp member)
  refine ⟨swapModule_graph,?_,⟨_,rfl⟩,⟨_,_,_,rfl,rfl⟩⟩
  rintro ⟨source,reaches,isAllocation | ⟨user,used,_⟩⟩
  · rcases cycle source reaches with rfl | rfl
    · exact absurd isAllocation (by decide)
    · exact absurd isAllocation (by decide)
  · exact absurd used List.not_mem_nil

end Memoir.TypeAnalysis
