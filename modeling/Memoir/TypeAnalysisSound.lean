import Memoir.TypeInstructions

/-! What every query keeps: the types in the table are those that the type instructions stand for. -/
namespace Memoir.TypeAnalysis
open TypeGetters Outcomes

abbrev Keeping {α : Type} (module : Module) (run : Analysis α) : Prop :=
  Routine.Preserves True True (Sound module) run

structure Kept (module : Module) (value : Value) (result : Option Shape) (after : State) : Prop where
  type : ∀ type,result = some type → TypeValue module value → Fits module value type
  sound : Sound module after

def Keeps (module : Module) (recurse : Visitor) : Prop :=
  ∀ value state,Sound module state → Routine.Meets True True (recurse value) state (Kept module value)

section Rules
variable {module : Module} {value : Value}

theorem Keeping.checkMemoized {find : Analysis (Option Shape)} (keeping : Keeping module find) :
    Keeping module (checkMemoized value find) := by
  intro state sound
  apply meets_checkMemoized
  · exact fun _ _ => sound
  · exact fun _ _ => sound
  · intro _ _
    exact keeping _ (sound.markVisited value)

theorem Sound.memoize_object {state : State} (sound : Sound module state)
    (object : IsObject module value) (type : Option Shape) : Sound module (state.memoize value type) := by
  apply sound.memoize fun _ => object.known
  · intro _ _ isType
    exact absurd isType object.object
  · intro found operand _ asserted
    have unasserted := object.unasserted
    cases isKind : module.kind value <;> simp_all [Kind.isAssertion,Kind.assertedType]

theorem Keeping.memoizeAndReturn (object : IsObject module value) (type : Option Shape) :
    Keeping module (memoizeAndReturn value type) := by
  apply Routine.Preserves.bind
  · exact .update fun state sound => sound.memoize_object object type
  · exact fun _ => .pure type

end Rules

section Visitors
variable {module : Module} {recurse : Visitor} {value : Value}

theorem Keeps.operand (keeps : Keeps module recurse) (value : Value) :
    Keeping module (recurse value) := by
  intro state sound
  exact (keeps value state sound).mono fun _ _ kept => kept.sound

theorem Keeps.accessType (keeps : Keeps module recurse) (value : Value) :
    Keeping module (accessType recurse value) := by
  apply Routine.Preserves.bind
  · apply Routine.Preserves.bind
    · exact .update fun _ sound => sound.clear
    · exact fun _ => keeps.operand value
  · exact fun _ => .require trivial _

theorem Keeps.getElementType (keeps : Keeps module recurse) (object : Value) :
    Keeping module (getElementType recurse object) := by
  apply (keeps.accessType object).bind
  intro type
  exact Routine.Preserves.read.bind fun _ => .require trivial _

theorem Keeps.getFieldElementType (keeps : Keeps module recurse) (object : Value) (fieldIndex : Nat) :
    Keeping module (getFieldElementType recurse object fieldIndex) := by
  apply (keeps.accessType object).bind
  intro type
  cases type with
  | struct name =>
    dsimp only
    split
    · exact Routine.Preserves.read.bind fun _ => .require trivial _
    · exact .abort trivial
  | _ => exact .abort trivial

/-- The visitors that end with a null check. -/
theorem Keeps.nullChecked (keeps : Keeps module recurse) (object : IsObject module value) (operand : Value)
    (make : Shape → Shape) : Keeping module (checkMemoized value do
      let type ← Routine.require (← recurse operand)
      memoizeAndReturn value (some (make type))) := by
  apply Keeping.checkMemoized
  apply (keeps.operand operand).bind
  intro result
  apply (Routine.Preserves.require trivial result).bind
  exact fun type => Keeping.memoizeAndReturn object _

theorem Keeps.getReturnType (keeps : Keeps module recurse) (function : Function) :
    Keeping module (getReturnType recurse function) := by
  unfold TypeAnalysis.getReturnType
  split
  · exact .pure none
  · split
    · exact keeps.operand _
    · apply (Routine.Preserves.each function.returned ?_).bind
      · exact fun types => .require trivial _
      · intro returned _
        cases returned with
        | none => exact .pure none
        | some value => exact keeps.operand value

theorem Keeps.visitIncoming (keeps : Keeps module recurse) (phi : Value) (incoming : List Value) :
    Keeping module (visitIncoming recurse phi incoming) := by
  induction incoming with
  | nil => exact .pure ()
  | cons value rest ih =>
    apply Routine.Preserves.read.bind
    intro state
    split
    · exact ih
    · apply Routine.Preserves.bind
      · exact .update fun _ sound => ⟨sound.types,sound.asserted,sound.defined,sound.known⟩
      · intro _
        apply (keeps.operand value).bind
        intro type
        apply Routine.Preserves.bind
        · apply Routine.Preserves.update
          intro state sound
          cases type with
          | none => exact sound
          | some type => exact ⟨sound.types,sound.asserted,sound.defined,sound.known⟩
        · exact fun _ => ih

/-- Instructions that are neither types nor assertions. -/
theorem Keeps.object (keeps : Keeps module recurse) (wellFormed : WellFormed module)
    (object : ¬ TypeValue module value) (unasserted : (module.kind value).isAssertion = false) :
    Keeping module (visit module recurse value) := by
  have isObject : ∀ {kind},module.kind value = kind → kind ≠ .other → IsObject module value :=
    fun isKind proper => ⟨kind_known isKind proper,object,unasserted⟩
  rw [visit]
  cases isKind : module.kind value with
  | integerType _ | floatType | doubleType | pointerType | referenceType _ | defineStructType _ _
  | structType _ | staticTensorType _ _ | tensorType _ _ | assocArrayType _ _ | sequenceType _ =>
    exact absurd (TypeValue.instruction (by rw [isKind]; rfl)) object
  | assertStructType _ _ | assertCollectionType _ _ | returnType _ =>
    rw [isKind] at unasserted
    exact absurd unasserted (by simp [Kind.isAssertion])
  | globalString _ | getElementPtr _ | constantGetElementPtr _ | constantNull | argument | other =>
    exact .pure none
  | structAlloc type => exact keeps.nullChecked (isObject isKind (by simp)) type id
  | tensorAlloc element number => exact keeps.nullChecked (isObject isKind (by simp)) element (.tensor · number)
  | sequenceAlloc element => exact keeps.nullChecked (isObject isKind (by simp)) element .sequence
  | assocArrayAlloc keyType valueType =>
    apply Keeping.checkMemoized
    apply (keeps.operand keyType).bind
    intro key
    apply (Routine.Preserves.require trivial key).bind
    intro key
    apply (keeps.operand valueType).bind
    intro element
    apply (Routine.Preserves.require trivial element).bind
    exact fun element => Keeping.memoizeAndReturn (isObject isKind (by simp)) _
  | read operand =>
    apply Keeping.checkMemoized
    apply (keeps.getElementType operand).bind
    exact fun element => Keeping.memoizeAndReturn (isObject isKind (by simp)) _
  | structRead operand fieldIndex =>
    apply Keeping.checkMemoized
    apply (keeps.getFieldElementType operand fieldIndex).bind
    exact fun element => Keeping.memoizeAndReturn (isObject isKind (by simp)) _
  | get operand =>
    apply Keeping.checkMemoized
    apply (keeps.getElementType operand).bind
    exact fun element => Keeping.memoizeAndReturn (isObject isKind (by simp)) _
  | structGet operand fieldIndex =>
    apply Keeping.checkMemoized
    apply (keeps.getFieldElementType operand fieldIndex).bind
    exact fun element => Keeping.memoizeAndReturn (isObject isKind (by simp)) _
  | forward operation collection =>
    apply Keeping.checkMemoized
    apply (keeps.operand collection).bind
    exact fun type => Keeping.memoizeAndReturn (isObject isKind (by simp)) type
  | swap fromCollection toCollection | mutSeqSwap fromCollection toCollection =>
    have operand : ∀ operand ∈ [fromCollection,toCollection],IsObject module operand := by
      intro operand member
      apply wellFormed.objects value operand
      rw [isKind]
      exact member
    apply Keeping.checkMemoized
    apply (keeps.operand fromCollection).bind
    intro type
    cases type with
    | none =>
      apply (keeps.operand toCollection).bind
      intro type
      apply Routine.Preserves.bind
      · exact .update fun state sound => sound.memoize_object (operand _ (by simp)) type
      · exact fun _ => Keeping.memoizeAndReturn (isObject isKind (by simp)) type
    | some type =>
      apply Routine.Preserves.bind
      · exact .update fun state sound => sound.memoize_object (operand _ (by simp)) (some type)
      · exact fun _ => Keeping.memoizeAndReturn (isObject isKind (by simp)) _
  | assocKeys collection =>
    apply Keeping.checkMemoized
    apply (keeps.operand collection).bind
    intro type
    apply (Routine.Preserves.require trivial (keySequence type)).bind
    exact fun keys => Keeping.memoizeAndReturn (isObject isKind (by simp)) _
  | call returnsPointer callee =>
    apply Keeping.checkMemoized
    split
    · apply (keeps.getReturnType callee).bind
      exact fun type => Keeping.memoizeAndReturn (isObject isKind (by simp)) type
    · exact .pure none
  | indirectCall returnsPointer candidates =>
    apply Keeping.checkMemoized
    split
    · apply (Routine.Preserves.each candidates fun function _ => keeps.getReturnType function).bind
      intro types
      apply (Routine.Preserves.require trivial (single types)).bind
      exact fun _ => Keeping.memoizeAndReturn (isObject isKind (by simp)) none
    · exact .pure none
  | load stored =>
    apply Keeping.checkMemoized
    split
    · rename_i first rest
      apply (keeps.operand first).bind
      intro type
      apply (Routine.Preserves.require trivial type).bind
      exact fun type => Keeping.memoizeAndReturn (isObject isKind (by simp)) _
    · exact .pure none
  | phi incoming =>
    apply Keeping.checkMemoized
    apply (keeps.visitIncoming value incoming).bind
    intro _
    apply Routine.Preserves.read.bind
    intro state
    split
    · exact Keeping.memoizeAndReturn (isObject isKind (by simp)) _
    · exact .pure none

theorem kind_of_assertedType {user operand : Value}
    (asserts : (module.kind user).assertedType = some operand) :
    ∃ object,(module.kind user).types = [operand] ∧ (module.kind user).objects = [object] ∧
      (module.kind user).operands = [operand,object] ∧ (module.kind user).isAssertion := by
  cases isKind : module.kind user with
  | assertStructType type object | assertCollectionType type object =>
    rw [isKind] at asserts
    obtain rfl := Option.some.inj asserts
    exact ⟨object,rfl,rfl,rfl,rfl⟩
  | _ => exact absurd asserts (by simp [isKind,Kind.assertedType])

/-- An assertion gets the type that it asserts. -/
theorem Keeps.assertion (keeps : Keeps module recurse) (wellFormed : WellFormed module)
    {user operand : Value} (isOperand : operand ∈ (module.kind user).types)
    (isAssertion : (module.kind user).isAssertion) (same : ∀ other,
      (module.kind user).assertedType = some other → other = operand) {state : State}
    (sound : Sound module state) :
    Routine.Meets True True (visitAssertTypeInst recurse user operand) state fun result after =>
      Sound module after ∧ ∀ type,result = some type →
        (module.kind user).assertedType = some operand → Fits module operand type := by
  have isType := wellFormed.types user operand isOperand
  have notType : ¬ TypeValue module user := by
    apply not_typeValue
    · cases isKind : module.kind user <;> simp_all [Kind.isAssertion,Kind.isTypeInst]
    · intro stored isKind
      rw [isKind] at isAssertion
      exact absurd isAssertion (by simp [Kind.isAssertion])
  have known : user < module.kinds.length := by
    apply kind_known rfl
    intro isKind
    rw [isKind] at isAssertion
    exact absurd isAssertion (by simp [Kind.isAssertion])
  apply meets_checkMemoized
  · intro type found
    refine ⟨sound,fun _ isFound asserts => ?_⟩
    exact Option.some.inj isFound ▸ sound.asserted user operand type asserts found
  · exact fun _ _ => ⟨sound,fun _ absent => absurd absent (by simp)⟩
  · intro _ _
    rw [Routine.meets_bind]
    apply (keeps operand _ (sound.markVisited user)).mono
    intro result after kept
    rw [Routine.meets_bind]
    apply Routine.meets_require fun _ => trivial
    intro type found
    have fits := kept.type type found isType
    simp only [memoizeAndReturn,Routine.meets_bind,Routine.meets_update,Routine.meets_pure]
    refine ⟨?_,fun _ isFound _ => Option.some.inj isFound ▸ fits⟩
    apply kept.sound.memoize fun _ => known
    · intro _ _ isType
      exact absurd isType notType
    · intro found other isFound asserts
      obtain rfl := Option.some.inj isFound
      rw [same other asserts]
      exact fits

theorem Keeps.findAsserted (keeps : Keeps module recurse) (wellFormed : WellFormed module)
    {users : List Value} (used : ∀ user ∈ users,user ∈ module.users value) {state : State}
    (sound : Sound module state) :
    Routine.Meets True True (findAsserted module recurse value users) state (Kept module value) := by
  induction users generalizing state with
  | nil => exact ⟨fun _ absent => absurd absent (by simp),sound⟩
  | cons user users ih =>
    have ih := @ih fun other member => used other (List.mem_cons_of_mem user member)
    rw [TypeAnalysis.findAsserted]
    cases asserts : (module.kind user).assertedType with
    | none => exact ih sound
    | some operand =>
      obtain ⟨object,isTypes,isObjects,isOperands,isAssertion⟩ := kind_of_assertedType asserts
      rw [Routine.meets_bind]
      apply (keeps.assertion wellFormed (isTypes ▸ List.mem_cons_self) isAssertion
        (fun other asserts' => Option.some.inj (asserts'.symm.trans asserts)) sound).mono
      rintro result after ⟨sound,fits⟩
      cases result with
      | none => exact ih sound
      | some type =>
        have fits := fits type rfl asserts
        have member := mem_operands (used user List.mem_cons_self)
        rw [isOperands] at member
        simp only [memoizeAndReturn,Routine.meets_bind,Routine.meets_update,Routine.meets_pure]
        rcases List.mem_pair.mp member with rfl | rfl
        · have isType := wellFormed.types user value (isTypes ▸ List.mem_cons_self)
          refine ⟨fun _ same _ => Option.some.inj same ▸ fits,?_⟩
          apply sound.memoize fun _ => isType.known
          · exact fun _ same _ => Option.some.inj same ▸ fits
          · intro _ _ _ asserts
            rw [assertedType_of_typeValue isType] at asserts
            exact absurd asserts (by simp)
        · have object := wellFormed.objects user value (isObjects ▸ List.mem_cons_self)
          exact ⟨fun _ _ isType => absurd isType object.object,sound.memoize_object object _⟩

theorem Keeps.parts (keeps : Keeps module recurse) (wellFormed : WellFormed module)
    (isType : TypeValue module value) :
    Parts module True True recurse (fun _ => True) value := by
  refine ⟨fun _ => trivial,fun _ _ _ _ => trivial,fun _ _ => trivial,?_⟩
  intro part member state sound _
  have isPart : TypeValue module part := by
    cases isType with
    | instruction isInst =>
      apply wellFormed.types value part
      cases isKind : module.kind value <;> simp_all [Kind.parts,Kind.isTypeInst]
    | load isLoad stored =>
      rw [isLoad] at member
      exact List.mem_singleton.mp member ▸ stored
  apply (keeps part state sound).mono
  intro result after kept
  exact ⟨fun type same => kept.type type same isPart,fun _ => trivial,kept.sound,.inl trivial⟩

theorem Keeps.visit (keeps : Keeps module recurse) (wellFormed : WellFormed module) {state : State}
    (sound : Sound module state) :
    Routine.Meets True True (visit module recurse value) state (Kept module value) := by
  by_cases isType : TypeValue module value
  · apply (meets_type wellFormed isType (keeps.parts wellFormed isType) _ _ _ _ sound trivial).mono
    · exact fun _ _ found => ⟨fun type same _ => found.type type same,found.sound⟩
    · exact fun _ _ _ _ => trivial
    · intro name definition _ first
      have isDefinition := (mem_definitions wellFormed (List.mem_of_mem_head? first)).1
      refine ⟨keeps.parts wellFormed (.instruction ?_),fun _ => trivial,fun _ _ => trivial⟩
      rw [isDefinition]
      rfl
    · exact fun _ _ _ => trivial
    · exact fun _ _ => trivial
  · have object : ∀ {result after},Sound module after → Kept module value result after :=
      fun sound => ⟨fun _ _ type => absurd type isType,sound⟩
    cases isAssertion : (module.kind value).isAssertion with
    | false =>
      exact (keeps.object wellFormed isType isAssertion state sound).mono fun _ _ sound => object sound
    | true =>
      rw [TypeAnalysis.visit]
      cases isKind : module.kind value with
      | assertStructType type _ | assertCollectionType type _ | returnType type =>
        apply (keeps.assertion wellFormed _ isAssertion _ sound).mono
        · exact fun _ _ kept => object kept.1
        · rw [isKind]
          exact List.mem_cons_self
        · intro other asserts
          rw [isKind] at asserts
          simp_all [Kind.assertedType]
      | _ => exact absurd isAssertion (by simp [isKind,Kind.isAssertion])

end Visitors

theorem keeps_getTypeHelper {module : Module} (wellFormed : WellFormed module) (fuel : Nat) :
    Keeps module (getTypeHelper module fuel) := by
  induction fuel with
  | zero => exact fun _ _ _ => trivial
  | succ fuel ih =>
    intro value state sound
    rw [getTypeHelper,resolve,Routine.meets_bind]
    apply (ih.visit wellFormed sound).mono
    intro result after kept
    cases result with
    | some type => exact kept
    | none =>
      dsimp only
      split
      · exact kept
      · exact ih.findAsserted wellFormed (fun _ member => member) kept.sound

theorem Sound.initial (module : Module) : Sound module .initial := by
  refine ⟨?_,?_,?_,?_⟩
  · exact fun _ _ _ found => absurd found (by simp [State.initial])
  · exact fun _ _ _ _ found => absurd found (by simp [State.initial])
  · exact fun _ member => absurd member (by simp [State.initial])
  · exact fun _ found => absurd rfl found

theorem Sound.query {module : Module} (wellFormed : WellFormed module) {fuel : Nat} {value : Value}
    {state after : State} {result : Option Shape} (sound : Sound module state)
    (ran : getType module fuel value state = .returned result after) : Sound module after := by
  have keeps := keeps_getTypeHelper wellFormed fuel value state.clear sound.clear
  have kept : Routine.Meets True True (getType module fuel value) state (Kept module value) := by
    rw [getType,analyze,Routine.meets_bind]
    exact keeps
  rw [Routine.Meets,ran] at kept
  exact kept.sound

end Memoir.TypeAnalysis
