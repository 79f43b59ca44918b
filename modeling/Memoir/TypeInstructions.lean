import Memoir.TypeAnalysis

/-! The types that type instructions stand for, and what the analysis finds for them: a type instruction
that is no part of itself gets its type, whatever the analysis has found and visited before. -/
namespace Memoir.TypeAnalysis
open TypeGetters Outcomes

def Kind.isTypeInst : Kind → Bool
  | .integerType _ | .floatType | .doubleType | .pointerType | .referenceType _
  | .defineStructType _ _ | .structType _ | .staticTensorType _ _ | .tensorType _ _
  | .assocArrayType _ _ | .sequenceType _ => true
  | _ => false

def Kind.isAssertion : Kind → Bool
  | .assertStructType _ _ | .assertCollectionType _ _ | .returnType _ => true
  | _ => false

def Kind.returnTypes : Kind → List Value
  | .call _ callee => callee.returnTypes
  | .indirectCall _ candidates => candidates.flatMap Function.returnTypes
  | _ => []

def Kind.types : Kind → List Value
  | .referenceType type | .staticTensorType type _ | .tensorType type _ | .sequenceType type
  | .structAlloc type | .tensorAlloc type _ | .sequenceAlloc type | .assertStructType type _
  | .assertCollectionType type _ | .returnType type => [type]
  | .assocArrayType keyType valueType | .assocArrayAlloc keyType valueType => [keyType,valueType]
  | .defineStructType _ fieldTypes => fieldTypes
  | kind => kind.returnTypes

def Kind.objects : Kind → List Value
  | .read object | .structRead object _ | .get object | .structGet object _ | .forward _ object
  | .assocKeys object | .assertStructType _ object | .assertCollectionType _ object => [object]
  | .swap fromCollection toCollection | .mutSeqSwap fromCollection toCollection =>
    [fromCollection,toCollection]
  | .call _ callee => callee.returned.reduceOption
  | .indirectCall _ candidates => candidates.flatMap fun function => function.returned.reduceOption
  | .phi incoming => incoming
  | _ => []

def Kind.parts : Kind → List Value
  | .load (some (first :: _)) => [first]
  | kind => kind.types

def Kind.names : Kind → List Value
  | .defineStructType name _ | .structType name => [name]
  | _ => []

/-- A type instruction, or a load of one from a global variable. -/
inductive TypeValue (module : Module) : Value → Prop
  | instruction {value : Value} (isType : (module.kind value).isTypeInst) : TypeValue module value
  | load {value first : Value} {rest : List Value}
    (isLoad : module.kind value = .load (some (first :: rest))) (stored : TypeValue module first) :
    TypeValue module value

structure IsObject (module : Module) (value : Value) : Prop where
  known : value < module.kinds.length
  object : ¬ TypeValue module value
  unasserted : (module.kind value).isAssertion = false

/-- Operands exist; types are used as types, and nothing else is; and struct types have names. -/
structure WellFormed (module : Module) : Prop where
  known : ∀ value,∀ operand ∈ (module.kind value).operands ++ (module.kind value).parts,
    operand < module.kinds.length
  names : ∀ value,∀ name ∈ (module.kind value).names,(module.getName name).isSome
  types : ∀ value,∀ type ∈ (module.kind value).types,TypeValue module type
  objects : ∀ value,∀ object ∈ (module.kind value).objects,IsObject module object

/-- The type that an instruction stands for, to a depth. Struct types are known by their names. -/
def shapeOf (module : Module) : Nat → Value → Option Shape
  | 0,_ => none
  | depth + 1,value =>
    match module.kind value with
    | .integerType type => some (.integer type)
    | .floatType => some .float
    | .doubleType => some .double
    | .pointerType => some .pointer
    | .referenceType type => (shapeOf module depth type).map .reference
    | .defineStructType name _ => (module.getName name).map .struct
    | .structType name => (module.globalText (module.stripPointerCasts name)).map .struct
    | .staticTensorType type lengths => (shapeOf module depth type).map (.staticTensor · lengths)
    | .tensorType type number => (shapeOf module depth type).map (.tensor · number)
    | .assocArrayType keyType valueType =>
      (shapeOf module depth keyType).bind fun key =>
        (shapeOf module depth valueType).map (.assocArray key)
    | .sequenceType type => (shapeOf module depth type).map .sequence
    | .load (some (first :: _)) => shapeOf module depth first
    | _ => none

def Fits (module : Module) (value : Value) (type : Shape) : Prop :=
  ∀ depth shape,shapeOf module depth value = some shape → type = shape

def complete (module : Module) : Nat → Value → Bool
  | 0,_ => false
  | depth + 1,value =>
    match module.kind value with
    | .integerType _ | .floatType | .doubleType | .pointerType => true
    | .referenceType type | .staticTensorType type _ | .tensorType type _ | .sequenceType type
    | .load (some (type :: _)) => complete module depth type
    | .assocArrayType keyType valueType => complete module depth keyType && complete module depth valueType
    | .defineStructType name fieldTypes =>
      (module.getName name).isSome && fieldTypes.all (complete module depth)
    | .structType name =>
      match (module.definitions name).head? with
      | none => false
      | some definition =>
        (module.getName definition.name).isSome && definition.fieldTypes.all (complete module depth)
    | _ => false

section Names
variable {module : Module} {name : Value} {definition : Definition} {text : String}

theorem kind_of_getElem {value : Value} {kind : Kind} (found : module.kinds[value]? = some kind) :
    module.kind value = kind := by
  rw [Module.kind,found,Option.getD_some]

theorem mem_parts {value part : Value} {kind : Kind} (isKind : module.kind value = kind)
    (member : part ∈ kind.parts) : part ∈ (module.kind value).parts := by
  rw [isKind]
  exact member

theorem mem_operands {value user : Value} (used : user ∈ module.users value) :
    value ∈ (module.kind user).operands := by
  obtain ⟨kind,found,member⟩ := (module.linked value user).mp used
  rw [kind_of_getElem found]
  exact member

theorem kind_of_globalText {value : Value} (found : module.globalText value = some text) :
    module.kind value = .globalString text := by
  unfold Module.globalText at found
  split at found
  · rename_i other isGlobal
    rw [isGlobal,Option.some.inj found]
  · exact absurd found (by simp)

theorem getName_of_globalText {value : Value} (found : module.globalText value = some text) :
    module.getName value = some text := by
  simp only [Module.getName,kind_of_globalText found]
  exact found

theorem getName_of_pointer {value pointer : Value}
    (isPointer : module.kind value = .getElementPtr pointer ∨
      module.kind value = .constantGetElementPtr pointer) :
    module.getName value = module.globalText pointer := by
  rcases isPointer with isPointer | isPointer
  · simp only [Module.getName,isPointer]
  · simp only [Module.getName,isPointer]

theorem not_typeValue {value : Value} (notType : (module.kind value).isTypeInst = false)
    (notLoad : ∀ stored,module.kind value ≠ .load stored) : ¬ TypeValue module value := by
  intro type
  cases type with
  | instruction isType => exact absurd (notType ▸ isType) (by simp)
  | load isLoad _ => exact notLoad _ isLoad

theorem kind_of_definition {value : Value} (found : module.definition value = some definition) :
    definition.value = value ∧
      module.kind value = .defineStructType definition.name definition.fieldTypes := by
  unfold Module.definition at found
  split at found
  · rename_i name fieldTypes isDefinition
    obtain rfl := Option.some.inj found
    exact ⟨rfl,isDefinition⟩
  · exact absurd found (by simp)

/-- A definition that is found by a user of a name is a definition of this name. -/
theorem user_definition (wellFormed : WellFormed module) {value user : Value}
    (used : user ∈ module.users value) (member : definition ∈ module.userDefinitions user) :
    module.kind definition.value = .defineStructType definition.name definition.fieldTypes ∧
      ∀ text,module.globalText value = some text → module.getName definition.name = some text := by
  have operand := mem_operands used
  have notField : ∀ {field user : Value} {name : Value} {fieldTypes : List Value},
      module.kind user = .defineStructType name fieldTypes → field ∈ name :: fieldTypes →
      ¬ TypeValue module field → field = name := by
    intro field user name fieldTypes isDefinition member notType
    rcases List.mem_cons.mp member with same | member
    · exact same
    · exact absurd (wellFormed.types user field (by rw [isDefinition]; exact member)) notType
  have pointer : ∀ {pointer : Value},(module.kind user = .getElementPtr pointer ∨
      module.kind user = .constantGetElementPtr pointer) → value = pointer →
      definition ∈ (module.users user).filterMap module.definition →
      module.kind definition.value = .defineStructType definition.name definition.fieldTypes ∧
        ∀ text,module.globalText value = some text → module.getName definition.name = some text := by
    rintro _ isPointer rfl member
    obtain ⟨other,used,found⟩ := List.mem_filterMap.mp member
    obtain ⟨rfl,isDefinition⟩ := kind_of_definition found
    refine ⟨isDefinition,fun text isText => ?_⟩
    have operand := mem_operands used
    rw [isDefinition] at operand
    have notType : ¬ TypeValue module user := by
      rcases isPointer with isPointer | isPointer
      · exact not_typeValue (by rw [isPointer]; rfl) (by rw [isPointer]; simp)
      · exact not_typeValue (by rw [isPointer]; rfl) (by rw [isPointer]; simp)
    rw [← notField isDefinition operand notType,getName_of_pointer isPointer]
    exact isText
  unfold Module.userDefinitions at member
  split at member
  · rename_i name fieldTypes isDefinition
    obtain rfl := List.mem_singleton.mp member
    refine ⟨isDefinition,fun text isText => ?_⟩
    rw [isDefinition] at operand
    have isGlobal := kind_of_globalText isText
    have notType : ¬ TypeValue module value :=
      not_typeValue (by rw [isGlobal]; rfl) (by rw [isGlobal]; simp)
    rw [← notField isDefinition operand notType]
    exact getName_of_globalText isText
  · rename_i isPointer
    rw [isPointer] at operand
    exact pointer (.inl isPointer) (List.mem_singleton.mp operand) member
  · rename_i isPointer
    rw [isPointer] at operand
    exact pointer (.inr isPointer) (List.mem_singleton.mp operand) member
  · exact absurd member List.not_mem_nil

theorem mem_definitions (wellFormed : WellFormed module) (member : definition ∈ module.definitions name) :
    module.kind definition.value = .defineStructType definition.name definition.fieldTypes ∧
      ∀ text,module.globalText (module.stripPointerCasts name) = some text →
        module.getName definition.name = some text := by
  obtain ⟨user,used,member⟩ := List.mem_flatMap.mp member
  exact user_definition wellFormed used member

end Names

section Check

def Kind.isObject : Kind → Bool
  | .load _ => false
  | kind => !kind.isTypeInst && !kind.isAssertion

/-- A check of modules that keep no types in global variables. -/
def Kind.check (module : Module) (kind : Kind) : Bool :=
  (kind.operands ++ kind.parts ++ kind.objects).all (· < module.kinds.length) &&
    kind.names.all (fun name => (module.getName name).isSome) &&
    kind.types.all (fun type => (module.kind type).isTypeInst) &&
    kind.objects.all fun object => (module.kind object).isObject

theorem kind_of_all (module : Module) (holds : Kind → Bool) (all : module.kinds.all holds)
    (other : holds .other) (value : Value) : holds (module.kind value) := by
  rw [Module.kind]
  cases found : module.kinds[value]? with
  | none => exact other
  | some kind => exact List.all_eq_true.mp all kind (List.mem_of_getElem? found)

theorem wellFormed_of_check {module : Module} (checks : module.kinds.all (Kind.check module)) :
    WellFormed module := by
  have holds : ∀ value,(module.kind value).check module :=
    kind_of_all module (Kind.check module) checks rfl
  simp only [Kind.check,Bool.and_eq_true,List.all_eq_true,decide_eq_true_iff] at holds
  refine ⟨?_,?_,?_,?_⟩
  · intro value operand member
    exact (holds value).1.1.1 operand (List.mem_append_left _ member)
  · exact fun value => (holds value).1.1.2
  · exact fun value type member => .instruction ((holds value).1.2 type member)
  · intro value object member
    have isObject := (holds value).2 object member
    refine ⟨(holds value).1.1.1 object (List.mem_append_right _ member),fun isType => ?_,?_⟩
    · cases isType with
      | instruction isType =>
        revert isType isObject
        cases module.kind object <;> simp [Kind.isObject,Kind.isTypeInst]
      | load isLoad _ =>
        rw [isLoad] at isObject
        exact absurd isObject (by simp [Kind.isObject])
    · revert isObject
      cases module.kind object <;> simp [Kind.isObject,Kind.isAssertion]

end Check

section Complete
variable {module : Module}

theorem complete_succ {depth : Nat} {value : Value} (whole : complete module depth value) :
    complete module (depth + 1) value := by
  induction depth generalizing value with
  | zero => exact absurd whole (by simp [complete])
  | succ depth ih =>
    rw [complete] at whole ⊢
    cases isKind : module.kind value with
    | integerType _ | floatType | doubleType | pointerType => rfl
    | referenceType type | staticTensorType type _ | tensorType type _ | sequenceType type =>
      rw [isKind] at whole
      exact ih whole
    | assocArrayType keyType valueType =>
      rw [isKind] at whole
      obtain ⟨key,element⟩ := Bool.and_eq_true_iff.mp whole
      exact Bool.and_eq_true_iff.mpr ⟨ih key,ih element⟩
    | defineStructType name fieldTypes =>
      rw [isKind] at whole
      obtain ⟨named,fields⟩ := Bool.and_eq_true_iff.mp whole
      refine Bool.and_eq_true_iff.mpr ⟨named,List.all_eq_true.mpr fun field member => ih ?_⟩
      exact List.all_eq_true.mp fields field member
    | structType name =>
      simp only [isKind] at whole ⊢
      cases first : (module.definitions name).head? with
      | none =>
        rw [first] at whole
        exact absurd whole (by simp)
      | some definition =>
        rw [first] at whole
        obtain ⟨named,fields⟩ := Bool.and_eq_true_iff.mp whole
        refine Bool.and_eq_true_iff.mpr ⟨named,List.all_eq_true.mpr fun field member => ih ?_⟩
        exact List.all_eq_true.mp fields field member
    | load stored =>
      rw [isKind] at whole
      rcases stored with _ | _ | ⟨type,rest⟩
      · exact absurd whole (by simp)
      · exact absurd whole (by simp)
      · exact ih whole
    | _ =>
      rw [isKind] at whole
      exact absurd whole (by simp)

theorem complete_mono {depth depth' : Nat} {value : Value} (whole : complete module depth value)
    (le : depth ≤ depth') : complete module depth' value := by
  induction le with
  | refl => exact whole
  | step _ ih => exact complete_succ ih

/-- The least depth of a type instruction. -/
theorem exists_depth {depth : Nat} {value : Value} (whole : complete module depth value) :
    ∃ least < depth,complete module (least + 1) value ∧ complete module least value = false := by
  induction depth with
  | zero => exact absurd whole (by simp [complete])
  | succ depth ih =>
    cases below : complete module depth value with
    | false => exact ⟨depth,Nat.lt_succ_self depth,whole,below⟩
    | true =>
      obtain ⟨least,lt,found⟩ := ih below
      exact ⟨least,Nat.lt_succ_of_lt lt,found⟩

theorem typeValue_of_complete {depth : Nat} {value : Value} (whole : complete module depth value) :
    TypeValue module value := by
  induction depth generalizing value with
  | zero => exact absurd whole (by simp [complete])
  | succ depth ih =>
    rw [complete] at whole
    cases isKind : module.kind value with
    | integerType _ | floatType | doubleType | pointerType | referenceType _ | staticTensorType _ _
    | tensorType _ _ | sequenceType _ | assocArrayType _ _ | defineStructType _ _ | structType _ =>
      exact .instruction (by rw [isKind]; rfl)
    | load stored =>
      rw [isKind] at whole
      rcases stored with _ | _ | ⟨type,rest⟩
      · exact absurd whole (by simp)
      · exact absurd whole (by simp)
      · exact .load isKind (ih whole)
    | _ =>
      rw [isKind] at whole
      exact absurd whole (by simp)

theorem shapeOf_succ {depth : Nat} {value : Value} {type : Shape}
    (found : shapeOf module depth value = some type) : shapeOf module (depth + 1) value = some type := by
  induction depth generalizing value type with
  | zero => exact absurd found (by simp [shapeOf])
  | succ depth ih =>
    rw [shapeOf] at found ⊢
    cases isKind : module.kind value with
    | referenceType _ | staticTensorType _ _ | tensorType _ _ | sequenceType _ =>
      rw [isKind] at found
      obtain ⟨inner,isInner,rfl⟩ := Option.map_eq_some_iff.mp found
      exact Option.map_eq_some_iff.mpr ⟨inner,ih isInner,rfl⟩
    | assocArrayType keyType valueType =>
      rw [isKind] at found
      obtain ⟨key,isKey,found⟩ := Option.bind_eq_some_iff.mp found
      obtain ⟨inner,isInner,rfl⟩ := Option.map_eq_some_iff.mp found
      exact Option.bind_eq_some_iff.mpr ⟨key,ih isKey,Option.map_eq_some_iff.mpr ⟨inner,ih isInner,rfl⟩⟩
    | load stored =>
      rw [isKind] at found
      rcases stored with _ | _ | ⟨first,rest⟩
      · exact absurd found (by simp)
      · exact absurd found (by simp)
      · exact ih found
    | _ =>
      rw [isKind] at found
      exact found

theorem shapeOf_mono {depth depth' : Nat} {value : Value} {type : Shape}
    (found : shapeOf module depth value = some type) (le : depth ≤ depth') :
    shapeOf module depth' value = some type := by
  induction le with
  | refl => exact found
  | step _ ih => exact shapeOf_succ ih

theorem fits_of_shapeOf {depth : Nat} {value : Value} {type : Shape}
    (found : shapeOf module depth value = some type) : Fits module value type := by
  intro other shape found'
  have first := shapeOf_mono found (Nat.le_max_left depth other)
  have second := shapeOf_mono found' (Nat.le_max_right depth other)
  exact Option.some.inj (first.symm.trans second)

end Complete

/-- What the analysis keeps about types. -/
structure Sound (module : Module) (state : State) : Prop where
  types : ∀ value type,TypeValue module value → state.valueToType value = some type →
    Fits module value type
  asserted : ∀ value operand type,(module.kind value).assertedType = some operand →
    state.valueToType value = some type → Fits module operand type
  defined : ∀ type ∈ state.definedTypes,∃ name fieldTypes,
    module.kind type.definition = .defineStructType name fieldTypes ∧
      module.getName name = some type.name
  known : ∀ value,state.valueToType value ≠ none → value < module.kinds.length

structure Settles (module : Module) (before after : State) : Prop where
  settled : ∀ value ∈ after.visited,after.valueToType value = none →
    value ∈ before.visited ∧ before.valueToType value = none
  objects : ∀ value,¬ TypeValue module value → after.valueToType value = before.valueToType value
  edges : after.edgeTypes = before.edgeTypes

def Pending (module : Module) (depth : Nat) (state : State) : Prop :=
  ∀ value ∈ state.visited,state.valueToType value = none → complete module depth value = false

section States
variable {module : Module} {before state after : State} {depth : Nat} {value : Value}

theorem Settles.refl (module : Module) (state : State) : Settles module state state :=
  ⟨fun _ visited untyped => ⟨visited,untyped⟩,fun _ _ => rfl,rfl⟩

theorem Settles.trans (first : Settles module before state) (second : Settles module state after) :
    Settles module before after := by
  refine ⟨fun value visited untyped => ?_,fun value object => ?_,second.edges.trans first.edges⟩
  · obtain ⟨visited,untyped⟩ := second.settled value visited untyped
    exact first.settled value visited untyped
  · exact (second.objects value object).trans (first.objects value object)

theorem Pending.settles (pending : Pending module depth before) (settles : Settles module before after) :
    Pending module depth after := by
  intro value visited untyped
  obtain ⟨visited,untyped⟩ := settles.settled value visited untyped
  exact pending value visited untyped

theorem Pending.le {depth' : Nat} (pending : Pending module depth' state) (le : depth ≤ depth') :
    Pending module depth state := by
  intro value visited untyped
  have without := pending value visited untyped
  by_contra whole
  rw [Bool.not_eq_false] at whole
  exact absurd (complete_mono whole le) (by simp [without])

theorem Pending.markVisited (pending : Pending module depth state)
    (incomplete : complete module depth value = false) :
    Pending module depth (state.markVisited value) := by
  intro other visited untyped
  rcases List.mem_cons.mp visited with rfl | visited
  · exact incomplete
  · exact pending other visited untyped

theorem Pending.clear (module : Module) (depth : Nat) (state : State) :
    Pending module depth state.clear :=
  fun _ visited _ => absurd visited List.not_mem_nil

theorem Settles.of_clear (settles : Settles module before.clear after) :
    Settles module before after :=
  ⟨fun value visited untyped => absurd (settles.settled value visited untyped).1 List.not_mem_nil,
    settles.objects,settles.edges⟩

theorem memoize_self (state : State) (value : Value) (type : Option Shape) :
    (state.memoize value type).valueToType value = type := by
  simp [State.memoize]

theorem memoize_of_ne {other : Value} (state : State) (type : Option Shape) (ne : other ≠ value) :
    (state.memoize value type).valueToType other = state.valueToType other := by
  simp [State.memoize,ne]

theorem Sound.markVisited (sound : Sound module state) (value : Value) :
    Sound module (state.markVisited value) :=
  ⟨sound.types,sound.asserted,sound.defined,sound.known⟩

theorem Sound.clear (sound : Sound module state) : Sound module state.clear :=
  ⟨sound.types,sound.asserted,sound.defined,sound.known⟩

theorem kind_known {kind : Kind} (isKind : module.kind value = kind) (proper : kind ≠ .other) :
    value < module.kinds.length := by
  by_contra above
  rw [Module.kind,List.getElem?_eq_none (Nat.le_of_not_lt above)] at isKind
  exact proper isKind.symm

theorem TypeValue.known (type : TypeValue module value) : value < module.kinds.length := by
  cases type with
  | instruction isType =>
    apply kind_known rfl
    intro other
    rw [other] at isType
    exact absurd isType (by simp [Kind.isTypeInst])
  | load isLoad _ => exact kind_known isLoad (by simp)

theorem Sound.memoize {type : Option Shape} (sound : Sound module state)
    (known : type ≠ none → value < module.kinds.length)
    (types : ∀ found,type = some found → TypeValue module value → Fits module value found)
    (asserted : ∀ found operand,type = some found → (module.kind value).assertedType = some operand →
      Fits module operand found) : Sound module (state.memoize value type) := by
  refine ⟨?_,?_,sound.defined,?_⟩
  · intro other found isType isFound
    by_cases same : other = value
    · subst same
      exact types found ((memoize_self state other type).symm.trans isFound) isType
    · exact sound.types other found isType ((memoize_of_ne state type same).symm.trans isFound)
  · intro other operand found isAssertion isFound
    by_cases same : other = value
    · subst same
      exact asserted found operand ((memoize_self state other type).symm.trans isFound) isAssertion
    · exact sound.asserted other operand found isAssertion
        ((memoize_of_ne state type same).symm.trans isFound)
  · intro other isFound
    by_cases same : other = value
    · subst same
      exact known ((memoize_self state other type) ▸ isFound)
    · exact sound.known other ((memoize_of_ne state type same) ▸ isFound)

theorem Sound.define {name : Value} {fieldTypes : List Value} {text : String}
    {types : List (Option Shape)} (sound : Sound module state)
    (isDefinition : module.kind value = .defineStructType name fieldTypes)
    (isName : module.getName name = some text) : Sound module (state.define text value types) := by
  unfold State.define
  split
  · exact sound
  · refine ⟨sound.types,sound.asserted,?_,sound.known⟩
    intro type member
    rcases List.mem_cons.mp member with rfl | member
    · exact ⟨name,fieldTypes,isDefinition,isName⟩
    · exact sound.defined type member

theorem Settles.define (settles : Settles module before state) (text : String)
    (types : List (Option Shape)) : Settles module before (state.define text value types) := by
  unfold State.define
  split
  · exact settles
  · exact ⟨settles.settled,settles.objects,settles.edges⟩

theorem assertedType_of_typeValue (type : TypeValue module value) :
    (module.kind value).assertedType = none := by
  cases type with
  | instruction isType =>
    revert isType
    cases module.kind value <;> simp [Kind.isTypeInst,Kind.assertedType]
  | load isLoad _ => rw [isLoad]; rfl

end States

def Settled (module : Module) (aborts : Prop) (before after : State) : Prop :=
  aborts ∨ Settles module before after

section Settled
variable {module : Module} {aborts : Prop} {before state after : State} {value : Value}

theorem Settled.refl (module : Module) (aborts : Prop) (state : State) :
    Settled module aborts state state := .inr (.refl module state)

theorem Settled.trans (first : Settled module aborts before state)
    (second : Settled module aborts state after) : Settled module aborts before after := by
  rcases first with aborts | first
  · exact .inl aborts
  · exact second.imp_right first.trans

theorem Settled.of_clear (settled : Settled module aborts before.clear after) :
    Settled module aborts before after := settled.imp_right Settles.of_clear

theorem Settled.define (settled : Settled module aborts before state) (text : String)
    (types : List (Option Shape)) : Settled module aborts before (state.define text value types) :=
  settled.imp_right (Settles.define · text types)

/-- A type instruction that is visited gets a type. -/
theorem Settles.memoize {type : Shape} (isType : TypeValue module value)
    (settles : Settles module (before.markVisited value) state) :
    Settles module before (state.memoize value (some type)) := by
  refine ⟨?_,?_,settles.edges⟩
  · intro other visited untyped
    by_cases same : other = value
    · rw [same,memoize_self] at untyped
      exact absurd untyped (by simp)
    · rw [memoize_of_ne state _ same] at untyped
      obtain ⟨visited,untyped⟩ := settles.settled other visited untyped
      exact ⟨(List.mem_cons.mp visited).resolve_left same,untyped⟩
  · intro other object
    have ne : other ≠ value := fun same => object (same ▸ isType)
    rw [memoize_of_ne state _ ne]
    exact settles.objects other object

end Settled

/-- What the analysis of a type instruction ends with. -/
structure Found (module : Module) (aborts : Prop) (value : Value) (before : State)
    (result : Option Shape) (after : State) : Prop where
  type : ∀ type,result = some type → Fits module value type
  typed : result = none → aborts
  sound : Sound module after
  settled : Settled module aborts before after

structure Parts (module : Module) (aborts exhausts : Prop) (recurse : Visitor) (ready : State → Prop)
    (value : Value) : Prop where
  clear : ∀ state : State,ready state.clear
  settled : ∀ before after : State,ready before → Settled module aborts before after → ready after
  markVisited : ∀ state,ready state → ready (state.markVisited value)
  run : ∀ part ∈ (module.kind value).parts,∀ state,Sound module state → ready state →
    Routine.Meets aborts exhausts (recurse part) state (Found module aborts part state)

section Runs
variable {module : Module} {aborts exhausts : Prop} {recurse : Visitor} {ready : State → Prop}
  {depth : Nat} {value part : Value} {before state : State}

theorem found_memoize {type : Shape} (isType : TypeValue module value) (sound : Sound module state)
    (settled : Settled module aborts (before.markVisited value) state) (fits : Fits module value type) :
    Found module aborts value before (some type) (state.memoize value (some type)) := by
  refine ⟨fun _ same => Option.some.inj same ▸ fits,fun absent => absurd absent (by simp),?_,
    settled.imp_right (Settles.memoize isType)⟩
  apply sound.memoize fun _ => isType.known
  · intro found same _
    exact Option.some.inj same ▸ fits
  · intro found operand _ isAssertion
    rw [assertedType_of_typeValue isType] at isAssertion
    exact absurd isAssertion (by simp)

/-- A value that a run has not visited in vain is looked up, or found. -/
theorem meets_checkMemoized {find : Analysis (Option Shape)} {post : Option Shape → State → Prop}
    (known : ∀ type,state.valueToType value = some type → post (some type) state)
    (again : state.valueToType value = none → value ∈ state.visited → post none state)
    (new : state.valueToType value = none → value ∉ state.visited →
      Routine.Meets aborts exhausts find (state.markVisited value) post) :
    Routine.Meets aborts exhausts (checkMemoized value find) state post := by
  rw [checkMemoized,Routine.meets_bind,Routine.meets_read]
  cases found : state.valueToType value with
  | some type => exact known type found
  | none =>
    by_cases visited : value ∈ state.visited
    · simp only [visited,if_true]
      exact again found visited
    · simp only [visited,if_false,Routine.meets_bind,Routine.meets_update]
      exact new found visited

theorem meets_visitType {find : Analysis (Option Shape)} (isType : TypeValue module value)
    (sound : Sound module state)
    (opened : value ∈ state.visited → state.valueToType value = none → aborts)
    (new : Routine.Meets aborts exhausts find (state.markVisited value) (Found module aborts value state)) :
    Routine.Meets aborts exhausts (checkMemoized value find) state (Found module aborts value state) := by
  apply meets_checkMemoized
  · intro type found
    refine ⟨fun _ same => ?_,fun absent => absurd absent (by simp),sound,.refl module aborts state⟩
    exact Option.some.inj same ▸ sound.types value type isType found
  · intro untyped visited
    exact ⟨fun _ absent => absurd absent (by simp),fun _ => opened visited untyped,sound,
      .refl module aborts state⟩
  · intro _ _
    exact new

theorem meets_memoizeAndReturn {type : Shape} (isType : TypeValue module value)
    (sound : Sound module state) (settled : Settled module aborts (before.markVisited value) state)
    (fits : Fits module value type) :
    Routine.Meets aborts exhausts (memoizeAndReturn value (some type)) state
      (Found module aborts value before) := by
  simp only [memoizeAndReturn,Routine.meets_bind,Routine.meets_update,Routine.meets_pure]
  exact found_memoize isType sound settled fits

theorem meets_accessType (parts : Parts module aborts exhausts recurse ready value)
    (member : part ∈ (module.kind value).parts) (sound : Sound module state) :
    Routine.Meets aborts exhausts (accessType recurse part) state fun type after =>
      Fits module part type ∧ Sound module after ∧ Settled module aborts state after := by
  simp only [accessType,analyze,Routine.meets_bind,Routine.meets_update]
  apply (parts.run part member state.clear sound.clear (parts.clear state)).mono
  rintro type after found
  apply Routine.meets_require found.typed
  intro shape same
  exact ⟨found.type shape same,found.sound,found.settled.of_clear⟩

/-- A type instruction with one part. -/
theorem meets_part {make : Shape → Shape} (parts : Parts module aborts exhausts recurse ready value)
    (member : part ∈ (module.kind value).parts) (isType : TypeValue module value)
    (sound : Sound module state)
    (opened : value ∈ state.visited → state.valueToType value = none → aborts)
    (fits : ∀ type,Fits module part type → Fits module value (make type)) :
    Routine.Meets aborts exhausts (checkMemoized value do
      let element ← accessType recurse part
      memoizeAndReturn value (some (make element))) state (Found module aborts value state) := by
  apply meets_visitType isType sound opened
  apply (meets_accessType parts member (sound.markVisited value)).bind
  rintro type after ⟨isPart,sound,settled⟩
  exact meets_memoizeAndReturn isType sound settled (fits type isPart)

theorem fits_of_depth {type : Shape}
    (fits : ∀ depth shape,shapeOf module (depth + 1) value = some shape → type = shape) :
    Fits module value type := by
  intro depth shape found
  cases depth with
  | zero => exact absurd found (by simp [shapeOf])
  | succ depth => exact fits depth shape found

/-- An instruction whose type is made of the type of its part. -/
theorem fits_map (make : Shape → Shape)
    (isShape : ∀ depth,shapeOf module (depth + 1) value = (shapeOf module depth part).map make)
    {type : Shape} (fits : Fits module part type) : Fits module value (make type) := by
  apply fits_of_depth
  intro depth shape found
  rw [isShape] at found
  obtain ⟨inner,isInner,rfl⟩ := Option.map_eq_some_iff.mp found
  rw [fits depth inner isInner]

theorem meets_define {definition : Definition}
    (parts : Parts module aborts exhausts recurse ready definition.value)
    (isDefinition : module.kind definition.value =
      .defineStructType definition.name definition.fieldTypes)
    (named : module.getName definition.name = none → aborts) (sound : Sound module state)
    (isReady : ready state)
    (opened : definition.value ∈ state.visited → state.valueToType definition.value = none → aborts) :
    Routine.Meets aborts exhausts (visitDefineStructTypeInst module recurse definition) state
      (Found module aborts definition.value state) := by
  have isType : TypeValue module definition.value := .instruction (by rw [isDefinition]; rfl)
  apply meets_visitType isType sound opened
  have fields : Routine.Meets aborts exhausts (Routine.each recurse definition.fieldTypes)
      (state.markVisited definition.value) fun _ after =>
        Sound module after ∧ Settled module aborts (state.markVisited definition.value) after := by
    apply Routine.meets_each fun _ _ after =>
      Sound module after ∧ Settled module aborts (state.markVisited definition.value) after
    · exact ⟨sound.markVisited _,.refl module aborts _⟩
    · rintro before results after field rest whole ⟨sound,settled⟩
      have member : field ∈ (module.kind definition.value).parts := by
        rw [isDefinition]
        change field ∈ definition.fieldTypes
        rw [← whole]
        exact List.mem_append_right _ List.mem_cons_self
      have isReady := parts.settled _ after (parts.markVisited state isReady) settled
      apply (parts.run field member after sound isReady).mono
      rintro _ last found
      exact ⟨found.sound,settled.trans found.settled⟩
  apply fields.bind
  rintro types after ⟨sound,settled⟩
  rw [Routine.meets_bind]
  apply Routine.meets_require named
  intro text isName
  simp only [Routine.meets_bind,Routine.meets_update]
  apply meets_memoizeAndReturn isType (sound.define isDefinition isName) (settled.define text types)
  apply fits_of_depth
  intro depth shape found
  rw [shapeOf,isDefinition] at found
  simp only [isName,Option.map_some,Option.some.injEq] at found
  exact found

/-- A struct type gets the type that its name stands for, by one of its definitions. -/
theorem meets_structType {name : Value} (wellFormed : WellFormed module)
    (isStruct : module.kind value = .structType name)
    (markVisited : ∀ state,ready state → ready (state.markVisited value))
    (defined : ∀ definition,(module.definitions name).head? = some definition →
      Parts module aborts exhausts recurse ready definition.value ∧
        (module.getName definition.name = none → aborts) ∧
        (definition.value ∈ state.visited → state.valueToType definition.value = none → aborts))
    (undefined : (module.definitions name).head? = none → aborts) (sound : Sound module state)
    (isReady : ready state)
    (opened : value ∈ state.visited → state.valueToType value = none → aborts) :
    Routine.Meets aborts exhausts (visitStructTypeInst module recurse value name) state
      (Found module aborts value state) := by
  have isType : TypeValue module value := .instruction (by rw [isStruct]; rfl)
  apply meets_visitType isType sound opened
  rw [Routine.meets_bind]
  apply Routine.meets_require undefined
  intro definition first
  obtain ⟨parts,named,openedDefinition⟩ := defined definition first
  obtain ⟨isDefinition,isText⟩ := mem_definitions wellFormed (List.mem_of_mem_head? first)
  have other : definition.value ≠ value := by
    intro same
    rw [same,isStruct] at isDefinition
    exact absurd isDefinition (by simp)
  rw [Routine.meets_bind]
  apply (meets_define parts isDefinition named (sound.markVisited value) (markVisited state isReady)
    ?_).mono
  · rintro result after found
    rw [Routine.meets_bind]
    apply Routine.meets_require found.typed
    intro type same
    apply meets_memoizeAndReturn isType found.sound found.settled
    apply fits_of_depth
    intro depth shape isShape
    simp only [shapeOf,isStruct] at isShape
    obtain ⟨text,isName,rfl⟩ := Option.map_eq_some_iff.mp isShape
    apply found.type type same 1
    simp only [shapeOf,isDefinition,isText text isName,Option.map_some]
  · intro visited
    exact openedDefinition ((List.mem_cons.mp visited).resolve_left other)

/-- Type instructions get their types when their parts do. -/
theorem meets_type (wellFormed : WellFormed module) (isType : TypeValue module value)
    (parts : Parts module aborts exhausts recurse ready value)
    (named : ∀ name fieldTypes,module.kind value = .defineStructType name fieldTypes →
      module.getName name = none → aborts)
    (defined : ∀ name definition,module.kind value = .structType name →
      (module.definitions name).head? = some definition →
      Parts module aborts exhausts recurse ready definition.value ∧
        (module.getName definition.name = none → aborts) ∧
        (definition.value ∈ state.visited → state.valueToType definition.value = none → aborts))
    (undefined : ∀ name,module.kind value = .structType name →
      (module.definitions name).head? = none → aborts)
    (opened : value ∈ state.visited → state.valueToType value = none → aborts)
    (sound : Sound module state) (isReady : ready state) :
    Routine.Meets aborts exhausts (visit module recurse value) state (Found module aborts value state) := by
  have leaf : ∀ type,(∀ depth,shapeOf module (depth + 1) value = some type) →
      Found module aborts value state (some type) state := by
    intro type isShape
    refine ⟨?_,fun absent => absurd absent (by simp),sound,.refl module aborts state⟩
    rintro _ same
    obtain rfl := Option.some.inj same
    apply fits_of_depth
    intro depth shape found
    exact Option.some.inj ((isShape depth).symm.trans found)
  rw [visit]
  cases isKind : module.kind value with
  | integerType type => exact leaf _ fun _ => by rw [shapeOf,isKind]
  | floatType => exact leaf _ fun _ => by rw [shapeOf,isKind]
  | doubleType => exact leaf _ fun _ => by rw [shapeOf,isKind]
  | pointerType => exact leaf _ fun _ => by rw [shapeOf,isKind]
  | referenceType part =>
    simp only [visitReferenceTypeInst,Routine.meets_bind]
    apply (meets_accessType parts (mem_parts isKind List.mem_cons_self) sound).mono
    rintro type after ⟨isPart,sound,settled⟩
    refine ⟨?_,fun absent => absurd absent (by simp),sound,settled⟩
    rintro _ same
    obtain rfl := Option.some.inj same
    exact fits_map .reference (fun _ => by rw [shapeOf,isKind]) isPart
  | staticTensorType part lengths =>
    apply meets_part parts (mem_parts isKind List.mem_cons_self) isType sound opened
    exact fun _ => fits_map (.staticTensor · lengths) fun _ => by rw [shapeOf,isKind]
  | tensorType part number =>
    apply meets_part parts (mem_parts isKind List.mem_cons_self) isType sound opened
    exact fun _ => fits_map (.tensor · number) fun _ => by rw [shapeOf,isKind]
  | sequenceType part =>
    apply meets_part parts (mem_parts isKind List.mem_cons_self) isType sound opened
    exact fun _ => fits_map .sequence fun _ => by rw [shapeOf,isKind]
  | assocArrayType keyType valueType =>
    apply meets_visitType isType sound opened
    have isKey := mem_parts isKind (List.mem_cons_self : keyType ∈ [keyType,valueType])
    have isValue := mem_parts isKind (List.mem_cons_of_mem keyType List.mem_cons_self)
    apply (meets_accessType parts isKey (sound.markVisited value)).bind
    rintro key middle ⟨isKey,sound,settled⟩
    apply (meets_accessType parts isValue sound).bind
    rintro element after ⟨isValue,sound,settled'⟩
    apply meets_memoizeAndReturn isType sound (settled.trans settled')
    apply fits_of_depth
    intro depth shape found
    rw [shapeOf,isKind] at found
    obtain ⟨keyShape,foundKey,found⟩ := Option.bind_eq_some_iff.mp found
    obtain ⟨valueShape,foundValue,rfl⟩ := Option.map_eq_some_iff.mp found
    rw [isKey depth keyShape foundKey,isValue depth valueShape foundValue]
  | defineStructType name fieldTypes =>
    exact meets_define parts isKind (named name fieldTypes isKind) sound isReady opened
  | structType name =>
    exact meets_structType wellFormed isKind parts.markVisited (defined name · isKind)
      (undefined name isKind) sound isReady opened
  | load stored =>
    cases isType with
    | instruction isInst => exact absurd isInst (by simp [isKind,Kind.isTypeInst])
    | load isLoad isStored =>
      rename_i part rest
      obtain rfl := Kind.load.inj (isKind.symm.trans isLoad)
      have isType : TypeValue module value := .load isLoad isStored
      apply meets_visitType isType sound opened
      rw [Routine.meets_bind]
      apply (parts.run part (mem_parts isKind List.mem_cons_self) _ (sound.markVisited value)
        (parts.markVisited state isReady)).mono
      rintro result after found
      rw [Routine.meets_bind]
      apply Routine.meets_require found.typed
      intro type same
      apply meets_memoizeAndReturn isType found.sound found.settled
      exact fits_map id (fun _ => by simp [shapeOf,isKind]) (found.type type same)
  | _ =>
    cases isType with
    | instruction isInst => exact absurd isInst (by simp [isKind,Kind.isTypeInst])
    | load isLoad _ => exact absurd (isKind.symm.trans isLoad) (by simp)

/-- The operands that are complete to a depth get their types. -/
def Analyses (module : Module) (exhausts : Prop) (recurse : Visitor) (depth : Nat) : Prop :=
  ∀ value state,complete module depth value → Sound module state → Pending module depth state →
    Routine.Meets False exhausts (recurse value) state (Found module False value state)

theorem Pending.opened (pending : Pending module depth state) (whole : complete module depth value) :
    value ∈ state.visited → state.valueToType value ≠ none := by
  intro visited untyped
  exact absurd whole (by simp [pending value visited untyped])

theorem complete_parts (whole : complete module (depth + 1) value)
    (member : part ∈ (module.kind value).parts) : complete module depth part := by
  rw [complete] at whole
  cases isKind : module.kind value with
  | referenceType _ | staticTensorType _ _ | tensorType _ _ | sequenceType _ =>
    rw [isKind] at whole member
    exact List.mem_singleton.mp member ▸ whole
  | assocArrayType keyType valueType =>
    rw [isKind] at whole member
    obtain ⟨key,element⟩ := Bool.and_eq_true_iff.mp whole
    rcases List.mem_pair.mp member with rfl | rfl
    · exact key
    · exact element
  | defineStructType name fieldTypes =>
    rw [isKind] at whole member
    exact List.all_eq_true.mp (Bool.and_eq_true_iff.mp whole).2 part member
  | load stored =>
    rw [isKind] at whole member
    rcases stored with _ | _ | ⟨first,rest⟩
    · exact absurd whole (by simp)
    · exact absurd whole (by simp)
    · exact List.mem_singleton.mp member ▸ whole
  | integerType _ | floatType | doubleType | pointerType | structType _ =>
    rw [isKind] at member
    exact absurd member List.not_mem_nil
  | _ =>
    rw [isKind] at whole
    exact absurd whole (by simp)

theorem Analyses.parts (analyses : Analyses module exhausts recurse depth)
    (whole : complete module (depth + 1) value) (incomplete : complete module depth value = false) :
    Parts module False exhausts recurse (Pending module depth) value :=
  ⟨Pending.clear module depth,fun _ _ pending settled => pending.settles (settled.resolve_left id),
    fun _ pending => pending.markVisited incomplete,
    fun part member state sound pending =>
      analyses part state (complete_parts whole member) sound pending⟩

/-- A struct type is complete as its first definition is. -/
theorem complete_definition (wellFormed : WellFormed module) {name : Value} {definition : Definition}
    (isStruct : module.kind value = .structType name)
    (first : (module.definitions name).head? = some definition) (depth : Nat) :
    complete module depth definition.value = complete module depth value := by
  have isDefinition := (mem_definitions wellFormed (List.mem_of_mem_head? first)).1
  cases depth with
  | zero => rfl
  | succ depth => simp only [complete,isDefinition,isStruct,first]

theorem Analyses.visit (wellFormed : WellFormed module)
    (analyses : Analyses module exhausts recurse depth) (whole : complete module (depth + 1) value)
    (incomplete : complete module depth value = false) (sound : Sound module state)
    (pending : Pending module (depth + 1) state) :
    Routine.Meets False exhausts (visit module recurse value) state (Found module False value state) := by
  apply meets_type wellFormed (typeValue_of_complete whole) (analyses.parts whole incomplete)
  · intro name fieldTypes isDefinition absent
    simp only [complete,isDefinition,absent] at whole
    exact absurd whole (by simp)
  · intro name definition isStruct first
    have same := complete_definition wellFormed isStruct first
    have whole := (same (depth + 1)).trans whole
    have isDefinition := (mem_definitions wellFormed (List.mem_of_mem_head? first)).1
    refine ⟨analyses.parts whole ((same depth).trans incomplete),?_,pending.opened whole⟩
    intro absent
    simp only [complete,isDefinition,absent] at whole
    exact absurd whole (by simp)
  · intro name isStruct none
    simp only [complete,isStruct,none] at whole
    exact absurd whole (by simp)
  · exact pending.opened whole
  · exact sound
  · exact pending.le (Nat.le_succ depth)

/-- The analysis of a complete type instruction finds its type. -/
theorem analyses_getTypeHelper (wellFormed : WellFormed module) {fuel : Nat}
    (enough : depth ≤ fuel ∨ exhausts) :
    Analyses module exhausts (getTypeHelper module fuel) depth := by
  induction fuel generalizing depth with
  | zero =>
    intro value state whole _ _
    rcases enough with none | exhausts
    · obtain rfl := Nat.le_zero.mp none
      exact absurd whole (by simp [complete])
    · exact exhausts
  | succ fuel ih =>
    intro value state whole sound pending
    obtain ⟨least,lt,whole,incomplete⟩ := exists_depth whole
    have enough : least ≤ fuel ∨ exhausts := enough.imp_left (by omega)
    rw [getTypeHelper,resolve,Routine.meets_bind]
    apply ((ih enough).visit wellFormed whole incomplete sound (pending.le lt)).mono
    intro result after found
    cases result with
    | none => exact (found.typed rfl).elim
    | some type => exact found

end Runs

end Memoir.TypeAnalysis
