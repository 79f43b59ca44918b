import Memoir.Outcomes
import Memoir.TypeGetters
import Mathlib.Logic.Function.Basic
import Mathlib.Data.List.Dedup

/-! The type analysis: a walk over the values of a module that keeps the types it found, and cuts its
cycles at the values that a query has visited. Types are interned, so a type is its structure. -/
namespace Memoir.TypeAnalysis
open TypeGetters Outcomes

deriving instance DecidableEq for Shape

abbrev Value := Nat

/-- The instructions that take the type of one collection along. -/
inductive Forwarding
  | indexWrite
  | assocWrite
  | usePHI
  | defPHI
  | argPHI
  | retPHI
  | copy
  | insert
  | remove
  | mutSeqInsert
  | mutSeqRemove
  | mutSeqSwapWithin
  | mutSeqAppend
  | mutSeqSplit
  | view
  | assocInsert
  | assocRemove
  | assocHas
  | mutAssocInsert
  | mutAssocRemove
  | extractValue

/-- What is read of a function: the type operands of its return type instructions, and what its return
statements return. -/
structure Function where
  empty : Bool
  returnTypes : List Value
  returned : List (Option Value)

inductive Kind
  | integerType (type : IntegerType)
  | floatType
  | doubleType
  | pointerType
  | referenceType (referencedType : Value)
  | defineStructType (name : Value) (fieldTypes : List Value)
  | structType (name : Value)
  | staticTensorType (elementType : Value) (lengthOfDimensions : List Nat)
  | tensorType (elementType : Value) (numberOfDimensions : Nat)
  | assocArrayType (keyType valueType : Value)
  | sequenceType (elementType : Value)
  | structAlloc (type : Value)
  | tensorAlloc (elementType : Value) (numberOfDimensions : Nat)
  | assocArrayAlloc (keyType valueType : Value)
  | sequenceAlloc (elementType : Value)
  | read (object : Value)
  | structRead (object : Value) (fieldIndex : Nat)
  | get (object : Value)
  | structGet (object : Value) (fieldIndex : Nat)
  | forward (operation : Forwarding) (collection : Value)
  | swap (fromCollection toCollection : Value)
  | mutSeqSwap (fromCollection toCollection : Value)
  | assocKeys (collection : Value)
  | assertStructType (type object : Value)
  | assertCollectionType (type object : Value)
  | returnType (type : Value)
  | call (returnsPointer : Bool) (callee : Function)
  | indirectCall (returnsPointer : Bool) (candidates : List Function)
  /-- A load, with the values that are stored to its global variable if there is one. -/
  | load (stored : Option (List Value))
  | phi (incoming : List Value)
  | globalString (text : String)
  /-- The address of the first character of a string. -/
  | getElementPtr (pointer : Value)
  | constantGetElementPtr (pointer : Value)
  | constantNull
  | argument
  | other

/-- The operands through which an instruction is found in a list of users. -/
def Kind.operands : Kind → List Value
  | .defineStructType name fieldTypes => name :: fieldTypes
  | .assertStructType type object | .assertCollectionType type object => [type,object]
  | .getElementPtr pointer | .constantGetElementPtr pointer => [pointer]
  | _ => []

/-- The users of a value are in any order. -/
structure Module where
  kinds : List Kind
  users : Value → List Value
  linked : ∀ value user,
    user ∈ users value ↔ ∃ kind,kinds[user]? = some kind ∧ value ∈ kind.operands

namespace Module

def kind (module : Module) (value : Value) : Kind := module.kinds[value]?.getD .other

def globalText (module : Module) (value : Value) : Option String :=
  match module.kind value with
  | .globalString text => some text
  | _ => none

def getName (module : Module) (name : Value) : Option String :=
  match module.kind name with
  | .getElementPtr pointer | .constantGetElementPtr pointer => module.globalText pointer
  | _ => module.globalText name

def strip (module : Module) : Nat → Value → Value
  | 0,value => value
  | fuel + 1,value =>
    match module.kind value with
    | .getElementPtr pointer | .constantGetElementPtr pointer => strip module fuel pointer
    | _ => value

def stripPointerCasts (module : Module) (value : Value) : Value :=
  module.strip module.kinds.length value

end Module

structure Definition where
  value : Value
  name : Value
  fieldTypes : List Value

namespace Module

def definition (module : Module) (value : Value) : Option Definition :=
  match module.kind value with
  | .defineStructType name fieldTypes => some ⟨value,name,fieldTypes⟩
  | _ => none

def userDefinitions (module : Module) (user : Value) : List Definition :=
  match module.kind user with
  | .defineStructType name fieldTypes => [⟨user,name,fieldTypes⟩]
  | .getElementPtr _ | .constantGetElementPtr _ => (module.users user).filterMap module.definition
  | _ => []

def definitions (module : Module) (name : Value) : List Definition :=
  (module.users (module.stripPointerCasts name)).flatMap module.userDefinitions

end Module

structure StructType where
  name : String
  definition : Value
  fieldTypes : List (Option Shape)

/-- The defined struct types, the types found for values, the types found for the incoming values of
PHIs, and what the query has visited. -/
structure State where
  definedTypes : List StructType
  valueToType : Value → Option Shape
  edgeTypes : Value → List Shape
  visited : List Value
  visitedEdges : Value → List Value

def State.initial : State := ⟨[],fun _ => none,fun _ => [],[],fun _ => []⟩

namespace State

def structType (state : State) (name : String) : Option StructType :=
  state.definedTypes.find? fun type => type.name = name

/-- A value with a null type counts as one that is not in the table. -/
def memoize (state : State) (value : Value) (type : Option Shape) : State :=
  {state with valueToType := Function.update state.valueToType value type}

def markVisited (state : State) (value : Value) : State :=
  {state with visited := value :: state.visited}

def clear (state : State) : State := {state with visited := [],visitedEdges := fun _ => []}

def visitEdge (state : State) (phi incoming : Value) : State :=
  {state with visitedEdges := Function.update state.visitedEdges phi (incoming :: state.visitedEdges phi)}

def insertEdgeType (state : State) (phi : Value) (type : Option Shape) : State :=
  match type with
  | none => state
  | some type =>
    {state with edgeTypes := Function.update state.edgeTypes phi ((state.edgeTypes phi).insert type)}

/-- A struct type of a known name is not defined again. -/
def define (state : State) (name : String) (definition : Value) (fieldTypes : List (Option Shape)) :
    State :=
  match state.structType name with
  | some _ => state
  | none => {state with definedTypes := ⟨name,definition,fieldTypes⟩ :: state.definedTypes}

end State

abbrev Analysis (α : Type) := Routine State α

abbrev Visitor := Value → Analysis (Option Shape)

def checkMemoized (value : Value) (find : Analysis (Option Shape)) : Analysis (Option Shape) := do
  let state ← Routine.read
  match state.valueToType value with
  | some found => return some found
  | none =>
    if value ∈ state.visited then return none
    Routine.update (·.markVisited value)
    find

def memoizeAndReturn (value : Value) (type : Option Shape) : Analysis (Option Shape) := do
  Routine.update (·.memoize value type)
  return type

variable (module : Module) (recurse : Visitor)

/-- A query. It forgets what the one around it has visited. -/
def analyze (value : Value) : Analysis (Option Shape) := do
  Routine.update (·.clear)
  recurse value

def accessType (value : Value) : Analysis Shape := do
  Routine.require (← analyze recurse value)

def visitReferenceTypeInst (referencedType : Value) : Analysis (Option Shape) := do
  let referenced ← accessType recurse referencedType
  return some (.reference referenced)

def visitDefineStructTypeInst (definition : Definition) : Analysis (Option Shape) :=
  checkMemoized definition.value do
    let fieldTypes ← Routine.each recurse definition.fieldTypes
    let name ← Routine.require (module.getName definition.name)
    Routine.update (·.define name definition.value fieldTypes)
    memoizeAndReturn definition.value (some (.struct name))

/-- The set of definitions is ordered by their addresses: any of them may be the first. -/
def visitStructTypeInst (value name : Value) : Analysis (Option Shape) :=
  checkMemoized value do
    let definition ← Routine.require (module.definitions name).head?
    let type ← Routine.require (← visitDefineStructTypeInst module recurse definition)
    memoizeAndReturn value (some type)

def visitStaticTensorTypeInst (value elementType : Value) (lengths : List Nat) :
    Analysis (Option Shape) :=
  checkMemoized value do
    let element ← accessType recurse elementType
    memoizeAndReturn value (some (.staticTensor element lengths))

def visitTensorTypeInst (value elementType : Value) (numberOfDimensions : Nat) :
    Analysis (Option Shape) :=
  checkMemoized value do
    let element ← accessType recurse elementType
    memoizeAndReturn value (some (.tensor element numberOfDimensions))

def visitAssocArrayTypeInst (value keyType valueType : Value) : Analysis (Option Shape) :=
  checkMemoized value do
    let key ← accessType recurse keyType
    let element ← accessType recurse valueType
    memoizeAndReturn value (some (.assocArray key element))

def visitSequenceTypeInst (value elementType : Value) : Analysis (Option Shape) :=
  checkMemoized value do
    let element ← accessType recurse elementType
    memoizeAndReturn value (some (.sequence element))

def visitStructAllocInst (value type : Value) : Analysis (Option Shape) :=
  checkMemoized value do
    let type ← Routine.require (← recurse type)
    memoizeAndReturn value (some type)

def visitTensorAllocInst (value elementType : Value) (numberOfDimensions : Nat) :
    Analysis (Option Shape) :=
  checkMemoized value do
    let element ← Routine.require (← recurse elementType)
    memoizeAndReturn value (some (.tensor element numberOfDimensions))

def visitAssocArrayAllocInst (value keyType valueType : Value) : Analysis (Option Shape) :=
  checkMemoized value do
    let key ← Routine.require (← recurse keyType)
    let element ← Routine.require (← recurse valueType)
    memoizeAndReturn value (some (.assocArray key element))

def visitSequenceAllocInst (value elementType : Value) : Analysis (Option Shape) :=
  checkMemoized value do
    let element ← Routine.require (← recurse elementType)
    memoizeAndReturn value (some (.sequence element))

def fieldType (state : State) (name : String) (fieldIndex : Nat) : Option Shape := do
  let type ← state.structType name
  (← type.fieldTypes[fieldIndex]?)

def elementType (state : State) : Shape → Option Shape
  | .fieldArray (.struct name) fieldIndex => fieldType state name fieldIndex
  | .staticTensor element _ | .tensor element _ | .assocArray _ element | .sequence element =>
    some element
  | _ => none

def getElementType (object : Value) : Analysis Shape := do
  let type ← accessType recurse object
  Routine.require (elementType (← Routine.read) type)

/-- The element type of the field array type. An index of 256 or more is not supported. -/
def getFieldElementType (object : Value) (fieldIndex : Nat) : Analysis Shape := do
  let type ← accessType recurse object
  match type with
  | .struct _ =>
    if fieldIndex < 256 then Routine.require (elementType (← Routine.read) (.fieldArray type fieldIndex))
    else Routine.abort
  | _ => Routine.abort

/-- A reference that is read stands for what it refers to. -/
def unwrap : Shape → Shape
  | .reference referenced => referenced
  | type => type

def visitReadInst (value : Value) (element : Analysis Shape) : Analysis (Option Shape) :=
  checkMemoized value do
    let element ← element
    memoizeAndReturn value (some (unwrap element))

def visitGetInst (value : Value) (element : Analysis Shape) : Analysis (Option Shape) :=
  checkMemoized value do
    let element ← element
    memoizeAndReturn value (some element)

/-- The visitors of all these instructions read alike. -/
def visitForwarding (value collection : Value) : Analysis (Option Shape) :=
  checkMemoized value do
    let type ← recurse collection
    memoizeAndReturn value type

/-- The type of one of the two collections is taken for both. -/
def visitSwapInst (value fromCollection toCollection : Value) : Analysis (Option Shape) :=
  checkMemoized value do
    let type ← recurse fromCollection
    match type with
    | none =>
      let type ← recurse toCollection
      Routine.update (·.memoize fromCollection type)
      memoizeAndReturn value type
    | some _ =>
      Routine.update (·.memoize toCollection type)
      memoizeAndReturn value type

def keySequence : Option Shape → Option Shape
  | some (.assocArray key _) => some (.sequence key)
  | _ => none

def visitAssocKeysInst (value collection : Value) : Analysis (Option Shape) :=
  checkMemoized value do
    let type ← recurse collection
    let keys ← Routine.require (keySequence type)
    memoizeAndReturn value (some keys)

/-- The visitors of assertions and of return types read alike. -/
def visitAssertTypeInst (value type : Value) : Analysis (Option Shape) :=
  checkMemoized value do
    let type ← Routine.require (← recurse type)
    memoizeAndReturn value (some type)

def returnedType : Option Value → Analysis (Option Shape)
  | none => return none
  | some value => recurse value

def single {α : Type} [DecidableEq α] (types : List α) : Option α :=
  match types.dedup with
  | [type] => some type
  | _ => none

def getReturnType (function : Function) : Analysis (Option Shape) :=
  if function.empty then return none
  else
    match function.returnTypes with
    | type :: _ => recurse type
    | [] => do
      let types ← Routine.each (returnedType recurse) function.returned
      Routine.require (single types)

def visitLLVMCallInst (value : Value) (returnsPointer : Bool) (callee : Function) :
    Analysis (Option Shape) :=
  checkMemoized value do
    if returnsPointer then
      let type ← getReturnType recurse callee
      memoizeAndReturn value type
    else return none

/-- The type that the candidates agree on is not used. -/
def visitIndirectCallInst (value : Value) (returnsPointer : Bool) (candidates : List Function) :
    Analysis (Option Shape) :=
  checkMemoized value do
    if returnsPointer then
      let types ← Routine.each (getReturnType recurse) candidates
      let _ ← Routine.require (single types)
      memoizeAndReturn value none
    else return none

def visitLoadInst (value : Value) (stored : Option (List Value)) : Analysis (Option Shape) :=
  checkMemoized value do
    match stored with
    | some (first :: _) =>
      let type ← Routine.require (← recurse first)
      memoizeAndReturn value (some type)
    | _ => return none

def visitIncoming (phi : Value) : List Value → Analysis Unit
  | [] => return ()
  | incoming :: rest => do
    let state ← Routine.read
    if incoming ∈ state.visitedEdges phi then visitIncoming phi rest
    else
      Routine.update (·.visitEdge phi incoming)
      let type ← recurse incoming
      Routine.update (·.insertEdgeType phi type)
      visitIncoming phi rest

def visitPHINode (value : Value) (incoming : List Value) : Analysis (Option Shape) :=
  checkMemoized value do
    visitIncoming recurse value incoming
    let state ← Routine.read
    match state.edgeTypes value with
    | [type] => memoizeAndReturn value (some type)
    | _ => return none

def visit (value : Value) : Analysis (Option Shape) :=
  match module.kind value with
  | .integerType type => return some (.integer type)
  | .floatType => return some .float
  | .doubleType => return some .double
  | .pointerType => return some .pointer
  | .referenceType referencedType => visitReferenceTypeInst recurse referencedType
  | .defineStructType name fieldTypes =>
    visitDefineStructTypeInst module recurse ⟨value,name,fieldTypes⟩
  | .structType name => visitStructTypeInst module recurse value name
  | .staticTensorType elementType lengths =>
    visitStaticTensorTypeInst recurse value elementType lengths
  | .tensorType elementType number => visitTensorTypeInst recurse value elementType number
  | .assocArrayType keyType valueType => visitAssocArrayTypeInst recurse value keyType valueType
  | .sequenceType elementType => visitSequenceTypeInst recurse value elementType
  | .structAlloc type => visitStructAllocInst recurse value type
  | .tensorAlloc elementType number => visitTensorAllocInst recurse value elementType number
  | .assocArrayAlloc keyType valueType => visitAssocArrayAllocInst recurse value keyType valueType
  | .sequenceAlloc elementType => visitSequenceAllocInst recurse value elementType
  | .read object => visitReadInst value (getElementType recurse object)
  | .structRead object fieldIndex => visitReadInst value (getFieldElementType recurse object fieldIndex)
  | .get object => visitGetInst value (getElementType recurse object)
  | .structGet object fieldIndex => visitGetInst value (getFieldElementType recurse object fieldIndex)
  | .forward _ collection => visitForwarding recurse value collection
  | .swap fromCollection toCollection | .mutSeqSwap fromCollection toCollection =>
    visitSwapInst recurse value fromCollection toCollection
  | .assocKeys collection => visitAssocKeysInst recurse value collection
  | .assertStructType type _ | .assertCollectionType type _ | .returnType type =>
    visitAssertTypeInst recurse value type
  | .call returnsPointer callee => visitLLVMCallInst recurse value returnsPointer callee
  | .indirectCall returnsPointer candidates =>
    visitIndirectCallInst recurse value returnsPointer candidates
  | .load stored => visitLoadInst recurse value stored
  | .phi incoming => visitPHINode recurse value incoming
  | .globalString _ | .getElementPtr _ | .constantGetElementPtr _ | .constantNull | .argument
  | .other => return none

def Kind.assertedType : Kind → Option Value
  | .assertStructType type _ | .assertCollectionType type _ => some type
  | _ => none

def findAsserted (value : Value) : List Value → Analysis (Option Shape)
  | [] => return none
  | user :: users =>
    match (module.kind user).assertedType with
    | none => findAsserted value users
    | some type => do
      match ← visitAssertTypeInst recurse user type with
      | some asserted => memoizeAndReturn value (some asserted)
      | none => findAsserted value users

def resolve (value : Value) : Analysis (Option Shape) := do
  match ← visit module recurse value with
  | some type => return some type
  | none =>
    match module.kind value with
    | .constantNull => return none
    | _ => findAsserted module recurse value (module.users value)

def getTypeHelper : Nat → Visitor
  | 0,_ => Routine.exhaust
  | fuel + 1,value => resolve module (getTypeHelper fuel) value

def getType (fuel : Nat) (value : Value) : Analysis (Option Shape) :=
  analyze (getTypeHelper module fuel) value

end Memoir.TypeAnalysis
