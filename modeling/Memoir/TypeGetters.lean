import Mathlib.Algebra.Group.Nat.Defs
import Memoir.Types

/-! The getters of the compiler's types, with the objects that they allocate and the
caches that they search. Types are compared by their addresses. -/
namespace Memoir
namespace TypeGetters

/-- Addresses of types: those of the static objects of a getter, and allocated ones. -/
inductive Pointer
  | integer (type : IntegerType)
  | float
  | double
  | pointer
  | allocated (index : Nat)
  deriving DecidableEq

inductive Object
  | reference (referencedType : Pointer)
  | struct (name : String) (fieldTypes : List Pointer)
  | fieldArray (structType : Pointer) (fieldIndex : Nat)
  | staticTensor (elementType : Pointer) (numberOfDimensions : Nat) (lengthOfDimensions : List Nat)
  | tensor (elementType : Pointer) (numberOfDimensions : Nat)
  | assocArray (keyType valueType : Pointer)
  | sequence (elementType : Pointer)

inductive Key
  | reference (referencedType : Pointer)
  | struct (name : String)
  | fieldArray (structType : Pointer) (fieldIndex : Nat)
  | tensor (elementType : Pointer) (numberOfDimensions : Nat)
  | assocArray (keyType valueType : Pointer)
  | sequence (elementType : Pointer)
  deriving DecidableEq

abbrev Map (α β : Type) := List (α × β)

/-- `(*map)[key][key'] = value`. -/
def setNested {α β γ : Type} [DecidableEq α] : Map α (Map β γ) → α → β → γ → Map α (Map β γ)
  | [],key,key',value => [(key,[(key',value)])]
  | (first,inner) :: rest,key,key',value =>
    if key = first then (first,(key',value) :: inner) :: rest
    else (first,inner) :: setNested rest key key' value

/-- The objects, the newest one first, and the caches. -/
structure Context where
  objects : List Object
  referenceTypes : Map Pointer Pointer
  definedTypes : Map String Pointer
  structToFieldArray : Map Pointer (Map Nat Pointer)
  /-- A multimap, in the order of insertion. -/
  staticTensorTypes : Map Pointer Pointer
  tensorTypes : Map Pointer (Map Nat Pointer)
  assocArrayTypes : Map Pointer (Map Pointer Pointer)
  sequenceTypes : Map Pointer Pointer

def Context.empty : Context := ⟨[],[],[],[],[],[],[],[]⟩

def objectAt : List Object → Nat → Option Object
  | [],_ => none
  | object :: older,index => if index = older.length then some object else objectAt older index

namespace Context

def get (context : Context) : Pointer → Option Object
  | .allocated index => objectAt context.objects index
  | _ => none

def allocate (context : Context) (object : Object) : Context × Pointer :=
  ({context with objects := object :: context.objects},.allocated context.objects.length)

def find (context : Context) : Key → Option Pointer
  | .reference referencedType => context.referenceTypes.lookup referencedType
  | .struct name => context.definedTypes.lookup name
  | .fieldArray structType fieldIndex => do
    (← context.structToFieldArray.lookup structType).lookup fieldIndex
  | .tensor elementType numberOfDimensions => do
    (← context.tensorTypes.lookup elementType).lookup numberOfDimensions
  | .assocArray keyType valueType => do
    (← context.assocArrayTypes.lookup keyType).lookup valueType
  | .sequence elementType => context.sequenceTypes.lookup elementType

def register (context : Context) (type : Pointer) : Key → Context
  | .reference referencedType =>
    {context with referenceTypes := (referencedType,type) :: context.referenceTypes}
  | .struct name => {context with definedTypes := (name,type) :: context.definedTypes}
  | .fieldArray structType fieldIndex =>
    {context with structToFieldArray := setNested context.structToFieldArray structType fieldIndex type}
  | .tensor elementType numberOfDimensions =>
    {context with tensorTypes := setNested context.tensorTypes elementType numberOfDimensions type}
  | .assocArray keyType valueType =>
    {context with assocArrayTypes := setNested context.assocArrayTypes keyType valueType type}
  | .sequence elementType =>
    {context with sequenceTypes := (elementType,type) :: context.sequenceTypes}

/-- The getters search their cache, and else make a type. -/
def intern (context : Context) (key : Key) (object : Object) : Context × Pointer :=
  match context.find key with
  | some found => (context,found)
  | none =>
    let (context,new) := context.allocate object
    (context.register new key,new)

end Context

def Object.getElementType : Object → Option Pointer
  | .staticTensor elementType _ _ | .tensor elementType _ | .sequence elementType
  | .assocArray _ elementType => some elementType
  | _ => none

def Object.getKeyType : Object → Option Pointer
  | .assocArray keyType _ => some keyType
  | _ => none

def Object.getReferencedType : Object → Option Pointer
  | .reference referencedType => some referencedType
  | _ => none

def Object.getName : Object → Option String
  | .struct name _ => some name
  | _ => none

def Object.getStructType : Object → Option Pointer
  | .fieldArray structType _ => some structType
  | _ => none

def Object.getFieldIndex : Object → Option Nat
  | .fieldArray _ fieldIndex => some fieldIndex
  | _ => none

/-- The accessor of a tensor type calls itself. -/
def tensorNumberOfDimensions (object : Object) : Nat → Option Nat
  | 0 => none
  | fuel + 1 => tensorNumberOfDimensions object fuel

def Object.getNumberOfDimensions (object : Object) (fuel : Nat) : Option Nat :=
  match object with
  | .staticTensor _ numberOfDimensions _ => some numberOfDimensions
  | .tensor _ _ => tensorNumberOfDimensions object fuel
  | _ => none

def Object.getLengthOfDimension : Object → Nat → Option Nat
  | .staticTensor _ numberOfDimensions lengthOfDimensions,index =>
    if index < numberOfDimensions then lengthOfDimensions[index]? else none
  | _,_ => none

namespace Context

def referenceType (context : Context) (referencedType : Pointer) : Context × Pointer :=
  context.intern (.reference referencedType) (.reference referencedType)

def defineStruct (context : Context) (name : String) (fieldTypes : List Pointer) :
    Context × Pointer :=
  context.intern (.struct name) (.struct name fieldTypes)

def structType (context : Context) (name : String) : Option Pointer := context.find (.struct name)

def fieldArrayType (context : Context) (structType : Pointer) (fieldIndex : Nat) :
    Context × Pointer :=
  context.intern (.fieldArray structType fieldIndex) (.fieldArray structType fieldIndex)

def tensorType (context : Context) (elementType : Pointer) (numberOfDimensions : Nat) :
    Context × Pointer :=
  context.intern (.tensor elementType numberOfDimensions) (.tensor elementType numberOfDimensions)

def assocArrayType (context : Context) (keyType valueType : Pointer) : Context × Pointer :=
  context.intern (.assocArray keyType valueType) (.assocArray keyType valueType)

def sequenceType (context : Context) (elementType : Pointer) : Context × Pointer :=
  context.intern (.sequence elementType) (.sequence elementType)

def existingTypes (context : Context) (elementType : Pointer) : List Pointer :=
  (context.staticTensorTypes.filter fun entry => entry.1 = elementType).map Prod.snd

def hasDimensions (context : Context) (numberOfDimensions : Nat) (type : Pointer) : Bool :=
  match context.get type with
  | some (.staticTensor _ number _) => number = numberOfDimensions
  | _ => false

/-- The search for a static tensor type. The `continue` of its inner loop is one of that
loop, so the lengths do not matter; the counter of the loop is an int. -/
def search (context : Context) (elementType : Pointer) (dimensionSizes : List Nat) :
    Option Pointer :=
  (context.existingTypes elementType).find? (context.hasDimensions dimensionSizes.length)

def staticTensorType (context : Context) (elementType : Pointer) (dimensionSizes : List Nat) :
    Option (Context × Pointer) :=
  match context.search elementType dimensionSizes with
  | some found => if dimensionSizes.length < 2 ^ 31 then some (context,found) else none
  | none =>
    let (context,new) := context.allocate
      (.staticTensor elementType (dimensionSizes.length % 2 ^ 32) dimensionSizes)
    some ({context with staticTensorTypes := context.staticTensorTypes ++ [(elementType,new)]},new)

end Context

inductive Call
  | integer (type : IntegerType)
  | float
  | double
  | pointer
  | reference (referencedType : Pointer)
  | defineStruct (name : String) (fieldTypes : List Pointer)
  | struct (name : String)
  | fieldArray (structType : Pointer) (fieldIndex : Nat)
  | staticTensor (elementType : Pointer) (dimensionSizes : List Nat)
  | tensor (elementType : Pointer) (numDimensions : Nat)
  | assocArray (keyType valueType : Pointer)
  | sequence (elementType : Pointer)

/-- A call that aborts, or whose behaviour is undefined, has no result. -/
def Call.run (context : Context) : Call → Option (Context × Pointer)
  | integer type => some (context,.integer type)
  | float => some (context,.float)
  | double => some (context,.double)
  | pointer => some (context,.pointer)
  | reference referencedType => some (context.referenceType referencedType)
  | defineStruct name fieldTypes => some (context.defineStruct name fieldTypes)
  | struct name => (context.structType name).map fun type => (context,type)
  | fieldArray structType fieldIndex => some (context.fieldArrayType structType fieldIndex)
  | staticTensor elementType dimensionSizes => context.staticTensorType elementType dimensionSizes
  | tensor elementType numDimensions => some (context.tensorType elementType numDimensions)
  | assocArray keyType valueType => some (context.assocArrayType keyType valueType)
  | sequence elementType => some (context.sequenceType elementType)

def runAll (context : Context) : List Call → Option (Context × List Pointer)
  | [] => some (context,[])
  | call :: calls => do
    let (context,result) ← call.run context
    let (context,results) ← runAll context calls
    return (context,result :: results)

/-- The structure of a type. Struct types are told apart by their names. -/
inductive Shape
  | integer (type : IntegerType)
  | float
  | double
  | pointer
  | reference (referenced : Shape)
  | struct (name : String)
  | fieldArray (structShape : Shape) (fieldIndex : Nat)
  | staticTensor (element : Shape) (lengths : List Nat)
  | tensor (element : Shape) (numDimensions : Nat)
  | assocArray (key value : Shape)
  | sequence (element : Shape)

def Object.shape (shapeOf : Pointer → Option Shape) : Object → Option Shape
  | .reference referencedType => return .reference (← shapeOf referencedType)
  | .struct name _ => some (.struct name)
  | .fieldArray structType fieldIndex => return .fieldArray (← shapeOf structType) fieldIndex
  | .staticTensor elementType _ lengths => return .staticTensor (← shapeOf elementType) lengths
  | .tensor elementType numberOfDimensions =>
    return .tensor (← shapeOf elementType) numberOfDimensions
  | .assocArray keyType valueType => return .assocArray (← shapeOf keyType) (← shapeOf valueType)
  | .sequence elementType => return .sequence (← shapeOf elementType)

def describe : List Object → Pointer → Option Shape
  | _,.integer type => some (.integer type)
  | _,.float => some .float
  | _,.double => some .double
  | _,.pointer => some .pointer
  | [],.allocated _ => none
  | object :: older,.allocated index =>
    if index = older.length then object.shape (describe older) else describe older (.allocated index)

def Call.shape (shapeOf : Pointer → Option Shape) : Call → Option Shape
  | integer type => some (.integer type)
  | float => some .float
  | double => some .double
  | pointer => some .pointer
  | reference referencedType => return .reference (← shapeOf referencedType)
  | defineStruct name _ | struct name => some (.struct name)
  | fieldArray structType fieldIndex => return .fieldArray (← shapeOf structType) fieldIndex
  | staticTensor elementType lengths => return .staticTensor (← shapeOf elementType) lengths
  | tensor elementType numDimensions => return .tensor (← shapeOf elementType) numDimensions
  | assocArray keyType valueType => return .assocArray (← shapeOf keyType) (← shapeOf valueType)
  | sequence elementType => return .sequence (← shapeOf elementType)

def Context.Reports (context : Context) (result : Pointer) : Call → Prop
  | .integer type => result = .integer type
  | .float => result = .float
  | .double => result = .double
  | .pointer => result = .pointer
  | .reference referencedType =>
    (context.get result).bind Object.getReferencedType = some referencedType
  | .defineStruct name _ | .struct name => (context.get result).bind Object.getName = some name
  | .fieldArray structType fieldIndex =>
    (context.get result).bind Object.getStructType = some structType ∧
      (context.get result).bind Object.getFieldIndex = some fieldIndex
  | .staticTensor elementType lengths =>
    (context.get result).bind Object.getElementType = some elementType ∧
      (∃ fuel, (context.get result).bind (·.getNumberOfDimensions fuel) = some lengths.length) ∧
      ∀ index < lengths.length,
        (context.get result).bind (·.getLengthOfDimension index) = lengths[index]?
  | .tensor elementType numDimensions =>
    (context.get result).bind Object.getElementType = some elementType ∧
      ∃ fuel, (context.get result).bind (·.getNumberOfDimensions fuel) = some numDimensions
  | .assocArray keyType valueType =>
    (context.get result).bind Object.getKeyType = some keyType ∧
      (context.get result).bind Object.getElementType = some valueType
  | .sequence elementType => (context.get result).bind Object.getElementType = some elementType

/-- The calls return, each type reports what was asked for, and two calls return one type
exactly if they ask for one structure. -/
def Canonical (calls : List Call) : Prop :=
  ∃ context results, runAll .empty calls = some (context,results) ∧
    (∀ (i : Nat) call result, calls[i]? = some call → results[i]? = some result →
      context.Reports result call) ∧
    ∀ (i j : Nat) call call' result result', calls[i]? = some call → results[i]? = some result →
      calls[j]? = some call' → results[j]? = some result' →
      (result = result' ↔ call.shape (describe context.objects) =
        call'.shape (describe context.objects))

def Pointer.Known (objects : List Object) : Pointer → Prop
  | .allocated index => index < objects.length
  | _ => True

/-- The arguments are types, field arrays are of structs, and a struct is defined before its
name is looked up. -/
def Call.Valid (context : Context) : Call → Prop
  | reference type | staticTensor type _ | tensor type _ | sequence type =>
    type.Known context.objects
  | assocArray keyType valueType =>
    keyType.Known context.objects ∧ valueType.Known context.objects
  | fieldArray structType _ => ∃ name fieldTypes,
    context.get structType = some (.struct name fieldTypes)
  | defineStruct _ fieldTypes => ∀ type ∈ fieldTypes, type.Known context.objects
  | struct name => (context.structType name).isSome
  | _ => True

def ValidCalls (context : Context) : List Call → Prop
  | [] => True
  | call :: calls => call.Valid context ∧
    ∀ context' result, call.run context = some (context',result) → ValidCalls context' calls

/-- Two requests that the search for static tensor types tells apart, or need not. -/
def Call.Compatible : Call → Call → Prop
  | staticTensor elementType lengths,staticTensor elementType' lengths' =>
    elementType = elementType' → lengths.length = lengths'.length →
      lengths = lengths' ∧ lengths.length < 2 ^ 31
  | _,_ => True

def Call.Reportable : Call → Prop
  | staticTensor _ lengths => lengths.length < 2 ^ 32
  | tensor _ _ => False
  | _ => True

end TypeGetters
end Memoir
