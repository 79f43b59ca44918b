import Mathlib.Data.List.Range
import Mathlib.Data.List.Dedup
import Mathlib.Data.Nat.Count
import Mathlib.Logic.Function.Basic

/-! Dead-field elimination: the analysis that collects the struct accesses of
each type through the users of its values, and the transformation that removes
the fields without accesses and renumbers the others. The sets and maps of the
source are keyed by pointers, and nothing below depends on their order. -/
namespace Memoir.DeadFieldElimination

abbrev StructType := Nat

/-- The name of an argument or of an instruction's result; constants have names
that nothing defines. -/
abbrev Value := Nat

/-- How the compiler stops, or a read of its own uninitialized `field_index`. -/
inductive Failure
  | abort
  | unreachable
  | uninitialized
  deriving DecidableEq

inductive Opcode
  | structRead (object : Value) (fieldIndex : Nat)
  | structWrite (valueWritten object : Value) (fieldIndex : Nat)
  | structGet (object : Value) (fieldIndex : Nat)
  | mutStructWrite (valueWritten object : Value) (fieldIndex : Nat)
  /-- The other subclasses of `AccessInst`: index and assoc accesses, and has. -/
  | access (operands : List Value)
  | memoir (operands : List Value)
  | call (calledFunction : Option Nat) (operands : List Value)
  | other (operands : List Value)
  deriving DecidableEq

namespace Opcode

def operands : Opcode → List Value
  | structRead object _ | structGet object _ => [object]
  | structWrite valueWritten object _ | mutStructWrite valueWritten object _ =>
    [valueWritten,object]
  | access operands | memoir operands | call _ operands | other operands => operands

/-- Object and field index of a struct access. -/
def structAccess : Opcode → Option (Value × Nat)
  | structRead object fieldIndex | structGet object fieldIndex
  | structWrite _ object fieldIndex | mutStructWrite _ object fieldIndex => some (object,fieldIndex)
  | _ => none

def isAccessInst : Opcode → Bool
  | structRead _ _ | structWrite _ _ _ | structGet _ _ | access _ => true
  | _ => false

end Opcode

structure Instruction where
  name : Value
  opcode : Opcode
  deriving DecidableEq

/-- A declaration has an empty body. -/
structure Function where
  arguments : List Value
  body : List Instruction

structure Module where
  functions : List Function
  valueIsStructType : Value → Bool
  typeAnalysis : Value → Option StructType
  numFields : StructType → Nat
  names : ((functions.flatMap Function.body).map Instruction.name).Nodup
  typed : ∀ function ∈ functions, ∀ value ∈ function.arguments ++ function.body.map Instruction.name,
    valueIsStructType value → (typeAnalysis value).isSome
  fields : ∀ inst ∈ functions.flatMap Function.body, ∀ object fieldIndex,
    inst.opcode.structAccess = some (object,fieldIndex) → fieldIndex < 256 ∧
      ∀ type, typeAnalysis object = some type → fieldIndex < numFields type

namespace Module

def instructions (module : Module) : List Instruction := module.functions.flatMap Function.body

def values (module : Module) : List Value :=
  (module.functions.filter fun function => !function.body.isEmpty).flatMap fun function =>
    function.arguments ++ function.body.map Instruction.name

def users (module : Module) (value : Value) : List Instruction :=
  module.instructions.filter fun inst => value ∈ inst.opcode.operands

end Module

/-- A call that is not a MemOIR call, of an unknown or an empty function. -/
def valueEscapes (module : Module) (value : Value) : Bool :=
  (module.users value).any fun user =>
    match user.opcode with
    | .call none _ => true
    | .call (some calledFunction) _ =>
      (module.functions[calledFunction]?.map fun function => function.body.isEmpty).getD true
    | _ => false

structure Structs where
  structsOfType : List (StructType × Value)
  escapedTypes : List StructType

def analyzeValue (module : Module) (structs : Structs) (value : Value) : Except Failure Structs :=
  if module.valueIsStructType value then
    match module.typeAnalysis value with
    | none => .error .abort
    | some type =>
      if valueEscapes module value then
        .ok {structs with escapedTypes := type :: structs.escapedTypes}
      else .ok {structs with structsOfType := structs.structsOfType ++ [(type,value)]}
  else .ok structs

abbrev FieldToAccessMap := Nat → List Instruction
abbrev LiveFieldMap := List (StructType × FieldToAccessMap)

def getFieldIndex (fieldIndex : Nat) : Except Failure Nat :=
  if fieldIndex < 256 then .ok fieldIndex else .error .abort

def insertAccess (accesses : FieldToAccessMap) (fieldIndex : Nat) (user : Instruction) :
    FieldToAccessMap :=
  Function.update accesses fieldIndex ((accesses fieldIndex).insert user)

/-- The chain of casts over an access; none of them sets `field_index` for an
index or assoc access. The object of the access is not looked at. -/
def registerUser (accesses : FieldToAccessMap) (user : Instruction) :
    Except Failure FieldToAccessMap :=
  match user.opcode with
  | .structRead _ fieldIndex | .structWrite _ _ fieldIndex | .structGet _ fieldIndex => do
    let fieldIndex ← getFieldIndex fieldIndex
    return insertAccess accesses fieldIndex user
  | .access _ => .error .uninitialized
  | _ => .ok accesses

def registerUsers (module : Module) (values : List Value) : Except Failure FieldToAccessMap :=
  (values.flatMap module.users).foldlM registerUser fun _ => []

def Structs.types (structs : Structs) : List StructType :=
  (structs.structsOfType.map (·.1)).dedup

def Structs.valuesOf (structs : Structs) (type : StructType) : List Value :=
  (structs.structsOfType.filter (·.1 = type)).map (·.2)

/-- The escaped types are collected and then not used. -/
def analyze (module : Module) : Except Failure LiveFieldMap := do
  let structs ← module.values.foldlM (analyzeValue module) ⟨[],[]⟩
  structs.types.mapM fun type => do
    let accesses ← registerUsers module (structs.valuesOf type)
    return (type,accesses)

/-- Field index operands by access and field operands by definition; a field is
named by its position in the original definition. -/
structure Transformed where
  fieldIndex : Value → Nat
  fields : StructType → List Nat
  transformed : Bool

def updateIndex (fieldIdx : Nat) (current : Value → Nat) (access : Instruction) :
    Except Failure (Value → Nat) :=
  match access.opcode with
  | .structRead _ _ | .structWrite _ _ _ | .structGet _ _ => do
    let accessFieldIndex ← getFieldIndex (current access.name)
    if accessFieldIndex < fieldIdx then return current
    return Function.update current access.name ((accessFieldIndex + (2 ^ 32 - 1)) % 2 ^ 32)
  | _ => .error .unreachable

structure FieldLoop where
  fieldIndex : Value → Nat
  fieldsAfterRemoval : List Nat
  fieldsToRemove : List Nat

def visitFields (numFields : Nat) (accesses : FieldToAccessMap) :
    Nat → FieldLoop → Except Failure FieldLoop
  | 0, loop => .ok loop
  | fieldIdx + 1, loop =>
    if accesses fieldIdx ≠ [] then
      visitFields numFields accesses fieldIdx
        {loop with fieldsAfterRemoval := fieldIdx :: loop.fieldsAfterRemoval}
    else do
      let later := List.range' (fieldIdx + 1) (numFields - (fieldIdx + 1))
      let fieldIndex ← (later.flatMap accesses).foldlM (updateIndex fieldIdx) loop.fieldIndex
      visitFields numFields accesses fieldIdx
        {loop with fieldIndex, fieldsToRemove := fieldIdx :: loop.fieldsToRemove}

/-- Turns of the loop over an `int16_t`: none when `num_fields - 1` is negative. -/
@[irreducible] def visitedFields (numFields : Nat) : Nat :=
  let fieldIdx := ((BitVec.ofNat 32 numFields - 1).setWidth 16).toInt
  (fieldIdx + 1).toNat

def transformType (module : Module) (result : Transformed) (entry : StructType × FieldToAccessMap) :
    Except Failure Transformed := do
  let numFields := module.numFields entry.1
  let loop ← visitFields numFields entry.2 (visitedFields numFields) ⟨result.fieldIndex,[],[]⟩
  if loop.fieldsToRemove = [] then return {result with fieldIndex := loop.fieldIndex}
  return ⟨loop.fieldIndex,Function.update result.fields entry.1 loop.fieldsAfterRemoval,true⟩

def Module.fieldIndex (module : Module) (access : Value) : Nat :=
  (((module.instructions.find? (·.name = access)).bind (·.opcode.structAccess)).map (·.2)).getD 0

def original (module : Module) : Transformed :=
  ⟨module.fieldIndex,fun type => List.range (module.numFields type),false⟩

def transform (module : Module) (liveFields : LiveFieldMap) : Except Failure Transformed :=
  liveFields.foldlM (transformType module) (original module)

end Memoir.DeadFieldElimination
