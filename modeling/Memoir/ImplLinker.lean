import Memoir.TypeLayout

/-! The implementation linker, and the names of backend functions that SSA destruction
builds. Both derive names from the codes of types. -/
namespace Memoir

namespace MemoirType

def getCode : MemoirType → String
  | integer type =>
    if type.getBitWidth = 1 then "boolean"
    else (if type.isSigned then "i" else "u") ++ toString type.getBitWidth
  | float => "f32"
  | double => "f64"
  | pointer => "ptr"
  | reference referenced => referenced.getCode ++ "_ref"
  | struct _ _ => "struct"
  | staticTensor _ _ | tensor _ _ | assocArray _ _ | sequence _ => "collection"

/-- Types are compared by their addresses, struct types are told apart by their names. -/
def same : MemoirType → MemoirType → Bool
  | integer type,integer type' => type = type'
  | float,float | double,double | pointer,pointer => true
  | reference referenced,reference referenced' => referenced.same referenced'
  | struct name _,struct name' _ => name = name'
  | staticTensor element lengths,staticTensor element' lengths' =>
    element.same element' && decide (lengths = lengths')
  | tensor element number,tensor element' number' => element.same element' && decide (number = number')
  | assocArray key value,assocArray key' value' => key.same key' && value.same value'
  | sequence element,sequence element' => element.same element'
  | _,_ => false

end MemoirType

namespace ImplLinker
open TypeLayout

def memoirToCType : MemoirType → Option String
  | .integer type =>
    some ((if type.isSigned then "" else "u") ++ "int" ++ toString type.getBitWidth ++ "_t")
  | .float => some "float"
  | .double => some "double"
  | .pointer => some "void *"
  | .reference referenced => return (← memoirToCType referenced) ++ " *"
  | .struct name _ => some ("impl__" ++ name)
  | .staticTensor _ _ | .tensor _ _ | .assocArray _ _ | .sequence _ => none

def insertUnique {α : Type} (same : α → α → Bool) (values : List α) (value : α) : List α :=
  if values.any (same value) then values else values ++ [value]

def sameSeq (first second : String × MemoirType) : Bool :=
  decide (first.1 = second.1) && first.2.same second.2

def sameAssoc (first second : String × MemoirType × MemoirType) : Bool :=
  decide (first.1 = second.1) && first.2.1.same second.2.1 && first.2.2.same second.2.2

/-- The set of struct types and the multimaps from implementation names to element types. There
is one name for each multimap, so that its order is the order of insertion. -/
structure Linker where
  structImplementations : List MemoirType
  seqImplementations : List (String × MemoirType)
  assocImplementations : List (String × MemoirType × MemoirType)

namespace Linker

def empty : Linker := ⟨[],[],[]⟩

def implementType (linker : Linker) (type : MemoirType) (layout : Layout) : Linker :=
  match layout.llvmType with
  | .struct _ _ =>
    let structs := insertUnique MemoirType.same linker.structImplementations type
    {linker with structImplementations := structs}
  | _ => linker

def implementSeq (linker : Linker) (implName : String) (element : MemoirType) (layout : Layout) :
    Linker :=
  let linker := linker.implementType element layout
  let seqs := insertUnique sameSeq linker.seqImplementations (implName,element)
  {linker with seqImplementations := seqs}

/-- The keys of an associative array are a sequence. -/
def implementAssoc (linker : Linker) (implName : String) (key value : MemoirType)
    (keyLayout valueLayout : Layout) : Linker :=
  let linker := (linker.implementType key keyLayout).implementType value valueLayout
  let assocs := insertUnique sameAssoc linker.assocImplementations (implName,key,value)
  let linker := {linker with assocImplementations := assocs}
  if implName = "stl_unordered_map" then linker.implementSeq "stl_vector" key keyLayout else linker

end Linker

inductive Line
  | typedefStruct (cType : String)
  | includeBackend (implName : String)
  | instantiateSeq (implName code cType : String)
  | instantiateAssoc (implName keyCode cKey valueCode cValue : String)

def seqLine (implementation : String × MemoirType) : Option Line := do
  let cType ← memoirToCType implementation.2
  return .instantiateSeq implementation.1 implementation.2.getCode cType

def assocLine (implementation : String × MemoirType × MemoirType) : Option Line := do
  let cKey ← memoirToCType implementation.2.1
  let cValue ← memoirToCType implementation.2.2
  return .instantiateAssoc implementation.1 implementation.2.1.getCode cKey
    implementation.2.2.getCode cValue

def withHeader {α : Type} (implementations : List (String × α)) (lines : List Line) : List Line :=
  (implementations.head?.map fun first => .includeBackend first.1).toList ++ lines

def Linker.emit (linker : Linker) : Option (List Line) := do
  let structs ← linker.structImplementations.mapM fun type =>
    (memoirToCType type).map Line.typedefStruct
  let seqs ← linker.seqImplementations.mapM seqLine
  let assocs ← linker.assocImplementations.mapM assocLine
  return structs ++ withHeader linker.seqImplementations seqs ++
    withHeader linker.assocImplementations assocs

inductive Inst
  | sequenceAlloc (element : MemoirType)
  | assocAlloc (key value : MemoirType)
  | defineStruct (name : String) (fields : List MemoirType)
  | other

def seqImpl : String := "stl_vector"

def assocImpl : String := "stl_unordered_map"

def visit (linker : Linker) : Inst → Option Linker
  | .sequenceAlloc element => do
    return linker.implementSeq seqImpl element (← convert element)
  | .assocAlloc key value => do
    return linker.implementAssoc assocImpl key value (← convert key) (← convert value)
  | .defineStruct name fields => do
    return linker.implementType (.struct name fields) (← convert (.struct name fields))
  | .other => some linker

abbrev Module := List (List Inst)

def runOnModule (program : Module) : Option (List Line) := do
  (← program.flatten.foldlM visit .empty).emit

def backendOperations (implName : String) : List String :=
  if implName = seqImpl then
    ["allocate","free","get","read","write","copy","remove","remove_range","insert_element","insert",
      "insert_range","swap","size"]
  else if implName = assocImpl then
    ["allocate","free","has","get","read","write","insert","remove","size","keys"]
  else []

def Line.instantiation : Line → Option String
  | instantiateSeq implName code _ => some (code ++ "_" ++ implName)
  | instantiateAssoc implName keyCode _ valueCode _ =>
    some (keyCode ++ "_" ++ valueCode ++ "_" ++ implName)
  | _ => none

def Line.cTypes : Line → List String
  | instantiateSeq _ _ cType => [cType]
  | instantiateAssoc _ _ cKey _ cValue => [cKey,cValue]
  | _ => []

def Line.functions : Line → List String
  | instantiateSeq implName code _ =>
    (backendOperations implName).map fun operation => code ++ "_" ++ implName ++ "__" ++ operation
  | instantiateAssoc implName keyCode _ valueCode _ =>
    (backendOperations implName).map fun operation =>
      keyCode ++ "_" ++ valueCode ++ "_" ++ implName ++ "__" ++ operation
  | _ => []

/-- The C type of a type, as the runtime declares it (`types.def`). A struct is what the header of the
linker declares for it. -/
def ownCType : MemoirType → Option String
  | .integer .u64 => some "uint64_t"
  | .integer .u32 => some "uint32_t"
  | .integer .u16 => some "uint16_t"
  | .integer .u8 | .integer .u2 => some "uint8_t"
  | .integer .i64 => some "int64_t"
  | .integer .i32 => some "int32_t"
  | .integer .i16 => some "int16_t"
  | .integer .i8 | .integer .i2 => some "int8_t"
  | .integer .boolean => some "bool"
  | .float => some "float"
  | .double => some "double"
  | .pointer => some "void *"
  | .reference referenced => return (← ownCType referenced) ++ " *"
  | .struct name _ => some ("impl__" ++ name)
  | .staticTensor _ _ | .tensor _ _ | .assocArray _ _ | .sequence _ => none

/-- A collection that a module allocates: by an allocation, or the keys of an associative array. -/
inductive Collection
  | sequence (element : MemoirType)
  | assocArray (key value : MemoirType)

namespace Collection

def implPrefix : Collection → String
  | sequence element => element.getCode ++ "_" ++ seqImpl
  | assocArray key value => key.getCode ++ "_" ++ value.getCode ++ "_" ++ assocImpl

def operations : Collection → List String
  | sequence _ => ["allocate","free","size","read","get","write","insert_element","insert",
    "remove_range","copy","swap"]
  | assocArray _ _ => ["allocate","free","size","read","write","get","has","insert","remove","keys"]

def functionNames (collection : Collection) : List String :=
  collection.operations.map fun operation => collection.implPrefix ++ "__" ++ operation

def types : Collection → List MemoirType
  | sequence element => [element]
  | assocArray key value => [key,value]

def cTypes : Collection → Option (List String)
  | sequence element => do return [← ownCType element]
  | assocArray key value => do return [← ownCType key,← ownCType value]

end Collection

def Inst.collections : Inst → List Collection
  | sequenceAlloc element => [.sequence element]
  | assocAlloc key value => [.assocArray key value,.sequence key]
  | _ => []

def collections (program : Module) : List Collection := program.flatten.flatMap Inst.collections

/-- Every function that is built for a collection is one of an instantiation that is emitted once,
for the collection's own types. -/
def Linked (program : Module) : Prop :=
  ∃ lines, runOnModule program = some lines ∧ ∀ collection ∈ collections program,
    (∀ name ∈ collection.functionNames, ∃ line ∈ lines, name ∈ line.functions ∧
      line.instantiation = some collection.implPrefix ∧ collection.cTypes = some line.cTypes) ∧
    (lines.filter fun line => line.instantiation = some collection.implPrefix).length = 1 ∧
    ∀ other ∈ collections program, other.implPrefix = collection.implPrefix →
      other.cTypes = collection.cTypes

def Alike : MemoirType → MemoirType → Bool
  | .integer type,.integer type' => type = type'
  | .float,.float | .double,.double | .pointer,.pointer | .struct _ _,.struct _ _ => true
  | .reference referenced,.reference referenced' => Alike referenced referenced'
  | _,_ => false

def Collection.Alike : Collection → Collection → Bool
  | sequence element,sequence element' => ImplLinker.Alike element element'
  | assocArray key value,assocArray key' value' =>
    ImplLinker.Alike key key' && ImplLinker.Alike value value'
  | _,_ => false

def Collection.same : Collection → Collection → Bool
  | sequence element,sequence element' => element.same element'
  | assocArray key value,assocArray key' value' => key.same key' && value.same value'
  | _,_ => false

def Elementary : MemoirType → Bool
  | .reference referenced => Elementary referenced
  | .staticTensor _ _ | .tensor _ _ | .assocArray _ _ | .sequence _ => false
  | _ => true

/-- Neither an integer that has no C type of its width nor a reference to one. -/
def Declared : MemoirType → Bool
  | .integer type => type ≠ .u2 ∧ type ≠ .i2 ∧ type ≠ .boolean
  | .reference referenced => Declared referenced
  | _ => true

def Inst.Supported : Inst → Prop
  | sequenceAlloc element => (convert element).isSome ∧ Elementary element
  | assocAlloc key value => (convert key).isSome ∧ Elementary key ∧ (convert value).isSome ∧
    Elementary value
  | defineStruct name fields => (convert (.struct name fields)).isSome
  | other => True

end ImplLinker
end Memoir
