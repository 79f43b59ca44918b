import Memoir.Worklist

/-! Key folding: the analysis of the accesses of an associative array and of where their keys come
from, and the transformation that makes them accesses of another collection. -/
namespace Memoir
namespace KeyFolding

structure Location where
  function : Nat
  block : Nat
  index : Nat
  deriving DecidableEq

inductive Value
  | argument (function index : Nat)
  | inst (location : Location)
  | function (function : Nat)
  /-- What is neither an instruction nor an argument, nor a function. -/
  | constant (id : Nat)
  deriving DecidableEq

inductive KeyType
  | structReference (name : Nat)
  | other (id : Nat)
  deriving DecidableEq

inductive Callee
  | direct (function : Nat)
  | indirect (functionType : Nat) (pointer : Value)
  deriving DecidableEq

/-- The last operand of a call, behind its arguments. -/
def Callee.operand : Callee → Value
  | .direct function => .function function
  | .indirect _ pointer => pointer

/-- An access has the name of its function without `memoir__assoc` or `memoir__index`. -/
inductive Inst
  | allocateSequence (size : Value)
  | allocateAssocArray (keyType : KeyType)
  | assocRead (suffix : String) (object key : Value)
  | assocWrite (suffix : String) (value object key : Value)
  | assocGet (suffix : String) (object key : Value)
  | assocHas (object key : Value)
  | assocInsert (base key : Value)
  | assocRemove (base key : Value)
  | assocKeys (collection : Value)
  | mutAssocWrite (value object key : Value)
  | mutAssocInsert (collection key : Value)
  | mutAssocRemove (collection key : Value)
  | indexRead (suffix : String) (object index : Value)
  | indexWrite (suffix : String) (value object index : Value)
  | indexGet (suffix : String) (object index : Value)
  | size (collection : Value)
  | usePhi (used : Value)
  | defPhi (defined : Value)
  | argPhi (input : Value)
  | retPhi (input : Value)
  /-- Any other MemOIR instruction. -/
  | memoir (operands : List Value)
  | phi (incoming : List (Nat × Value))
  | call (callee : Callee) (arguments : List Value)
  /-- Any other instruction. -/
  | other (operands : List Value)
  deriving DecidableEq

inductive Terminator
  | ret (value : Option Value)
  | branch (condition : Option Value) (targets : List Nat)

structure BasicBlock where
  insts : List Inst
  terminator : Terminator

structure Function where
  functionType : Nat
  arguments : Nat
  blocks : List BasicBlock

/-- A module with the index functions that it declares, by their suffixes. -/
structure Module where
  functions : List Function
  indexFunctions : List String

def Inst.operands : Inst → List Value
  | allocateSequence length => [length]
  | allocateAssocArray _ => []
  | assocRead _ object key | assocGet _ object key => [object,key]
  | assocWrite _ value object key => [value,object,key]
  | mutAssocWrite value object key => [value,object,key]
  | assocHas object key | assocInsert object key | assocRemove object key | mutAssocInsert object key
  | mutAssocRemove object key => [object,key]
  | assocKeys collection | size collection => [collection]
  | indexRead _ object index | indexGet _ object index => [object,index]
  | indexWrite _ value object index => [value,object,index]
  | usePhi used => [used]
  | defPhi defined => [defined]
  | argPhi input | retPhi input => [input]
  | memoir operands | other operands => operands
  | phi incoming => incoming.map Prod.snd
  | call _ arguments => arguments

namespace Module

def inst? (module : Module) (location : Location) : Option Inst := do
  let function ← module.functions[location.function]?
  let block ← function.blocks[location.block]?
  block.insts[location.index]?

def instructions (module : Module) : List (Location × Inst) :=
  module.functions.zipIdx.flatMap fun (function,f) => function.blocks.zipIdx.flatMap fun (block,b) =>
    block.insts.zipIdx.map fun (inst,i) => (⟨f,b,i⟩,inst)

def callees (module : Module) : Callee → List Nat
  | .direct function => [function]
  | .indirect functionType _ => (List.range module.functions.length).filter fun f =>
    (module.functions[f]?).map (·.functionType) = some functionType

def passedTo (module : Module) (callee : Callee) (arguments : List Value) (value : Value) : List Value :=
  (module.callees callee).flatMap fun f =>
    ((List.range arguments.length).filter fun k => arguments[k]? = some value).map (.argument f)

def followed (module : Module) (value : Value) : List Value :=
  module.instructions.flatMap fun (location,inst) =>
    if value ∈ inst.operands then
      match inst with
      | .usePhi _ | .defPhi _ | .phi _ => [.inst location]
      | .call callee arguments => module.passedTo callee arguments value
      | _ => []
    else []

def operands (module : Module) : List Value := module.instructions.flatMap fun (_,inst) => inst.operands

end Module

def Inst.accessKey : Inst → Option Value
  | assocRead _ _ key | assocWrite _ _ _ key | assocGet _ _ key => some key
  | _ => none

namespace Module

def assocAccesses (module : Module) (alloc : Location) : Option (List (Location × Inst)) := do
  let visited ← Worklist.visit module.followed module.operands [.inst alloc]
  return module.instructions.filter fun (_,inst) =>
    inst.accessKey.isSome ∧ ∃ operand ∈ inst.operands,operand ∈ visited

def keySource (module : Module) : Value → Option (Value × Value)
  | .inst location => match module.inst? location with
    | some (.indexGet _ object index) => some (object,index)
    | some (.assocGet _ object key) => some (object,key)
    | _ => none
  | _ => none

def returnedValues (module : Module) (function : Nat) : List Value :=
  ((module.functions[function]?).map fun function => function.blocks.filterMap fun block =>
    match block.terminator with
    | .ret value => value
    | _ => none).getD []

/-- Among the calls in a function, those that call it are asked for the operand that they pass. -/
def askedCalls (module : Module) : List (Callee × List Value) :=
  module.instructions.filterMap fun (location,inst) => match inst with
    | .call callee arguments =>
      if location.function ∈ module.callees callee then some (callee,arguments) else none
    | _ => none

/-- The operand of a call at a position. What is behind the operands is not defined. -/
def passed (index : Nat) (call : Callee × List Value) : Option Value := (call.2 ++ [call.1.operand])[index]?

def possibleArguments (module : Module) (index : Nat) : List Value :=
  module.askedCalls.filterMap (passed index)

def sources (module : Module) : Value → List Value
  | .inst location => match module.inst? location with
    | some (.usePhi used) => [used]
    | some (.defPhi defined) => [defined]
    | some (.indexWrite _ _ object _) | some (.assocWrite _ _ object _) => [object]
    | some (.phi incoming) => incoming.map Prod.snd
    | some (.call callee _) => (module.callees callee).flatMap module.returnedValues
    | _ => []
  | .argument function index =>
    if index < ((module.functions[function]?).map (·.arguments)).getD 0 then
      module.possibleArguments index
    else []
  | .function _ | .constant _ => []

def readsPast (module : Module) : Value → Bool
  | .argument _ index => module.askedCalls.any fun call => (passed index call).isNone
  | _ => false

/-- The allocation that a value is, or the null pointer for what is not analyzed. -/
def referenced (module : Module) : Value → Option (Option Location)
  | .inst location => match module.inst? location with
    | some (.allocateSequence _) | some (.allocateAssocArray _) => some (some location)
    | _ => none
  | .argument _ _ => none
  | .function _ | .constant _ => some none

def values (module : Module) : List Value :=
  module.instructions.map (fun (location,_) => .inst location) ++
    module.functions.zipIdx.flatMap fun (function,f) =>
      (List.range function.arguments).map (.argument f)

def keyFold (module : Module) (alloc : Location) : Option (Option Location) := do
  let accesses ← module.assocAccesses alloc
  match accesses.mapM fun (_,inst) => inst.accessKey.bind module.keySource with
  | none => return none
  | some keys =>
    let visited ← Worklist.visit module.sources module.values (keys.map Prod.fst)
    if visited.any module.readsPast then none
    else
      match (visited.filterMap module.referenced).dedup with
      | [collection] => return collection
      | _ => return none

def candidates (module : Module) : List Location :=
  module.instructions.filterMap fun (location,inst) => match inst with
    | .allocateAssocArray (.structReference _) => some location
    | _ => none

def analyze (module : Module) : Option (List (Location × Location)) := do
  let folds ← module.candidates.mapM fun alloc => do return (alloc,← module.keyFold alloc)
  return folds.filterMap fun (alloc,collection) => collection.map (alloc,·)

/-- The size of a sequence, when the transformation takes it to be available. -/
def allocationSize (module : Module) (collection : Location) : Option Value :=
  match module.inst? collection with
  | some (.allocateSequence (.constant size)) => some (.constant size)
  | some (.allocateSequence (.argument function index)) => some (.argument function index)
  | _ => none

def foldedKeyType (module : Module) (collection : Location) : Option KeyType :=
  match module.inst? collection with
  | some (.allocateAssocArray keyType) => some keyType
  | _ => none

def foldedAlloc (module : Module) (collection : Location) : Option Inst :=
  match module.allocationSize collection,module.foldedKeyType collection with
  | some size,_ => some (Inst.allocateSequence size)
  | none,some keyType => some (Inst.allocateAssocArray keyType)
  | none,none => none

end Module

def Inst.foldAccess (index : Value) : Inst → Option Inst
  | assocRead suffix object _ => some (.indexRead suffix object index)
  | assocWrite suffix value object _ => some (.indexWrite suffix value object index)
  | assocGet suffix object _ => some (.indexGet suffix object index)
  | _ => none

def Inst.setKey (key : Value) : Inst → Inst
  | assocRead suffix object _ => .assocRead suffix object key
  | assocWrite suffix value object _ => .assocWrite suffix value object key
  | assocGet suffix object _ => .assocGet suffix object key
  | inst => inst

def Inst.suffix : Inst → Option String
  | assocRead suffix _ _ | assocWrite suffix _ _ _ | assocGet suffix _ _ => some suffix
  | _ => none

structure Fold where
  alloc : Location
  folded : Inst
  accesses : List (Location × Inst)

namespace Module

def folds (module : Module) : Option (List Fold) := do
  let keyFolds ← module.analyze
  let folds ← keyFolds.mapM fun (alloc,collection) => do
    let accesses ← module.assocAccesses alloc
    return (module.foldedAlloc collection).map fun folded => ⟨alloc,folded,accesses⟩
  return folds.reduceOption

end Module

def Inst.isSequence : Inst → Bool
  | allocateSequence _ => true
  | _ => false

def indexAccesses (folds : List Fold) : List (Location × Inst) :=
  (folds.filter (·.folded.isSequence)).flatMap (·.accesses)

def keyAccesses (folds : List Fold) : List (Location × Inst) := folds.flatMap (·.accesses)

namespace Module

def transformInst (module : Module) (folds : List Fold) (location : Location) (inst : Inst) : Inst :=
  match folds.find? fun fold => fold.alloc = location with
  | some fold => fold.folded
  | none => match inst.accessKey.bind module.keySource with
    | none => inst
    | some (_,index) =>
      if (location,inst) ∈ indexAccesses folds then (inst.foldAccess index).getD inst
      else if (location,inst) ∈ keyAccesses folds then inst.setKey index
      else inst

def mapInsts (module : Module) (function : Location → Inst → Inst) : Module :=
  {module with functions := module.functions.mapIdx fun f fn => {fn with
    blocks := fn.blocks.mapIdx fun b block => {block with
      insts := block.insts.mapIdx fun i inst => function ⟨f,b,i⟩ inst}}}

/-- A function that the module does not declare ends the compiler. -/
def transform (module : Module) : Option Module := do
  let folds ← module.folds
  if (indexAccesses folds).all fun (_,inst) => inst.suffix.all (· ∈ module.indexFunctions) then
    some (module.mapInsts (module.transformInst folds))
  else none

end Module
end KeyFolding
end Memoir
