import Memoir.KeyFoldingSpec
import Mathlib.Data.List.ReduceOption

/-! Which operations of a folded associative array the transformation rewrites. The gathering of
accesses follows PHIs and the arguments of calls, and not the writes, the insertions, the removals
and the returns that make versions of the array too. -/
namespace Memoir
namespace KeyFolding

def Inst.previous : Inst → List Value
  | assocWrite _ _ object _ => [object]
  | assocInsert base _ | assocRemove base _ => [base]
  | usePhi used => [used]
  | defPhi defined => [defined]
  | argPhi input | retPhi input => [input]
  | phi incoming => incoming.map Prod.snd
  | _ => []

inductive Derives (module : Module) : Value → Value → Prop
  | result {location : Location} {inst : Inst} {value : Value}
      (there : module.inst? location = some inst) (previous : value ∈ inst.previous) :
      Derives module value (.inst location)
  | passed {location : Location} {callee : Callee} {arguments : List Value} {function index : Nat}
      {value : Value} (there : module.inst? location = some (.call callee arguments))
      (called : function ∈ module.callees callee) (argument : arguments[index]? = some value) :
      Derives module value (.argument function index)
  | returned {location : Location} {callee : Callee} {arguments : List Value} {function : Nat}
      {value : Value} (there : module.inst? location = some (.call callee arguments))
      (called : function ∈ module.callees callee) (returned : value ∈ module.returnedValues function) :
      Derives module value (.inst location)

def Version (module : Module) (alloc : Location) (value : Value) : Prop :=
  Relation.ReflTransGen (Derives module) (.inst alloc) value

def Module.indexed (module : Module) (inst : Inst) : Option Inst := do
  let (_,index) ← inst.accessKey.bind module.keySource
  inst.foldAccess index

namespace Module

variable {module : Module}

variable {folds : List Fold}

end Module

namespace Module

variable {module : Module} {folds : List Fold} {location : Location} {inst : Inst} {version : Value}

end Module

end KeyFolding
end Memoir
