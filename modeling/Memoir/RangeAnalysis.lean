import Mathlib.Algebra.Group.Nat.Defs
import Mathlib.Logic.Function.Basic
import Mathlib.Logic.Relation
import Mathlib.Data.List.Basic

/-! Range analysis: the index operands of an SSA function, the ranges that they are assigned, and
the runs on which their values are observed. What NOELLE says of loops is given with a loop. -/
namespace Memoir
namespace RangeAnalysis

inductive Value
  | constantInt (word : Nat)
  /-- Any other constant. -/
  | constant (id : Nat)
  | argument (index : Nat)
  | inst (name : Nat)
  deriving DecidableEq

inductive Inst
  | sequenceAlloc
  | indexRead (object : Value) (indices : List Value)
  | indexWrite (value object : Value) (indices : List Value)
  | indexGet (object : Value) (indices : List Value)
  | usePhi (used : Value)
  | seqInsert (value base point : Value)
  | seqInsertSeq (base inserted point : Value)
  | seqRemove (base beginIndex endIndex : Value)
  | seqSwap (fromCollection toCollection : Value)
  | seqSwapWithin (collection : Value)
  | seqCopy (copied beginIndex endIndex : Value)
  | other

structure BasicBlock where
  phis : List (Nat × List Value)
  body : List (Nat × Inst)
  successors : List Nat

abbrev Function := List BasicBlock

/-- The operands that the analysis collects. -/
def Inst.indexUses : Inst → List Value
  | indexRead _ indices | indexWrite _ _ indices | indexGet _ indices => indices
  | seqInsert _ _ point | seqInsertSeq _ _ point => [point]
  | seqRemove _ beginIndex endIndex | seqCopy _ beginIndex endIndex => [beginIndex,endIndex]
  | sequenceAlloc | usePhi _ | seqSwap _ _ | seqSwapWithin _ | other => []

inductive Expression
  | constantExpression (value : Value)
  | variableExpression (value : Value)
  | argumentExpression (index : Nat)
  | endExpression
  deriving DecidableEq

/-- The range from `lower` to `upper`, without `upper`. -/
structure ValueRange where
  lower : Expression
  upper : Expression
  deriving DecidableEq

def llvmValueToExpr : Value → Expression
  | .constantInt word => .constantExpression (.constantInt word)
  | .constant id => .constantExpression (.constant id)
  | value => .variableExpression value

def overdefinedRange : ValueRange := ⟨.constantExpression (.constantInt 0),.endExpression⟩

inductive Predicate
  | eq | ne | ugt | uge | ult | ule | sgt | sge | slt | sle
  deriving DecidableEq

/-- The step is the value that is added in each iteration; the entry PHI has `bits` bits. -/
structure InductionVariable where
  loopEntryPhi : Nat
  startValue : Option Value
  isStepValuePositive : Bool
  stepValue : Nat
  bits : Nat
  deriving DecidableEq

/-- The header branches on a comparison of an instruction with the exit condition value, and stays
in the loop where the predicate holds. -/
structure LoopGoverningInductionVariable where
  inductionVariable : InductionVariable
  exitConditionValue : Option Value
  predicate : Predicate
  compared : Nat

structure Loop where
  header : Nat
  blocks : List Nat
  loopGoverning : Option LoopGoverningInductionVariable
  /-- The induction variable that an instruction is involved in. -/
  getInductionVariable : Nat → Option InductionVariable

def governingToRange (governing : LoopGoverningInductionVariable) : ValueRange :=
  match governing.inductionVariable.startValue,governing.inductionVariable.isStepValuePositive,
    governing.exitConditionValue with
  | some start,true,some exit => ⟨llvmValueToExpr start,llvmValueToExpr exit⟩
  | _,_,_ => overdefinedRange

def inductionVariableToRange (induction : InductionVariable)
    (governing : LoopGoverningInductionVariable) : ValueRange :=
  if induction = governing.inductionVariable then governingToRange governing else overdefinedRange

def loopToRange (loops : List Loop) (index : Nat) : List (Loop × ValueRange) :=
  loops.filterMap fun loop => do
    let governing ← loop.loopGoverning
    let induction ← loop.getInductionVariable index
    return (loop,inductionVariableToRange induction governing)

/-- The range of a use of an index value in a block, if one is assigned. -/
def analyze (loops : List Loop) (block : Nat) : Value → Option ValueRange
  | .constantInt word =>
    some ⟨.constantExpression (.constantInt word),.constantExpression (.constantInt word)⟩
  | .argument index => some ⟨.argumentExpression index,.argumentExpression index⟩
  | .inst name => (loopToRange loops name).foldl (fun assigned (loop,range) =>
      if block ∈ loop.blocks then some range else assigned) none
  | .constant _ => none

structure Env where
  constants : Nat → Nat
  arguments : Nat → Nat
  insts : Nat → Nat

def Env.value (env : Env) : Value → Nat
  | .constantInt word => word
  | .constant id => env.constants id
  | .argument index => env.arguments index
  | .inst name => env.insts name

def Env.bound (env : Env) : Expression → Option Nat
  | .constantExpression value | .variableExpression value => some (env.value value)
  | .argumentExpression index => some (env.arguments index)
  | .endExpression => none

def ValueRange.Contains (range : ValueRange) (env : Env) (word : Nat) : Prop :=
  (∀ lower ∈ env.bound range.lower, lower ≤ word) ∧ ∀ upper ∈ env.bound range.upper, word < upper

structure Config where
  block : Nat
  index : Nat
  env : Env

def Env.set (env : Env) (name word : Nat) : Env :=
  {env with insts := Function.update env.insts name word}

def BasicBlock.names (block : BasicBlock) : List Nat := block.phis.map Prod.fst ++ block.body.map Prod.fst

/-- A step of an SSA function, whatever the values that it defines: an instruction defines its
name, an edge the PHI nodes of its target. -/
inductive Step (function : Function) : Config → Config → Prop
  | inst {block index : Nat} {env : Env} {basicBlock : BasicBlock} {name : Nat} {inst : Inst}
    (word : Nat) : function[block]? = some basicBlock → basicBlock.body[index]? = some (name,inst) →
    Step function ⟨block,index,env⟩ ⟨block,index + 1,env.set name word⟩
  | edge {source target : Nat} {env : Env} {basicBlock targetBlock : BasicBlock} {insts : Nat → Nat} :
    function[source]? = some basicBlock → target ∈ basicBlock.successors →
    function[target]? = some targetBlock →
    (∀ name, name ∉ targetBlock.phis.map Prod.fst → insts name = env.insts name) →
    Step function ⟨source,basicBlock.body.length,env⟩ ⟨target,0,{env with insts}⟩

def Config.indexUses (function : Function) (config : Config) : List Value :=
  (((function[config.block]?).bind fun block => block.body[config.index]?).map fun (_,inst) =>
    inst.indexUses).getD []

def InRange (function : Function) (loops : List Loop) (config : Config) : Prop :=
  ∀ index ∈ config.indexUses function, ∀ range ∈ analyze loops config.block index,
    range.Contains config.env (config.env.value index)

def Sound (function : Function) (loops : List Loop) (step : Config → Config → Prop) : Prop :=
  ∀ env config, Relation.ReflTransGen step ⟨0,0,env⟩ config → InRange function loops config

def negative (bits word : Nat) : Prop := 2 ^ (bits - 1) ≤ word

instance (bits word : Nat) : Decidable (negative bits word) :=
  inferInstanceAs (Decidable (2 ^ (bits - 1) ≤ word))

def signedLess (bits first second : Nat) : Prop :=
  negative bits first ∧ ¬ negative bits second ∨
    (negative bits first ↔ negative bits second) ∧ first < second

instance (bits first second : Nat) : Decidable (signedLess bits first second) :=
  inferInstanceAs (Decidable (_ ∨ _))

def Predicate.holds (bits first second : Nat) : Predicate → Bool
  | eq => first = second
  | ne => first ≠ second
  | ugt => second < first
  | uge => second ≤ first
  | ult => first < second
  | ule => first ≤ second
  | sgt => signedLess bits second first
  | sge => ¬ signedLess bits first second
  | slt => signedLess bits first second
  | sle => ¬ signedLess bits second first

def DefinedIn (function : Function) (block : Nat) (value : Value) : Prop :=
  ∃ name basicBlock, value = .inst name ∧ function[block]? = some basicBlock ∧ name ∈ basicBlock.names

structure Facts (function : Function) (step : Config → Config → Prop) (loop : Loop)
    (governing : LoopGoverningInductionVariable) (start exit : Value) : Prop where
  outside : 0 ∉ loop.blocks
  /-- Loops are entered through their headers. -/
  entered : ∀ before after, step before after → before.block ∉ loop.blocks →
    after.block ∈ loop.blocks → after.block = loop.header
  phi_header : ∀ block, DefinedIn function block (.inst governing.inductionVariable.loopEntryPhi) →
    block = loop.header
  phi_edge : ∀ basicBlock, function[loop.header]? = some basicBlock →
    governing.inductionVariable.loopEntryPhi ∉ basicBlock.body.map Prod.fst
  start_outside : ∀ block ∈ loop.blocks, ¬ DefinedIn function block start
  exit_above : ∀ block ∈ loop.blocks, block ≠ loop.header → ¬ DefinedIn function block exit
  compared_above : ∀ block ∈ loop.blocks, block ≠ loop.header →
    ¬ DefinedIn function block (.inst governing.compared)
  starts : ∀ before after, step before after → before.block ∉ loop.blocks →
    after.block ∈ loop.blocks →
    after.env.insts governing.inductionVariable.loopEntryPhi = after.env.value start
  steps : ∀ before after, step before after → before.block ∈ loop.blocks →
    after.block = loop.header → after.index = 0 →
    after.env.insts governing.inductionVariable.loopEntryPhi =
      (before.env.insts governing.inductionVariable.loopEntryPhi +
        governing.inductionVariable.stepValue) % 2 ^ governing.inductionVariable.bits
  positive : governing.inductionVariable.isStepValuePositive = true →
    0 < governing.inductionVariable.stepValue ∧
      governing.inductionVariable.stepValue < 2 ^ (governing.inductionVariable.bits - 1)
  stays : ∀ before after, step before after → before.block = loop.header →
    after.block ∈ loop.blocks → after.index = 0 →
    governing.predicate.holds governing.inductionVariable.bits
      (before.env.insts governing.compared) (before.env.value exit) = true

/-- A loop with the start and exit values of its governing induction variable. -/
def Governed (loops : List Loop) (loop : Loop) (governing : LoopGoverningInductionVariable)
    (start exit : Value) : Prop :=
  loop ∈ loops ∧ loop.loopGoverning = some governing ∧
    governing.inductionVariable.startValue = some start ∧
    governing.inductionVariable.isStepValuePositive = true ∧
    governing.exitConditionValue = some exit

end RangeAnalysis
end Memoir
