import Mathlib.Data.List.Basic
import Mathlib.Data.List.Count

/-! The elimination of dead collections. What has no uses is deleted, and every assertion of a type
with the type that only it uses, whatever that is. -/
namespace Memoir
namespace DeadCollectionElimination

/-- An instruction by its number among all of the module, an argument, or a constant. -/
inductive Value
  | inst (id : Nat)
  | argument (id : Nat)
  | constant (id : Nat)
  deriving DecidableEq

inductive Inst
  | alloc (operands : List Value)
  | insert (operands : List Value)
  | remove (operands : List Value)
  | copy (operands : List Value)
  | swap (operands : List Value)
  | view (operands : List Value)
  | defineStructType (name : String) (operands : List Value)
  | structType (name : String) (operands : List Value)
  | typeInst (operands : List Value)
  | assertStructType (type strct : Value)
  | assertCollectionType (type collection : Value)
  | returnType (type : Value)
  | other (operands : List Value)

def Inst.operands : Inst → List Value
  | .alloc operands | .insert operands | .remove operands | .copy operands | .swap operands
  | .view operands | .defineStructType _ operands | .structType _ operands | .typeInst operands
  | .other operands => operands
  | .assertStructType type object | .assertCollectionType type object => [type,object]
  | .returnType type => [type]

def Inst.typeOperand : Inst → Option Value
  | .assertStructType type _ | .assertCollectionType type _ | .returnType type => some type
  | _ => none

/-- The instructions of all functions in order, and the uses of constants that are in no instruction. -/
structure Module where
  insts : List Inst
  constantUses : Nat → Nat

namespace Module

def outsideUses (module : Module) : Value → Nat
  | .constant id => module.constantUses id
  | _ => 0

def numUses (module : Module) (value : Value) : Nat :=
  (module.insts.flatMap Inst.operands).count value + module.outsideUses value

def unused (module : Module) (id : Nat) : List Value :=
  if module.numUses (.inst id) = 0 then [.inst id] else []

/-- An assertion is dead, and its type if this is its only use. -/
def asserted (module : Module) (id : Nat) (type : Value) : List Value :=
  .inst id :: if module.numUses type = 1 then [type] else []

def visit (module : Module) (id : Nat) : Inst → List Value
  | .alloc _ | .insert _ | .remove _ | .copy _ | .swap _ | .view _ => module.unused id
  | .defineStructType _ _ => []
  | .structType _ _ | .typeInst _ => module.unused id
  | .assertStructType type _ => module.asserted id type
  | .assertCollectionType type _ => module.asserted id type
  | .returnType type => module.asserted id type
  | .other _ => []

def analyze (module : Module) : List Value :=
  module.insts.zipIdx.flatMap fun (inst,id) => module.visit id inst

/-- The instructions that are left, by their numbers. The dead values are deleted, instructions after
they have dropped their operands. -/
def remaining (module : Module) : List (Inst × Nat) :=
  module.insts.zipIdx.filter fun (_,id) => .inst id ∉ module.analyze

def ResultsUnused (module : Module) : Prop :=
  ∀ entry ∈ module.insts.zipIdx,entry.1.typeOperand ≠ none → module.numUses (.inst entry.2) = 0

instance (module : Module) : Decidable module.ResultsUnused :=
  inferInstanceAs (Decidable (∀ entry ∈ module.insts.zipIdx,entry.1.typeOperand ≠ none →
    module.numUses (.inst entry.2) = 0))

/-- Nothing that is left uses a deleted value, only instructions are deleted, and no definition of a
struct type that is still referred to by its name. -/
structure LeavesSound (module : Module) : Prop where
  uses : ∀ inst id,(inst,id) ∈ module.remaining → ∀ operand ∈ inst.operands,operand ∉ module.analyze
  insts : ∀ value ∈ module.analyze,∃ id,value = .inst id
  definitions : ∀ id name operands,module.insts[id]? = some (.defineStructType name operands) →
    .inst id ∈ module.analyze → ∀ other operands',(.structType name operands',other) ∉ module.remaining

/-- A type that only one assertion uses is an instruction; and if it defines a struct type, the struct
types of that name are not used, or by one assertion only. -/
structure OwnTypes (module : Module) : Prop where
  insts : ∀ inst ∈ module.insts,∀ type,inst.typeOperand = some type → module.numUses type = 1 →
    ∃ id,type = .inst id
  definitions : ∀ inst ∈ module.insts,∀ id,inst.typeOperand = some (.inst id) →
    module.numUses (.inst id) = 1 → ∀ name operands,
      module.insts[id]? = some (.defineStructType name operands) →
      ∀ other operands',module.insts[other]? = some (.structType name operands') →
        module.numUses (.inst other) = 0 ∨ module.numUses (.inst other) = 1 ∧
          ∃ inst' ∈ module.insts,inst'.typeOperand = some (.inst other)

end Module

section
variable {module : Module} {value : Value} {inst : Inst} {id : Nat}

theorem typeOperand_mem {type : Value} (is : inst.typeOperand = some type) : type ∈ inst.operands := by
  cases inst <;> simp_all [Inst.typeOperand,Inst.operands]

def Inst.removable : Inst → Bool
  | .alloc _ | .insert _ | .remove _ | .copy _ | .swap _ | .view _ | .structType _ _ | .typeInst _ => true
  | _ => false

theorem mem_unused : value ∈ module.unused id ↔ value = .inst id ∧ module.numUses (.inst id) = 0 := by
  rw [Module.unused]
  split_ifs with none <;> simp [none]

theorem mem_asserted {type : Value} : value ∈ module.asserted id type ↔
    value = .inst id ∨ value = type ∧ module.numUses type = 1 := by
  rw [Module.asserted]
  split_ifs with one <;> simp [one]

theorem mem_visit : value ∈ module.visit id inst ↔
    value = .inst id ∧ (inst.typeOperand ≠ none ∨ inst.removable ∧ module.numUses (.inst id) = 0) ∨
      inst.typeOperand = some value ∧ module.numUses value = 1 := by
  cases inst <;>
    simp only [Module.visit,mem_unused,mem_asserted,Inst.typeOperand,Inst.removable] <;>
    grind

/-- What a value is dead for. -/
theorem mem_analyze : value ∈ module.analyze ↔
    (∃ id inst,value = .inst id ∧ module.insts[id]? = some inst ∧
      (inst.typeOperand ≠ none ∨ inst.removable ∧ module.numUses value = 0)) ∨
    ∃ inst ∈ module.insts,inst.typeOperand = some value ∧ module.numUses value = 1 := by
  rw [Module.analyze,List.mem_flatMap]
  constructor
  · rintro ⟨⟨inst,id⟩,mem,dead⟩
    have found := List.mk_mem_zipIdx_iff_getElem?.mp mem
    rcases mem_visit.mp dead with ⟨rfl,why⟩ | ⟨isType,one⟩
    · exact .inl ⟨id,inst,rfl,found,why⟩
    · exact .inr ⟨inst,List.mem_of_getElem? found,isType,one⟩
  · rintro (⟨id,inst,rfl,found,why⟩ | ⟨inst,mem,isType,one⟩)
    · exact ⟨(inst,id),List.mk_mem_zipIdx_iff_getElem?.mpr found,mem_visit.mpr (.inl ⟨rfl,why⟩)⟩
    · obtain ⟨id,found⟩ := List.getElem?_of_mem mem
      exact ⟨(inst,id),List.mk_mem_zipIdx_iff_getElem?.mpr found,mem_visit.mpr (.inr ⟨isType,one⟩)⟩

theorem mem_remaining : (inst,id) ∈ module.remaining ↔
    module.insts[id]? = some inst ∧ .inst id ∉ module.analyze := by
  rw [Module.remaining,List.mem_filter,List.mk_mem_zipIdx_iff_getElem?]
  simp

theorem numUses_pos {operand : Value} (mem : inst ∈ module.insts) (uses : operand ∈ inst.operands) :
    0 < module.numUses operand := by
  have counted := List.count_pos_iff.mpr (List.mem_flatMap.mpr ⟨inst,mem,uses⟩)
  rw [Module.numUses]
  omega

/-- Two instructions that use a value are two uses. -/
theorem two_le_count {insts : List Inst} {first second : Inst} {i j : Nat} (isFirst : insts[i]? = some first)
    (isSecond : insts[j]? = some second) (before : i < j) (usesFirst : value ∈ first.operands)
    (usesSecond : value ∈ second.operands) : 2 ≤ (insts.flatMap Inst.operands).count value := by
  induction insts generalizing i j with
  | nil => exact absurd isFirst (by simp)
  | cons inst insts ih =>
    obtain ⟨j,rfl⟩ : ∃ j',j = j' + 1 := ⟨j - 1,by omega⟩
    rw [List.getElem?_cons_succ] at isSecond
    rw [List.flatMap_cons,List.count_append]
    cases i with
    | zero =>
      rw [List.getElem?_cons_zero,Option.some.injEq] at isFirst
      have one := List.count_pos_iff.mpr (isFirst ▸ usesFirst)
      have other := List.count_pos_iff.mpr
        (List.mem_flatMap.mpr ⟨second,List.mem_of_getElem? isSecond,usesSecond⟩)
      omega
    | succ i =>
      rw [List.getElem?_cons_succ] at isFirst
      exact Nat.le_add_left_of_le (ih isFirst isSecond (by omega))

theorem same_of_one_use {first second : Inst} {i j : Nat} (isFirst : module.insts[i]? = some first)
    (isSecond : module.insts[j]? = some second) (usesFirst : value ∈ first.operands)
    (usesSecond : value ∈ second.operands) (one : module.numUses value = 1) : i = j := by
  rw [Module.numUses] at one
  by_contra other
  rcases Nat.lt_or_gt_of_ne other with before | after
  · have two := two_le_count isFirst isSecond before usesFirst usesSecond
    omega
  · have two := two_le_count isSecond isFirst after usesSecond usesFirst
    omega

/-- Nothing that is left uses what is deleted: a dead value is used by nothing, or by an assertion that
is dead itself. -/
theorem remaining_uses (resultsUnused : module.ResultsUnused) (left : (inst,id) ∈ module.remaining)
    {operand : Value} (uses : operand ∈ inst.operands) : operand ∉ module.analyze := by
  obtain ⟨found,alive⟩ := mem_remaining.mp left
  have used := numUses_pos (List.mem_of_getElem? found) uses
  intro dead
  rcases mem_analyze.mp dead with ⟨id',inst',rfl,found',asserts | ⟨_,none⟩⟩ | ⟨inst',mem,isType,one⟩
  · have none : module.numUses (.inst id') = 0 :=
      resultsUnused _ (List.mk_mem_zipIdx_iff_getElem?.mpr found') asserts
    omega
  · omega
  · obtain ⟨id',found'⟩ := List.getElem?_of_mem mem
    obtain rfl := same_of_one_use found found' uses (typeOperand_mem isType) one
    obtain rfl := Option.some.inj (found.symm.trans found')
    exact alive (mem_analyze.mpr (.inl ⟨id,inst,rfl,found,.inl (by simp [isType])⟩))

/-- Where the results of assertions are not used, the module that is left is sound just when the types
that only one assertion uses are its own. -/
theorem leavesSound_iff (module : Module) (resultsUnused : module.ResultsUnused) :
    module.LeavesSound ↔ module.OwnTypes := by
  constructor
  · intro sound
    refine ⟨?_,?_⟩
    · intro inst mem type isType one
      exact sound.insts type (mem_analyze.mpr (.inr ⟨inst,mem,isType,one⟩))
    · intro inst mem id isType one name operands isDefinition other operands' isOther
      have deleted := mem_analyze.mpr (.inr ⟨inst,mem,isType,one⟩)
      have dead : .inst other ∈ module.analyze := by
        by_contra alive
        exact sound.definitions id name operands isDefinition deleted other operands'
          (mem_remaining.mpr ⟨isOther,alive⟩)
      rcases mem_analyze.mp dead with ⟨_,inst',same,found,why⟩ | ⟨inst',mem',isType',one'⟩
      · obtain rfl := Value.inst.inj same
        obtain rfl := Option.some.inj (isOther.symm.trans found)
        rcases why with asserts | ⟨_,none⟩
        · exact absurd rfl asserts
        · exact .inl none
      · exact .inr ⟨one',inst',mem',isType'⟩
  · intro own
    refine ⟨fun inst id left operand uses => remaining_uses resultsUnused left uses,?_,?_⟩
    · intro value dead
      rcases mem_analyze.mp dead with ⟨id,_,is,_⟩ | ⟨inst,mem,isType,one⟩
      · exact ⟨id,is⟩
      · exact own.insts inst mem value isType one
    · intro id name operands isDefinition deleted other operands' left
      obtain ⟨isOther,alive⟩ := mem_remaining.mp left
      apply alive
      rcases mem_analyze.mp deleted with ⟨_,inst,same,found,why⟩ | ⟨inst,mem,isType,one⟩
      · obtain rfl := Value.inst.inj same
        obtain rfl := Option.some.inj (isDefinition.symm.trans found)
        rcases why with asserts | ⟨removable,_⟩
        · exact absurd rfl asserts
        · exact absurd removable (by simp [Inst.removable])
      · rcases own.definitions inst mem id isType one name operands isDefinition other operands' isOther
          with none | ⟨one',inst',mem',isType'⟩
        · exact mem_analyze.mpr (.inl ⟨other,_,rfl,isOther,.inr ⟨rfl,none⟩⟩)
        · exact mem_analyze.mpr (.inr ⟨inst',mem',isType',one'⟩)

/-- A struct type is defined and its definition asserted of an argument; an allocation of it, which is
returned, refers to it by its name. -/
def definedForAssertion : Module where
  insts := [.defineStructType "Foo" [.constant 0,.constant 1],
    .assertStructType (.inst 0) (.argument 0),
    .structType "Foo" [.constant 0],.alloc [.inst 2],.other [.inst 3]]
  constantUses := fun _ => 0

theorem definedForAssertion_sound_iff : definedForAssertion.LeavesSound ↔ definedForAssertion.OwnTypes :=
  leavesSound_iff definedForAssertion (by decide)

/-- The definition is deleted. -/
theorem definedForAssertion_not_sound : definedForAssertion.ResultsUnused ∧
    ¬ definedForAssertion.LeavesSound := by
  refine ⟨by decide,fun sound => ?_⟩
  have left : (.structType "Foo" [.constant 0],2) ∈ definedForAssertion.remaining :=
    mem_remaining.mpr ⟨rfl,by decide⟩
  exact sound.definitions 0 "Foo" _ rfl (by decide) 2 _ left

end
end DeadCollectionElimination
end Memoir
