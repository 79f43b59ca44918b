import Memoir.ValueNumberingSafety

/-! The select that value numbering builds for a PHI of two branches, and the value that the PHI takes. -/
namespace Memoir
namespace ValueNumbering
open Outcomes

def Expression.getCondition (expression : Expression) : Option Nat := expression.arguments[0]?

def Expression.getTrueValue (expression : Expression) : Option Nat := expression.arguments[1]?

def Expression.getFalseValue (expression : Expression) : Option Nat := expression.arguments[2]?

section
variable {Data : Type} (heap : Heap) (truth : Data → Bool) (environment : Value → Data)

/-- A live expression of a value has the data of the value when the block of the PHI is entered. A select
that is an argument of itself has the data that the PHI had before. -/
def Denotes (id : Nat) (result : Data) : Prop :=
  heap.Live id ∧ ∃ value,heap.table value = some id ∧ environment value = result

def Expression.Chooses (expression : Expression) (result : Data) : Prop :=
  ∃ condition data,expression.getCondition = some condition ∧ Denotes heap environment condition data ∧
    ∃ chosen,(if truth data then expression.getTrueValue else expression.getFalseValue) = some chosen ∧
      Denotes heap environment chosen result

/-- A deleted select has no value. -/
def Evaluates (id : Nat) (result : Data) : Prop :=
  heap.Live id ∧ ∃ expression,heap.expressions[id]? = some expression ∧ expression.kind = .select ∧
    expression.Chooses heap truth environment result

def entered (ifCondition : IfCondition) : Nat :=
  if truth (environment ifCondition.condition) then ifCondition.ifBlock else ifCondition.elseBlock

def takes (incoming : List (Value × Nat)) (block : Nat) : Option Data :=
  (incoming.find? fun edge => edge.2 = block).map fun edge => environment edge.1

end

def SelectsRight (heap : Heap) (phi : Value) (incoming : List (Value × Nat)) (ifCondition : IfCondition) :
    Prop :=
  ∃ id,heap.table phi = some id ∧
    ∀ (Data : Type) (truth : Data → Bool) (environment : Value → Data) (result : Data),
      Evaluates heap truth environment id result ↔
        takes environment incoming (entered truth environment ifCondition) = some result

def Module.Visited (module : Module) (values : List Value) (value : Value) : Prop :=
  ∃ query ∈ values,Relation.ReflTransGen module.Visits query value

structure IfJoin (incoming : List (Value × Nat)) (ifCondition : IfCondition) : Prop where
  differ : ifCondition.ifBlock ≠ ifCondition.elseBlock
  predecessors : incoming.map Prod.snd = [ifCondition.ifBlock,ifCondition.elseBlock] ∨
    incoming.map Prod.snd = [ifCondition.elseBlock,ifCondition.ifBlock]

section
variable {Data : Type} {module : Module} {opened : List Value} {heap : Heap} {truth : Data → Bool}
  {environment : Value → Data} {value : Value} {id : Nat} {first second : Value × Nat}
  {ifCondition : IfCondition}

theorem IfJoin.takes_true (join : IfJoin [first,second] ifCondition) :
    takes environment [first,second] ifCondition.ifBlock =
      some (environment (trueValue ifCondition first second)) := by
  have differ := join.differ
  rw [takes,trueValue]
  rcases join.predecessors with blocks | blocks
  · have same : first.2 = ifCondition.ifBlock := by simpa using congrArg List.head? blocks
    simp [same]
  · obtain ⟨isFirst,isSecond⟩ : first.2 = ifCondition.elseBlock ∧ second.2 = ifCondition.ifBlock := by
      simpa using blocks
    simp [isFirst,isSecond,differ,differ.symm]

theorem IfJoin.takes_false (join : IfJoin [first,second] ifCondition) :
    takes environment [first,second] ifCondition.elseBlock =
      some (environment (falseValue ifCondition first second)) := by
  have differ := join.differ
  rw [takes,falseValue]
  rcases join.predecessors with blocks | blocks
  · obtain ⟨isFirst,isSecond⟩ : first.2 = ifCondition.ifBlock ∧ second.2 = ifCondition.elseBlock := by
      simpa using blocks
    simp [isFirst,isSecond,differ]
  · obtain ⟨isFirst,isSecond⟩ : first.2 = ifCondition.elseBlock ∧ second.2 = ifCondition.ifBlock := by
      simpa using blocks
    simp [isFirst,isSecond,differ.symm]

/-- The value that is chosen is the one of the predecessor that is taken. -/
theorem IfJoin.takes_entered (join : IfJoin [first,second] ifCondition) :
    takes environment [first,second] (entered truth environment ifCondition) =
      some (environment (if truth (environment ifCondition.condition) then trueValue ifCondition first second
        else falseValue ifCondition first second)) := by
  rw [entered]
  split_ifs
  · exact join.takes_true
  · exact join.takes_false

/-- What is made of a deleted expression has no value where the PHI has one. -/
theorem SelectsRight.live {phi : Value} {incoming : List (Value × Nat)}
    (right : SelectsRight heap phi incoming ifCondition) (found : heap.table phi = some id)
    (selects : Selects heap incoming ifCondition id) (join : IfJoin incoming ifCondition)
    (isPhi : module.kind phi = .phiNode incoming (some ifCondition)) {value : Value}
    (which : value = phi ∨ value ∈ module.operands phi) {other : Nat}
    (isOther : heap.table value = some other) : heap.Live other := by
  obtain ⟨first,second,expression,condition,onTrue,onFalse,rfl,is,_,arguments,isCondition,isTrue,
    isFalse⟩ := selects
  obtain ⟨id',found',evaluates⟩ := right
  obtain rfl := Option.some.inj (found.symm.trans found')
  have chooses : ∀ branch : Bool,heap.Live id ∧ heap.Live condition ∧
      heap.Live (if branch then onTrue else onFalse) := by
    intro branch
    obtain ⟨live,expression',is',_,condition',_,isCondition',⟨liveCondition,_⟩,chosen,isChosen,
      liveChosen,_⟩ := (evaluates Unit (fun _ => branch) (fun _ => ()) ()).mpr join.takes_entered
    obtain rfl := Option.some.inj (is.symm.trans is')
    rw [Expression.getCondition,arguments] at isCondition'
    obtain rfl := Option.some.inj isCondition'
    rw [Expression.getTrueValue,Expression.getFalseValue,arguments] at isChosen
    refine ⟨live,liveCondition,?_⟩
    cases branch with
    | true => exact Option.some.inj isChosen ▸ liveChosen
    | false => exact Option.some.inj isChosen ▸ liveChosen
  obtain ⟨live,liveCondition,liveTrue⟩ := chooses true
  obtain ⟨_,_,liveFalse⟩ := chooses false
  rcases which with rfl | mem
  · exact Option.some.inj (found.symm.trans isOther) ▸ live
  · simp only [Module.operands,isPhi,List.mem_cons,List.mem_filter,List.not_mem_nil,or_false] at mem
    rcases mem with rfl | ⟨rfl | rfl,_⟩
    · exact Option.some.inj (isCondition.symm.trans isOther) ▸ liveCondition
    · exact Option.some.inj (isTrue.symm.trans isOther) ▸ liveTrue
    · exact Option.some.inj (isFalse.symm.trans isOther) ▸ liveFalse

end

end ValueNumbering
end Memoir
