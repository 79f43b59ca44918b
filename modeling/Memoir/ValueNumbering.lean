import Memoir.Outcomes
import Mathlib.Data.List.Basic
import Mathlib.Data.Finset.Card
import Mathlib.Logic.Function.Basic
import Mathlib.Logic.Relation

/-! Value numbering: the expressions that are built for values, when they are deleted, and the select
that is built for a PHI of two branches. -/
namespace Memoir
namespace ValueNumbering
open Outcomes

abbrev Value := Nat

/-- What LLVM gives as the condition of a block that joins two branches. -/
structure IfCondition where
  condition : Value
  ifBlock : Nat
  elseBlock : Nat

inductive Kind
  | argument
  | constant
  | inst (operands : List Value)
  | castInst (operands : List Value)
  | icmpInst (operands : List Value)
  | phiNode (incoming : List (Value × Nat)) (ifCondition : Option IfCondition)
  | llvmCallInst
  | sizeInst (collection : Value)
  | other

/-- A block with a condition has two predecessors. -/
structure Module where
  kinds : List Kind
  joins : ∀ incoming ifCondition,.phiNode incoming (some ifCondition) ∈ kinds → incoming.length = 2

def Module.kind (module : Module) (value : Value) : Kind := module.kinds[value]?.getD .other

inductive ExpressionKind
  | constant
  | argument
  | unknown
  | basic
  | cast
  | icmp
  | phi
  | select
  | call
  | size
  deriving DecidableEq

/-- The arguments and the collection of a size are expressions by their numbers. -/
structure Expression where
  kind : ExpressionKind
  arguments : List Nat
  collection : Option Nat
  deleted : Bool

structure Heap where
  expressions : List Expression
  table : Value → Option Nat

namespace Heap

def empty : Heap := ⟨[],fun _ => none⟩

def allocate (heap : Heap) (kind : ExpressionKind) : Heap :=
  {heap with expressions := heap.expressions ++ [⟨kind,[],none,false⟩]}

def insert (heap : Heap) (value : Value) (id : Nat) : Heap :=
  {heap with table := Function.update heap.table value (some id)}

def modify (heap : Heap) (id : Nat) (change : Expression → Expression) : Heap :=
  {heap with expressions := heap.expressions.modify id change}

def delete (heap : Heap) (id : Nat) : Heap :=
  heap.modify id fun expression => {expression with deleted := true}

def push (heap : Heap) (id argument : Nat) : Heap :=
  heap.modify id fun expression => {expression with arguments := expression.arguments ++ [argument]}

def setCollection (heap : Heap) (id collection : Nat) : Heap :=
  heap.modify id fun expression => {expression with collection := some collection}

end Heap

structure State where
  heap : Heap
  past : List Heap

def State.empty : State := ⟨Heap.empty,[]⟩

def State.change (state : State) (change : Heap → Heap) : State :=
  ⟨change state.heap,state.heap :: state.past⟩

abbrev Numbering (α : Type) := Routine State α

def change (change : Heap → Heap) : Numbering Unit := Routine.update (·.change change)

def new (kind : ExpressionKind) : Numbering Nat := do
  let state ← Routine.read
  change (·.allocate kind)
  return state.heap.expressions.length

/-- An expression is deleted where the value has one. -/
def lookupOrInsert (value : Value) (id : Nat) : Numbering Nat := do
  let state ← Routine.read
  match state.heap.table value with
  | some found => do
    change (·.delete id)
    return found
  | none => do
    change (·.insert value id)
    return id

/-- The expression of a value, or a new one, which is completed after it is inserted. -/
def getOrCreate (value : Value) (kind : ExpressionKind) (complete : Nat → Numbering Unit) :
    Numbering Nat := do
  let state ← Routine.read
  match state.heap.table value with
  | some found => return found
  | none => do
    let id ← new kind
    change (·.insert value id)
    complete id
    return id

def visitTemporary (value : Value) (kind : ExpressionKind) : Numbering Nat := do
  let id ← new kind
  lookupOrInsert value id

section
variable (visit : Value → Numbering Nat)

def visitOperands (id : Nat) : List Value → Numbering Unit
  | [] => return ()
  | operand :: operands => do
    let argument ← visit operand
    change (·.push id argument)
    visitOperands id operands

/-- An operand that is the PHI itself has the new expression. -/
def visitIncoming (phi : Value) (id : Nat) (operand : Value) : Numbering Nat :=
  if operand = phi then return id else visit operand

def trueIndex (ifCondition : IfCondition) (first : Nat) : Nat :=
  if ifCondition.ifBlock = first then 0 else 1

def falseIndex (ifCondition : IfCondition) (second : Nat) : Nat :=
  if ifCondition.elseBlock = second then 1 else 0

def visitInstruction (value : Value) (operands : List Value) : Numbering Nat :=
  getOrCreate value .basic fun id => visitOperands visit id operands

def visitCastInst (value : Value) (operands : List Value) : Numbering Nat :=
  getOrCreate value .cast fun id => visitOperands visit id operands

def visitICmpInst (value : Value) (operands : List Value) : Numbering Nat :=
  getOrCreate value .icmp fun id => visitOperands visit id operands

def selectOperands (phi : Value) (incoming : List (Value × Nat)) (ifCondition : IfCondition) (id : Nat) :
    Numbering Unit := do
  let condition ← visit ifCondition.condition
  let (_,first) ← Routine.require incoming[0]?
  let (_,second) ← Routine.require incoming[1]?
  let (trueValue,_) ← Routine.require incoming[trueIndex ifCondition first]?
  let trueExpression ← visitIncoming visit phi id trueValue
  let (falseValue,_) ← Routine.require incoming[falseIndex ifCondition second]?
  let falseExpression ← visitIncoming visit phi id falseValue
  change (·.push id condition)
  change (·.push id trueExpression)
  change (·.push id falseExpression)

def visitPHINode (value : Value) (incoming : List (Value × Nat)) (ifCondition : Option IfCondition) :
    Numbering Nat :=
  match ifCondition with
  | some ifCondition => getOrCreate value .select (selectOperands visit value incoming ifCondition)
  | none => getOrCreate value .phi fun id =>
    visitOperands (visitIncoming visit value id) id (incoming.map Prod.fst)

def visitLLVMCallInst (value : Value) : Numbering Nat :=
  getOrCreate value .call fun _ => return ()

def sizeCollection (collection : Value) (id : Nat) : Numbering Unit := do
  let visited ← visit collection
  let found ← lookupOrInsert collection visited
  change (·.setCollection id found)

def visitSizeInst (value collection : Value) : Numbering Nat :=
  getOrCreate value .size (sizeCollection visit collection)

end

/-- The rounds bound the depth of the recursion. -/
def visitValue (module : Module) : Nat → Value → Numbering Nat
  | 0,_ => Routine.exhaust
  | rounds + 1,value =>
    match module.kind value with
    | .argument => visitTemporary value .argument
    | .constant => visitTemporary value .constant
    | .inst operands => visitInstruction (visitValue module rounds) value operands
    | .castInst operands => visitCastInst (visitValue module rounds) value operands
    | .icmpInst operands => visitICmpInst (visitValue module rounds) value operands
    | .phiNode incoming ifCondition => visitPHINode (visitValue module rounds) value incoming ifCondition
    | .llvmCallInst => visitLLVMCallInst value
    | .sizeInst collection => visitSizeInst (visitValue module rounds) value collection
    | .other => visitTemporary value .unknown

def get (module : Module) (rounds : Nat) (value : Value) : Numbering Nat := do
  let state ← Routine.read
  match state.heap.table value with
  | some found => return found
  | none => visitValue module rounds value

def gets (module : Module) (rounds : Nat) (values : List Value) : Outcomes.Outcome State (List Nat) :=
  Routine.each (get module rounds) values State.empty

def Heap.References (heap : Heap) (id other : Nat) : Prop :=
  ∃ expression,heap.expressions[id]? = some expression ∧
    (other ∈ expression.arguments ∨ expression.collection = some other)

def Heap.Alive (heap : Heap) (id : Nat) : Prop :=
  ∃ expression,heap.expressions[id]? = some expression ∧ expression.deleted = false

def Heap.Live (heap : Heap) (id : Nat) : Prop :=
  ∀ other,Relation.ReflTransGen heap.References id other → heap.Alive other

def Heap.Safe (heap : Heap) : Prop := ∀ value id,heap.table value = some id → heap.Live id

def State.AlwaysSafe (state : State) : Prop :=
  ∀ heap ∈ state.heap :: state.past,heap.Safe

def Module.operands (module : Module) (value : Value) : List Value :=
  match module.kind value with
  | .inst operands | .castInst operands | .icmpInst operands => operands
  | .phiNode incoming none => (incoming.map Prod.fst).filter (· ≠ value)
  | .phiNode [(firstValue,first),(secondValue,second)] (some ifCondition) =>
    ifCondition.condition :: [if ifCondition.ifBlock = first then firstValue else secondValue,
      if ifCondition.elseBlock = second then secondValue else firstValue].filter (· ≠ value)
  | .sizeInst collection => [collection]
  | _ => []

def Module.Visits (module : Module) (value operand : Value) : Prop := operand ∈ module.operands value

def Kind.isSize : Kind → Bool
  | .sizeInst _ => true
  | _ => false

section Heaps
variable {before heap after : Heap} {value : Value} {id : Nat} {expression : Expression}

@[simp] theorem allocate_table (kind : ExpressionKind) : (heap.allocate kind).table = heap.table := rfl

@[simp] theorem modify_table (change : Expression → Expression) :
    (heap.modify id change).table = heap.table := rfl

@[simp] theorem insert_expressions : (heap.insert value id).expressions = heap.expressions := rfl

theorem insert_table (other : Value) :
    (heap.insert value id).table other = if other = value then some id else heap.table other := by
  exact Function.update_apply ..

theorem allocate_expressions (kind : ExpressionKind) :
    (heap.allocate kind).expressions[id]? =
      if id = heap.expressions.length then some ⟨kind,[],none,false⟩ else heap.expressions[id]? := by
  rw [Heap.allocate]
  rcases Nat.lt_trichotomy id heap.expressions.length with below | same | above
  · rw [List.getElem?_append_left below,if_neg (by omega)]
  · rw [if_pos same,same,List.getElem?_concat_length]
  · rw [if_neg (Nat.ne_of_gt above),List.getElem?_eq_none (Nat.le_of_lt above),List.getElem?_eq_none]
    rw [List.length_append]
    exact above

theorem modify_expressions (change : Expression → Expression) (other : Nat) :
    (heap.modify id change).expressions[other]? =
      if id = other then heap.expressions[other]?.map change else heap.expressions[other]? := by
  rw [Heap.modify,List.getElem?_modify]
  split_ifs with same <;> simp

theorem modify_length (change : Expression → Expression) :
    (heap.modify id change).expressions.length = heap.expressions.length :=
  List.length_modify ..

theorem allocate_length (kind : ExpressionKind) :
    (heap.allocate kind).expressions.length = heap.expressions.length + 1 := by
  rw [Heap.allocate,List.length_append]
  rfl

structure Keeps (before after : Expression) : Prop where
  kind : after.kind = before.kind
  arguments : after.arguments = before.arguments
  collection : after.collection = before.collection
  deleted : before.deleted = true → after.deleted = true

structure Grows (before after : Heap) : Prop where
  table : ∀ value id,before.table value = some id → after.table value = some id
  expressions : ∀ (id : Nat) (expression : Expression),before.expressions[id]? = some expression →
    ∃ later : Expression,after.expressions[id]? = some later ∧ Keeps expression later

theorem Grows.refl (heap : Heap) : Grows heap heap :=
  ⟨fun _ _ is => is,fun _ expression is => ⟨expression,is,rfl,rfl,rfl,fun deleted => deleted⟩⟩

theorem Grows.trans (first : Grows before heap) (second : Grows heap after) : Grows before after := by
  refine ⟨fun value id is => second.table value id (first.table value id is),?_⟩
  intro id expression is
  obtain ⟨middle,isMiddle,keeps⟩ := first.expressions id expression is
  obtain ⟨later,isLater,keeps'⟩ := second.expressions id middle isMiddle
  exact ⟨later,isLater,keeps'.kind.trans keeps.kind,keeps'.arguments.trans keeps.arguments,
    keeps'.collection.trans keeps.collection,fun deleted => keeps'.deleted (keeps.deleted deleted)⟩

theorem Grows.allocate (grows : Grows before heap) (kind : ExpressionKind) :
    Grows before (heap.allocate kind) := by
  have step : Grows heap (heap.allocate kind) := by
    refine ⟨fun _ _ is => is,?_⟩
    intro id expression is
    have below := (List.getElem?_eq_some_iff.mp is).1
    exact ⟨expression,by rw [allocate_expressions,if_neg (by omega),is],rfl,rfl,rfl,
      fun deleted => deleted⟩
  exact grows.trans step

theorem Grows.insert (grows : Grows before heap) (fresh : before.table value = none) :
    Grows before (heap.insert value id) := by
  refine ⟨?_,grows.expressions⟩
  intro other id' is
  rw [insert_table,if_neg (by rintro rfl; exact absurd is (by simp [fresh]))]
  exact grows.table other id' is

theorem Grows.delete (grows : Grows before heap) (id : Nat) : Grows before (heap.delete id) := by
  have step : Grows heap (heap.delete id) := by
    refine ⟨fun _ _ is => is,?_⟩
    intro other expression is
    rw [Heap.delete,modify_expressions]
    split_ifs
    · exact ⟨{expression with deleted := true},by rw [is]; rfl,rfl,rfl,rfl,fun _ => rfl⟩
    · exact ⟨expression,is,rfl,rfl,rfl,fun deleted => deleted⟩
  exact grows.trans step

/-- The expressions that are new may change. -/
theorem Grows.modify (grows : Grows before heap) (fresh : before.expressions.length ≤ id)
    (change : Expression → Expression) : Grows before (heap.modify id change) := by
  refine ⟨grows.table,fun other expression is => ?_⟩
  have below := (List.getElem?_eq_some_iff.mp is).1
  rw [modify_expressions,if_neg (by omega)]
  exact grows.expressions other expression is

end Heaps

end ValueNumbering
end Memoir
