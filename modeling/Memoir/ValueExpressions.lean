import Mathlib.Data.List.Basic

/-! Where the value of an expression is available, and what is built there for it. Availability and
materialization are two recursions, which disagree about instructions that cannot be rebuilt. -/
namespace Memoir
namespace ValueExpressions

inductive Opcode
  | unary (op : Nat)
  | binary (op : Nat)
  | other (op : Nat)

/-- Expressions, some of instructions. The constructors leave the member that records a version of the
function as memory has it: it may be versioned, that is, not null. -/
inductive Expression
  | constantExpression (versioned : Bool) (constant : Nat)
  | argumentExpression (versioned : Bool) (function index : Nat)
  | variableExpression (versioned : Bool) (value : Nat)
  | unknownExpression (versioned : Bool)
  | basicExpression (versioned : Bool) (inst : Option Nat) (opcode : Opcode) (arguments : List Expression)
  | castExpression (versioned : Bool) (inst : Option Nat) (opcode destType : Nat)
      (arguments : List Expression)
  | icmpExpression (versioned : Bool) (inst : Option Nat) (predicate : Nat) (arguments : List Expression)
  | phiExpression (versioned : Bool) (inst : Option Nat) (arguments : List Expression)
  | selectExpression (versioned : Bool) (inst : Option Nat) (arguments : List Expression)
  | callExpression (versioned : Bool) (inst : Option Nat) (arguments : List Expression)
  | sizeExpression (versioned : Bool) (collection : Expression)
  | emptySizeExpression (versioned : Bool)
  | endExpression (versioned : Bool)

/-- An insertion point: its function, which instructions dominate it if dominators are given, and which
instructions have side effects. -/
structure Point where
  function : Nat
  dominates : Option (Nat → Bool)
  sideEffects : Nat → Bool

def Point.forwarded (point : Point) (inst : Option Nat) : Option Nat :=
  match inst,point.dominates with
  | some inst,some dominates => if dominates inst then some inst else none
  | _,_ => none

def Point.mayHaveSideEffects (point : Point) : Option Nat → Bool
  | some inst => point.sideEffects inst
  | none => false

mutual

/-- Without a calling context. -/
def isAvailable (point : Point) : Expression → Bool
  | .constantExpression _ _ => true
  | .argumentExpression _ function _ => function = point.function
  | .variableExpression _ _ | .unknownExpression _ | .emptySizeExpression _ | .endExpression _ => false
  | .basicExpression _ inst _ arguments | .castExpression _ inst _ _ arguments
  | .icmpExpression _ inst _ arguments | .phiExpression _ inst arguments
  | .selectExpression _ inst arguments | .callExpression _ inst arguments =>
    (point.forwarded inst).isSome || !point.mayHaveSideEffects inst && areAvailable point arguments
  | .sizeExpression _ collection => isAvailable point collection

def areAvailable (point : Point) : List Expression → Bool
  | [] => true
  | argument :: arguments => isAvailable point argument && areAvailable point arguments

end

inductive Built
  | constant (constant : Nat)
  | argument (function index : Nat)
  | inst (inst : Nat)
  | unaryOp (op : Nat) (operand : Built)
  | binOp (op : Nat) (lhs rhs : Built)
  | cast (opcode destType : Nat) (operand : Built)
  | icmp (predicate : Nat) (lhs rhs : Built)
  | select (condition trueValue falseValue : Built)
  | size (collection : Built)

/-- A value, null, a failed check, or a run that takes over a pointer that was never set. -/
inductive Materialized (α : Type)
  | value (result : α)
  | null
  | failed
  | undefined

def Materialized.bind {α β : Type} : Materialized α → (α → Materialized β) → Materialized β
  | .value result,next => next result
  | .null,_ => .null
  | .failed,_ => .failed
  | .undefined,_ => .undefined

def Materialized.check {α : Type} : Materialized α → Materialized α
  | .null => .failed
  | other => other

/-- Whether the version that an expression records is not null, once the expression is materialized:
that of a size is the one of its collection. -/
def versioned : Expression → Bool
  | .constantExpression versioned _ | .argumentExpression versioned _ _ | .variableExpression versioned _
  | .unknownExpression versioned | .basicExpression versioned _ _ _ | .castExpression versioned _ _ _ _
  | .icmpExpression versioned _ _ _ | .phiExpression versioned _ _ | .selectExpression versioned _ _
  | .callExpression versioned _ _ | .emptySizeExpression versioned | .endExpression versioned => versioned
  | .sizeExpression _ collection => versioned collection

/-- The call of a version is taken for the calling context of what is materialized next. -/
def unversioned {α : Type} (expression : Expression) (next : Materialized α) : Materialized α :=
  if versioned expression then .undefined else next

def materializeOp (opcode : Opcode) (operands : List Built) : Materialized Built :=
  match opcode,operands with
  | .binary op,lhs :: rhs :: _ => .value (.binOp op lhs rhs)
  | .binary _,_ => .failed
  | .unary op,operand :: _ => .value (.unaryOp op operand)
  | .unary _,_ => .failed
  | .other _,_ => .null

mutual

def materialize (point : Point) : Expression → Materialized Built
  | .constantExpression _ constant => .value (.constant constant)
  | .argumentExpression _ function index =>
    if function = point.function then .value (.argument function index) else .null
  | .variableExpression _ _ | .unknownExpression _ | .emptySizeExpression _ | .endExpression _ => .null
  | .basicExpression _ _ opcode arguments =>
    (materializeOperands point arguments).bind fun operands => materializeOp opcode operands
  | .castExpression _ _ _ _ [] => .failed
  | .castExpression _ _ opcode destType (operand :: _) =>
    (materialize point operand).check.bind fun operand => .value (.cast opcode destType operand)
  | .icmpExpression _ _ _ [] => .failed
  | .icmpExpression _ _ _ [lhs] => (materialize point lhs).check.bind fun _ => .failed
  | .icmpExpression _ _ predicate (lhs :: rhs :: _) =>
    (materialize point lhs).check.bind fun lhs =>
      (materialize point rhs).check.bind fun rhs => .value (.icmp predicate lhs rhs)
  | .phiExpression _ _ _ | .callExpression _ _ _ => .null
  | .selectExpression own inst (condition :: trueValue :: falseValue :: rest) =>
    if isAvailable point (.selectExpression own inst (condition :: trueValue :: falseValue :: rest)) then
      match point.forwarded inst with
      | some inst => .value (.inst inst)
      | none =>
        (materialize point condition).bind fun builtCondition => unversioned condition <|
          (materialize point trueValue).bind fun builtTrue => unversioned trueValue <|
            (materialize point falseValue).bind fun builtFalse =>
              .value (.select builtCondition builtTrue builtFalse)
    else .null
  | .selectExpression own inst arguments =>
    if isAvailable point (.selectExpression own inst arguments) then
      match point.forwarded inst with
      | some inst => .value (.inst inst)
      | none => .failed
    else .null
  | .sizeExpression _ collection =>
    (materialize point collection).bind fun collection => .value (.size collection)

def materializeOperands (point : Point) : List Expression → Materialized (List Built)
  | [] => .value []
  | argument :: arguments =>
    (materialize point argument).check.bind fun operand =>
      (materializeOperands point arguments).bind fun operands => .value (operand :: operands)

end

structure Machine (ω : Type) where
  constant : Nat → ω
  argument : Nat → Nat → ω
  inst : Nat → ω
  unaryOp : Nat → ω → ω
  binOp : Nat → ω → ω → ω
  cast : Nat → Nat → ω → ω
  icmp : Nat → ω → ω → ω
  select : ω → ω → ω → ω
  size : ω → ω

section Values
variable {ω : Type} (machine : Machine ω)

def Built.run : Built → ω
  | .constant id => machine.constant id
  | .argument function index => machine.argument function index
  | .inst id => machine.inst id
  | .unaryOp op operand => machine.unaryOp op operand.run
  | .binOp op lhs rhs => machine.binOp op lhs.run rhs.run
  | .cast opcode destType operand => machine.cast opcode destType operand.run
  | .icmp predicate lhs rhs => machine.icmp predicate lhs.run rhs.run
  | .select condition trueValue falseValue =>
    machine.select condition.run trueValue.run falseValue.run
  | .size collection => machine.size collection.run

mutual

def eval : Expression → Option ω
  | .constantExpression _ constant => some (machine.constant constant)
  | .argumentExpression _ function index => some (machine.argument function index)
  | .variableExpression _ inst => some (machine.inst inst)
  | .basicExpression _ _ (.unary op) arguments =>
    match evalAll arguments with
    | some operand :: _ => some (machine.unaryOp op operand)
    | _ => none
  | .basicExpression _ _ (.binary op) arguments =>
    match evalAll arguments with
    | some lhs :: some rhs :: _ => some (machine.binOp op lhs rhs)
    | _ => none
  | .basicExpression _ inst (.other _) _ => inst.map machine.inst
  | .castExpression _ _ opcode destType arguments =>
    match evalAll arguments with
    | some operand :: _ => some (machine.cast opcode destType operand)
    | _ => none
  | .icmpExpression _ _ predicate arguments =>
    match evalAll arguments with
    | some lhs :: some rhs :: _ => some (machine.icmp predicate lhs rhs)
    | _ => none
  | .phiExpression _ inst _ | .callExpression _ inst _ => inst.map machine.inst
  | .selectExpression _ _ arguments =>
    match evalAll arguments with
    | some condition :: some trueValue :: some falseValue :: _ =>
      some (machine.select condition trueValue falseValue)
    | _ => none
  | .sizeExpression _ collection => (eval collection).map machine.size
  | .unknownExpression _ | .emptySizeExpression _ | .endExpression _ => none

def evalAll : List Expression → List (Option ω)
  | [] => []
  | argument :: arguments => eval argument :: evalAll arguments

end

mutual

def subexpressions : Expression → List Expression
  | .basicExpression own inst opcode arguments =>
    .basicExpression own inst opcode arguments :: allSubexpressions arguments
  | .castExpression own inst opcode destType arguments =>
    .castExpression own inst opcode destType arguments :: allSubexpressions arguments
  | .icmpExpression own inst predicate arguments =>
    .icmpExpression own inst predicate arguments :: allSubexpressions arguments
  | .phiExpression own inst arguments => .phiExpression own inst arguments :: allSubexpressions arguments
  | .selectExpression own inst arguments =>
    .selectExpression own inst arguments :: allSubexpressions arguments
  | .callExpression own inst arguments => .callExpression own inst arguments :: allSubexpressions arguments
  | .sizeExpression own collection => .sizeExpression own collection :: subexpressions collection
  | other => [other]

def allSubexpressions : List Expression → List Expression
  | [] => []
  | argument :: arguments => subexpressions argument ++ allSubexpressions arguments

end

def Describes (point : Point) (expression : Expression) : Prop :=
  ∀ own inst arguments,.selectExpression own (some inst) arguments ∈ subexpressions expression →
    point.forwarded (some inst) = some inst →
      eval machine (.selectExpression own (some inst) arguments) = some (machine.inst inst)

end Values

/-- Where the expression is available, a value is built for it, and it is its value in every run. -/
def Materializes (point : Point) (expression : Expression) : Prop :=
  isAvailable point expression = true → ∃ built,materialize point expression = .value built ∧
    ∀ (ω : Type) (machine : Machine ω),Describes machine point expression →
      eval machine expression = some (built.run machine)

/-- Made of constants, arguments of the function, operators, casts, comparisons, sizes, and selects that
are available, which are an instruction that dominates the point, or have operands that are rebuilt and
no recorded versions. -/
inductive Rebuildable (point : Point) : Expression → Prop
  | constant {own : Bool} {constant : Nat} : Rebuildable point (.constantExpression own constant)
  | argument {own : Bool} {function index : Nat} (same : function = point.function) :
    Rebuildable point (.argumentExpression own function index)
  | unaryOp {own : Bool} {inst : Option Nat} {op : Nat} {operand : Expression} {rest : List Expression}
    (operands : ∀ argument ∈ operand :: rest,Rebuildable point argument) :
    Rebuildable point (.basicExpression own inst (.unary op) (operand :: rest))
  | binOp {own : Bool} {inst : Option Nat} {op : Nat} {lhs rhs : Expression} {rest : List Expression}
    (operands : ∀ argument ∈ lhs :: rhs :: rest,Rebuildable point argument) :
    Rebuildable point (.basicExpression own inst (.binary op) (lhs :: rhs :: rest))
  | cast {own : Bool} {inst : Option Nat} {opcode destType : Nat} {operand : Expression}
    {rest : List Expression} (isOperand : Rebuildable point operand) :
    Rebuildable point (.castExpression own inst opcode destType (operand :: rest))
  | icmp {own : Bool} {inst : Option Nat} {predicate : Nat} {lhs rhs : Expression}
    {rest : List Expression} (isLhs : Rebuildable point lhs) (isRhs : Rebuildable point rhs) :
    Rebuildable point (.icmpExpression own inst predicate (lhs :: rhs :: rest))
  | forwarded {own : Bool} {inst : Nat} {arguments : List Expression}
    (dominates : point.forwarded (some inst) = some inst) :
    Rebuildable point (.selectExpression own (some inst) arguments)
  | select {own : Bool} {inst : Option Nat} {condition trueValue falseValue : Expression}
    {rest : List Expression}
    (available : isAvailable point
      (.selectExpression own inst (condition :: trueValue :: falseValue :: rest)) = true)
    (isCondition : Rebuildable point condition) (isTrue : Rebuildable point trueValue)
    (isFalse : Rebuildable point falseValue) (conditionUnversioned : versioned condition = false)
    (trueUnversioned : versioned trueValue = false) :
    Rebuildable point (.selectExpression own inst (condition :: trueValue :: falseValue :: rest))
  | size {own : Bool} {collection : Expression} (isCollection : Rebuildable point collection) :
    Rebuildable point (.sizeExpression own collection)

section
variable {point : Point} {expression : Expression}

/-- Induction over expressions, with the hypothesis for all arguments. -/
theorem Expression.induction {P : Expression → Prop}
    (constant : ∀ own constant,P (.constantExpression own constant))
    (argument : ∀ own function index,P (.argumentExpression own function index))
    (named : ∀ own id,P (.variableExpression own id))
    (unknown : ∀ own,P (.unknownExpression own))
    (basic : ∀ own inst opcode arguments,(∀ argument ∈ arguments,P argument) →
      P (.basicExpression own inst opcode arguments))
    (cast : ∀ own inst opcode destType arguments,(∀ argument ∈ arguments,P argument) →
      P (.castExpression own inst opcode destType arguments))
    (icmp : ∀ own inst predicate arguments,(∀ argument ∈ arguments,P argument) →
      P (.icmpExpression own inst predicate arguments))
    (phi : ∀ own inst arguments,(∀ argument ∈ arguments,P argument) → P (.phiExpression own inst arguments))
    (select : ∀ own inst arguments,(∀ argument ∈ arguments,P argument) →
      P (.selectExpression own inst arguments))
    (call : ∀ own inst arguments,(∀ argument ∈ arguments,P argument) →
      P (.callExpression own inst arguments))
    (size : ∀ own collection,P collection → P (.sizeExpression own collection))
    (emptySize : ∀ own,P (.emptySizeExpression own)) (atEnd : ∀ own,P (.endExpression own))
    (expression : Expression) : P expression := by
  refine @Expression.rec P (fun arguments => ∀ argument ∈ arguments,P argument) constant argument named
    unknown basic cast icmp phi select call size emptySize atEnd ?_ ?_ expression
  · exact fun _ mem => absurd mem List.not_mem_nil
  · intro head tail isHead isTail argument mem
    rcases List.mem_cons.mp mem with rfl | mem
    · exact isHead
    · exact isTail argument mem

theorem bind_eq_value {α β : Type} {first : Materialized α} {next : α → Materialized β} {result : β} :
    first.bind next = .value result ↔ ∃ middle,first = .value middle ∧ next middle = .value result := by
  cases first <;> simp [Materialized.bind]

theorem check_eq_value {α : Type} {outcome : Materialized α} {result : α} :
    outcome.check = .value result ↔ outcome = .value result := by
  cases outcome <;> simp [Materialized.check]

theorem unversioned_eq_value {α : Type} {next : Materialized α} {result : α} :
    unversioned expression next = .value result ↔ versioned expression = false ∧ next = .value result := by
  rw [unversioned]
  split_ifs with isVersioned <;> simp [isVersioned]

theorem materializeOperands_eq_value {arguments : List Expression} {operands : List Built}
    (built : materializeOperands point arguments = .value operands) :
    ∀ argument ∈ arguments,∃ operand,materialize point argument = .value operand := by
  induction arguments generalizing operands with
  | nil => exact fun _ mem => absurd mem List.not_mem_nil
  | cons first arguments ih =>
    simp only [materializeOperands,bind_eq_value,check_eq_value] at built
    obtain ⟨operand,ofFirst,rest,ofRest,_⟩ := built
    intro argument mem
    rcases List.mem_cons.mp mem with rfl | mem
    · exact ⟨operand,ofFirst⟩
    · exact ih ofRest argument mem

theorem materializeOperands_length {arguments : List Expression} {operands : List Built}
    (built : materializeOperands point arguments = .value operands) :
    operands.length = arguments.length := by
  induction arguments generalizing operands with
  | nil =>
    simp only [materializeOperands,Materialized.value.injEq] at built
    rw [← built]
    rfl
  | cons first arguments ih =>
    simp only [materializeOperands,bind_eq_value,Materialized.value.injEq] at built
    obtain ⟨_,_,rest,ofRest,rfl⟩ := built
    exact congrArg Nat.succ (ih ofRest)

theorem forwarded_eq_some {inst : Option Nat} {forwarded : Nat}
    (is : point.forwarded inst = some forwarded) : inst = some forwarded := by
  cases inst with
  | none => simp [Point.forwarded] at is
  | some inst =>
    cases given : point.dominates with
    | none => simp [Point.forwarded,given] at is
    | some dominates =>
      simp only [Point.forwarded,given] at is
      split_ifs at is
      exact is

theorem rebuildable_select {own : Bool} {inst : Option Nat} {arguments : List Expression} {built : Built}
    (is : materialize point (.selectExpression own inst arguments) = .value built)
    (ih : ∀ argument ∈ arguments,∀ {operand},materialize point argument = .value operand →
      Rebuildable point argument) : Rebuildable point (.selectExpression own inst arguments) := by
  cases forwards : point.forwarded inst with
  | some forwarded =>
    obtain rfl := forwarded_eq_some forwards
    exact .forwarded forwards
  | none =>
    rcases arguments with _ | ⟨condition,_ | ⟨trueValue,_ | ⟨falseValue,rest⟩⟩⟩
    iterate 3
      simp only [materialize,forwards] at is
      split_ifs at is
    · rw [materialize] at is
      split_ifs at is with available
      simp only [forwards,bind_eq_value,unversioned_eq_value] at is
      obtain ⟨_,isCondition,conditionUnversioned,_,isTrue,trueUnversioned,_,isFalse,_⟩ := is
      exact .select available (ih condition (by simp) isCondition) (ih trueValue (by simp) isTrue)
        (ih falseValue (by simp) isFalse) conditionUnversioned trueUnversioned

/-- Only what can be rebuilt is. -/
theorem rebuildable_of_materialize {built : Built} (is : materialize point expression = .value built) :
    Rebuildable point expression := by
  induction expression using Expression.induction generalizing built with
  | constant own constant => exact .constant
  | argument own function index =>
    rw [materialize] at is
    split_ifs at is with same
    exact .argument same
  | named own id | unknown own | phi own inst arguments ih | call own inst arguments ih | emptySize own
  | atEnd own => exact absurd is (by simp [materialize])
  | basic own inst opcode arguments ih =>
    simp only [materialize,bind_eq_value] at is
    obtain ⟨operands,areBuilt,isBuilt⟩ := is
    have rebuildable : ∀ argument ∈ arguments,Rebuildable point argument := by
      intro argument mem
      obtain ⟨operand,isOperand⟩ := materializeOperands_eq_value areBuilt argument mem
      exact ih argument mem isOperand
    have same := materializeOperands_length areBuilt
    cases opcode with
    | other op => exact absurd isBuilt (by simp [materializeOp])
    | unary op =>
      cases arguments with
      | nil =>
        obtain rfl := List.eq_nil_of_length_eq_zero same
        exact absurd isBuilt (by simp [materializeOp])
      | cons operand rest => exact .unaryOp rebuildable
    | binary op =>
      rcases arguments with _ | ⟨lhs,_ | ⟨rhs,rest⟩⟩
      · obtain rfl := List.eq_nil_of_length_eq_zero same
        exact absurd isBuilt (by simp [materializeOp])
      · obtain ⟨operand,rfl⟩ := List.length_eq_one_iff.mp same
        exact absurd isBuilt (by simp [materializeOp])
      · exact .binOp rebuildable
  | cast own inst opcode destType arguments ih =>
    cases arguments with
    | nil => exact absurd is (by simp [materialize])
    | cons operand rest =>
      simp only [materialize,bind_eq_value,check_eq_value] at is
      obtain ⟨_,isOperand,_⟩ := is
      exact .cast (ih operand List.mem_cons_self isOperand)
  | icmp own inst predicate arguments ih =>
    cases arguments with
    | nil => exact absurd is (by simp [materialize])
    | cons lhs rest =>
      cases rest with
      | nil =>
        simp only [materialize,bind_eq_value] at is
        obtain ⟨_,_,failed⟩ := is
        exact absurd failed (by simp)
      | cons rhs rest =>
        simp only [materialize,bind_eq_value,check_eq_value] at is
        obtain ⟨_,isLhs,_,isRhs,_⟩ := is
        exact .icmp (ih lhs List.mem_cons_self isLhs)
          (ih rhs (List.mem_cons_of_mem _ List.mem_cons_self) isRhs)
  | select own inst arguments ih => exact rebuildable_select is ih
  | size own collection ih =>
    simp only [materialize,bind_eq_value] at is
    obtain ⟨_,isCollection,_⟩ := is
    exact .size (ih isCollection)

theorem mem_subexpressions_self (expression : Expression) : expression ∈ subexpressions expression := by
  cases expression <;> simp [subexpressions]

theorem mem_allSubexpressions {arguments : List Expression} {argument inner : Expression}
    (mem : argument ∈ arguments) (inside : inner ∈ subexpressions argument) :
    inner ∈ allSubexpressions arguments := by
  induction arguments with
  | nil => exact absurd mem List.not_mem_nil
  | cons first arguments ih =>
    rw [allSubexpressions,List.mem_append]
    rcases List.mem_cons.mp mem with rfl | mem
    · exact .inl inside
    · exact .inr (ih mem)

/-- A built value, and its value in every run. -/
def Builds (point : Point) (expression : Expression) : Prop :=
  ∃ built,materialize point expression = .value built ∧
    ∀ (ω : Type) (machine : Machine ω),Describes machine point expression →
      eval machine expression = some (built.run machine)

theorem materializeOperands_of_builds {arguments : List Expression}
    (builds : ∀ argument ∈ arguments,Builds point argument) :
    ∃ operands,materializeOperands point arguments = .value operands ∧
      ∀ (ω : Type) (machine : Machine ω),(∀ argument ∈ arguments,Describes machine point argument) →
        evalAll machine arguments = operands.map fun operand => some (operand.run machine) := by
  induction arguments with
  | nil => exact ⟨[],rfl,fun _ _ _ => rfl⟩
  | cons first arguments ih =>
    obtain ⟨operand,isFirst,value⟩ := builds first List.mem_cons_self
    obtain ⟨operands,areRest,values⟩ := ih fun argument mem => builds argument (List.mem_cons_of_mem _ mem)
    refine ⟨operand :: operands,?_,fun ω machine describes => ?_⟩
    · simp [materializeOperands,isFirst,areRest,Materialized.check,Materialized.bind]
    · rw [evalAll,value ω machine (describes first List.mem_cons_self),
        values ω machine (fun argument mem => describes argument (List.mem_cons_of_mem _ mem)),
        List.map_cons]

theorem Describes.part {ω : Type} {machine : Machine ω} {part : Expression}
    (describes : Describes machine point expression)
    (inside : ∀ inner ∈ subexpressions part,inner ∈ subexpressions expression) :
    Describes machine point part :=
  fun own inst arguments mem => describes own inst arguments (inside _ mem)

theorem arguments_described {ω : Type} {machine : Machine ω} {arguments : List Expression}
    (describes : Describes machine point expression)
    (made : subexpressions expression = expression :: allSubexpressions arguments) :
    ∀ argument ∈ arguments,Describes machine point argument := by
  intro argument mem
  apply describes.part
  intro inner inside
  rw [made]
  exact List.mem_cons_of_mem _ (mem_allSubexpressions mem inside)

theorem evalAll_eq_map {ω : Type} (machine : Machine ω) (arguments : List Expression) :
    evalAll machine arguments = arguments.map (eval machine) := by
  induction arguments with
  | nil => rfl
  | cons argument arguments ih => rw [evalAll,ih,List.map_cons]

/-- What can be rebuilt is, and what is built has its value. -/
theorem builds_of_rebuildable (rebuildable : Rebuildable point expression) : Builds point expression := by
  induction rebuildable with
  | constant => exact ⟨.constant _,rfl,fun _ _ _ => rfl⟩
  | @argument own function index same =>
    exact ⟨.argument function index,by rw [materialize,if_pos same],fun _ _ _ => rfl⟩
  | @unaryOp own inst op operand rest operands ih =>
    obtain ⟨built,areBuilt,values⟩ := materializeOperands_of_builds ih
    have same := materializeOperands_length areBuilt
    obtain ⟨first,others,rfl⟩ := List.exists_cons_of_length_eq_add_one same
    refine ⟨.unaryOp op first,?_,fun ω machine describes => ?_⟩
    · simp [materialize,areBuilt,Materialized.bind,materializeOp]
    · simp only [eval,values ω machine (arguments_described describes rfl),List.map_cons]
      rfl
  | @binOp own inst op lhs rhs rest operands ih =>
    obtain ⟨built,areBuilt,values⟩ := materializeOperands_of_builds ih
    have same := materializeOperands_length areBuilt
    obtain ⟨first,others,rfl⟩ := List.exists_cons_of_length_eq_add_one same
    obtain ⟨second,others,rfl⟩ := List.exists_cons_of_length_eq_add_one (Nat.succ.inj same)
    refine ⟨.binOp op first second,?_,fun ω machine describes => ?_⟩
    · simp [materialize,areBuilt,Materialized.bind,materializeOp]
    · simp only [eval,values ω machine (arguments_described describes rfl),List.map_cons]
      rfl
  | @cast own inst opcode destType operand rest isOperand ih =>
    obtain ⟨built,isBuilt,value⟩ := ih
    refine ⟨.cast opcode destType built,?_,fun ω machine describes => ?_⟩
    · simp [materialize,isBuilt,Materialized.check,Materialized.bind]
    · have parts := arguments_described describes rfl
      simp only [eval,evalAll_eq_map,List.map_cons,value ω machine (parts operand List.mem_cons_self)]
      rfl
  | @icmp own inst predicate lhs rhs rest isLhs isRhs ihLhs ihRhs =>
    obtain ⟨builtLhs,isBuiltLhs,valueLhs⟩ := ihLhs
    obtain ⟨builtRhs,isBuiltRhs,valueRhs⟩ := ihRhs
    refine ⟨.icmp predicate builtLhs builtRhs,?_,fun ω machine describes => ?_⟩
    · simp [materialize,isBuiltLhs,isBuiltRhs,Materialized.check,Materialized.bind]
    · have parts := arguments_described describes rfl
      simp only [eval,evalAll_eq_map,List.map_cons,valueLhs ω machine (parts lhs (by simp)),
        valueRhs ω machine (parts rhs (by simp))]
      rfl
  | @forwarded own inst arguments dominates =>
    refine ⟨.inst inst,?_,fun ω machine describes =>
      describes own inst arguments (mem_subexpressions_self _) dominates⟩
    have available : isAvailable point (.selectExpression own (some inst) arguments) = true := by
      simp [isAvailable,dominates]
    rcases arguments with _ | ⟨condition,_ | ⟨trueValue,_ | ⟨falseValue,rest⟩⟩⟩ <;>
      simp only [materialize,if_pos available,dominates]
  | @select own inst condition trueValue falseValue rest available isCondition isTrue isFalse
      conditionUnversioned trueUnversioned ihCondition ihTrue ihFalse =>
    cases forwards : point.forwarded inst with
    | some forwarded =>
      obtain rfl := forwarded_eq_some forwards
      refine ⟨.inst forwarded,by rw [materialize,if_pos available,forwards],fun ω machine describes =>
        describes own forwarded _ (mem_subexpressions_self _) forwards⟩
    | none =>
      obtain ⟨builtCondition,isBuiltCondition,valueCondition⟩ := ihCondition
      obtain ⟨builtTrue,isBuiltTrue,valueTrue⟩ := ihTrue
      obtain ⟨builtFalse,isBuiltFalse,valueFalse⟩ := ihFalse
      refine ⟨.select builtCondition builtTrue builtFalse,?_,fun ω machine describes => ?_⟩
      · rw [materialize,if_pos available,forwards]
        simp [isBuiltCondition,isBuiltTrue,isBuiltFalse,unversioned,conditionUnversioned,
          trueUnversioned,Materialized.bind]
      · have parts := arguments_described describes rfl
        simp only [eval,evalAll_eq_map,List.map_cons,valueCondition ω machine (parts condition (by simp)),
          valueTrue ω machine (parts trueValue (by simp)),
          valueFalse ω machine (parts falseValue (by simp))]
        rfl
  | @size own collection isCollection ih =>
    obtain ⟨built,isBuilt,value⟩ := ih
    refine ⟨.size built,by simp [materialize,isBuilt,Materialized.bind],fun ω machine describes => ?_⟩
    have part := describes.part fun inner inside => List.mem_cons_of_mem _ inside
    rw [eval,value ω machine part]
    rfl

/-- Availability means that a value is built just where what is available can be rebuilt. -/
theorem materializes_iff (point : Point) (expression : Expression) : Materializes point expression ↔
    (isAvailable point expression = true → Rebuildable point expression) := by
  constructor
  · intro materializes available
    obtain ⟨built,isBuilt,_⟩ := materializes available
    exact rebuildable_of_materialize isBuilt
  · exact fun rebuildable available => builds_of_rebuildable (rebuildable available)

/-- A load from a global variable plus one: both are available, as a load has no side effects. -/
def loadPlusOne : Expression :=
  .basicExpression false (some 1) (.binary 13)
    [.basicExpression false (some 0) (.other 32) [.constantExpression false 0],.constantExpression false 1]

/-- The null check of the load fails. -/
theorem loadPlusOne_not_materializes : ¬ Materializes ⟨0,none,fun _ => false⟩ loadPlusOne := by
  intro materializes
  obtain ⟨built,isBuilt,_⟩ := materializes rfl
  exact absurd isBuilt (by simp [loadPlusOne,materialize,materializeOperands,materializeOp,
    Materialized.check,Materialized.bind])

end
end ValueExpressions
end Memoir
