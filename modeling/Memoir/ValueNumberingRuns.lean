import Memoir.ValueNumbering

/-! Runs of value numbering. They end; what they have visited has its operands in the table; and a size
has deleted the expression of its collection. -/
namespace Memoir
namespace ValueNumbering
open Outcomes

def Ruined (heap : Heap) (collection : Value) (id : Nat) : Prop :=
  ∃ expression found dead,heap.expressions[id]? = some expression ∧
    expression.collection = some found ∧ heap.table collection = some found ∧
    heap.expressions[found]? = some dead ∧ dead.deleted = true

def trueValue (ifCondition : IfCondition) (first second : Value × Nat) : Value :=
  if ifCondition.ifBlock = first.2 then first.1 else second.1

def falseValue (ifCondition : IfCondition) (first second : Value × Nat) : Value :=
  if ifCondition.elseBlock = second.2 then second.1 else first.1

def Selects (heap : Heap) (incoming : List (Value × Nat)) (ifCondition : IfCondition) (id : Nat) : Prop :=
  ∃ first second expression condition onTrue onFalse,incoming = [first,second] ∧
    heap.expressions[id]? = some expression ∧ expression.kind = .select ∧
    expression.arguments = [condition,onTrue,onFalse] ∧
    heap.table ifCondition.condition = some condition ∧
    heap.table (trueValue ifCondition first second) = some onTrue ∧
    heap.table (falseValue ifCondition first second) = some onFalse

structure Done (module : Module) (heap : Heap) (value : Value) (id : Nat) : Prop where
  operands : ∀ operand ∈ module.operands value,heap.table operand ≠ none
  size : ∀ collection,module.kind value = .sizeInst collection →
    Ruined heap collection id
  select : ∀ incoming ifCondition,module.kind value = .phiNode incoming (some ifCondition) →
    Selects heap incoming ifCondition id

/-- Expressions are of one value each, and the visits of values in the table are done, except those of
the open ones. -/
structure Closed (module : Module) (opened : List Value) (heap : Heap) : Prop where
  bounded : ∀ value id,heap.table value = some id → id < heap.expressions.length
  injective : ∀ value other id,heap.table value = some id → heap.table other = some id → value = other
  done : ∀ value id,heap.table value = some id → value ∉ opened → Done module heap value id

section Closed
variable {module : Module} {opened : List Value} {before heap after : Heap} {value : Value} {id : Nat}

theorem Ruined.grows {collection : Value} (ruined : Ruined before collection id)
    (grows : Grows before after) : Ruined after collection id := by
  obtain ⟨expression,found,dead,is,has,isFound,isDead,deleted⟩ := ruined
  obtain ⟨later,isLater,keeps⟩ := grows.expressions id expression is
  obtain ⟨laterDead,isLaterDead,keepsDead⟩ := grows.expressions found dead isDead
  exact ⟨later,found,laterDead,isLater,keeps.collection.trans has,grows.table collection found isFound,
    isLaterDead,keepsDead.deleted deleted⟩

theorem Selects.grows {incoming : List (Value × Nat)} {ifCondition : IfCondition}
    (selects : Selects before incoming ifCondition id) (grows : Grows before after) :
    Selects after incoming ifCondition id := by
  obtain ⟨first,second,expression,condition,onTrue,onFalse,two,is,kind,arguments,isCondition,isTrue,
    isFalse⟩ := selects
  obtain ⟨later,isLater,keeps⟩ := grows.expressions id expression is
  exact ⟨first,second,later,condition,onTrue,onFalse,two,isLater,keeps.kind.trans kind,
    keeps.arguments.trans arguments,grows.table _ _ isCondition,grows.table _ _ isTrue,
    grows.table _ _ isFalse⟩

theorem Grows.table_ne_none (grows : Grows before after) (is : before.table value ≠ none) :
    after.table value ≠ none := by
  obtain ⟨id,found⟩ := Option.ne_none_iff_exists'.mp is
  simp [grows.table value id found]

theorem Done.grows (done : Done module before value id) (grows : Grows before after) :
    Done module after value id :=
  ⟨fun operand mem => grows.table_ne_none (done.operands operand mem),
    fun collection isSize => (done.size collection isSize).grows grows,
    fun incoming ifCondition isPhi => (done.select incoming ifCondition isPhi).grows grows⟩

theorem Grows.length_le (grows : Grows before after) :
    before.expressions.length ≤ after.expressions.length := by
  by_contra shorter
  have last := List.getElem?_eq_getElem (l := before.expressions) (i := after.expressions.length)
    (by omega)
  obtain ⟨later,isLater,_⟩ := grows.expressions _ _ last
  exact absurd (List.getElem?_eq_some_iff.mp isLater).1 (Nat.lt_irrefl _)

theorem Closed.empty (module : Module) : Closed module [] Heap.empty :=
  ⟨fun _ _ is => absurd is (by simp [Heap.empty]),fun _ _ _ is => absurd is (by simp [Heap.empty]),
    fun _ _ is => absurd is (by simp [Heap.empty])⟩

/-- The table is the same, and expressions are added or deleted. -/
theorem Closed.grows (closed : Closed module opened before) (grows : Grows before after)
    (same : after.table = before.table) : Closed module opened after := by
  refine ⟨?_,?_,?_⟩
  · intro value id is
    exact Nat.lt_of_lt_of_le (closed.bounded value id (same ▸ is)) grows.length_le
  · intro value other id is isOther
    exact closed.injective value other id (same ▸ is) (same ▸ isOther)
  · intro value id is unopened
    exact (closed.done value id (same ▸ is) unopened).grows grows

/-- A new expression is inserted for a value that has none. -/
theorem Closed.insert (closed : Closed module opened heap) (kind : ExpressionKind)
    (fresh : heap.table value = none) :
    Closed module (value :: opened) ((heap.allocate kind).insert value heap.expressions.length) := by
  have grows : Grows heap ((heap.allocate kind).insert value heap.expressions.length) :=
    ((Grows.refl heap).allocate kind).insert fresh
  refine ⟨?_,?_,?_⟩
  · intro other id is
    rw [insert_expressions,allocate_length]
    rw [insert_table] at is
    split_ifs at is with same
    · rw [Option.some.injEq] at is
      omega
    · have below := closed.bounded other id is
      omega
  · intro first second id isFirst isSecond
    rw [insert_table] at isFirst isSecond
    split_ifs at isFirst isSecond with same same' same'
    · exact same.trans same'.symm
    · have below := closed.bounded second id isSecond
      rw [Option.some.injEq] at isFirst
      omega
    · have below := closed.bounded first id isFirst
      rw [Option.some.injEq] at isSecond
      omega
    · exact closed.injective first second id isFirst isSecond
  · intro other id is unopened
    rw [List.mem_cons,not_or] at unopened
    rw [insert_table,if_neg unopened.1] at is
    exact (closed.done other id is unopened.2).grows grows

/-- The expression of an open value changes, but for its deletion. -/
theorem Closed.modify (closed : Closed module (value :: opened) heap) (found : heap.table value = some id)
    (change : Expression → Expression)
    (deleted : ∀ expression,(change expression).deleted = expression.deleted) :
    Closed module (value :: opened) (heap.modify id change) := by
  refine ⟨?_,closed.injective,?_⟩
  · intro other other' is
    rw [modify_length]
    exact closed.bounded other other' is
  · intro other other' is unopened
    have done := closed.done other other' is unopened
    have differ : id ≠ other' := by
      rintro rfl
      exact unopened (closed.injective other value id is found ▸ List.mem_cons_self)
    refine ⟨done.operands,fun collection isSize => ?_,fun incoming ifCondition isPhi => ?_⟩
    · obtain ⟨expression,ce,dead,isExpression,has,isFound,isDead,isDeleted⟩ := done.size collection isSize
      have isExpression' : (heap.modify id change).expressions[other']? = some expression := by
        rw [modify_expressions,if_neg differ,isExpression]
      by_cases same : id = ce
      · refine ⟨expression,ce,change dead,isExpression',has,isFound,?_,?_⟩
        · rw [modify_expressions,if_pos same,isDead]
          rfl
        · rw [deleted,isDeleted]
      · exact ⟨expression,ce,dead,isExpression',has,isFound,
          by rw [modify_expressions,if_neg same,isDead],isDeleted⟩
    · obtain ⟨first,second,expression,condition,onTrue,onFalse,two,isExpression,rest⟩ :=
        done.select incoming ifCondition isPhi
      exact ⟨first,second,expression,condition,onTrue,onFalse,two,
        by rw [modify_expressions,if_neg differ,isExpression],rest⟩

/-- The visit of an open value is done. -/
theorem Closed.close (closed : Closed module (value :: opened) heap) (found : heap.table value = some id)
    (done : Done module heap value id) : Closed module opened heap := by
  refine ⟨closed.bounded,closed.injective,fun other other' is unopened => ?_⟩
  by_cases same : other = value
  · subst same
    obtain rfl := Option.some.inj (found.symm.trans is)
    exact done
  · apply closed.done other other' is
    rw [List.mem_cons,not_or]
    exact ⟨same,unopened⟩

end Closed

/-- The values that have no expression yet. -/
def unvisited (module : Module) (heap : Heap) : Nat :=
  ((Finset.range module.kinds.length).filter fun value => heap.table value = none).card

structure Numbered (module : Module) (opened : List Value) (value : Value) (before after : Heap)
    (id : Nat) : Prop where
  grows : Grows before after
  closed : Closed module opened after
  found : after.table value = some id

def Numbers (module : Module) (rounds : Nat) (visit : Value → Numbering Nat) : Prop :=
  ∀ opened value state,Closed module opened state.heap → unvisited module state.heap < rounds →
    Routine.Meets False False (visit value) state fun id after =>
      Numbered module opened value state.heap after.heap id

structure Open (module : Module) (rounds : Nat) (opened : List Value) (value : Value) (id : Nat)
    (before heap : Heap) : Prop where
  grows : Grows before heap
  fresh : before.expressions.length ≤ id
  closed : Closed module (value :: opened) heap
  found : heap.table value = some id
  few : unvisited module heap < rounds

section Rules
variable {aborts exhausts : Prop} {state : State} {value : Value} {found : Nat} {kind : ExpressionKind}
  {post : Nat → State → Prop}

/-- The new expression is deleted. -/
theorem meets_visitTemporary_found (is : state.heap.table value = some found) :
    Routine.Meets aborts exhausts (visitTemporary value kind) state post ↔
      post found
        ((state.change (·.allocate kind)).change (·.delete state.heap.expressions.length)) := by
  rw [visitTemporary,new,Routine.meets_bind,Routine.meets_bind,Routine.meets_read,Routine.meets_bind,
    change,Routine.meets_update,Routine.meets_pure,lookupOrInsert,Routine.meets_bind,Routine.meets_read]
  simp only [State.change,allocate_table,is,Routine.meets_bind,change,Routine.meets_update,
    Routine.meets_pure]

/-- The new expression is inserted. -/
theorem meets_visitTemporary_new (none : state.heap.table value = none) :
    Routine.Meets aborts exhausts (visitTemporary value kind) state post ↔
      post state.heap.expressions.length
        ((state.change (·.allocate kind)).change (·.insert value state.heap.expressions.length)) := by
  rw [visitTemporary,new,Routine.meets_bind,Routine.meets_bind,Routine.meets_read,Routine.meets_bind,
    change,Routine.meets_update,Routine.meets_pure,lookupOrInsert,Routine.meets_bind,Routine.meets_read]
  simp only [State.change,allocate_table,none,Routine.meets_bind,change,Routine.meets_update,
    Routine.meets_pure]

variable {complete : Nat → Numbering Unit}

theorem meets_getOrCreate_found (is : state.heap.table value = some found) :
    Routine.Meets aborts exhausts (getOrCreate value kind complete) state post ↔ post found state := by
  rw [getOrCreate,Routine.meets_bind,Routine.meets_read,is]
  exact Iff.rfl

/-- The new expression is inserted, and then completed. -/
theorem meets_getOrCreate_new (none : state.heap.table value = none) :
    Routine.Meets aborts exhausts (getOrCreate value kind complete) state post ↔
      Routine.Meets aborts exhausts (complete state.heap.expressions.length)
        ((state.change (·.allocate kind)).change (·.insert value state.heap.expressions.length))
        fun _ after => post state.heap.expressions.length after := by
  rw [getOrCreate,Routine.meets_bind,Routine.meets_read,none]
  rw [new,Routine.meets_bind,Routine.meets_bind,Routine.meets_read,Routine.meets_bind,change,
    Routine.meets_update,Routine.meets_pure,Routine.meets_bind,change,Routine.meets_update,
    Routine.meets_bind]
  exact Iff.rfl

end Rules

section Visits
variable {module : Module} {rounds : Nat} {opened : List Value} {value : Value} {id : Nat}
  {before heap after : Heap} {visit : Value → Numbering Nat}

theorem unvisited_le (grows : Grows before after) : unvisited module after ≤ unvisited module before := by
  apply Finset.card_le_card
  intro value mem
  obtain ⟨known,none⟩ := Finset.mem_filter.mp mem
  refine Finset.mem_filter.mpr ⟨known,?_⟩
  by_contra found
  exact grows.table_ne_none found none

theorem unvisited_insert_lt (known : value < module.kinds.length) (fresh : heap.table value = none)
    (kind : ExpressionKind) :
    unvisited module ((heap.allocate kind).insert value id) < unvisited module heap := by
  apply Finset.card_lt_card
  refine ⟨?_,fun subset => ?_⟩
  · intro other mem
    obtain ⟨known,none⟩ := Finset.mem_filter.mp mem
    rw [insert_table] at none
    split_ifs at none
    exact Finset.mem_filter.mpr ⟨known,none⟩
  · have mem := subset (Finset.mem_filter.mpr ⟨Finset.mem_range.mpr known,fresh⟩)
    obtain ⟨_,none⟩ := Finset.mem_filter.mp mem
    rw [insert_table,if_pos rfl] at none
    exact absurd none (by simp)

theorem Open.visited (isOpen : Open module rounds opened value id before heap)
    (numbered : Numbered module (value :: opened) operand heap after argument) :
    Open module rounds opened value id before after :=
  ⟨isOpen.grows.trans numbered.grows,isOpen.fresh,numbered.closed,numbered.grows.table _ _ isOpen.found,
    Nat.lt_of_le_of_lt (unvisited_le numbered.grows) isOpen.few⟩

theorem Open.modify (isOpen : Open module rounds opened value id before heap)
    (change : Expression → Expression)
    (deleted : ∀ expression,(change expression).deleted = expression.deleted) :
    Open module rounds opened value id before (heap.modify id change) :=
  ⟨isOpen.grows.modify isOpen.fresh change,isOpen.fresh,
    isOpen.closed.modify isOpen.found change deleted,isOpen.found,isOpen.few⟩

theorem Open.push (isOpen : Open module rounds opened value id before heap) (argument : Nat) :
    Open module rounds opened value id before (heap.push id argument) :=
  isOpen.modify _ fun _ => rfl

theorem Open.delete (isOpen : Open module rounds opened value id before heap) (other : Nat) :
    Open module rounds opened value id before (heap.delete other) :=
  ⟨isOpen.grows.delete other,isOpen.fresh,
    isOpen.closed.grows ((Grows.refl heap).delete other) rfl,isOpen.found,isOpen.few⟩

/-- A value that has an expression, or gets one that is completed. -/
theorem getOrCreate_numbers {kind : ExpressionKind} {complete : Nat → Numbering Unit} {state : State}
    (known : value < module.kinds.length) (closed : Closed module opened state.heap)
    (few : unvisited module state.heap < rounds + 1)
    (completes : ∀ id created,Open module rounds opened value id state.heap created.heap →
      created.heap.expressions[id]? = some ⟨kind,[],none,false⟩ →
      Routine.Meets False False (complete id) created fun _ after =>
        Open module rounds opened value id state.heap after.heap ∧ Done module after.heap value id) :
    Routine.Meets False False (getOrCreate value kind complete) state fun id after =>
      Numbered module opened value state.heap after.heap id := by
  cases found : state.heap.table value with
  | some id =>
    rw [meets_getOrCreate_found found]
    exact ⟨Grows.refl _,closed,found⟩
  | none =>
    rw [meets_getOrCreate_new found]
    have isOpen : Open module rounds opened value state.heap.expressions.length state.heap
        ((state.heap.allocate kind).insert value state.heap.expressions.length) := by
      refine ⟨((Grows.refl _).allocate kind).insert found,Nat.le_refl _,closed.insert kind found,?_,?_⟩
      · rw [insert_table,if_pos rfl]
      · exact Nat.lt_of_lt_of_le (unvisited_insert_lt known found kind) (Nat.le_of_lt_succ few)
    apply (completes _ _ isOpen _).mono
    · intro _ after completed
      exact ⟨completed.1.grows,completed.1.closed.close completed.1.found completed.2,completed.1.found⟩
    · change (state.heap.allocate kind).expressions[state.heap.expressions.length]? = _
      rw [allocate_expressions,if_pos rfl]

/-- Temporary expressions have no operands. -/
theorem visitTemporary_numbers (kind : ExpressionKind) {state : State}
    (closed : Closed module opened state.heap) (leaf : ∀ heap id,Done module heap value id) :
    Routine.Meets False False (visitTemporary value kind) state fun id after =>
      Numbered module opened value state.heap after.heap id := by
  have allocated := (Grows.refl state.heap).allocate kind
  cases found : state.heap.table value with
  | some other =>
    rw [meets_visitTemporary_found found]
    exact ⟨allocated.delete _,closed.grows (allocated.delete _) rfl,found⟩
  | none =>
    rw [meets_visitTemporary_new found]
    have inserted : ((state.heap.allocate kind).insert value state.heap.expressions.length).table value =
        some state.heap.expressions.length := by rw [insert_table,if_pos rfl]
    exact ⟨allocated.insert found,(closed.insert kind found).close inserted (leaf _ _),inserted⟩

/-- Visits while the expression of a value is completed. -/
def VisitsOpen (module : Module) (rounds : Nat) (opened : List Value) (value : Value) (id : Nat)
    (before : Heap) (visit : Value → Numbering Nat) : Prop :=
  ∀ operand created,Open module rounds opened value id before created.heap →
    Routine.Meets False False (visit operand) created fun argument after =>
      Open module rounds opened value id before after.heap ∧ Grows created.heap after.heap ∧
        after.heap.table operand = some argument

theorem Numbers.visitsOpen (numbers : Numbers module rounds visit) :
    VisitsOpen module rounds opened value id before visit := by
  intro operand created isOpen
  apply (numbers _ operand created isOpen.closed isOpen.few).mono
  exact fun argument after numbered => ⟨isOpen.visited numbered,numbered.grows,numbered.found⟩

theorem Numbers.visitIncoming_open (numbers : Numbers module rounds visit) :
    VisitsOpen module rounds opened value id before (visitIncoming visit value id) := by
  intro operand created isOpen
  rw [visitIncoming]
  split_ifs with same
  · exact ⟨isOpen,Grows.refl _,same ▸ isOpen.found⟩
  · exact numbers.visitsOpen operand created isOpen

/-- Operands are visited in order, and are in the table then. -/
theorem visitOperands_open (visits : VisitsOpen module rounds opened value id before visit)
    {operands : List Value} {created : State}
    (isOpen : Open module rounds opened value id before created.heap) :
    Routine.Meets False False (visitOperands visit id operands) created fun _ after =>
      Open module rounds opened value id before after.heap ∧
        (∀ other,created.heap.table other ≠ none → after.heap.table other ≠ none) ∧
        ∀ operand ∈ operands,after.heap.table operand ≠ none := by
  induction operands generalizing created with
  | nil => exact ⟨isOpen,fun _ found => found,fun _ mem => absurd mem List.not_mem_nil⟩
  | cons operand operands ih =>
    rw [visitOperands,Routine.meets_bind]
    apply (visits operand created isOpen).mono
    rintro argument visited ⟨isOpen,grows,found⟩
    rw [Routine.meets_bind,change,Routine.meets_update]
    have pushed : Open module rounds opened value id before (visited.change (·.push id argument)).heap :=
      isOpen.push argument
    apply (ih pushed).mono
    rintro _ after ⟨isOpen,kept,visited⟩
    refine ⟨isOpen,fun other is => kept other (grows.table_ne_none is),?_⟩
    intro other mem
    rcases List.mem_cons.mp mem with rfl | mem
    · exact kept other (by simp [State.change,Heap.push,found])
    · exact visited other mem

end Visits

section Kinds
variable {module : Module} {rounds : Nat} {opened : List Value} {value : Value} {id : Nat}
  {before heap : Heap} {visit : Value → Numbering Nat}

theorem kind_known (other : module.kind value ≠ .other) : value < module.kinds.length := by
  by_contra unknown
  exact other (by rw [Module.kind,List.getElem?_eq_none (Nat.le_of_not_lt unknown)]; rfl)

theorem join_two {incoming : List (Value × Nat)} {ifCondition : IfCondition}
    (isPhi : module.kind value = .phiNode incoming (some ifCondition)) :
    ∃ first second,incoming = [first,second] := by
  have found := List.getElem?_eq_getElem (@kind_known module value (by simp [isPhi]))
  have mem : Kind.phiNode incoming (some ifCondition) ∈ module.kinds :=
    List.mem_of_getElem? (i := value) (by simpa [Module.kind,found] using isPhi)
  exact List.length_eq_two.mp (module.joins incoming ifCondition mem)

/-- Where the operands of a value that is neither a size nor a select are in the table, it is done. -/
theorem done_of_operands (operands : ∀ operand ∈ module.operands value,heap.table operand ≠ none)
    (noSize : ∀ collection,module.kind value ≠ .sizeInst collection)
    (noSelect : ∀ incoming ifCondition,module.kind value ≠ .phiNode incoming (some ifCondition)) :
    Done module heap value id :=
  ⟨operands,fun collection is => absurd is (noSize collection),
    fun incoming ifCondition is => absurd is (noSelect incoming ifCondition)⟩

theorem push_expressions {expression : Expression} (is : heap.expressions[id]? = some expression)
    (argument : Nat) : (heap.push id argument).expressions[id]? =
      some {expression with arguments := expression.arguments ++ [argument]} := by
  rw [Heap.push,modify_expressions,if_pos rfl,is]
  rfl

theorem trueIndex_getElem? (first second : Value × Nat) (ifCondition : IfCondition) :
    ∃ block,[first,second][trueIndex ifCondition first.2]? = some (trueValue ifCondition first second,block) := by
  rw [trueIndex,trueValue]
  split_ifs <;> exact ⟨_,rfl⟩

theorem falseIndex_getElem? (first second : Value × Nat) (ifCondition : IfCondition) :
    ∃ block,[first,second][falseIndex ifCondition second.2]? =
      some (falseValue ifCondition first second,block) := by
  rw [falseIndex,falseValue]
  split_ifs <;> exact ⟨_,rfl⟩

/-- A select has the expressions of its condition and its values. -/
theorem selectOperands_open (numbers : Numbers module rounds visit) {first second : Value × Nat}
    {ifCondition : IfCondition} (isPhi : module.kind value = .phiNode [first,second] (some ifCondition))
    {created : State} (isOpen : Open module rounds opened value id before created.heap)
    (isNew : created.heap.expressions[id]? = some ⟨.select,[],none,false⟩) :
    Routine.Meets False False (selectOperands visit value [first,second] ifCondition id) created
      fun _ after => Open module rounds opened value id before after.heap ∧
        Done module after.heap value id := by
  obtain ⟨_,isTrue⟩ := trueIndex_getElem? first second ifCondition
  obtain ⟨_,isFalse⟩ := falseIndex_getElem? first second ifCondition
  rw [selectOperands,Routine.meets_bind]
  apply (numbers.visitsOpen ifCondition.condition created isOpen).mono
  rintro condition ofCondition ⟨openCondition,growsCondition,foundCondition⟩
  simp only [List.getElem?_cons_zero,List.getElem?_cons_succ,Routine.require,Routine.meets_bind,
    Routine.meets_pure,isTrue,isFalse]
  apply (numbers.visitIncoming_open _ ofCondition openCondition).mono
  rintro onTrue ofTrue ⟨openTrue,growsTrue,foundTrue⟩
  apply (numbers.visitIncoming_open _ ofTrue openTrue).mono
  rintro onFalse ofFalse ⟨openFalse,growsFalse,foundFalse⟩
  simp only [change,Routine.meets_update,State.change]
  refine ⟨((openFalse.push condition).push onTrue).push onFalse,?_⟩
  obtain ⟨expression,isExpression,keeps⟩ :=
    (growsCondition.trans (growsTrue.trans growsFalse)).expressions id _ isNew
  have condition_found := (growsTrue.trans growsFalse).table _ _ foundCondition
  have true_found := growsFalse.table _ _ foundTrue
  refine ⟨?_,fun collection isSize => absurd (isPhi.symm.trans isSize) (by simp),?_⟩
  · intro operand mem
    simp only [Module.operands,isPhi,List.mem_cons,List.mem_filter] at mem
    change ofFalse.heap.table operand ≠ none
    rcases mem with rfl | ⟨rfl | rfl | none,_⟩
    · simp [condition_found]
    · simp [← trueValue.eq_def,true_found]
    · simp [← falseValue.eq_def,foundFalse]
    · exact absurd none List.not_mem_nil
  · intro incoming ifCondition' same
    obtain ⟨rfl,rfl⟩ : [first,second] = incoming ∧ ifCondition = ifCondition' := by
      simpa using isPhi.symm.trans same
    have pushed := push_expressions (push_expressions (push_expressions isExpression condition) onTrue) onFalse
    refine ⟨first,second,_,condition,onTrue,onFalse,rfl,pushed,keeps.kind,?_,condition_found,true_found,
      foundFalse⟩
    rw [keeps.arguments]
    rfl

/-- The collection of an expression is deleted and then set. -/
theorem ruined_setCollection {collection : Value} {found : Nat} (isId : id < heap.expressions.length)
    (isCollection : found < heap.expressions.length) (isFound : heap.table collection = some found) :
    Ruined ((heap.delete found).setCollection id found) collection id := by
  have isExpression := List.getElem?_eq_getElem isId
  have isDead := List.getElem?_eq_getElem isCollection
  have atId : ∃ expression : Expression,
      ((heap.delete found).setCollection id found).expressions[id]? = some expression ∧
        expression.collection = some found := by
    rw [Heap.setCollection,modify_expressions,if_pos rfl,Heap.delete,modify_expressions,isExpression]
    split_ifs <;> exact ⟨_,rfl,rfl⟩
  have dead : ∃ expression : Expression,
      ((heap.delete found).setCollection id found).expressions[found]? = some expression ∧
        expression.deleted = true := by
    rw [Heap.setCollection,modify_expressions,Heap.delete,modify_expressions,if_pos rfl,isDead]
    split_ifs <;> exact ⟨_,rfl,rfl⟩
  obtain ⟨expression,is,has⟩ := atId
  obtain ⟨last,isLast,deleted⟩ := dead
  exact ⟨expression,found,last,is,has,isFound,isLast,deleted⟩

/-- A size deletes the expression of its collection. -/
theorem sizeCollection_open (numbers : Numbers module rounds visit) {collection : Value}
    (isSize : module.kind value = .sizeInst collection)
    {created : State} (isOpen : Open module rounds opened value id before created.heap) :
    Routine.Meets False False (sizeCollection visit collection id) created
      fun _ after => Open module rounds opened value id before after.heap ∧
        Done module after.heap value id := by
  rw [sizeCollection,Routine.meets_bind]
  apply (numbers.visitsOpen collection created isOpen).mono
  rintro argument visited ⟨isOpen,_,found⟩
  rw [Routine.meets_bind,lookupOrInsert,Routine.meets_bind,Routine.meets_read]
  simp only [found,Routine.meets_bind,change,Routine.meets_update,Routine.meets_pure]
  refine ⟨(isOpen.delete argument).modify _ fun _ => rfl,?_,fun other isOther => ?_,?_⟩
  · intro operand mem
    rw [Module.operands,isSize,List.mem_singleton] at mem
    simp [State.change,Heap.setCollection,Heap.delete,mem,found]
  · obtain rfl : collection = other := by simpa [isSize] using isOther
    exact ruined_setCollection (isOpen.closed.bounded value id isOpen.found)
      (isOpen.closed.bounded collection argument found) found
  · intro incoming ifCondition isPhi
    exact absurd (isSize.symm.trans isPhi) (by simp)

theorem operands_done {operands : List Value} (numbers : Numbers module rounds visit)
    (same : ∀ operand ∈ module.operands value,operand ∈ operands)
    (noSize : ∀ collection,module.kind value ≠ .sizeInst collection)
    (noSelect : ∀ incoming ifCondition,module.kind value ≠ .phiNode incoming (some ifCondition))
    {created : State} (isOpen : Open module rounds opened value id before created.heap) :
    Routine.Meets False False (visitOperands visit id operands) created
      fun _ after => Open module rounds opened value id before after.heap ∧
        Done module after.heap value id := by
  apply (visitOperands_open numbers.visitsOpen isOpen).mono
  rintro _ after ⟨isOpen,_,visited⟩
  exact ⟨isOpen,done_of_operands (fun operand mem => visited operand (same operand mem)) noSize noSelect⟩

/-- A visit ends where there are fewer values without an expression than rounds. -/
theorem visitValue_numbers (module : Module) (rounds : Nat) :
    Numbers module rounds (visitValue module rounds) := by
  induction rounds with
  | zero => exact fun _ _ _ _ few => absurd few (Nat.not_lt_zero _)
  | succ rounds ih =>
    intro opened value state closed few
    have leaf : module.operands value = [] → (∀ collection,module.kind value ≠ .sizeInst collection) →
        (∀ incoming ifCondition,module.kind value ≠ .phiNode incoming (some ifCondition)) →
        ∀ heap id,Done module heap value id := by
      intro none noSize noSelect heap id
      exact done_of_operands (fun operand mem => absurd mem (none ▸ List.not_mem_nil)) noSize noSelect
    have known := @kind_known module value
    rw [visitValue]
    cases isKind : module.kind value with
    | argument | constant | other =>
      apply visitTemporary_numbers _ closed (leaf _ _ _) <;> simp [Module.operands,isKind]
    | inst operands | castInst operands | icmpInst operands =>
      apply getOrCreate_numbers (known (by simp [isKind])) closed few
      intro id created isOpen _
      apply operands_done ih _ _ _ isOpen <;> simp [Module.operands,isKind]
    | llvmCallInst =>
      apply getOrCreate_numbers (known (by simp [isKind])) closed few
      intro id created isOpen _
      refine ⟨isOpen,leaf ?_ ?_ ?_ _ _⟩ <;> simp [Module.operands,isKind]
    | sizeInst collection =>
      apply getOrCreate_numbers (known (by simp [isKind])) closed few
      exact fun id created isOpen _ => sizeCollection_open ih isKind isOpen
    | phiNode incoming ifCondition =>
      cases ifCondition with
      | none =>
        apply getOrCreate_numbers (known (by simp [isKind])) closed few
        intro id created isOpen _
        apply (visitOperands_open ih.visitIncoming_open isOpen).mono
        rintro _ after ⟨isOpen,_,visited⟩
        refine ⟨isOpen,done_of_operands (fun operand mem => visited operand ?_) ?_ ?_⟩
        · simp only [Module.operands,isKind,List.mem_filter] at mem
          exact mem.1
        · simp [isKind]
        · simp [isKind]
      | some ifCondition =>
        obtain ⟨first,second,rfl⟩ := join_two isKind
        apply getOrCreate_numbers (known (by simp [isKind])) closed few
        exact fun id created isOpen isNew => selectOperands_open ih isKind isOpen isNew

end Kinds

section Queries
variable {module : Module} {rounds : Nat} {heap : Heap} {value : Value} {id : Nat}

theorem get_numbers (module : Module) (rounds : Nat) : Numbers module rounds (get module rounds) := by
  intro opened value state closed few
  rw [get,Routine.meets_bind,Routine.meets_read]
  cases found : state.heap.table value with
  | some id => exact ⟨Grows.refl _,closed,found⟩
  | none => exact visitValue_numbers module rounds opened value state closed few

/-- After queries, whatever came before, the visits of all values in the table are done. -/
theorem gets_closed {values : List Value} {state : State} (closed : Closed module [] state.heap)
    (few : unvisited module state.heap < rounds) :
    Routine.Meets False False (Routine.each (get module rounds) values) state fun _ after =>
      Closed module [] after.heap ∧ Grows state.heap after.heap ∧
        ∀ value ∈ values,after.heap.table value ≠ none := by
  induction values generalizing state with
  | nil => exact ⟨closed,Grows.refl _,fun _ mem => absurd mem List.not_mem_nil⟩
  | cons value values ih =>
    rw [Routine.each,Routine.meets_bind]
    apply (get_numbers module rounds [] value state closed few).mono
    intro id middle numbered
    rw [Routine.meets_bind]
    apply (ih numbered.closed (Nat.lt_of_le_of_lt (unvisited_le numbered.grows) few)).mono
    rintro _ after ⟨closed,grows,visited⟩
    rw [Routine.meets_pure]
    refine ⟨closed,numbered.grows.trans grows,?_⟩
    intro other mem
    rcases List.mem_cons.mp mem with rfl | mem
    · exact grows.table_ne_none (by simp [numbered.found])
    · exact visited other mem

theorem Closed.reached (closed : Closed module [] heap) (found : heap.table value ≠ none) {other : Value}
    (path : Relation.ReflTransGen module.Visits value other) : heap.table other ≠ none := by
  induction path with
  | refl => exact found
  | tail _ visits ih =>
    obtain ⟨id,is⟩ := Option.ne_none_iff_exists'.mp ih
    exact (closed.done _ id is List.not_mem_nil).operands _ visits

/-- The collection of a size in the table is deleted. -/
theorem Closed.not_safe (closed : Closed module [] heap) (found : heap.table value ≠ none)
    (isSize : (module.kind value).isSize = true) : ¬ heap.Safe := by
  obtain ⟨id,is⟩ := Option.ne_none_iff_exists'.mp found
  cases kind : module.kind value with
  | sizeInst collection =>
    obtain ⟨expression,ce,dead,isExpression,has,_,isDead,deleted⟩ :=
      (closed.done value id is List.not_mem_nil).size collection kind
    intro safe
    obtain ⟨alive,isAlive,undeleted⟩ := safe value id is ce (.single ⟨expression,isExpression,.inr has⟩)
    obtain rfl := Option.some.inj (isDead.symm.trans isAlive)
    exact absurd (deleted.symm.trans undeleted) (by decide)
  | argument | constant | inst | castInst | icmpInst | phiNode | llvmCallInst | other =>
    exact absurd isSize (by simp [kind,Kind.isSize])

end Queries

end ValueNumbering
end Memoir
