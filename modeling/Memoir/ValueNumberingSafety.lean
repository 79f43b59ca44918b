import Memoir.ValueNumberingRuns

/-! When value numbering hands out expressions that are deleted: as soon as it numbers a size. -/
namespace Memoir
namespace ValueNumbering
open Outcomes

structure Sound (heap : Heap) : Prop where
  table : ∀ value id,heap.table value = some id → heap.Alive id
  references : ∀ id other,heap.References id other → heap.Alive other

def AlwaysSound (state : State) : Prop := ∀ heap ∈ state.heap :: state.past,Sound heap

structure Spares (before after : State) : Prop where
  sound : AlwaysSound after
  alive : ∀ id,before.heap.Alive id → after.heap.Alive id

section
variable {heap : Heap} {value : Value} {id other argument : Nat} {state before after : State}

theorem Sound.safe (sound : Sound heap) : heap.Safe := by
  intro value id is other path
  induction path with
  | refl => exact sound.table value id is
  | tail _ references _ => exact sound.references _ _ references

theorem Sound.empty : Sound Heap.empty :=
  ⟨fun _ _ is => absurd is (by simp [Heap.empty]),fun _ _ ⟨_,is,_⟩ => absurd is (by simp [Heap.empty])⟩

theorem alive_lt (alive : heap.Alive id) : id < heap.expressions.length := by
  obtain ⟨_,is,_⟩ := alive
  exact (List.getElem?_eq_some_iff.mp is).1

theorem alive_allocate (kind : ExpressionKind) (alive : heap.Alive id) : (heap.allocate kind).Alive id := by
  have below := alive_lt alive
  obtain ⟨expression,is,undeleted⟩ := alive
  exact ⟨expression,by rw [allocate_expressions,if_neg (by omega),is],undeleted⟩

theorem alive_new (kind : ExpressionKind) : (heap.allocate kind).Alive heap.expressions.length :=
  ⟨⟨kind,[],none,false⟩,by rw [allocate_expressions,if_pos rfl],rfl⟩

theorem alive_push : (heap.push id argument).Alive other ↔ heap.Alive other := by
  rw [Heap.Alive,Heap.Alive,Heap.push,modify_expressions]
  split_ifs with same
  · cases heap.expressions[other]? with
    | none => simp
    | some expression => simp
  · exact Iff.rfl

theorem alive_delete (differs : id ≠ other) : (heap.delete id).Alive other ↔ heap.Alive other := by
  rw [Heap.Alive,Heap.Alive,Heap.delete,modify_expressions,if_neg differs]

theorem references_allocate (kind : ExpressionKind) (references : (heap.allocate kind).References id other) :
    heap.References id other := by
  obtain ⟨expression,is,refers⟩ := references
  rw [allocate_expressions] at is
  split_ifs at is with same
  · rw [← Option.some.inj is] at refers
    exact absurd refers (by simp)
  · exact ⟨expression,is,refers⟩

theorem references_push (references : (heap.push id argument).References value other) :
    other = argument ∨ heap.References value other := by
  obtain ⟨expression,is,refers⟩ := references
  rw [Heap.push,modify_expressions] at is
  split_ifs at is with same
  · obtain ⟨earlier,isEarlier,rfl⟩ := Option.map_eq_some_iff.mp is
    rcases refers with mem | has
    · rcases List.mem_append.mp mem with mem | mem
      · exact .inr ⟨earlier,isEarlier,.inl mem⟩
      · exact .inl (List.mem_singleton.mp mem)
    · exact .inr ⟨earlier,isEarlier,.inr has⟩
  · exact .inr ⟨expression,is,refers⟩

theorem Sound.allocate (sound : Sound heap) (kind : ExpressionKind) : Sound (heap.allocate kind) :=
  ⟨fun value id is => alive_allocate kind (sound.table value id is),
    fun id other references =>
      alive_allocate kind (sound.references id other (references_allocate kind references))⟩

theorem Sound.insert (sound : Sound heap) (alive : heap.Alive id) (value : Value) :
    Sound (heap.insert value id) := by
  refine ⟨fun other other' is => ?_,sound.references⟩
  rw [insert_table] at is
  split_ifs at is
  · exact Option.some.inj is ▸ alive
  · exact sound.table other other' is

theorem Sound.push (sound : Sound heap) (alive : heap.Alive argument) (id : Nat) :
    Sound (heap.push id argument) := by
  refine ⟨fun value other is => alive_push.mpr (sound.table value other is),fun first other references => ?_⟩
  rcases references_push references with rfl | references
  · exact alive_push.mpr alive
  · exact alive_push.mpr (sound.references first other references)

/-- A temporary expression is deleted: nothing refers to it. -/
theorem Sound.discard (sound : Sound heap) (kind : ExpressionKind) :
    Sound ((heap.allocate kind).delete heap.expressions.length) := by
  have kept : ∀ id,heap.Alive id → ((heap.allocate kind).delete heap.expressions.length).Alive id := by
    intro id alive
    exact (alive_delete (Nat.ne_of_gt (alive_lt alive))).mpr (alive_allocate kind alive)
  refine ⟨fun value id is => kept id (sound.table value id is),fun id other references => ?_⟩
  apply kept
  apply sound.references id other
  apply references_allocate kind
  obtain ⟨expression,is,refers⟩ := references
  rw [Heap.delete,modify_expressions] at is
  split_ifs at is with same
  · obtain ⟨earlier,isEarlier,rfl⟩ := Option.map_eq_some_iff.mp is
    exact ⟨earlier,isEarlier,refers⟩
  · exact ⟨expression,is,refers⟩

theorem AlwaysSound.change (always : AlwaysSound state) (change : Heap → Heap)
    (sound : Sound (change state.heap)) : AlwaysSound (state.change change) := by
  intro heap mem
  rcases List.mem_cons.mp mem with rfl | mem
  · exact sound
  · exact always heap mem

theorem AlwaysSound.now (always : AlwaysSound state) : Sound state.heap :=
  always _ List.mem_cons_self

theorem Spares.refl (always : AlwaysSound state) : Spares state state := ⟨always,fun _ alive => alive⟩

theorem Spares.trans (first : Spares before state) (second : Spares state after) : Spares before after :=
  ⟨second.sound,fun id alive => second.alive id (first.alive id alive)⟩

end

/-- The visit of an operand of an expression is sound at all times, and finds one that is not deleted. -/
def VisitSound (visit : Value → Numbering Nat) (id : Nat) (operand : Value) : Prop :=
  ∀ state,AlwaysSound state → state.heap.Alive id →
    Routine.Meets True True (visit operand) state fun argument after =>
      Spares state after ∧ after.heap.Alive argument

section Visits
variable {module : Module} {visit : Value → Numbering Nat} {value : Value} {id : Nat} {state : State}

theorem visitTemporary_sound (kind : ExpressionKind) (always : AlwaysSound state) :
    Routine.Meets True True (visitTemporary value kind) state fun id after =>
      Spares state after ∧ after.heap.Alive id := by
  have allocated : AlwaysSound (state.change (·.allocate kind)) := always.change _ (always.now.allocate kind)
  cases found : state.heap.table value with
  | some other =>
    rw [meets_visitTemporary_found found]
    have kept : ∀ id,state.heap.Alive id →
        ((state.heap.allocate kind).delete state.heap.expressions.length).Alive id := fun id alive =>
      (alive_delete (Nat.ne_of_gt (alive_lt alive))).mpr (alive_allocate kind alive)
    exact ⟨⟨allocated.change (·.delete _) (always.now.discard kind),kept⟩,
      kept other (always.now.table value other found)⟩
  | none =>
    rw [meets_visitTemporary_new found]
    exact ⟨⟨allocated.change (·.insert value _) (allocated.now.insert (alive_new kind) value),
      fun id alive => alive_allocate kind alive⟩,alive_new kind⟩

theorem getOrCreate_sound {kind : ExpressionKind} {complete : Nat → Numbering Unit}
    (completes : ∀ id created,AlwaysSound created → created.heap.Alive id →
      Routine.Meets True True (complete id) created fun _ after => Spares created after)
    (always : AlwaysSound state) :
    Routine.Meets True True (getOrCreate value kind complete) state fun id after =>
      Spares state after ∧ after.heap.Alive id := by
  cases found : state.heap.table value with
  | some id =>
    rw [meets_getOrCreate_found found]
    exact ⟨.refl always,always.now.table value id found⟩
  | none =>
    rw [meets_getOrCreate_new found]
    have allocated : AlwaysSound (state.change (·.allocate kind)) :=
      always.change _ (always.now.allocate kind)
    have inserted := allocated.change (·.insert value _) (allocated.now.insert (alive_new kind) value)
    apply (completes _ _ inserted (alive_new kind)).mono
    intro _ after spares
    exact ⟨⟨spares.sound,fun id alive => spares.alive id (alive_allocate kind alive)⟩,
      spares.alive _ (alive_new kind)⟩

theorem visitOperands_sound {operands : List Value}
    (visits : ∀ operand ∈ operands,VisitSound visit id operand) (always : AlwaysSound state)
    (alive : state.heap.Alive id) :
    Routine.Meets True True (visitOperands visit id operands) state fun _ after => Spares state after := by
  induction operands generalizing state with
  | nil => exact .refl always
  | cons operand operands ih =>
    rw [visitOperands,Routine.meets_bind]
    apply (visits operand List.mem_cons_self state always alive).mono
    rintro argument visited ⟨spares,found⟩
    rw [Routine.meets_bind,change,Routine.meets_update]
    have pushed := spares.sound.change (·.push id argument) (spares.sound.now.push found id)
    apply (ih (fun other mem => visits other (List.mem_cons_of_mem _ mem)) pushed
      (alive_push.mpr (spares.alive id alive))).mono
    intro _ after rest
    exact ⟨rest.sound,fun other alive => rest.alive other (alive_push.mpr (spares.alive other alive))⟩

theorem visitIncoming_sound {operand : Value} (visits : operand ≠ value → VisitSound visit id operand) :
    VisitSound (visitIncoming visit value id) id operand := by
  intro state always alive
  rw [visitIncoming]
  split_ifs with same
  · exact ⟨.refl always,alive⟩
  · exact visits same state always alive

theorem Spares.push {created : State} {argument : Nat} (spares : Spares created state)
    (alive : state.heap.Alive argument) (id : Nat) :
    Spares created (state.change (·.push id argument)) :=
  ⟨spares.sound.change _ (spares.sound.now.push alive id),
    fun other found => alive_push.mpr (spares.alive other found)⟩

theorem selectOperands_sound {first second : Value × Nat} {ifCondition : IfCondition}
    (ofCondition : VisitSound visit id ifCondition.condition)
    (ofTrue : VisitSound (visitIncoming visit value id) id (trueValue ifCondition first second))
    (ofFalse : VisitSound (visitIncoming visit value id) id (falseValue ifCondition first second))
    (always : AlwaysSound state) (alive : state.heap.Alive id) :
    Routine.Meets True True (selectOperands visit value [first,second] ifCondition id) state
      fun _ after => Spares state after := by
  obtain ⟨_,isTrue⟩ := trueIndex_getElem? first second ifCondition
  obtain ⟨_,isFalse⟩ := falseIndex_getElem? first second ifCondition
  rw [selectOperands,Routine.meets_bind]
  apply (ofCondition state always alive).mono
  rintro condition first' ⟨spares,aliveCondition⟩
  simp only [List.getElem?_cons_zero,List.getElem?_cons_succ,Routine.require,Routine.meets_bind,
    Routine.meets_pure,isTrue,isFalse]
  apply (ofTrue first' spares.sound (spares.alive id alive)).mono
  rintro onTrue second' ⟨spares',aliveTrue⟩
  have both := spares.trans spares'
  apply (ofFalse second' both.sound (both.alive id alive)).mono
  rintro onFalse third ⟨spares'',aliveFalse⟩
  have all := both.trans spares''
  simp only [change,Routine.meets_update]
  have pushed := all.push (spares''.alive _ (spares'.alive _ aliveCondition)) id
  have pushed' := pushed.push (alive_push.mpr (spares''.alive _ aliveTrue)) id
  exact pushed'.push (alive_push.mpr (alive_push.mpr aliveFalse)) id

def Sizeless (module : Module) (value : Value) : Prop :=
  ∀ other,Relation.ReflTransGen module.Visits value other → (module.kind other).isSize = false

theorem Sizeless.operand (sizeless : Sizeless module value) {operand : Value}
    (mem : operand ∈ module.operands value) : Sizeless module operand :=
  fun other path => sizeless other (path.head mem)

/-- Where no size is visited, only temporary expressions are deleted. -/
theorem visitValue_sound (rounds : Nat) (sizeless : Sizeless module value) (always : AlwaysSound state) :
    Routine.Meets True True (visitValue module rounds value) state fun id after =>
      Spares state after ∧ after.heap.Alive id := by
  induction rounds generalizing value state with
  | zero => trivial
  | succ rounds ih =>
    have visits : ∀ operand ∈ module.operands value,∀ id,
        VisitSound (visitValue module rounds) id operand := by
      intro operand mem id created always _
      exact ih (sizeless.operand mem) always
    rw [visitValue]
    cases isKind : module.kind value with
    | argument | constant | other => exact visitTemporary_sound _ always
    | inst operands | castInst operands | icmpInst operands =>
      apply getOrCreate_sound _ always
      intro id created always alive
      apply visitOperands_sound _ always alive
      exact fun operand mem => visits operand (by simpa [Module.operands,isKind] using mem) id
    | llvmCallInst =>
      apply getOrCreate_sound _ always
      exact fun id created always _ => .refl always
    | sizeInst collection =>
      have none := sizeless value .refl
      exact absurd none (by simp [isKind,Kind.isSize])
    | phiNode incoming ifCondition =>
      cases ifCondition with
      | none =>
        apply getOrCreate_sound _ always
        intro id created always alive
        apply visitOperands_sound _ always alive
        intro operand mem
        apply visitIncoming_sound
        intro other
        apply visits
        simp only [Module.operands,isKind,List.mem_filter]
        exact ⟨mem,by simpa using other⟩
      | some ifCondition =>
        obtain ⟨first,second,rfl⟩ := join_two isKind
        apply getOrCreate_sound _ always
        intro id created always alive
        have operands : ∀ operand,operand = trueValue ifCondition first second ∨
            operand = falseValue ifCondition first second → operand ≠ value →
            operand ∈ module.operands value := by
          intro operand which other
          simp only [Module.operands,isKind,List.mem_cons,List.mem_filter]
          exact .inr ⟨by simpa [trueValue,falseValue] using which,by simpa using other⟩
        apply selectOperands_sound _ _ _ always alive
        · exact visits _ (by simp [Module.operands,isKind]) id
        · exact visitIncoming_sound fun other => visits _ (operands _ (.inl rfl) other) id
        · exact visitIncoming_sound fun other => visits _ (operands _ (.inr rfl) other) id

theorem get_sound (rounds : Nat) (sizeless : Sizeless module value) (always : AlwaysSound state) :
    Routine.Meets True True (get module rounds value) state fun id after =>
      Spares state after ∧ after.heap.Alive id := by
  rw [get,Routine.meets_bind,Routine.meets_read]
  cases found : state.heap.table value with
  | some id => exact ⟨.refl always,always.now.table value id found⟩
  | none => exact visitValue_sound rounds sizeless always

theorem gets_sound (rounds : Nat) {values : List Value}
    (sizeless : ∀ value ∈ values,Sizeless module value) (always : AlwaysSound state) :
    Routine.Meets True True (Routine.each (get module rounds) values) state fun _ after =>
      AlwaysSound after := by
  induction values generalizing state with
  | nil => exact always
  | cons value values ih =>
    rw [Routine.each,Routine.meets_bind]
    apply (get_sound rounds (sizeless value List.mem_cons_self) always).mono
    intro id visited kept
    rw [Routine.meets_bind]
    exact ih (fun other mem => sizeless other (List.mem_cons_of_mem _ mem)) kept.1.sound

end Visits

section Queries
variable {module : Module} {state : State}

theorem AlwaysSound.safe (always : AlwaysSound state) : state.AlwaysSafe :=
  fun heap mem => (always heap mem).safe

theorem AlwaysSound.empty : AlwaysSound State.empty := by
  intro heap mem
  rw [List.mem_singleton.mp mem]
  exact Sound.empty

theorem unvisited_lt {rounds : Nat} (heap : Heap) (enough : module.kinds.length < rounds) :
    unvisited module heap < rounds := by
  apply Nat.lt_of_le_of_lt _ enough
  exact (Finset.card_filter_le _ _).trans (Nat.le_of_eq (Finset.card_range _))

/-- Queries end, and hand out no deleted expression at any time if and only if no size is visited. -/
theorem gets_safe_iff (module : Module) (values : List Value) (rounds : Nat)
    (enough : module.kinds.length < rounds) :
    ∃ ids after,gets module rounds values = .returned ids after ∧
      (after.AlwaysSafe ↔ ∀ query ∈ values,∀ value,Relation.ReflTransGen module.Visits query value →
        (module.kind value).isSize = false) := by
  have few : unvisited module State.empty.heap < rounds := unvisited_lt _ enough
  have closes := @gets_closed module rounds values State.empty (Closed.empty module) few
  obtain ⟨ids,after,run,closed,_,visited⟩ := closes.returns
  refine ⟨ids,after,run,fun safe query mem value path => ?_,fun sizeless => ?_⟩
  · rw [← Bool.not_eq_true]
    intro isSize
    exact closed.not_safe (closed.reached (visited query mem) path) isSize (safe _ List.mem_cons_self)
  · have sound := gets_sound rounds sizeless AlwaysSound.empty
    rw [Routine.Meets,run] at sound
    exact sound.safe

theorem sized_joins (incoming : List (Value × Nat)) (ifCondition : IfCondition)
    (mem : .phiNode incoming (some ifCondition) ∈ [Kind.argument,.sizeInst 0,.inst [0]]) :
    incoming.length = 2 :=
  absurd mem (by simp)

/-- An argument, its size, and an instruction on the argument. -/
def sized : Module := ⟨[.argument,.sizeInst 0,.inst [0]],sized_joins⟩

theorem sized_safe_iff : sized.kinds.length < 4 ∧ ∃ ids after,gets sized 4 [2] = .returned ids after ∧
    (after.AlwaysSafe ↔ ∀ query ∈ [2],∀ value,Relation.ReflTransGen sized.Visits query value →
      (sized.kind value).isSize = false) :=
  ⟨by decide,gets_safe_iff sized [2] 4 (by decide)⟩

/-- The expression of the argument is deleted when its size is numbered. -/
theorem sized_not_safe : ∃ ids after,gets sized 4 [1] = .returned ids after ∧ ¬ after.AlwaysSafe := by
  refine ⟨_,_,rfl,fun safe => ?_⟩
  obtain ⟨expression,is,undeleted⟩ := safe _ List.mem_cons_self 0 1 rfl 1 .refl
  rw [← Option.some.inj is] at undeleted
  exact absurd undeleted (by decide)

end Queries

end ValueNumbering
end Memoir
