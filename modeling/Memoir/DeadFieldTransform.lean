import Memoir.DeadFieldAnalysis

/-! The field loop of the transformation: the definition keeps the visited fields
that have accesses, and each access moves down by the removed fields before it. -/
namespace Memoir.DeadFieldElimination

def deadFields (numFields : Nat) (accesses : FieldToAccessMap) : List Nat :=
  (List.range (visitedFields numFields)).filter (accesses · = [])

def liveFieldsOf (numFields : Nat) (accesses : FieldToAccessMap) : List Nat :=
  (List.range (visitedFields numFields)).filter (accesses · ≠ [])

def newIndex (numFields : Nat) (accesses : FieldToAccessMap) (fieldIndex : Nat) : Nat :=
  if deadFields numFields accesses = [] then fieldIndex
  else Nat.count (accesses · ≠ []) fieldIndex

theorem visitFields_fields (numFields : Nat) (accesses : FieldToAccessMap) (count : Nat)
    (loop final : FieldLoop) (ok : visitFields numFields accesses count loop = .ok final) :
    final.fieldsAfterRemoval =
        (List.range count).filter (accesses · ≠ []) ++ loop.fieldsAfterRemoval ∧
      final.fieldsToRemove = (List.range count).filter (accesses · = []) ++ loop.fieldsToRemove := by
  induction count generalizing loop with
  | zero => cases ok; simp
  | succ fieldIdx ih =>
    rw [visitFields] at ok
    split at ok
    · rename_i live
      obtain ⟨after,removed⟩ := ih _ ok
      simp [after,removed,List.range_succ,live]
    · rename_i dead
      obtain ⟨fieldIndex,_,ok⟩ := Failure.bind_ok _ _ _ ok
      obtain ⟨after,removed⟩ := ih _ ok
      simp only [ne_eq,not_not] at dead
      simp [after,removed,List.range_succ,dead]

theorem updateIndex_above (fieldIdx : Nat) (current : Value → Nat) (access : Instruction)
    (struct : (access.opcode.registered).isSome) (above : fieldIdx < current access.name)
    (small : current access.name < 256) : updateIndex fieldIdx current access =
      .ok (Function.update current access.name (current access.name - 1)) := by
  have decrement : (current access.name + 4294967295) % 4294967296 = current access.name - 1 := by
    omega
  cases opcode : access.opcode <;> rw [opcode] at struct <;>
    simp [updateIndex,opcode,getFieldIndex,small,bind,Except.bind,pure,Except.pure,
      show ¬ current access.name < fieldIdx by omega,decrement,Opcode.registered] at struct ⊢

theorem updateAll_above (fieldIdx : Nat) (accesses : List Instruction) (current : Value → Nat)
    (names : (accesses.map Instruction.name).Nodup)
    (above : ∀ access ∈ accesses, (access.opcode.registered).isSome ∧
      fieldIdx < current access.name ∧ current access.name < 256) :
    ∃ next, accesses.foldlM (updateIndex fieldIdx) current = .ok next ∧
      (∀ access ∈ accesses, next access.name = current access.name - 1) ∧
      ∀ value, value ∉ accesses.map Instruction.name → next value = current value := by
  induction accesses generalizing current with
  | nil => exact ⟨current,rfl,by simp,by simp⟩
  | cons access accesses ih =>
    obtain ⟨fresh,names⟩ := List.nodup_cons.mp names
    obtain ⟨struct,lower,upper⟩ := above access (by simp)
    have other (later : Instruction) (member : later ∈ accesses) :
        Function.update current access.name (current access.name - 1) later.name =
          current later.name := by
      refine Function.update_of_ne (fun same => fresh ?_) _ _
      rw [← same]
      exact List.mem_map_of_mem member
    obtain ⟨next,ok,moved,kept⟩ := ih (Function.update current access.name (current access.name - 1))
      names fun later member => by rw [other later member]; exact above later (by simp [member])
    refine ⟨next,?_,fun later member => ?_,fun value absent => ?_⟩
    · rw [List.foldlM_cons,updateIndex_above fieldIdx current access struct lower upper]
      exact ok
    · rcases List.mem_cons.mp member with rfl | member
      · rw [kept _ fresh,Function.update_self]
      · rw [moved later member,other later member]
    · rw [List.map_cons,List.mem_cons,not_or] at absent
      rw [kept value absent.2,Function.update_of_ne absent.1]

structure Entry (module : Module) (type : StructType) (accesses : FieldToAccessMap) : Prop where
  nodup : ∀ i, (accesses i).Nodup
  registered : ∀ i access, access ∈ accesses i →
    access ∈ module.instructions ∧ access.opcode.registered = some i
  bound : ∀ i access, access ∈ accesses i → i < 256 ∧ i < module.numFields type

theorem name_injective (module : Module) (access other : Instruction)
    (member : access ∈ module.instructions) (member' : other ∈ module.instructions)
    (same : access.name = other.name) : access = other :=
  List.inj_on_of_nodup_map module.names member member' same

theorem later_names (module : Module) (type : StructType) (accesses : FieldToAccessMap)
    (entry : Entry module type accesses) (first count : Nat) :
    (((List.range' first count).flatMap accesses).map Instruction.name).Nodup := by
  refine List.Nodup.map_on ?_ (List.nodup_flatMap.mpr ⟨fun i _ => entry.nodup i,?_⟩)
  · intro access member other member' same
    obtain ⟨i,_,found⟩ := List.mem_flatMap.mp member
    obtain ⟨j,_,found'⟩ := List.mem_flatMap.mp member'
    exact name_injective module access other (entry.registered i access found).1
      (entry.registered j other found').1 same
  · refine (List.nodup_range').imp fun {i j} apart access member member' => apart ?_
    have first := (entry.registered i access member).2
    have second := (entry.registered j access member').2
    exact Option.some.inj (first.symm.trans second)

theorem count_le_add (live : Nat → Prop) [DecidablePred live] (lower upper : Nat)
    (le : lower ≤ upper) : Nat.count live upper ≤ Nat.count live lower + (upper - lower) := by
  obtain ⟨gap,rfl⟩ := Nat.exists_eq_add_of_le le
  rw [Nat.count_add]
  have := Nat.count_le (p := fun k => live (lower + k)) (n := gap)
  omega

/-- Stage `count` of the loop: fields from `count` on are compressed, the others
are still numbered as in the definition. -/
theorem visitFields_index (module : Module) (type : StructType) (accesses : FieldToAccessMap)
    (entry : Entry module type accesses) (count : Nat) (loop : FieldLoop)
    (below : ∀ i access, access ∈ accesses i → i < count → loop.fieldIndex access.name = i)
    (above : ∀ i access, access ∈ accesses i → count ≤ i →
      loop.fieldIndex access.name + Nat.count (accesses · ≠ []) count =
        count + Nat.count (accesses · ≠ []) i) :
    ∃ final, visitFields (module.numFields type) accesses count loop = .ok final ∧
      (∀ i access, access ∈ accesses i →
        final.fieldIndex access.name = Nat.count (accesses · ≠ []) i) ∧
      ∀ value, (∀ i access, access ∈ accesses i → access.name ≠ value) →
        final.fieldIndex value = loop.fieldIndex value := by
  induction count generalizing loop with
  | zero =>
    refine ⟨loop,rfl,fun i access member => ?_,fun _ _ => rfl⟩
    have := above i access member (Nat.zero_le i)
    rwa [Nat.count_zero,Nat.add_zero,Nat.zero_add] at this
  | succ fieldIdx ih =>
    rw [visitFields]
    by_cases live : accesses fieldIdx ≠ []
    · rw [if_pos live]
      have step : Nat.count (accesses · ≠ []) (fieldIdx + 1) =
          Nat.count (accesses · ≠ []) fieldIdx + 1 := by rw [Nat.count_succ,if_pos live]
      refine ih _ (fun i access member lt => below i access member (by omega))
        fun i access member le => ?_
      by_cases here : i = fieldIdx
      · subst here
        simp only [below i access member (by omega)]
      · have := above i access member (by omega)
        simp only at this ⊢
        omega
    · rw [if_neg live]
      have dead : accesses fieldIdx = [] := not_not.mp live
      have step : Nat.count (accesses · ≠ []) (fieldIdx + 1) =
          Nat.count (accesses · ≠ []) fieldIdx := by rw [Nat.count_succ,if_neg live,Nat.add_zero]
      have value (i : Nat) (access : Instruction) (member : access ∈ accesses i) (lt : fieldIdx < i) :
          fieldIdx < loop.fieldIndex access.name ∧ loop.fieldIndex access.name < 256 := by
        have now := above i access member lt
        have monotone := Nat.count_monotone (accesses · ≠ []) (show fieldIdx + 1 ≤ i from lt)
        have gap := count_le_add (accesses · ≠ []) (fieldIdx + 1) i lt
        have bound := (entry.bound i access member).1
        omega
      have later (i : Nat) (access : Instruction) (member : access ∈ accesses i) (lt : fieldIdx < i) :
          access ∈ (List.range' (fieldIdx + 1)
            (module.numFields type - (fieldIdx + 1))).flatMap accesses := by
        have bound := (entry.bound i access member).2
        refine List.mem_flatMap.mpr ⟨i,List.mem_range'_1.mpr (by omega),member⟩
      obtain ⟨next,ok,moved,kept⟩ := updateAll_above fieldIdx _ loop.fieldIndex
        (later_names module type accesses entry (fieldIdx + 1)
          (module.numFields type - (fieldIdx + 1))) (by
          intro access member
          obtain ⟨i,range,member⟩ := List.mem_flatMap.mp member
          have lt := (List.mem_range'_1.mp range).1
          exact ⟨by simp [(entry.registered i access member).2],value i access member lt⟩)
      obtain ⟨final,done,indices,others⟩ := ih
        {loop with fieldIndex := next, fieldsToRemove := fieldIdx :: loop.fieldsToRemove} (by
          intro i access member lt
          refine (kept _ ?_).trans (below i access member (by omega))
          intro collides
          obtain ⟨other,member',same⟩ := List.mem_map.mp collides
          obtain ⟨j,range,member'⟩ := List.mem_flatMap.mp member'
          have first := entry.registered i access member
          have second := entry.registered j other member'
          rw [name_injective module other access second.1 first.1 same,first.2,Option.some_inj]
            at second
          have := (List.mem_range'_1.mp range).1
          omega) (by
          intro i access member le
          have lt : fieldIdx < i := by
            rcases Nat.lt_or_eq_of_le le with lt | rfl
            · exact lt
            · simp [dead] at member
          have now := above i access member lt
          have bounds := value i access member lt
          simp only [moved access (later i access member lt)]
          omega)
      refine ⟨final,by simp only [ok,bind,Except.bind]; exact done,indices,fun v absent => ?_⟩
      rw [others v absent]
      refine kept v fun collides => ?_
      obtain ⟨other,member,same⟩ := List.mem_map.mp collides
      obtain ⟨j,_,member⟩ := List.mem_flatMap.mp member
      exact absent j other member same

theorem visitFields_live (numFields : Nat) (accesses : FieldToAccessMap) (count : Nat)
    (loop : FieldLoop) (live : ∀ field, field < count → accesses field ≠ []) :
    ∃ final, visitFields numFields accesses count loop = .ok final ∧
      final.fieldIndex = loop.fieldIndex := by
  induction count generalizing loop with
  | zero => exact ⟨loop,rfl,rfl⟩
  | succ fieldIdx ih =>
    rw [visitFields,if_pos (live fieldIdx (by omega))]
    exact ih _ fun field lt => live field (by omega)

/-- Either the loop removes nothing or it visits every field with an access. -/
def Covered (numFields : Nat) (accesses : FieldToAccessMap) : Prop :=
  deadFields numFields accesses = [] ∨
    ∀ i access, access ∈ accesses i → i < visitedFields numFields

theorem transformType_index (module : Module) (type : StructType) (accesses : FieldToAccessMap)
    (entry : Entry module type accesses) (covered : Covered (module.numFields type) accesses)
    (result : Transformed)
    (current : ∀ i access, access ∈ accesses i → result.fieldIndex access.name = i) :
    ∃ next, transformType module result (type,accesses) = .ok next ∧
      (∀ i access, access ∈ accesses i →
        next.fieldIndex access.name = newIndex (module.numFields type) accesses i) ∧
      ∀ value, (∀ i access, access ∈ accesses i → access.name ≠ value) →
        next.fieldIndex value = result.fieldIndex value := by
  have finish (final : FieldLoop)
      (ok : visitFields (module.numFields type) accesses (visitedFields (module.numFields type))
        ⟨result.fieldIndex,[],[]⟩ = .ok final) :
      ∃ next, transformType module result (type,accesses) = .ok next ∧
        next.fieldIndex = final.fieldIndex := by
    simp only [transformType,ok,bind,Except.bind]
    split <;> exact ⟨_,rfl,rfl⟩
  by_cases dead : deadFields (module.numFields type) accesses = []
  · have live (field : Nat) (lt : field < visitedFields (module.numFields type)) :
        accesses field ≠ [] := by
      intro none
      have : field ∈ deadFields (module.numFields type) accesses := by
        simp [deadFields,lt,none]
      simp [dead] at this
    obtain ⟨final,ok,same⟩ := visitFields_live (module.numFields type) accesses _
      ⟨result.fieldIndex,[],[]⟩ live
    obtain ⟨next,done,index⟩ := finish final ok
    refine ⟨next,done,fun i access member => ?_,fun value _ => by rw [index,same]⟩
    rw [index,same,newIndex,if_pos dead]
    exact current i access member
  · have inside := covered.resolve_left dead
    obtain ⟨final,ok,moved,kept⟩ := visitFields_index module type accesses entry
      (visitedFields (module.numFields type)) ⟨result.fieldIndex,[],[]⟩
      (fun i access member _ => current i access member) fun i access member le => by
        have := inside i access member
        omega
    obtain ⟨next,done,index⟩ := finish final ok
    refine ⟨next,done,fun i access member => ?_,fun value absent => ?_⟩
    · rw [index,moved i access member,newIndex,if_neg dead]
    · rw [index,kept value absent]

theorem transformType_fields (module : Module) (type : StructType) (accesses : FieldToAccessMap)
    (result next : Transformed) (ok : transformType module result (type,accesses) = .ok next) :
    next.fields = if deadFields (module.numFields type) accesses = [] then result.fields
      else Function.update result.fields type (liveFieldsOf (module.numFields type) accesses) := by
  obtain ⟨final,visited,ok⟩ := Failure.bind_ok _ _ _ ok
  obtain ⟨after,removed⟩ := visitFields_fields _ _ _ _ _ visited
  have after : final.fieldsAfterRemoval = liveFieldsOf (module.numFields type) accesses :=
    after.trans (List.append_nil _)
  have removed : final.fieldsToRemove = deadFields (module.numFields type) accesses :=
    removed.trans (List.append_nil _)
  rw [removed,after] at ok
  split at ok <;> rename_i dead
  · cases ok
    rw [if_pos dead]
  · cases ok
    rw [if_neg dead]

theorem transformAll_fields (module : Module) (entries : LiveFieldMap)
    (types : (entries.map (·.1)).Nodup) (result final : Transformed)
    (ok : entries.foldlM (transformType module) result = .ok final) :
    (∀ type accesses, (type,accesses) ∈ entries → final.fields type =
      if deadFields (module.numFields type) accesses = [] then result.fields type
      else liveFieldsOf (module.numFields type) accesses) ∧
    ∀ type, type ∉ entries.map (·.1) → final.fields type = result.fields type := by
  induction entries generalizing result with
  | nil => cases ok; simp
  | cons entry entries ih =>
    obtain ⟨type,accesses⟩ := entry
    rw [List.foldlM_cons] at ok
    obtain ⟨next,head,tail⟩ := Failure.bind_ok _ _ _ ok
    obtain ⟨fresh,types⟩ := List.nodup_cons.mp types
    obtain ⟨inside,outside⟩ := ih types next tail
    have fields := transformType_fields module type accesses result next head
    have other (later : StructType) (apart : later ≠ type) :
        next.fields later = result.fields later := by
      rw [fields]
      split
      · rfl
      · exact Function.update_of_ne apart _ _
    refine ⟨fun later map member => ?_,fun later absent => ?_⟩
    · rcases List.mem_cons.mp member with same | member
      · cases same
        rw [outside type fresh,fields]
        split
        · rfl
        · exact Function.update_self ..
      · rw [inside later map member,other later]
        rintro rfl
        exact fresh (List.mem_map.mpr ⟨(later,map),‹(later,map) ∈ entries›,rfl⟩)
    · rw [List.map_cons,List.mem_cons,not_or] at absent
      rw [outside later absent.2,other later absent.1]

theorem transformAll_index (module : Module) (entries : LiveFieldMap)
    (good : ∀ type accesses, (type,accesses) ∈ entries →
      Entry module type accesses ∧ Covered (module.numFields type) accesses)
    (apart : entries.Pairwise fun first second => ∀ i j access other, access ∈ first.2 i →
      other ∈ second.2 j → access.name ≠ other.name)
    (result : Transformed)
    (current : ∀ type accesses, (type,accesses) ∈ entries → ∀ i access, access ∈ accesses i →
      result.fieldIndex access.name = i) :
    ∃ final, entries.foldlM (transformType module) result = .ok final ∧
      (∀ type accesses, (type,accesses) ∈ entries → ∀ i access, access ∈ accesses i →
        final.fieldIndex access.name = newIndex (module.numFields type) accesses i) ∧
      ∀ value, (∀ type accesses, (type,accesses) ∈ entries → ∀ i access, access ∈ accesses i →
        access.name ≠ value) → final.fieldIndex value = result.fieldIndex value := by
  induction entries generalizing result with
  | nil => exact ⟨result,rfl,by simp,fun _ _ => rfl⟩
  | cons entry entries ih =>
    obtain ⟨type,accesses⟩ := entry
    obtain ⟨distinct,apart⟩ := List.pairwise_cons.mp apart
    obtain ⟨entry,covered⟩ := good type accesses (by simp)
    obtain ⟨next,head,moved,kept⟩ := transformType_index module type accesses entry covered result
      (current type accesses (by simp))
    obtain ⟨final,tail,indices,others⟩ := ih
      (fun later map member => good later map (by simp [member])) apart next
      fun later map member i access found => by
        rw [kept _ fun j other found' => distinct _ member j i other access found' found]
        exact current later map (by simp [member]) i access found
    refine ⟨final,?_,fun later map member i access found => ?_,fun value absent => ?_⟩
    · rw [List.foldlM_cons,head]
      exact tail
    · rcases List.mem_cons.mp member with same | member
      · cases same
        rw [others,moved i access found]
        intro later map member j other found' same
        exact distinct _ member i j access other found found' same.symm
      · exact indices later map member i access found
    · rw [others value fun later map member => absent later map (by simp [member])]
      exact kept value (absent type accesses (by simp))

theorem count_eq_length (live : Nat → Prop) [DecidablePred live] (bound : Nat) :
    Nat.count live bound = ((List.range bound).filter (live ·)).length := by
  rw [Nat.count,List.countP_eq_length_filter]

theorem range_split (index bound : Nat) (inside : index < bound) :
    ∃ rest, List.range bound = List.range index ++ index :: rest := by
  refine ⟨List.range' (index + 1) (bound - (index + 1)),?_⟩
  have whole := List.range'_append_1 (s := 0) (m := index) (n := bound - index)
  rw [Nat.zero_add,show index + (bound - index) = bound by omega] at whole
  rw [List.range_eq_range',List.range_eq_range',← whole,← List.range'_succ]
  congr 2
  omega

/-- The definition names at the new index the field named before. -/
theorem liveFieldsOf_newIndex (numFields : Nat) (accesses : FieldToAccessMap) (fieldIndex : Nat)
    (dead : deadFields numFields accesses ≠ []) (live : accesses fieldIndex ≠ [])
    (visited : fieldIndex < visitedFields numFields) :
    (liveFieldsOf numFields accesses)[newIndex numFields accesses fieldIndex]? =
      some fieldIndex := by
  obtain ⟨rest,split⟩ := range_split fieldIndex (visitedFields numFields) visited
  rw [newIndex,if_neg dead,liveFieldsOf,split,List.filter_append,count_eq_length,
    List.getElem?_append_right le_rfl,Nat.sub_self,List.filter_cons_of_pos (by simpa using live)]
  rfl

theorem fieldIndex_eq (module : Module) (access : Instruction) (object : Value) (fieldIndex : Nat)
    (member : access ∈ module.instructions)
    (struct : access.opcode.structAccess = some (object,fieldIndex)) :
    module.fieldIndex access.name = fieldIndex := by
  have found : module.instructions.find? (·.name = access.name) = some access := by
    cases search : module.instructions.find? (·.name = access.name) with
    | none =>
      have := List.find?_eq_none.mp search access member
      simp at this
    | some other =>
      have same := List.find?_some search
      simp only [decide_eq_true_eq] at same
      rw [name_injective module other access (List.mem_of_find?_eq_some search) member same]
  simp [Module.fieldIndex,found,struct]

end Memoir.DeadFieldElimination
