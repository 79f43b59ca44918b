import Memoir.DeadFieldTransform

/-! The renumbering of dead-field elimination, for any live-field map: the rebuilt definitions and the
indices of the accesses. -/
namespace Memoir.DeadFieldElimination

structure DefinitionCall where
  numFields : Nat
  fields : List Nat
  deriving DecidableEq

def rebuild (numFields : Nat) (loop : FieldLoop) : DefinitionCall :=
  if loop.fieldsToRemove = [] then ⟨numFields,List.range numFields⟩
  else ⟨numFields - loop.fieldsToRemove.length,loop.fieldsAfterRemoval⟩

def transformDefinition (module : Module) (current : Value → Nat) (entry : StructType × FieldToAccessMap) :
    Except Failure DefinitionCall := do
  let numFields := module.numFields entry.1
  let loop ← visitFields numFields entry.2 (visitedFields numFields) ⟨current,[],[]⟩
  return rebuild numFields loop

/-- The map lists accesses once, under the field indices that they have. -/
structure Lists (module : Module) (liveFields : LiveFieldMap) : Prop where
  types : (liveFields.map (·.1)).Nodup
  entries : ∀ type accesses, (type,accesses) ∈ liveFields → Entry module type accesses
  apart : liveFields.Pairwise fun first second => ∀ i j access other, access ∈ first.2 i →
    other ∈ second.2 j → access.name ≠ other.name

def live (numFields : Nat) (accesses : FieldToAccessMap) : List Nat :=
  (List.range numFields).filter (accesses · ≠ [])

def dead (bound : Nat) (accesses : FieldToAccessMap) : List Nat :=
  (List.range bound).filter (accesses · = [])

theorem visitedFields_eq {numFields : Nat} (small : numFields ≤ 32767) : visitedFields numFields = numFields := by
  unfold visitedFields
  simp only [BitVec.toInt_eq_toNat_cond,BitVec.toNat_setWidth,BitVec.toNat_sub,BitVec.toNat_ofNat,
    show BitVec.toNat (1 : BitVec 32) = 1 from rfl]
  split <;> omega

theorem live_length_add_dead (bound : Nat) (accesses : FieldToAccessMap) :
    (live bound accesses).length + (dead bound accesses).length = bound := by
  have split := List.length_eq_length_filter_add (l := List.range bound) (accesses · ≠ [])
  rw [List.length_range] at split
  simp only [ne_eq,decide_not,Bool.not_not] at split
  rw [live,dead]
  simp only [ne_eq,decide_not]
  omega

section
variable {module : Module} {type : StructType} {accesses : FieldToAccessMap} {i : Nat}

theorem deadFields_eq (small : module.numFields type ≤ 32767) :
    deadFields (module.numFields type) accesses = dead (module.numFields type) accesses := by
  rw [deadFields,visitedFields_eq small,dead]

theorem live_of_dead_nil {bound : Nat} (none : dead bound accesses = []) :
    live bound accesses = List.range bound := by
  rw [live,List.filter_eq_self]
  intro field inside
  have alive := List.filter_eq_nil_iff.mp none field inside
  simpa using alive

theorem newIndex_eq (small : module.numFields type ≤ 32767) (inside : i < module.numFields type) :
    newIndex (module.numFields type) accesses i = (live i accesses).length := by
  rw [newIndex,deadFields_eq small]
  split_ifs with none
  · have empty : dead i accesses = [] := by
      rw [dead,List.filter_eq_nil_iff] at none ⊢
      exact fun field member => none field (List.mem_range.mpr (by have := List.mem_range.mp member; omega))
    rw [live_of_dead_nil empty,List.length_range]
  · rw [count_eq_length,live]

theorem live_getElem? (inside : i < module.numFields type) (isLive : accesses i ≠ []) :
    (live (module.numFields type) accesses)[(live i accesses).length]? = some i := by
  obtain ⟨rest,split⟩ := range_split i (module.numFields type) inside
  rw [live,split,List.filter_append,live,List.getElem?_append_right le_rfl,Nat.sub_self,
    List.filter_cons_of_pos (by simpa using isLive)]
  rfl

theorem transformDefinition_eq (entry : Entry module type accesses) (small : module.numFields type ≤ 32767)
    (current : Value → Nat) (isCurrent : ∀ i access, access ∈ accesses i → current access.name = i) :
    transformDefinition module current (type,accesses) =
      .ok ⟨(live (module.numFields type) accesses).length,live (module.numFields type) accesses⟩ := by
  obtain ⟨loop,isLoop,_⟩ := visitFields_index module type accesses entry (visitedFields (module.numFields type))
    ⟨current,[],[]⟩ (fun i access member _ => isCurrent i access member) fun i access member above => by
      have bound := (entry.bound i access member).2
      rw [visitedFields_eq small] at above
      omega
  obtain ⟨isFields,isRemoved⟩ := visitFields_fields _ _ _ _ _ isLoop
  rw [List.append_nil,visitedFields_eq small] at isFields isRemoved
  simp only [transformDefinition,isLoop,bind,Except.bind,pure,Except.pure]
  have count := live_length_add_dead (module.numFields type) accesses
  rw [rebuild,isFields,isRemoved]
  split_ifs with none
  · rw [live_of_dead_nil none,List.length_range]
  · congr 2
    rw [dead] at count
    omega

end

structure Renumbered (module : Module) (final : Transformed) (type : StructType) (accesses : FieldToAccessMap) :
    Prop where
  definition : ∀ current, (∀ i access, access ∈ accesses i → current access.name = i) →
    transformDefinition module current (type,accesses) =
      .ok ⟨(live (module.numFields type) accesses).length,live (module.numFields type) accesses⟩
  fields : final.fields type = live (module.numFields type) accesses
  index : ∀ i access, access ∈ accesses i → final.fieldIndex access.name = i - (dead i accesses).length ∧
    (live (module.numFields type) accesses)[final.fieldIndex access.name]? = some i

/-- Every definition lists its live fields, and an access keeps its field. -/
theorem transform_renumbers (module : Module) (liveFields : LiveFieldMap) (lists : Lists module liveFields)
    (small : ∀ type accesses, (type,accesses) ∈ liveFields → module.numFields type ≤ 32767) :
    ∃ final, transform module liveFields = .ok final ∧
      ∀ type accesses, (type,accesses) ∈ liveFields → Renumbered module final type accesses := by
  have current (type : StructType) (accesses : FieldToAccessMap) (member : (type,accesses) ∈ liveFields)
      (i : Nat) (access : Instruction) (found : access ∈ accesses i) : module.fieldIndex access.name = i := by
    obtain ⟨inst,registered⟩ := (lists.entries type accesses member).registered i access found
    obtain ⟨object,struct⟩ := registered_structAccess _ _ registered
    exact fieldIndex_eq module access object i inst struct
  obtain ⟨final,done,moved,_⟩ := transformAll_index module liveFields (fun type accesses member => by
    refine ⟨lists.entries type accesses member,.inr fun i access found => ?_⟩
    rw [visitedFields_eq (small type accesses member)]
    exact ((lists.entries type accesses member).bound i access found).2) lists.apart (original module) current
  refine ⟨final,done,fun type accesses member => ?_⟩
  have isSmall := small type accesses member
  have entry := lists.entries type accesses member
  constructor
  · exact transformDefinition_eq entry isSmall
  · rw [(transformAll_fields module liveFields lists.types _ final done).1 type accesses member,deadFields_eq isSmall]
    split_ifs with none
    · rw [live_of_dead_nil none]
      rfl
    · rw [liveFieldsOf,visitedFields_eq isSmall,live]
  · intro i access found
    have inside := (entry.bound i access found).2
    have count := live_length_add_dead i accesses
    rw [moved type accesses member i access found,newIndex_eq isSmall inside]
    exact ⟨by omega,live_getElem? inside (List.ne_nil_of_mem found)⟩

/-- A struct of three fields whose last field is read. -/
def lastRead : Module where
  functions := [⟨[],[⟨0,.memoir []⟩,⟨1,.structRead 0 2⟩]⟩]
  valueIsStructType := fun value => value = 0
  typeAnalysis := fun value => if value = 0 then some 0 else none
  numFields := fun _ => 3
  names := by decide
  typed := by decide
  fields := by
    intro inst member object fieldIndex access
    simp only [List.flatMap_cons,List.flatMap_nil,List.append_nil,List.mem_cons,List.not_mem_nil,
      or_false] at member
    rcases member with rfl | rfl <;> cases access
    exact ⟨by decide,fun _ _ => by decide⟩

def lastReadFields : FieldToAccessMap := fun i => if i = 2 then [⟨1,.structRead 0 2⟩] else []

theorem lastRead_renumbered : ∃ final, transform lastRead [(0,lastReadFields)] = .ok final ∧
    final.fields 0 = [2] ∧ final.fieldIndex 1 = 0 := by
  have entry : Entry lastRead 0 lastReadFields := by
    refine ⟨fun i => ?_,fun i access member => ?_,fun i access member => ?_⟩
    · unfold lastReadFields
      split_ifs <;> simp
    · unfold lastReadFields at member
      split_ifs at member with isTwo
      · obtain rfl := List.mem_singleton.mp member
        exact ⟨by decide,by rw [isTwo]; rfl⟩
      · exact absurd member (by simp)
    · unfold lastReadFields at member
      split_ifs at member with isTwo
      · subst isTwo
        exact ⟨by decide,by decide⟩
      · exact absurd member (by simp)
  have isEntry (type : StructType) (accesses : FieldToAccessMap) (member : (type,accesses) ∈ [(0,lastReadFields)]) :
      type = 0 ∧ accesses = lastReadFields := by simpa using member
  obtain ⟨final,done,renumbered⟩ := transform_renumbers lastRead [(0,lastReadFields)]
    ⟨by simp,fun type accesses member => by obtain ⟨rfl,rfl⟩ := isEntry type accesses member; exact entry,by simp⟩
    fun type accesses member => by simp [lastRead]
  obtain ⟨_,fields,index⟩ := renumbered 0 lastReadFields (by simp)
  refine ⟨final,done,fields.trans (by decide),?_⟩
  exact (index 2 ⟨1,.structRead 0 2⟩ (by decide)).1.trans (by decide)

end Memoir.DeadFieldElimination
