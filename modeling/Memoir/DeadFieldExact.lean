import Memoir.DeadFieldTransform

/-! The modules on which dead-field elimination keeps its promise. Nothing keeps a
type that escapes out of the map, and the map records users, not objects, so the
answer depends on how the struct values of each type are used. -/
namespace Memoir.DeadFieldElimination

structure Exact (module : Module) (liveFields : LiveFieldMap) : Prop where
  accesses : ∀ type, ¬ module.TypeEscapes type → ∀ fieldIndex access,
    (∃ map, (type,map) ∈ liveFields ∧ access ∈ map fieldIndex) ↔
      module.Accesses type fieldIndex access
  escapes : ∀ type map, (type,map) ∈ liveFields → ¬ module.TypeEscapes type

/-- Only fields without accesses go, and accesses keep naming their fields. -/
structure FieldsKept (module : Module) (result : Transformed) : Prop where
  removed : ∀ type field, field < module.numFields type → field ∉ result.fields type →
    ¬ module.TypeEscapes type ∧ ∀ access, ¬ module.Accesses type field access
  named : ∀ type fieldIndex access, module.Accesses type fieldIndex access →
    (result.fields type)[result.fieldIndex access.name]? = some fieldIndex

/-- The struct values of each type all escape or none does, and those that do not
are used by accesses only as the objects' types say. -/
structure PlainUses (module : Module) : Prop where
  uniform : ∀ type value, module.LocalValue type value → ¬ module.TypeEscapes type
  users : ∀ type value, module.LocalValue type value → ∀ user ∈ module.users value,
    user.opcode.isAccessInst = true → ∃ object fieldIndex,
      user.opcode.structAccess = some (object,fieldIndex) ∧ module.typeAnalysis object = some type
  found : ∀ type fieldIndex access, module.Accesses type fieldIndex access →
    ¬ module.TypeEscapes type → access.opcode.isAccessInst = true ∧
      ∃ value, module.LocalValue type value ∧ access ∈ module.users value
  visited : ∀ type value, module.LocalValue type value →
    (∃ field, field < visitedFields (module.numFields type) ∧
      ∀ access, ¬ module.Accesses type field access) →
    ∀ fieldIndex access, module.Accesses type fieldIndex access →
      fieldIndex < visitedFields (module.numFields type)

def KeepsAccesses (module : Module) : Prop :=
  ∃ liveFields, analyze module = .ok liveFields ∧ Exact module liveFields ∧
    ∃ result, transform module liveFields = .ok result ∧ FieldsKept module result

theorem entry_of_analyze (module : Module) (liveFields : LiveFieldMap)
    (ok : analyze module = .ok liveFields) (exact_ : Exact module liveFields)
    (type : StructType) (accesses : FieldToAccessMap) (member : (type,accesses) ∈ liveFields) :
    Entry module type accesses := by
  obtain ⟨_,entries⟩ := analyze_ok module liveFields ok
  obtain ⟨_,nodup,_,mem⟩ := entries type accesses member
  refine ⟨nodup,fun i access found => ?_,fun i access found => ?_⟩
  · obtain ⟨registered,value,_,use⟩ := (mem i access).mp found
    exact ⟨List.mem_of_mem_filter use,registered⟩
  · obtain ⟨inst,object,struct,typed⟩ :=
      (exact_.accesses type (exact_.escapes type accesses member) i access).mp ⟨accesses,member,found⟩
    obtain ⟨small,bound⟩ := module.fields access inst object i struct
    exact ⟨small,bound type typed⟩

theorem entry_of_type (liveFields : LiveFieldMap) (type : StructType)
    (member : type ∈ liveFields.map (·.1)) : ∃ accesses, (type,accesses) ∈ liveFields := by
  obtain ⟨⟨_,accesses⟩,entry,rfl⟩ := List.mem_map.mp member
  exact ⟨accesses,entry⟩

theorem local_entry (module : Module) (liveFields : LiveFieldMap)
    (ok : analyze module = .ok liveFields) (type : StructType) (value : Value)
    (local_ : module.LocalValue type value) : ∃ accesses, (type,accesses) ∈ liveFields := by
  obtain ⟨types,_⟩ := analyze_ok module liveFields ok
  refine entry_of_type liveFields type ?_
  rw [types]
  exact (localTypes_iff module type).mpr ⟨value,local_⟩

theorem types_nodup (module : Module) (liveFields : LiveFieldMap)
    (ok : analyze module = .ok liveFields) : (liveFields.map (·.1)).Nodup := by
  rw [(analyze_ok module liveFields ok).1]
  exact List.nodup_dedup _

theorem mem_deadFields (numFields : Nat) (accesses : FieldToAccessMap) (field : Nat) :
    field ∈ deadFields numFields accesses ↔
      field < visitedFields numFields ∧ accesses field = [] := by
  simp [deadFields]

theorem mem_liveFieldsOf (numFields : Nat) (accesses : FieldToAccessMap) (field : Nat) :
    field ∈ liveFieldsOf numFields accesses ↔
      field < visitedFields numFields ∧ accesses field ≠ [] := by
  simp [liveFieldsOf]

/-- A field without an access in the module has no entry in an exact map. -/
theorem empty_iff (module : Module) (liveFields : LiveFieldMap)
    (ok : analyze module = .ok liveFields) (exact_ : Exact module liveFields)
    (type : StructType) (accesses : FieldToAccessMap) (member : (type,accesses) ∈ liveFields)
    (field : Nat) : accesses field = [] ↔ ∀ access, ¬ module.Accesses type field access := by
  have stays := exact_.escapes type accesses member
  rw [List.eq_nil_iff_forall_not_mem]
  refine forall_congr' fun access => not_congr ?_
  rw [← exact_.accesses type stays field access]
  constructor
  · exact fun found => ⟨accesses,member,found⟩
  · rintro ⟨map,member',found⟩
    have same := List.inj_on_of_nodup_map (types_nodup module liveFields ok) member member' rfl
    cases same
    exact found

theorem plainUses_of_keeps (module : Module) (keeps : KeepsAccesses module) : PlainUses module := by
  obtain ⟨liveFields,ok,exact_,result,done,kept⟩ := keeps
  obtain ⟨types,entries⟩ := analyze_ok module liveFields ok
  refine ⟨fun type value local_ => ?_,fun type value local_ user use isAccess => ?_,
    fun type fieldIndex access accessed stays => ?_,
    fun type value local_ ⟨field,visited,dead⟩ fieldIndex access accessed => ?_⟩
  · obtain ⟨accesses,member⟩ := local_entry module liveFields ok type value local_
    exact exact_.escapes type accesses member
  · obtain ⟨accesses,member⟩ := local_entry module liveFields ok type value local_
    obtain ⟨_,_,registered,mem⟩ := entries type accesses member
    obtain ⟨fieldIndex,index⟩ :=
      Option.isSome_iff_exists.mp (registered value local_ user use isAccess)
    have found := (mem fieldIndex user).mpr ⟨index,value,local_,use⟩
    obtain ⟨_,object,struct,typed⟩ := (exact_.accesses type
      (exact_.escapes type accesses member) fieldIndex user).mp ⟨accesses,member,found⟩
    exact ⟨object,fieldIndex,struct,typed⟩
  · obtain ⟨accesses,member,found⟩ := (exact_.accesses type stays fieldIndex access).mpr accessed
    obtain ⟨_,_,_,mem⟩ := entries type accesses member
    obtain ⟨registered,value,local_,use⟩ := (mem fieldIndex access).mp found
    exact ⟨registered_isAccessInst _ _ registered,value,local_,use⟩
  · obtain ⟨accesses,member⟩ := local_entry module liveFields ok type value local_
    obtain ⟨inside,_⟩ := transformAll_fields module liveFields (types_nodup module liveFields ok)
      (original module) result done
    have removed : deadFields (module.numFields type) accesses ≠ [] := by
      refine List.ne_nil_of_mem ((mem_deadFields _ _ field).mpr ⟨visited,?_⟩)
      exact (empty_iff module liveFields ok exact_ type accesses member field).mpr dead
    have named := kept.named type fieldIndex access accessed
    rw [inside type accesses member,if_neg removed] at named
    exact ((mem_liveFieldsOf _ _ fieldIndex).mp (List.mem_of_getElem? named)).1

theorem exact_of_plainUses (module : Module) (plain : PlainUses module)
    (liveFields : LiveFieldMap) (ok : analyze module = .ok liveFields) : Exact module liveFields := by
  obtain ⟨types,entries⟩ := analyze_ok module liveFields ok
  refine ⟨fun type stays fieldIndex access => ⟨?_,fun accessed => ?_⟩,fun type map member => ?_⟩
  · rintro ⟨map,member,found⟩
    obtain ⟨_,_,_,mem⟩ := entries type map member
    obtain ⟨registered,value,local_,use⟩ := (mem fieldIndex access).mp found
    obtain ⟨object,index,struct,typed⟩ := plain.users type value local_ access use
      (registered_isAccessInst _ _ registered)
    obtain ⟨object',struct'⟩ := registered_structAccess _ _ registered
    obtain ⟨rfl,rfl⟩ := Prod.mk.inj (Option.some.inj (struct'.symm.trans struct))
    exact ⟨List.mem_of_mem_filter use,object',struct,typed⟩
  · obtain ⟨isAccess,value,local_,use⟩ := plain.found type fieldIndex access accessed stays
    obtain ⟨map,member⟩ := local_entry module liveFields ok type value local_
    obtain ⟨_,_,_,mem⟩ := entries type map member
    obtain ⟨_,object,struct,_⟩ := accessed
    exact ⟨map,member,(mem fieldIndex access).mpr
      ⟨structAccess_registered _ _ _ isAccess struct,value,local_,use⟩⟩
  · obtain ⟨⟨value,local_⟩,_⟩ := entries type map member
    exact plain.uniform type value local_

/-- The transformation of an exact map, entry by entry. -/
theorem transform_of_plainUses (module : Module) (plain : PlainUses module)
    (liveFields : LiveFieldMap) (ok : analyze module = .ok liveFields)
    (exact_ : Exact module liveFields) : ∃ result, transform module liveFields = .ok result ∧
      (∀ type accesses, (type,accesses) ∈ liveFields → ∀ i access, access ∈ accesses i →
        result.fieldIndex access.name = newIndex (module.numFields type) accesses i) ∧
      ∀ value, (∀ type accesses, (type,accesses) ∈ liveFields → ∀ i access, access ∈ accesses i →
        access.name ≠ value) → result.fieldIndex value = module.fieldIndex value := by
  obtain ⟨types,entries⟩ := analyze_ok module liveFields ok
  have accessed (type : StructType) (map : FieldToAccessMap) (member : (type,map) ∈ liveFields)
      (i : Nat) (access : Instruction) (found : access ∈ map i) : module.Accesses type i access :=
    (exact_.accesses type (exact_.escapes type map member) i access).mp ⟨map,member,found⟩
  refine transformAll_index module liveFields (fun type map member => ⟨?_,?_⟩) ?_
    (original module) fun type map member i access found => ?_
  · exact entry_of_analyze module liveFields ok exact_ type map member
  · by_cases dead : deadFields (module.numFields type) map = []
    · exact .inl dead
    · obtain ⟨field,removed⟩ := List.exists_mem_of_ne_nil _ dead
      obtain ⟨visited,empty⟩ := (mem_deadFields _ _ field).mp removed
      have none := (empty_iff module liveFields ok exact_ type map member field).mp empty
      obtain ⟨⟨value,local_⟩,_⟩ := entries type map member
      exact .inr fun i access found => plain.visited type value local_ ⟨field,visited,none⟩ i access
        (accessed type map member i access found)
  · refine (List.pairwise_map.mp (types_nodup module liveFields ok)).imp_of_mem ?_
    intro first second member member' apart i j access other found found' same
    obtain ⟨inst,object,struct,typed⟩ := accessed first.1 first.2 member i access found
    obtain ⟨inst',object',struct',typed'⟩ := accessed second.1 second.2 member' j other found'
    obtain rfl := name_injective module access other inst inst' same
    obtain ⟨rfl,rfl⟩ := Prod.mk.inj (Option.some.inj (struct.symm.trans struct'))
    exact apart (Option.some.inj (typed.symm.trans typed'))
  · obtain ⟨inst,object,struct,_⟩ := accessed type map member i access found
    exact fieldIndex_eq module access object i inst struct

theorem fieldsKept_of_plainUses (module : Module) (plain : PlainUses module)
    (liveFields : LiveFieldMap) (ok : analyze module = .ok liveFields)
    (exact_ : Exact module liveFields) :
    ∃ result, transform module liveFields = .ok result ∧ FieldsKept module result := by
  obtain ⟨result,done,moved,others⟩ := transform_of_plainUses module plain liveFields ok exact_
  obtain ⟨inside,outside⟩ := transformAll_fields module liveFields (types_nodup module liveFields ok)
    (original module) result done
  refine ⟨result,done,⟨fun type field bound removed => ?_,fun type i access accessed => ?_⟩⟩
  · by_cases entry : type ∈ liveFields.map (·.1)
    · obtain ⟨map,member⟩ := entry_of_type liveFields type entry
      have stays := exact_.escapes _ map member
      refine ⟨stays,?_⟩
      rw [inside _ map member] at removed
      split at removed
      · exact absurd (List.mem_range.mpr bound) removed
      · rename_i dead
        rw [mem_liveFieldsOf,not_and_or,not_not] at removed
        rcases removed with unvisited | empty
        · obtain ⟨first,first_dead⟩ := List.exists_mem_of_ne_nil _ dead
          obtain ⟨visited,empty⟩ := (mem_deadFields _ _ first).mp first_dead
          obtain ⟨⟨value,local_⟩,_⟩ := (analyze_ok module liveFields ok).2 _ map member
          exact fun access accessed => unvisited (plain.visited _ value local_ ⟨first,visited,
            (empty_iff module liveFields ok exact_ _ map member first).mp empty⟩ field access accessed)
        · exact (empty_iff module liveFields ok exact_ _ map member field).mp empty
    · rw [outside type entry] at removed
      exact absurd (List.mem_range.mpr bound) removed
  · obtain ⟨inst,object,struct,typed⟩ := accessed
    have bound := (module.fields access inst object i struct).2 type typed
    by_cases entry : type ∈ liveFields.map (·.1)
    · obtain ⟨map,member⟩ := entry_of_type liveFields type entry
      obtain ⟨map',member',found⟩ := (exact_.accesses _ (exact_.escapes _ map member) i access).mpr
        ⟨inst,object,struct,typed⟩
      cases List.inj_on_of_nodup_map (types_nodup module liveFields ok) member member' rfl
      rw [inside _ map member,moved _ map member i access found]
      by_cases dead : deadFields (module.numFields type) map = []
      · rw [if_pos dead,newIndex,if_pos dead]
        exact List.getElem?_range bound
      · rw [if_neg dead]
        obtain ⟨first,first_dead⟩ := List.exists_mem_of_ne_nil _ dead
        obtain ⟨visited,empty⟩ := (mem_deadFields _ _ first).mp first_dead
        obtain ⟨⟨value,local_⟩,_⟩ := (analyze_ok module liveFields ok).2 type map member
        exact liveFieldsOf_newIndex _ map i dead (List.ne_nil_of_mem found)
          (plain.visited type value local_ ⟨first,visited,
            (empty_iff module liveFields ok exact_ type map member first).mp empty⟩ i access
            ⟨inst,object,struct,typed⟩)
    · rw [outside type entry,others]
      · rw [fieldIndex_eq module access object i inst struct]
        exact List.getElem?_range bound
      · intro type' map member j other found same
        obtain ⟨inst',object',struct',typed'⟩ :=
          (exact_.accesses type' (exact_.escapes type' map member) j other).mp ⟨map,member,found⟩
        obtain rfl := name_injective module other access inst' inst same
        obtain ⟨rfl,rfl⟩ := Prod.mk.inj (Option.some.inj (struct'.symm.trans struct))
        obtain rfl := Option.some.inj (typed'.symm.trans typed)
        exact entry (List.mem_map.mpr ⟨_,member,rfl⟩)

/-- Dead-field elimination is exact and keeps accesses on their fields if and only
if no type has both values that escape and values that do not, and the accesses
that use a value which does not escape are the accesses of objects of its type. -/
theorem keepsAccesses_iff (module : Module) : KeepsAccesses module ↔ PlainUses module := by
  refine ⟨plainUses_of_keeps module,fun plain => ?_⟩
  obtain ⟨liveFields,ok⟩ := analyze_total module fun type value local_ user use isAccess => by
    obtain ⟨object,fieldIndex,struct,_⟩ := plain.users type value local_ user use isAccess
    exact ⟨object,fieldIndex,struct⟩
  have exact_ := exact_of_plainUses module plain liveFields ok
  obtain ⟨result,done,kept⟩ := fieldsKept_of_plainUses module plain liveFields ok exact_
  exact ⟨liveFields,ok,exact_,result,done,kept⟩

/-- A reference to a `Foo` (type 0) is stored in the last field of a `Node` (type 1)
and the `Foo` is read. -/
def storedReference : Module where
  functions := [⟨[],[⟨0,.memoir []⟩,⟨1,.memoir []⟩,⟨2,.structWrite 0 1 2⟩,⟨3,.structRead 0 0⟩]⟩]
  valueIsStructType := fun value => value < 2
  typeAnalysis := fun value => if value < 2 then some value else none
  numFields := fun _ => 3
  names := by decide
  typed := by decide
  fields := by
    intro inst member object fieldIndex access
    simp only [List.flatMap_cons,List.flatMap_nil,List.append_nil,List.mem_cons,List.not_mem_nil,
      or_false] at member
    rcases member with rfl | rfl | rfl | rfl <;> cases access <;> exact ⟨by decide,fun _ _ => by decide⟩

/-- The stored reference counts as an access of `Foo`, whose removed field then
moves the write to the `Node`. -/
theorem storedReference_corrupted :
    ((analyze storedReference).bind (transform storedReference)).toOption.map
        (·.fieldIndex 2) = some 4294967295 ∧ ¬ KeepsAccesses storedReference := by
  refine ⟨by decide +kernel,fun keeps => ?_⟩
  obtain ⟨object,fieldIndex,struct,typed⟩ := (plainUses_of_keeps storedReference keeps).users 0 0
    ⟨⟨by decide,rfl,rfl⟩,by decide⟩ ⟨2,.structWrite 0 1 2⟩ (by decide) rfl
  cases struct
  cases typed

end Memoir.DeadFieldElimination
